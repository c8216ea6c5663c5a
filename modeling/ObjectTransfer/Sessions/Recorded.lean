import ObjectTransfer.Sessions.Moves
import ObjectTransfer.Sessions.Session

/-! # What a session does to its negotiation and to its adapter

An adapter that records what it delivers and what it is handed. Over it, every method of a session
makes some calls of the negotiation, and the frames it hands over are the frames those calls emitted,
each once and in order.
-/

namespace ObjectTransfer.Sessions
open Foundations Codec List TransportAdapter

/-- What an adapter is handed. -/
inductive Outgoing where
  | control (frame : Bytes)
  | reliable (stream : ℕ) (record : Bytes)
  | datagram (context : ℕ) (payload : Bytes)
  deriving DecidableEq

inductive Record where
  | polled (event : Event)
  | handed (frame : Outgoing) (taken : Bool)

/-- An adapter with what went through it, in order. -/
structure Recorded (α : Type) where
  inner : α
  log : List Record

namespace Recorded

variable {α : Type}

/-- A submission, recorded with whether the backend took it. -/
def submit (frame : Outgoing) (send : α → Except Transport.Error Unit × α) (r : Recorded α) :
    Except Transport.Error Unit × Recorded α :=
  ((send r.inner).1, ⟨(send r.inner).2, r.log ++ [.handed frame (send r.inner).1.isOk]⟩)

def pass {β : Type} (operation : α → β × α) (r : Recorded α) : β × Recorded α :=
  ((operation r.inner).1, ⟨(operation r.inner).2, r.log⟩)

def poll [TransportAdapter α] (r : Recorded α) : Option Event × Recorded α :=
  let (event, inner) := TransportAdapter.poll r.inner
  (event, ⟨inner, r.log ++ (event.map .polled).toList⟩)

instance [TransportAdapter α] : TransportAdapter (Recorded α) where
  channelBinding r := TransportAdapter.channelBinding r.inner
  sendControl frame := submit (.control frame) (TransportAdapter.sendControl frame)
  sendControlShared frame := submit (.control frame) (sendControlShared frame)
  sendReliable stream record :=
    submit (.reliable stream record) (sendReliable stream record)
  sendReliableShared stream record :=
    submit (.reliable stream record) (sendReliableShared stream record)
  sendDatagram context payload :=
    submit (.datagram context payload) (sendDatagram context payload)
  flush := pass flush
  poll := poll
  close code := pass (close code)
  receiveLimits r := receiveLimits r.inner
  setControlPayloadLimit limit := pass (setControlPayloadLimit limit)

end Recorded

/-! ## Reading the records -/

def Record.delivered : Record → Option Bytes
  | .polled (.control frame) => some frame
  | _ => none

def Record.submitted : Record → Option Outgoing
  | .handed frame _ => some frame
  | .polled _ => none

def Record.taken : Record → Option Bytes
  | .handed (.control frame) true => some frame
  | _ => none

def Call.frame : Call → Option Bytes
  | .acceptControl frame => some frame
  | _ => none

def emitted (n : Negotiation) : List Call → List Bytes
  | [] => []
  | c :: calls => replyOf (n.call c).1 ++ emitted (n.call c).2 calls

def Negotiation.after (n : Negotiation) (calls : List Call) : Negotiation :=
  run (fun n c => (n.call c).2) n calls

theorem emitted_append (n : Negotiation) (first second : List Call) :
    emitted n (first ++ second) = emitted n first ++ emitted (n.after first) second := by
  induction first generalizing n with
  | nil => rfl
  | cons c first ih =>
    rw [cons_append, emitted, ih, emitted, append_assoc]
    rfl

theorem emitted_exchange (n : Negotiation) (calls : List Call) :
    ∀ bytes ∈ emitted n calls, ExchangeFrame bytes := by
  induction calls generalizing n with
  | nil => simp [emitted]
  | cons c calls ih => exact forall_mem_append.mpr ⟨n.reply_exchange c, ih _⟩

/-! ## Advancing -/

variable {offered : List Bytes}

section Advance

variable {α : Type} {s s' s'' : Session (Recorded α)}

/-- The session made these calls and its adapter recorded this. -/
structure Advance (calls : List Call) (records : List Record) (s s' : Session (Recorded α)) :
    Prop where
  negotiation : s'.negotiation = s.negotiation.after calls
  log : s'.adapter.log = s.adapter.log ++ records
  /-- What was queued or emitted was taken, in order, or is still queued. -/
  queue : s.outbound ++ emitted s.negotiation calls = records.filterMap Record.taken ++ s'.outbound
  handed : ∀ frame ∈ records.filterMap Record.submitted,
    ∃ bytes ∈ s.outbound ++ emitted s.negotiation calls, frame = .control bytes

theorem Advance.refl (s : Session (Recorded α)) : Advance [] [] s s :=
  ⟨rfl, by simp, by simp [emitted], by simp⟩

theorem Advance.trans {calls calls' : List Call} {records records' : List Record}
    (h : Advance calls records s s') (h' : Advance calls' records' s' s'') :
    Advance (calls ++ calls') (records ++ records') s s'' := by
  have hemitted : emitted s.negotiation (calls ++ calls') =
      emitted s.negotiation calls ++ emitted s'.negotiation calls' := by
    rw [emitted_append, h.negotiation]
  refine ⟨?_, ?_, ?_, ?_⟩
  · rw [h'.negotiation, h.negotiation, Negotiation.after, Negotiation.after, ← run_append]
    rfl
  · rw [h'.log, h.log, append_assoc]
  · rw [hemitted, ← append_assoc, h.queue, append_assoc, h'.queue, filterMap_append, append_assoc]
  · intro frame hframe
    rw [hemitted, ← append_assoc]
    rw [filterMap_append, mem_append] at hframe
    obtain hframe | hframe := hframe
    · obtain ⟨bytes, hbytes, hcontrol⟩ := h.handed frame hframe
      exact ⟨bytes, mem_append_left _ hbytes, hcontrol⟩
    · obtain ⟨bytes, hbytes, hcontrol⟩ := h'.handed frame hframe
      refine ⟨bytes, ?_, hcontrol⟩
      rw [mem_append] at hbytes ⊢
      obtain hbytes | hbytes := hbytes
      · rw [h.queue]
        exact .inl (mem_append_right _ hbytes)
      · exact .inr hbytes

/-- No call of the negotiation. -/
def Quiet (s s' : Session (Recorded α)) : Prop := ∃ records, Advance [] records s s'

instance : Std.Refl (Quiet (α := α)) := ⟨fun s => ⟨[], .refl s⟩⟩

instance : IsTrans (Session (Recorded α)) Quiet where
  trans _ _ _ := fun ⟨_, h⟩ ⟨_, h'⟩ => ⟨_, h.trans h'⟩

/-- A change of fields the exchange does not look at. -/
theorem Quiet.of_eq (hnegotiation : s'.negotiation = s.negotiation)
    (hlog : s'.adapter.log = s.adapter.log) (houtbound : s'.outbound = s.outbound) : Quiet s s' :=
  ⟨[], hnegotiation, by rw [hlog, append_nil], by simp [emitted, houtbound], by simp⟩

/-- The calls a poll makes. -/
def Call.IsInbound (c : Call) : Prop :=
  (∃ frame, c = .acceptControl frame) ∨ c = .abandon ∨ c = .carrierClosed

/-- The calls of a poll, reading frames that were offered or delivered meanwhile. -/
def Inbound (offered : List Bytes) (s s' : Session (Recorded α)) : Prop :=
  ∃ calls records, (∀ c ∈ calls, c.IsInbound) ∧
    (calls.filterMap Call.frame).Sublist (offered ++ records.filterMap Record.delivered) ∧
    Advance calls records s s'

theorem Quiet.inbound (h : Quiet s s') (offered : List Bytes) : Inbound offered s s' := by
  obtain ⟨records, h⟩ := h
  exact ⟨[], records, by simp, nil_sublist _, h⟩

theorem Quiet.trans_inbound (h : Quiet s s') (h' : Inbound offered s' s'') :
    Inbound offered s s'' := by
  obtain ⟨records, h⟩ := h
  obtain ⟨calls, records', hcalls, hframes, h'⟩ := h'
  refine ⟨_, _, hcalls, hframes.trans ?_, h.trans h'⟩
  rw [filterMap_append]
  exact (sublist_append_right _ _).append_left _

theorem Inbound.trans (h : Inbound offered s s') (h' : Inbound [] s' s'') :
    Inbound offered s s'' := by
  obtain ⟨calls, records, hcalls, hframes, h⟩ := h
  obtain ⟨calls', records', hcalls', hframes', h'⟩ := h'
  refine ⟨_, _, ?_, ?_, h.trans h'⟩
  · intro c hc
    exact (mem_append.mp hc).elim (hcalls c) (hcalls' c)
  · rw [filterMap_append, filterMap_append, ← append_assoc]
    exact hframes.append (by simpa using hframes')

instance : Std.Refl (Inbound (α := α) []) := ⟨fun s => (refl_of Quiet s : Quiet s s).inbound []⟩

instance : IsTrans (Session (Recorded α)) (Inbound []) where
  trans _ _ _ := Inbound.trans

end Advance

/-! ## Methods that leave the adapter alone -/

namespace Session

open Stateful (Within)

variable {α β : Type} {s : Session (Recorded α)} {m : Method (Recorded α) β}

theorem pass_quiet (operation : α → β × α) :
    Within Quiet (backend (Recorded.pass operation) : Method (Recorded α) β) :=
  fun _ => .of_eq rfl rfl rfl

theorem clearBinding_quiet : Within Quiet (clearBinding : Method (Recorded α) Unit) :=
  .modify fun _ => .of_eq rfl rfl rfl

theorem takePending_quiet : Within Quiet (takePending : Method (Recorded α) (Option Event)) := by
  refine Within.get.bind fun s => ?_
  rcases s.pending.popFront with - | ⟨event, pending⟩
  · exact .pure _
  · refine Within.bind (.modify fun _ => .of_eq rfl rfl rfl) fun _ => ?_
    cases event with
    | reliable => exact Within.bind (.raise _) fun _ => .pure _
    | _ => exact .pure _

theorem takePendingIfReady_quiet :
    Within Quiet (takePendingIfReady : Method (Recorded α) (Option Event)) := by
  refine Within.get.bind fun s => ?_
  split_ifs
  · exact takePending_quiet
  · exact .pure _

theorem hold_quiet (record : Event) : Within Quiet (hold record : Method (Recorded α) Unit) :=
  Within.get.bind fun _ => Within.bind (.raise _) fun _ => .modify fun _ => .of_eq rfl rfl rfl

theorem advance_call (s : Session (Recorded α)) (c : Call) :
    Advance [c] [] s { s with
      negotiation := (s.negotiation.call c).2
      outbound := s.outbound ++ replyOf (s.negotiation.call c).1 } :=
  ⟨rfl, by simp, by simp [emitted], by simp⟩

theorem inbound_call {c : Call} (hc : c.IsInbound)
    (hreply : replyOf (s.negotiation.call c).1 = []) :
    Inbound c.frame.toList s { s with negotiation := (s.negotiation.call c).2 } := by
  have hcall := advance_call s c
  rw [hreply, append_nil] at hcall
  refine ⟨[c], [], by simpa using hc, ?_, hcall⟩
  cases hframe : c.frame <;> simp [hframe]

theorem abandon_inbound : Within (Inbound []) (abandon : Method (Recorded α) Unit) :=
  fun _ => inbound_call (.inr (.inl rfl)) rfl

theorem carrierClosed_inbound :
    Within (Inbound []) (negotiate Negotiation.carrierClosed : Method (Recorded α) Unit) := by
  intro s
  refine inbound_call (c := .carrierClosed) (.inr (.inr rfl)) ?_
  change replyOf (s.negotiation.carrierClosed.1.map fun _ => .consumed []) = []
  cases s.negotiation.carrierClosed.1 <;> rfl

theorem inbound_of_quiet (h : Within Quiet m) : Within (Inbound []) m := fun s => (h s).inbound []

theorem inbound_then {γ : Type} {f : β → Method (Recorded α) γ} (hm : Within Quiet m)
    (hf : ∀ a, Within (Inbound offered) (f a)) : Within (Inbound offered) (m >>= f) :=
  hm.bind_of hf (fun _ _ h => h.inbound offered) fun _ _ _ => Quiet.trans_inbound

/-! ## Methods that make no call of the negotiation -/

variable [TransportAdapter α]

theorem drain_records (frames : List Bytes) (r : Recorded α) :
    ∃ records, (drain frames r).2.2.log = r.log ++ records ∧
      frames = records.filterMap Record.taken ++ (drain frames r).2.1 ∧
      ∀ frame ∈ records.filterMap Record.submitted, ∃ bytes ∈ frames, frame = .control bytes := by
  induction frames generalizing r with
  | nil => exact ⟨[], by simp [drain], by simp [drain], by simp⟩
  | cons frame frames ih =>
    have hsend : TransportAdapter.sendControl frame r =
        ((TransportAdapter.sendControl frame r.inner).1,
          ⟨(TransportAdapter.sendControl frame r.inner).2, r.log ++
            [.handed (.control frame) (TransportAdapter.sendControl frame r.inner).1.isOk]⟩) := rfl
    rw [drain, hsend]
    cases hresult : (TransportAdapter.sendControl frame r.inner).1 with
    | ok _ =>
      obtain ⟨records, hlog, htaken, hsubmitted⟩ := ih
        ⟨(TransportAdapter.sendControl frame r.inner).2, r.log ++ [.handed (.control frame) true]⟩
      refine ⟨.handed (.control frame) true :: records, ?_, ?_, ?_⟩
      · exact hlog.trans (by simp)
      · exact congrArg (frame :: ·) htaken
      · simp only [Record.submitted, filterMap_cons, forall_mem_cons]
        refine ⟨⟨frame, by simp, rfl⟩, fun other hother => ?_⟩
        obtain ⟨bytes, hbytes, hcontrol⟩ := hsubmitted other hother
        exact ⟨bytes, mem_cons_of_mem _ hbytes, hcontrol⟩
    | error error =>
      refine ⟨[.handed (.control frame) false], ?_, ?_, ?_⟩
      · cases error <;> rfl
      · cases error <;> simp [Record.taken]
      · simp [Record.submitted]

theorem drainQueue_quiet : Within Quiet (drainQueue : Method (Recorded α) Unit) := by
  intro s
  obtain ⟨records, hlog, htaken, hsubmitted⟩ := drain_records s.outbound s.adapter
  refine ⟨records, rfl, hlog, ?_, ?_⟩
  · rw [emitted, append_nil]
    exact htaken
  · rw [emitted, append_nil]
    exact hsubmitted

theorem flushBackend_quiet : Within Quiet (flushBackend : Method (Recorded α) Unit) :=
  (pass_quiet _).bind fun _ => .raise _

theorem drainOutbound_quiet : Within Quiet (drainOutbound : Method (Recorded α) Unit) :=
  drainQueue_quiet.bind fun _ => flushBackend_quiet

theorem closeCarrier_quiet (code : ℕ) :
    Within Quiet (closeCarrier code : Method (Recorded α) Unit) :=
  (pass_quiet _).bind fun _ => .pure _

theorem applyPeerLimits_quiet : Within Quiet (applyPeerLimits : Method (Recorded α) Unit) := by
  refine Within.get.bind fun s => ?_
  cases s.negotiation.peerSettings with
  | none => exact .pure _
  | some => exact (pass_quiet _).bind fun _ => .modify fun _ => .of_eq rfl rfl rfl

theorem drainIfQueued_quiet : Within Quiet (drainIfQueued : Method (Recorded α) Unit) := by
  refine Within.get.bind fun s => ?_
  split_ifs
  · exact drainOutbound_quiet
  · exact .pure _

/-- The session with the next event of the carrier taken. -/
def polled (s : Session (Recorded α)) : Session (Recorded α) :=
  ((backend TransportAdapter.poll : Method (Recorded α) (Option Event)).call s).2

theorem poll_quiet (s : Session (Recorded α)) : Quiet s s.polled := by
  refine ⟨((TransportAdapter.poll s.adapter.inner).1.map .polled).toList, rfl, rfl, ?_, ?_⟩
  · change s.outbound ++ [] = _ ++ s.outbound
    cases (TransportAdapter.poll s.adapter.inner).1 <;> simp [Record.taken]
  · cases (TransportAdapter.poll s.adapter.inner).1 <;> simp [Record.submitted]

theorem drainLifecycle_quiet (fuel : ℕ) :
    Within Quiet (drainLifecycle fuel : Method (Recorded α) (Option (Option Event))) := by
  induction fuel with
  | zero => exact .pure _
  | succ fuel ih =>
    refine Within.bind poll_quiet fun event => ?_
    rcases event with - | (- | - | - | - | - | - | -)
    all_goals first | exact .pure _ | exact ih

/-! ## Methods that make calls -/

theorem negotiate_submit {f : Negotiation → Except Error (List Bytes) × Negotiation} {c : Call}
    (hf : ∀ n : Negotiation, n.call c = ((f n).1.map .consumed, (f n).2))
    (s : Session (Recorded α)) :
    ∃ records, Advance [c] records s
      ((negotiate f >>= submit : Method (Recorded α) Unit).call s).2 := by
  have hcall := advance_call s c
  rw [hf] at hcall
  have hnegotiate : (negotiate f : Method (Recorded α) (List Bytes)).call s =
    ((f s.negotiation).1, { s with negotiation := (f s.negotiation).2 }) := rfl
  cases hresult : (f s.negotiation).1 with
  | error =>
    rw [hresult] at hnegotiate hcall
    rw [Stateful.bind_call_error hnegotiate]
    exact ⟨[], by simpa [Except.map, replyOf] using hcall⟩
  | ok =>
    rw [hresult] at hnegotiate hcall
    rw [Stateful.bind_call_ok hnegotiate, submit, Stateful.bind_call_ok (Stateful.modify_call _)]
    obtain ⟨records, hdrain⟩ := drainOutbound_quiet (α := α) _
    exact ⟨records, hcall.trans hdrain⟩

theorem fail_inbound (error : Error) : Within (Inbound []) (fail error : Method (Recorded α) Unit) := by
  unfold fail
  split_ifs
  · exact (inbound_of_quiet clearBinding_quiet).bind fun _ =>
      (inbound_of_quiet (closeCarrier_quiet _)).bind fun _ => abandon_inbound
  · exact .pure _

theorem latch_inbound :
    Within (Inbound []) (latchRequiredChannelBinding : Method (Recorded α) Unit) := by
  refine Within.get.bind fun s => ?_
  split_ifs
  · cases TransportAdapter.channelBinding s.adapter with
    | ok => exact inbound_of_quiet (.modify fun _ => .of_eq rfl rfl rfl)
    | error =>
      refine Within.bind (inbound_of_quiet (.modify fun _ => .of_eq rfl rfl rfl)) fun _ => ?_
      exact (inbound_of_quiet (closeCarrier_quiet _)).bind fun _ =>
        abandon_inbound.bind fun _ => .throw _
  · exact .pure _

theorem answerPresentation_inbound :
    Within (Inbound []) (answerPresentation : Method (Recorded α) (Option Event)) := by
  refine Within.get.bind fun s => ?_
  split_ifs
  · refine Within.bind (inbound_of_quiet (.modify fun _ => .of_eq rfl rfl rfl)) fun _ => ?_
    exact latch_inbound.bind fun _ => .pure _
  · exact .pure _

/-- Once a call has emitted a reply, the rest is to submit it. -/
theorem answerConsumed_inbound {s s' : Session (Recorded α)} {offered reply : List Bytes}
    (h : Inbound offered s { s' with outbound := s'.outbound ++ reply }) :
    Inbound offered s ((answerConsumed reply : Method (Recorded α) (Option Event)).call s').2 := by
  have hlimits : Within Quiet (do
      drainOutbound
      if s'.negotiation.state.isNegotiated = true then applyPeerLimits
      return none : Method (Recorded α) (Option Event)) := by
    refine drainOutbound_quiet.bind fun _ => ?_
    split_ifs
    · exact applyPeerLimits_quiet.bind fun _ => .pure _
    · exact .pure _
  exact h.trans ((hlimits _).inbound [])

/-- Feeding a control frame reads that frame and no other. -/
theorem acceptControl_inbound (bytes : Bytes) :
    Within (Inbound [bytes]) (acceptControl bytes : Method (Recorded α) (Option Event)) := by
  intro s
  have hcall := advance_call s (.acceptControl bytes)
  have hnegotiate : (negotiate (·.acceptControl bytes) : Method (Recorded α) Accepted).call s =
    ((s.negotiation.acceptControl bytes).1,
      { s with negotiation := (s.negotiation.acceptControl bytes).2 }) := rfl
  have hinbound (hreply : replyOf (s.negotiation.acceptControl bytes).1 = []) :
      Inbound [bytes] s { s with negotiation := (s.negotiation.acceptControl bytes).2 } :=
    inbound_call (.inl ⟨bytes, rfl⟩) hreply
  cases hresult : (s.negotiation.acceptControl bytes).1 with
  | error =>
    rw [hresult] at hnegotiate
    rw [acceptControl, Stateful.bind_call_error hnegotiate]
    exact hinbound (by rw [hresult]; rfl)
  | ok accepted =>
    rw [hresult] at hnegotiate
    rw [acceptControl, Stateful.bind_call_ok hnegotiate]
    cases accepted with
    | application => exact hinbound (by rw [hresult]; rfl)
    | consumed =>
      refine answerConsumed_inbound ⟨[.acceptControl bytes], [], ?_, List.Sublist.refl _, ?_⟩
      · exact forall_mem_singleton.mpr (.inl ⟨bytes, rfl⟩)
      · change Advance _ _ s { s with
          negotiation := (s.negotiation.acceptControl bytes).2
          outbound := s.outbound ++ replyOf (s.negotiation.acceptControl bytes).1 } at hcall
        rwa [hresult] at hcall
    | authorizationRequired =>
      refine (hinbound (by rw [hresult]; rfl)).trans ?_
      exact (latch_inbound.bind fun _ => .pure _ : Within (Inbound []) _) _
    | presentationRequired =>
      exact (hinbound (by rw [hresult]; rfl)).trans (answerPresentation_inbound _)

theorem afterControl_inbound (accepted : Option Event) :
    Within (Inbound []) (afterControl accepted : Method (Recorded α) (Option (Option Event))) := by
  refine Within.get.bind fun s => ?_
  split_ifs
  · exact .pure _
  · exact (fail_inbound _).bind fun _ => .throw _
  · cases s.missingExtension with
    | some =>
      exact (inbound_of_quiet (closeCarrier_quiet _)).bind fun _ =>
        abandon_inbound.bind fun _ => .throw _
    | none => exact .pure _

def frames (event : Event) : List Bytes := (Record.polled event).delivered.toList

theorem handle_inbound (event : Event) (s : Session (Recorded α)) :
    Inbound (frames event) s ((handle event).call s).2 := by
  cases event with
  | control bytes =>
    have haccept : Within (Inbound [bytes]) (acceptControl bytes >>= afterControl :
        Method (Recorded α) (Option (Option Event))) :=
      (acceptControl_inbound bytes).bind_of afterControl_inbound (fun _ _ h => h)
        fun _ _ _ => Inbound.trans
    exact inbound_then .get (fun s => inbound_then (.raise _) fun _ => haccept) s
  | connected => exact (latch_inbound.bind fun _ => .pure _ : Within (Inbound []) _) s
  | disconnected =>
    exact ((inbound_of_quiet clearBinding_quiet).bind fun _ =>
      carrierClosed_inbound.bind fun _ => .pure _ : Within (Inbound []) _) s
  | reliable =>
    refine (Within.get.bind fun s => Within.bind (.raise _) fun _ => Within.get.bind fun s' => ?_ :
      Within (Inbound []) _) s
    split_ifs
    · exact .pure _
    · exact (inbound_of_quiet (hold_quiet _)).bind fun _ => .pure _
  | datagram =>
    refine (Within.get.bind fun s => ?_ : Within (Inbound []) _) s
    split_ifs <;> exact .pure _
  | acknowledged | datagramState => exact (.pure _ : Within (Inbound []) _) s

/-- One round of the polling loop: an event is taken from the carrier and handled. -/
theorem poll_handle_inbound {event : Event}
    (hevent : (TransportAdapter.poll s.adapter.inner).1 = some event) :
    Inbound [] s ((handle event).call s.polled).2 := by
  obtain ⟨calls, records, hcalls, hframes, h⟩ := handle_inbound event s.polled
  have hpoll : Advance [] [.polled event] s s.polled := by
    refine ⟨rfl, ?_, ?_, by simp [Record.submitted]⟩
    · change s.adapter.log ++ ((TransportAdapter.poll s.adapter.inner).1.map .polled).toList = _
      rw [hevent]
      rfl
    · change s.outbound ++ [] = [] ++ s.outbound
      simp
  refine ⟨_, _, hcalls, hframes.trans ?_, hpoll.trans h⟩
  rw [nil_append, singleton_append, frames]
  cases hframe : (Record.polled event).delivered with
  | none => rw [filterMap_cons_none hframe, Option.toList_none, nil_append]
  | some => rw [filterMap_cons_some hframe, Option.toList_some, singleton_append]

theorem pollLoop_inbound (fuel : ℕ) :
    Within (Inbound []) (pollLoop fuel : Method (Recorded α) (Option (Option Event))) := by
  induction fuel with
  | zero => exact .pure _
  | succ fuel ih =>
    intro s
    have hpoll : (backend TransportAdapter.poll : Method (Recorded α) (Option Event)).call s =
        (.ok (TransportAdapter.poll s.adapter.inner).1, s.polled) := rfl
    rw [pollLoop, Stateful.bind_call_ok hpoll]
    cases hevent : (TransportAdapter.poll s.adapter.inner).1 with
    | none => exact (poll_quiet s).inbound []
    | some event =>
      have hround := poll_handle_inbound hevent
      refine Within.bind_at hround (fun _ h => h) fun result _ h => h.trans ?_
      cases result with
      | some => exact Within.pure _ _
      | none =>
        refine (inbound_of_quiet takePendingIfReady_quiet).bind (fun taken => ?_) _
        cases taken with
        | some => exact .pure _
        | none => exact ih

theorem pollInner_inbound (fuel : ℕ) :
    Within (Inbound []) (pollInner fuel : Method (Recorded α) (Option (Option Event))) := by
  refine (inbound_of_quiet drainIfQueued_quiet).bind fun _ => Within.get.bind fun s => ?_
  split_ifs
  · exact inbound_of_quiet (drainLifecycle_quiet fuel)
  · refine (inbound_of_quiet takePendingIfReady_quiet).bind fun taken => ?_
    cases taken with
    | some => exact .pure _
    | none => exact pollLoop_inbound fuel

theorem poll_inbound (fuel : ℕ) :
    Within (Inbound []) (poll fuel : Method (Recorded α) (Option (Option Event))) := by
  intro s
  have hinner := pollInner_inbound fuel s
  change Inbound [] s (reporting ((pollInner fuel).call s)).2
  cases hcall : (pollInner fuel).call s with
  | mk result s' =>
    rw [hcall] at hinner
    cases result with
    | error error => exact hinner.trans (fail_inbound error s')
    | ok => exact hinner

end Session

end ObjectTransfer.Sessions
