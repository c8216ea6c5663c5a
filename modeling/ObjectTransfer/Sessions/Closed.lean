import ObjectTransfer.Sessions.Traces

/-! # Closed sessions

Closing does not clear the attempt under way. A decision on it that comes after the close is still
taken: a grant makes the session ready again. Without such an attempt a closed session stays closed,
whatever is called.
-/

namespace ObjectTransfer.Sessions
open Foundations Codec Stateful List

/-! ## The negotiation -/

namespace Negotiation

variable {n : Negotiation}

/-- Closed, with no attempt under way. -/
def Settled (n : Negotiation) : Prop := n.state = .closed ∧ n.opened = none

theorem settled_call (h : n.Settled) (c : Call) :
    (n.call c).2.Settled ∧ replyOf (n.call c).1 = [] := by
  obtain ⟨hclosed, hnone⟩ := h
  have hmove := n.call_move c
  generalize n.call c = result at hmove
  obtain ⟨outcome, next⟩ := result
  cases hmove with
  | failed | skipped | application | challenged => exact ⟨⟨hclosed, hnone⟩, rfl⟩
  | closed hcall houtcome =>
    refine ⟨⟨rfl, hnone⟩, ?_⟩
    cases outcome with
    | error => rfl
    | ok accepted =>
      rw [houtcome accepted rfl]
      rfl
  | hello hread hstate =>
    rw [hclosed, helloExpected] at hstate
    obtain hrole | hrole := n.role.eq_client_or_server <;> simp [hrole] at hstate
  | _ => simp_all

theorem settled_fails (h : n.Settled) {c : Call} (hc : ¬ c.IsInbound) :
    ∃ error, n.call c = (.error error, n) := by
  obtain ⟨hclosed, hnone⟩ := h
  have hmove := n.call_move c
  generalize n.call c = result at hmove
  obtain ⟨outcome, next⟩ := result
  cases hmove with
  | failed => exact ⟨_, rfl⟩
  | closed hcall => exact absurd (.inr hcall) hc
  | reserved | offered | presented | granted | refused => simp_all
  | _ => exact absurd (.inl ⟨_, rfl⟩) hc

theorem settled_after (h : n.Settled) (calls : List Call) : (n.after calls).Settled :=
  run_invariant (P := Settled) (fun _ c hn => (settled_call hn c).1) h calls

def PeerInRange (n : Negotiation) : Prop := ∀ peer, n.peerSettings = some peer → peer.InRange

theorem peerInRange_call (h : n.PeerInRange) (c : Call) : (n.call c).2.PeerInRange := by
  have hmove := n.call_move c
  generalize n.call c = result at hmove
  obtain ⟨outcome, next⟩ := result
  cases hmove with
  | settings _ _ _ hsettings | answered _ _ _ _ hsettings =>
    rintro peer ⟨⟩
    exact decodeSettings_inRange hsettings
  | _ => exact h

theorem peerInRange_after (h : n.PeerInRange) (calls : List Call) : (n.after calls).PeerInRange :=
  run_invariant (P := PeerInRange) (fun _ c hn => peerInRange_call hn c) h calls

theorem Fresh.peerInRange (h : n.Fresh) : n.PeerInRange := by
  obtain ⟨role, localSettings, extensions, challenge, presenting, rfl⟩ := h
  rintro _ ⟨⟩

theorem encodeSessionAccept_nil (sessionId : Block 16) :
    ∃ payload, encodeSessionAccept ⟨sessionId, []⟩ = .ok payload ∧ payload.length ≤ 32 := by
  refine ⟨_, rfl, ?_⟩
  simp [Cbor.map, Cbor.uint, Cbor.bytes, Cbor.head_length, Cbor.headLen]

/-- An attempt under way can always be granted, with an empty scope. -/
theorem grant_opened {request : SessionOpen} (hopened : n.opened = some request)
    (hpeer : n.PeerInRange) : (n.call (.grant [])).2.state = .authenticated ∧
      (n.call (.grant [])).2.opened = none ∧ replyOf (n.call (.grant [])).1 ≠ [] := by
  obtain ⟨payload, hpayload, hlength⟩ := encodeSessionAccept_nil request.sessionId
  have hfits : Fits FrameType.sessionAccept payload :=
    fits_of_le rfl (by omega) (by decide) (by decide)
  have hwithin : ∀ peer, n.peerSettings = some peer →
      payload.length ≤ peer.maxControlFramePayload := by
    intro peer hsome
    exact hlength.trans (le_trans (by decide) (hpeer peer hsome).control.1)
  have hgrants := grants_eq_ok.mpr ⟨request, payload, hopened, hpayload, hfits, hwithin, rfl, rfl⟩
  rw [call, grant, hgrants]
  simp [keeping, replyOf, Except.map]

/-- No call changes the state or has a frame sent. -/
def StaysClosed (n : Negotiation) : Prop :=
  ∀ calls, (n.after calls).state = .closed ∧
    ∀ c, replyOf ((n.after calls).call c).1 = []

theorem staysClosed_iff (hstate : n.state = .closed) (hpeer : n.PeerInRange) :
    n.StaysClosed ↔ n.opened = none := by
  constructor
  · intro h
    by_contra hsome
    obtain ⟨request, hrequest⟩ := Option.ne_none_iff_exists'.mp hsome
    have hgrant := (grant_opened hrequest hpeer).1
    have hclosed := (h [.grant []]).1
    rw [Negotiation.after, run_cons, run_nil, hgrant] at hclosed
    cases hclosed
  · intro hnone calls
    have hsettled := settled_after ⟨hstate, hnone⟩ calls
    exact ⟨hsettled.1, fun c => (settled_call hsettled c).2⟩

end Negotiation

/-! ## The session -/

namespace Session

variable {α : Type} [TransportAdapter α]

/-- From a settled negotiation nothing of the exchange moves and nothing is handed over. -/
def Still (s s' : Session (Recorded α)) : Prop :=
  s.negotiation.Settled → s'.negotiation = s.negotiation ∧
    ∃ records, s'.adapter.log = s.adapter.log ++ records ∧ records.filterMap Record.submitted = []

variable {s : Session (Recorded α)}

omit [TransportAdapter α] in
theorem Still.of_eq {s' : Session (Recorded α)} (hnegotiation : s'.negotiation = s.negotiation)
    (hlog : s'.adapter.log = s.adapter.log) : Still s s' :=
  fun _ => ⟨hnegotiation, [], by rw [hlog, append_nil], rfl⟩

instance : Std.Refl (Still (α := α)) := ⟨fun _ => .of_eq rfl rfl⟩

instance : IsTrans (Session (Recorded α)) Still where
  trans := by
    intro s s' s'' h h' hsettled
    obtain ⟨hnegotiation, records, hlog, hrecords⟩ := h hsettled
    obtain ⟨hnegotiation', records', hlog', hrecords'⟩ := h' (hnegotiation ▸ hsettled)
    refine ⟨hnegotiation'.trans hnegotiation, records ++ records', ?_, ?_⟩
    · rw [hlog', hlog, append_assoc]
    · rw [filterMap_append, hrecords, hrecords', append_nil]

omit [TransportAdapter α] in
theorem pass_still {β : Type} (operation : α → β × α) :
    Within Still (backend (Recorded.pass operation) : Method (Recorded α) β) :=
  fun _ => .of_eq rfl rfl

theorem flushBackend_still : Within Still (flushBackend : Method (Recorded α) Unit) :=
  (pass_still _).bind fun _ => .raise _

theorem fail_still (error : Error) : Within Still (fail error : Method (Recorded α) Unit) := by
  unfold fail
  split_ifs
  · refine Within.bind (.modify fun _ => .of_eq rfl rfl) fun _ => ?_
    refine ((pass_still _).bind fun _ => .pure _ : Within Still (closeCarrier _)).bind fun _ => ?_
    refine .modify fun s hsettled => ⟨?_, [], by simp, rfl⟩
    change { s.negotiation with state := .closed } = s.negotiation
    rw [← hsettled.1]
  · exact .pure _

theorem drainLifecycle_still (fuel : ℕ) :
    Within Still (drainLifecycle fuel : Method (Recorded α) (Option (Option Event))) := by
  have hpoll : Within Still
      (backend TransportAdapter.poll : Method (Recorded α) (Option Event)) := by
    intro s _
    refine ⟨rfl, ((TransportAdapter.poll s.adapter.inner).1.map .polled).toList, rfl, ?_⟩
    cases (TransportAdapter.poll s.adapter.inner).1 <;> rfl
  induction fuel with
  | zero => exact .pure _
  | succ fuel ih =>
    refine hpoll.bind fun event => ?_
    rcases event with - | (- | - | - | - | - | - | -)
    all_goals first | exact .pure _ | exact ih

/-- A closed session polls for lifecycle events only. -/
theorem pollInner_closed (h : s.state = .closed) (fuel : ℕ) :
    (pollInner fuel).call s = (drainLifecycle fuel).call s := by
  have hdrain : (drainIfQueued : Method (Recorded α) Unit).call s = (.ok (), s) := by
    rw [drainIfQueued, bind_call_ok get_call, if_neg (by simp [mayNegotiate, h]), pure_call]
  rw [pollInner, bind_call_ok hdrain, bind_call_ok get_call, if_pos h]

theorem poll_still (fuel : ℕ) :
    Within Still (poll fuel : Method (Recorded α) (Option (Option Event))) := by
  intro s hsettled
  have hcall : (poll fuel).call s = reporting ((drainLifecycle fuel).call s) := by
    rw [← pollInner_closed hsettled.1]
    rfl
  have hdrain := drainLifecycle_still fuel s
  rw [hcall]
  cases hresult : (drainLifecycle fuel).call s with
  | mk result s' =>
    rw [hresult] at hdrain
    cases result with
    | ok => exact hdrain hsettled
    | error error => exact (trans_of Still hdrain (fail_still error s') : Still s _) hsettled

/-- A call of the owner fails before anything is submitted. -/
theorem negotiate_submit_still {f : Negotiation → Except Error (List Bytes) × Negotiation} {c : Call}
    (hf : ∀ n : Negotiation, n.call c = ((f n).1.map .consumed, (f n).2)) (hc : ¬ c.IsInbound) :
    Within Still (negotiate f >>= submit : Method (Recorded α) Unit) := by
  intro s hsettled
  obtain ⟨error, hcall⟩ := Negotiation.settled_fails hsettled hc
  rw [hf, Prod.mk.injEq] at hcall
  cases hresult : (f s.negotiation).1 with
  | ok =>
    rw [hresult] at hcall
    cases hcall.1
  | error error =>
    have hnegotiate : (negotiate f : Method (Recorded α) (List Bytes)).call s =
        (.error error, { s with negotiation := (f s.negotiation).2 }) := by
      rw [← hresult]
      rfl
    rw [bind_call_error hnegotiate, hcall.2]
    exact ⟨rfl, [], (append_nil _).symm, rfl⟩

theorem begin_still : Within Still (begin : Method (Recorded α) Unit) := by
  refine Within.get.bind fun s => Within.bind (.raise _) fun _ => Within.bind (.raise _) fun _ => ?_
  refine Within.bind (.modify fun _ => .of_eq rfl rfl) fun _ => Within.bind (.raise _) fun _ => ?_
  exact negotiate_submit_still (c := .begin) (fun _ => rfl) (by simp [Call.IsInbound])

theorem present_still (request : SessionOpen) :
    Within Still (present request : Method (Recorded α) Unit) :=
  Within.bind (.raise _) fun _ =>
    negotiate_submit_still (c := .present request) (fun _ => rfl) (by simp [Call.IsInbound])

theorem flush_still : Within Still (flush : Method (Recorded α) Unit) := by
  intro s hsettled
  have hclosed : ¬ s.mayNegotiate = true := by simp [mayNegotiate, state, hsettled.1]
  rw [flush, bind_call_ok get_call, if_neg hclosed]
  exact flushBackend_still s hsettled

theorem step_still (s : Session (Recorded α)) (c : SessionCall α) : Still s (s.step c) := by
  have hsilent {m : Method (Recorded α) Unit} (h : Within Still m) :
      Still s ((silently m).call s).2 := by
    rw [silently_call]
    exact h s
  cases hsend : c.isSend with
  | true =>
    intro hsettled
    have hready : s.isReady = false := by
      rw [isReady, Negotiation.isReady, hsettled.1]
      rfl
    rw [step_unready hsend hready]
    exact ⟨rfl, [], (append_nil _).symm, rfl⟩
  | false =>
    cases c with
    | sendControl | sendControlShared | sendReliable | sendReliableShared | sendDatagram =>
      cases hsend
    | poll fuel => exact poll_still fuel s
    | begin => exact hsilent begin_still
    | present request => exact hsilent (present_still request)
    | grant scope =>
      exact hsilent (negotiate_submit_still (c := .grant scope) (fun _ => rfl)
        (by simp [Call.IsInbound]))
    | refuse reason detail =>
      exact hsilent (negotiate_submit_still (c := .refuse reason detail) (fun _ => rfl)
        (by simp [Call.IsInbound]))
    | flush => exact hsilent flush_still
    | setPendingLimits =>
      exact hsilent (Within.bind (.raise _) fun _ => .modify fun _ => .of_eq rfl rfl)
    | requireExtension | requireGrantedScope | carrier =>
      exact hsilent (.modify fun _ => .of_eq rfl rfl)

theorem settled_after (h : s.negotiation.Settled) (calls : List (SessionCall α)) :
    (s.after calls).negotiation.Settled := by
  refine run_invariant (P := fun s : Session (Recorded α) => s.negotiation.Settled) ?_ h calls
  intro s c hsettled
  rw [(step_still s c hsettled).1]
  exact hsettled

theorem handed_settled (h : s.negotiation.Settled) (c : SessionCall α) : s.handed c = [] := by
  obtain ⟨-, records, hlog, hrecords⟩ := step_still s c h
  rw [handed, hlog, drop_left, hrecords]

/-- No call changes the state, makes the session ready or hands a frame to the adapter. -/
def StaysClosed (s : Session (Recorded α)) : Prop :=
  ∀ calls, (s.after calls).state = .closed ∧ (s.after calls).isReady = false ∧
    ∀ c, (s.after calls).handed c = []

theorem staysClosed_iff (hstate : s.state = .closed) (hpeer : s.negotiation.PeerInRange) :
    s.StaysClosed ↔ s.negotiation.opened = none := by
  constructor
  · intro h
    by_contra hsome
    obtain ⟨request, hrequest⟩ := Option.ne_none_iff_exists'.mp hsome
    obtain ⟨calls, records, rfl, -, hadvance⟩ :=
      step_advance (c := .grant []) rfl s
    have hclosed := (h [.grant []]).1
    change (s.step (.grant [])).negotiation.state = .closed at hclosed
    rw [hadvance.negotiation, Negotiation.after, run_cons, run_nil,
      (Negotiation.grant_opened hrequest hpeer).1] at hclosed
    cases hclosed
  · intro hnone calls
    have hsettled := settled_after ⟨hstate, hnone⟩ calls
    refine ⟨hsettled.1, ?_, handed_settled hsettled⟩
    rw [isReady, Negotiation.isReady, hsettled.1]
    rfl

theorem peerInRange_after {start : Session (Recorded α)} (h : start.Fresh)
    (calls : List (SessionCall α)) : (start.after calls).negotiation.PeerInRange := by
  obtain ⟨inner, hinner⟩ := exists_behind start calls
  have hagrees := hinner.agrees calls.length
  rw [take_length] at hagrees
  rw [hagrees]
  exact Negotiation.peerInRange_after h.negotiation.peerInRange _

end Session

/-- A peer that completes its part of the exchange and goes away before it is answered. -/
def hangUp : List Event := askingFrames.map .control ++ [.disconnected 0]

/-- A server that polled until its peer was gone. -/
def hungUp : Session (Recorded Script) :=
  (Session.server ⟨⟨hangUp⟩, []⟩ .default ∅ (.capability sampleChallenge)).after [.begin, .poll 8]

/-- The lost carrier closed the session, and granting the request it left opens it again. -/
theorem grant_reopens_closed : hungUp.state = .closed ∧
    (hungUp.step (.grant [])).state = .authenticated ∧
    (hungUp.step (.grant [])).isReady = true ∧ hungUp.handed (.grant []) ≠ [] := by
  decide +kernel

/-- A closed endpoint stays closed exactly when it was closed with no attempt under way. -/
theorem closed_stays_closed {α : Type} [TransportAdapter α] {n : Negotiation}
    {s : Session (Recorded α)} (hn : n.Fresh) (hs : s.Fresh) (calls : List Call)
    (sessionCalls : List (SessionCall α)) :
    ((n.after calls).state = .closed →
      ((n.after calls).StaysClosed ↔ (n.after calls).opened = none)) ∧
    ((s.after sessionCalls).state = .closed →
      ((s.after sessionCalls).StaysClosed ↔ (s.after sessionCalls).negotiation.opened = none)) := by
  constructor
  · intro hstate
    exact Negotiation.staysClosed_iff hstate (Negotiation.peerInRange_after hn.peerInRange calls)
  · intro hstate
    exact Session.staysClosed_iff hstate (Session.peerInRange_after hs sessionCalls)

theorem closed_stays_closed_sample :
    ((Negotiation.server .default ∅ sampleChallenge).after [.begin, .abandon]).StaysClosed ∧
    ((Session.server ⟨(⟨[.disconnected 0]⟩ : Script), []⟩ .default ∅
      (.capability sampleChallenge)).after [.begin, .poll 2]).StaysClosed := by
  have hboth := closed_stays_closed (n := .server .default ∅ sampleChallenge)
    (s := Session.server ⟨(⟨[.disconnected 0]⟩ : Script), []⟩ .default ∅ (.capability sampleChallenge))
    ⟨_, _, _, _, _, rfl⟩ ⟨_, _, _, _, .inr rfl⟩ [.begin, .abandon] [.begin, .poll 2]
  refine ⟨(hboth.1 rfl).mpr rfl, (hboth.2 ?_).mpr ?_⟩
  · decide +kernel
  · decide +kernel

end ObjectTransfer.Sessions
