import ObjectTransfer.Sessions.Gate
import ObjectTransfer.Sessions.Recorded

/-! # Runs of a session

The calls of a session over a recording adapter, whose carrier may do anything between two calls.
Every run makes a run of the negotiation, so the gate holds; records and datagrams surface only on a
ready session, and before that nothing but frames of the exchange is handed to the adapter.
-/

namespace ObjectTransfer.Sessions
open Foundations Codec Stateful List Session

/-! ## Events that surface -/

/-- Data of the peer, as opposed to control frames and lifecycle. -/
def Event.isData : Event → Bool
  | .reliable .. | .datagram _ => true
  | _ => false

namespace Session

section Surfaces

variable {α : Type}

/-- A result that is data comes from a ready session. -/
def Surfaces (result : Option (Option Event)) (s : Session α) : Prop :=
  ∀ event, result = some (some event) → event.isData = true → s.isReady = true

theorem Surfaces.of_not_data {result : Option (Option Event)}
    (h : ∀ event, result = some (some event) → event.isData = false) (s : Session α) :
    Surfaces result s := by
  intro event hevent hdata
  rw [h event hevent] at hdata
  cases hdata

theorem Surfaces.of_ready {s : Session α} (h : s.isReady = true) (result : Option (Option Event)) :
    Surfaces result s := fun _ _ _ => h

def SameExchange (s s' : Session α) : Prop := s'.negotiation = s.negotiation

instance : Std.Refl (SameExchange (α := α)) := ⟨fun _ => rfl⟩

instance : IsTrans (Session α) SameExchange := ⟨fun _ _ _ h h' => h'.trans h⟩

theorem takePending_same : Within SameExchange (takePending : Method α (Option Event)) := by
  refine Within.get.bind fun s => ?_
  rcases s.pending.popFront with - | ⟨event, pending⟩
  · exact .pure _
  · refine Within.bind (.modify fun _ => rfl) fun _ => ?_
    cases event with
    | reliable => exact Within.bind (.raise _) fun _ => .pure _
    | _ => exact .pure _

theorem takePendingIfReady_ready : Returns (fun taken s => taken.isSome = true → s.isReady = true)
    (takePendingIfReady : Method α (Option Event)) := by
  apply Returns.get_bind
  intro s taken s' h
  split_ifs at h with hready
  · intro _
    have hsame := takePending_same s
    rw [h] at hsame
    rw [isReady, hsame]
    exact hready
  · cases h
    rintro ⟨⟩

variable [TransportAdapter α]

theorem drainLifecycle_surfaces (fuel : ℕ) :
    Returns Surfaces (drainLifecycle fuel : Method α (Option (Option Event))) := by
  induction fuel with
  | zero => exact .pure (.of_not_data (by simp))
  | succ fuel ih =>
    refine .after fun event => ?_
    rcases event with - | (- | - | - | - | - | - | -)
    case some.control | some.reliable | some.datagram => exact ih
    all_goals exact .pure (.of_not_data (by simp [Event.isData]))

theorem acceptControl_surfaces (bytes : Bytes) :
    Returns (fun accepted _ => ∀ event, accepted = some event → event.isData = false)
      (acceptControl bytes : Method α (Option Event)) := by
  refine .after fun accepted => ?_
  cases accepted with
  | application => exact .pure fun _ => by simp [Event.isData]
  | consumed =>
    refine .after fun s => .after fun _ => ?_
    split_ifs
    · exact .after fun _ => .pure (by simp)
    · exact .pure (by simp)
  | authorizationRequired => exact .after fun _ => .pure (by simp)
  | presentationRequired =>
    refine .after fun s => ?_
    split_ifs
    · exact .after fun _ => .after fun _ => .pure (by simp)
    · exact .pure (by simp)

theorem afterControl_surfaces {accepted : Option Event}
    (h : ∀ event, accepted = some event → event.isData = false) :
    Returns Surfaces (afterControl accepted : Method α (Option (Option Event))) := by
  refine .after fun s => ?_
  split_ifs
  · exact .pure (.of_not_data (by simp))
  · exact .after fun _ => .throw
  · cases s.missingExtension with
    | some => exact .after fun _ => .after fun _ => .throw
    | none => exact .pure (.of_not_data (by simpa using h))

theorem handle_surfaces (event : Event) :
    Returns Surfaces (handle event : Method α (Option (Option Event))) := by
  cases event with
  | control bytes =>
    exact .after fun s => .after fun _ => (acceptControl_surfaces bytes).bind
      fun _ s _ s' haccepted hcall => afterControl_surfaces haccepted s _ s' hcall
  | connected => exact .after fun _ => .pure (.of_not_data (by simp [Event.isData]))
  | disconnected =>
    exact .after fun _ => .after fun _ => .pure (.of_not_data (by simp [Event.isData]))
  | reliable =>
    refine .after fun s => .after fun _ => .get_bind fun s result s' h => ?_
    split_ifs at h with hready
    · cases h
      exact .of_ready hready _
    · revert h
      exact (Returns.after fun _ => .pure (.of_not_data (by simp)) : Returns Surfaces _) s result s'
  | datagram =>
    refine .get_bind fun s result s' h => ?_
    split_ifs at h with hready
    · cases h
      exact .of_ready hready.1 _
    · cases h
      exact .of_not_data (by simp) _
  | acknowledged | datagramState => exact .pure (.of_not_data (by simp [Event.isData]))

omit [TransportAdapter α] in
/-- A held event first, then whatever follows. -/
theorem takePendingIfReady_surfaces {rest : Method α (Option (Option Event))}
    (h : Returns Surfaces rest) : Returns Surfaces (do
      match ← takePendingIfReady with
      | some event => return some (some event)
      | none => rest) := by
  refine takePendingIfReady_ready.bind fun taken s result s' hready hcall => ?_
  cases taken with
  | some =>
    cases hcall
    exact .of_ready (hready rfl) _
  | none => exact h s result s' hcall

theorem pollLoop_surfaces (fuel : ℕ) :
    Returns Surfaces (pollLoop fuel : Method α (Option (Option Event))) := by
  induction fuel with
  | zero => exact .pure (.of_not_data (by simp))
  | succ fuel ih =>
    refine .after fun event => ?_
    cases event with
    | none => exact .pure (.of_not_data (by simp))
    | some event =>
      refine (handle_surfaces event).bind fun result s final s' hresult hcall => ?_
      cases result with
      | some =>
        cases hcall
        exact hresult
      | none => exact takePendingIfReady_surfaces ih s final s' hcall

theorem poll_surfaces (fuel : ℕ) :
    Returns Surfaces (poll fuel : Method α (Option (Option Event))) := by
  have hinner : Returns Surfaces (pollInner fuel : Method α (Option (Option Event))) := by
    refine .after fun _ => .after fun s => ?_
    split_ifs
    · exact drainLifecycle_surfaces fuel
    · exact takePendingIfReady_surfaces (pollLoop_surfaces fuel)
  intro s result s' h
  change reporting ((pollInner fuel).call s) = _ at h
  cases hcall : (pollInner fuel).call s with
  | mk inner =>
    rw [hcall] at h
    cases inner with
    | error => cases h
    | ok =>
      cases h
      exact hinner s result s' hcall

end Surfaces

end Session

/-! ## Calls -/

inductive SessionCall (α : Type) where
  | begin
  | poll (fuel : ℕ)
  | present (request : SessionOpen)
  | grant (grantedScope : Bytes)
  | refuse (reason : UInt16) (detail : String)
  | sendControl (frame : Bytes)
  | sendControlShared (frame : Bytes)
  | sendReliable (stream : ℕ) (record : Bytes)
  | sendReliableShared (stream : ℕ) (record : Bytes)
  | sendDatagram (context : ℕ) (payload : Bytes)
  | flush
  | setPendingLimits (bytes count : ℕ)
  | requireExtension (extension : ℕ)
  | requireGrantedScope (scope : Bytes)
  | carrier (change : α → α)

namespace Session

variable {α : Type}

/-- The carrier moves on its own. -/
def changeCarrier (change : α → α) : Method (Recorded α) Unit :=
  modify fun s => { s with adapter := { s.adapter with inner := change s.adapter.inner } }

/-- A method with nothing to surface. -/
def silently (m : Method α Unit) : Method α (Option (Option Event)) := do
  m
  return none

theorem silently_call (m : Method α Unit) (s : Session α) :
    ((silently m).call s).2 = (m.call s).2 := by
  cases h : m.call s with
  | mk result =>
    cases result with
    | ok => rw [silently, bind_call_ok h, pure_call]
    | error => rw [silently, bind_call_error h]

end Session

namespace SessionCall

variable {α : Type}

/-- Only a client presents, and only a server grants and refuses. -/
def Permitted (role : EndpointRole) : SessionCall α → Prop
  | .present _ => role = .client
  | .grant _ | .refuse _ _ => role = .server
  | _ => True

/-- The calls that submit a frame of the application. -/
def isSend : SessionCall α → Bool
  | .sendControl _ | .sendControlShared _ | .sendReliable _ _ | .sendReliableShared _ _
  | .sendDatagram _ _ => true
  | _ => false

/-- The calls of the negotiation that a call of the session may make. -/
def Makes : SessionCall α → List Call → Prop
  | .begin, calls => calls = [] ∨ calls = [.begin]
  | .poll _, calls => ∀ c ∈ calls, c.IsInbound
  | .present request, calls => calls = [] ∨ calls = [.present request]
  | .grant scope, calls => calls = [.grant scope]
  | .refuse reason detail, calls => calls = [.refuse reason detail]
  | _, calls => calls = []

def method [TransportAdapter α] : SessionCall α → Session.Method (Recorded α) (Option (Option Event))
  | .begin => silently Session.begin
  | .poll fuel => Session.poll fuel
  | .present request => silently (Session.present request)
  | .grant scope => silently (Session.grant scope)
  | .refuse reason detail => silently (Session.refuse reason detail)
  | .sendControl frame => silently (Session.sendControl frame)
  | .sendControlShared frame => silently (Session.sendControlShared frame)
  | .sendReliable stream record => silently (Session.sendReliable stream record)
  | .sendReliableShared stream record => silently (Session.sendReliableShared stream record)
  | .sendDatagram context payload => silently (Session.sendDatagram context payload)
  | .flush => silently Session.flush
  | .setPendingLimits bytes count => silently (Session.setPendingLimits bytes count)
  | .requireExtension extension => silently (Session.requireExtension extension)
  | .requireGrantedScope scope => silently (Session.requireGrantedScope scope)
  | .carrier change => silently (changeCarrier change)

theorem Makes.permitted {role : EndpointRole} {c : SessionCall α} {calls : List Call}
    (h : c.Makes calls) (hpermitted : c.Permitted role) : ∀ call ∈ calls, call.Permitted role := by
  cases c with
  | begin | present =>
    obtain rfl | rfl := h
    · simp
    · exact forall_mem_singleton.mpr hpermitted
  | grant | refuse =>
    obtain rfl := h
    exact forall_mem_singleton.mpr hpermitted
  | poll =>
    intro call hcall
    obtain ⟨frame, rfl⟩ | rfl | rfl := h call hcall <;> trivial
  | _ =>
    obtain rfl := h
    simp

end SessionCall

namespace Session

variable {α : Type} [TransportAdapter α] {c : SessionCall α}

def step (s : Session (Recorded α)) (c : SessionCall α) : Session (Recorded α) := (c.method.call s).2

def after (s : Session (Recorded α)) (calls : List (SessionCall α)) : Session (Recorded α) :=
  run step s calls

/-! ## Calls that submit nothing of the application -/

def MayCall (c : Call) (s s' : Session (Recorded α)) : Prop :=
  ∃ calls records, (calls = [] ∨ calls = [c]) ∧ Advance calls records s s'

omit [TransportAdapter α] in
theorem mayCall_then {β γ : Type} {c : Call} {m : Method (Recorded α) β}
    {f : β → Method (Recorded α) γ} (hm : Within Quiet m) (hf : ∀ a, Within (MayCall c) (f a)) :
    Within (MayCall c) (m >>= f) := by
  refine hm.bind_of hf ?_ ?_
  · rintro s s' ⟨records, h⟩
    exact ⟨[], records, .inl rfl, h⟩
  · rintro s s' s'' ⟨records, h⟩ ⟨calls, records', hcalls, h'⟩
    exact ⟨calls, records ++ records', hcalls, h.trans h'⟩

theorem negotiate_submit_mayCall {f : Negotiation → Except Error (List Bytes) × Negotiation}
    {c : Call} (hf : ∀ n : Negotiation, n.call c = ((f n).1.map .consumed, (f n).2)) :
    Within (MayCall c) (negotiate f >>= submit : Method (Recorded α) Unit) := by
  intro s
  obtain ⟨records, h⟩ := negotiate_submit hf s
  exact ⟨[c], records, .inr rfl, h⟩

theorem begin_mayCall : Within (MayCall .begin) (begin : Method (Recorded α) Unit) := by
  refine mayCall_then .get fun s => mayCall_then (.raise _) fun _ => mayCall_then (.raise _) fun _ => ?_
  refine mayCall_then (.modify fun _ => .of_eq rfl rfl rfl) fun _ => mayCall_then (.raise _) fun _ => ?_
  exact negotiate_submit_mayCall fun _ => rfl

theorem present_mayCall (request : SessionOpen) :
    Within (MayCall (.present request)) (present request : Method (Recorded α) Unit) :=
  mayCall_then (.raise _) fun _ => negotiate_submit_mayCall fun _ => rfl

theorem flush_quiet : Within Quiet (flush : Method (Recorded α) Unit) := by
  refine Within.get.bind fun s => ?_
  split_ifs
  · exact drainOutbound_quiet
  · exact flushBackend_quiet

/-- Every call that is not a send makes calls of the negotiation and hands over what they emit. -/
theorem step_advance (hsend : c.isSend = false) (s : Session (Recorded α)) :
    ∃ calls records, c.Makes calls ∧
      (calls.filterMap Call.frame).Sublist (records.filterMap Record.delivered) ∧
      Advance calls records s (s.step c) := by
  have hquiet {m : Method (Recorded α) Unit} (h : Within Quiet m) : ∃ calls records, calls = [] ∧
      (calls.filterMap Call.frame).Sublist (records.filterMap Record.delivered) ∧
      Advance calls records s ((silently m).call s).2 := by
    obtain ⟨records, hadvance⟩ := h s
    rw [silently_call]
    exact ⟨[], records, rfl, nil_sublist _, hadvance⟩
  cases c with
  | sendControl | sendControlShared | sendReliable | sendReliableShared | sendDatagram =>
    cases hsend
  | poll fuel =>
    obtain ⟨calls, records, hcalls, hframes, h⟩ := poll_inbound fuel s
    exact ⟨calls, records, hcalls, hframes, h⟩
  | begin =>
    obtain ⟨calls, records, hcalls, h⟩ := begin_mayCall s
    rw [← silently_call] at h
    refine ⟨calls, records, hcalls, ?_, h⟩
    obtain rfl | rfl := hcalls <;> exact nil_sublist _
  | present request =>
    obtain ⟨calls, records, hcalls, h⟩ := present_mayCall request s
    rw [← silently_call] at h
    refine ⟨calls, records, hcalls, ?_, h⟩
    obtain rfl | rfl := hcalls <;> exact nil_sublist _
  | grant scope =>
    obtain ⟨records, h⟩ := negotiate_submit (c := .grant scope) (fun _ => rfl) s
    rw [← silently_call] at h
    exact ⟨[.grant scope], records, rfl, nil_sublist _, h⟩
  | refuse reason detail =>
    obtain ⟨records, h⟩ := negotiate_submit (c := .refuse reason detail) (fun _ => rfl) s
    rw [← silently_call] at h
    exact ⟨[.refuse reason detail], records, rfl, nil_sublist _, h⟩
  | flush => exact hquiet flush_quiet
  | setPendingLimits =>
    exact hquiet (Within.bind (.raise _) fun _ => .modify fun _ => .of_eq rfl rfl rfl)
  | requireExtension | requireGrantedScope | carrier =>
    exact hquiet (.modify fun _ => .of_eq rfl rfl rfl)

/-! ## Sends -/

/-- The exchange stands still while frames are handed over. -/
structure Hands (s s' : Session (Recorded α)) : Prop where
  negotiation : s'.negotiation = s.negotiation
  outbound : s'.outbound = s.outbound
  log : ∃ records, s'.adapter.log = s.adapter.log ++ records ∧
    ∀ record ∈ records, ∃ frame taken, record = .handed frame taken

omit [TransportAdapter α] in
theorem Hands.of_eq {s s' : Session (Recorded α)} (hnegotiation : s'.negotiation = s.negotiation)
    (houtbound : s'.outbound = s.outbound) (hlog : s'.adapter.log = s.adapter.log) : Hands s s' :=
  ⟨hnegotiation, houtbound, [], by rw [hlog, append_nil], by simp⟩

instance : Std.Refl (Hands (α := α)) := ⟨fun _ => .of_eq rfl rfl rfl⟩

instance : IsTrans (Session (Recorded α)) Hands where
  trans := by
    rintro s s' s'' ⟨hnegotiation, houtbound, records, hlog, hrecords⟩
      ⟨hnegotiation', houtbound', records', hlog', hrecords'⟩
    refine ⟨hnegotiation'.trans hnegotiation, houtbound'.trans houtbound, records ++ records', ?_, ?_⟩
    · rw [hlog', hlog, append_assoc]
    · exact forall_mem_append.mpr ⟨hrecords, hrecords'⟩

omit [TransportAdapter α] in
theorem submit_hands (frame : Outgoing) (send : α → Except Transport.Error Unit × α) :
    Within Hands (backend (Recorded.submit frame send) : Method (Recorded α) _) :=
  fun _ => ⟨rfl, rfl, _, rfl, forall_mem_singleton.mpr ⟨frame, _, rfl⟩⟩

omit [TransportAdapter α] in
theorem sendControlWith_hands {send : Bytes → Recorded α → Except Transport.Error Unit × Recorded α}
    {frame : Bytes} (hsend : Within Hands (backend (send frame) : Method (Recorded α) _)) :
    Within Hands (sendControlWith send frame) := by
  refine Within.get.bind fun s => Within.bind (.raise _) fun _ => Within.bind (.raise _) fun _ => ?_
  exact hsend.bind fun _ => .raise _

omit [TransportAdapter α] in
theorem sendReliableWith_hands
    {send : ℕ → Bytes → Recorded α → Except Transport.Error Unit × Recorded α} {stream : ℕ}
    {record : Bytes} (hsend : Within Hands (backend (send stream record) : Method (Recorded α) _)) :
    Within Hands (sendReliableWith send stream record) := by
  refine Within.get.bind fun s => Within.bind (.raise _) fun _ => Within.bind (.raise _) fun _ => ?_
  refine Within.bind (.raise _) fun _ => hsend.bind fun _ => Within.bind (.raise _) fun _ => ?_
  exact .modify fun _ => .of_eq rfl rfl rfl

theorem sendDatagram_hands (context : ℕ) (payload : Bytes) :
    Within Hands (sendDatagram context payload : Method (Recorded α) Unit) := by
  refine Within.get.bind fun s => Within.bind (.raise _) fun _ => ?_
  exact (submit_hands _ _).bind fun _ => .raise _

theorem step_hands (hsend : c.isSend = true) (s : Session (Recorded α)) : Hands s (s.step c) := by
  cases c with
  | sendControl | sendControlShared =>
    rw [step, SessionCall.method, silently_call]
    exact sendControlWith_hands (submit_hands _ _) s
  | sendReliable | sendReliableShared =>
    rw [step, SessionCall.method, silently_call]
    exact sendReliableWith_hands (submit_hands _ _) s
  | sendDatagram =>
    rw [step, SessionCall.method, silently_call]
    exact sendDatagram_hands _ _ s
  | _ => cases hsend

theorem step_unready {s : Session (Recorded α)} (hsend : c.isSend = true)
    (hready : s.isReady = false) : s.step c = s := by
  have hrefused : s.requireSendable = .error ⟨.notReady s.state, ErrorCode.malformedFrame⟩ := by
    rw [requireSendable, rejectIf_pos (by simp [hready]), error_bind]
  cases c with
  | sendControl | sendControlShared =>
    simp only [step, SessionCall.method, silently_call, sendControl, sendControlShared, sendControlWith]
    rw [bind_call_ok get_call, hrefused, bind_call_error (raise_call _)]
  | sendReliable | sendReliableShared =>
    simp only [step, SessionCall.method, silently_call, sendReliable, sendReliableShared,
      sendReliableWith]
    rw [bind_call_ok get_call, hrefused, bind_call_error (raise_call _)]
  | sendDatagram =>
    rw [step, SessionCall.method, silently_call, sendDatagram, bind_call_ok get_call, hrefused,
      bind_call_error (raise_call _)]
  | _ => cases hsend

end Session

end ObjectTransfer.Sessions
