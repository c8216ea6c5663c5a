import ObjectTransfer.Foundations.History
import ObjectTransfer.Foundations.Runs
import ObjectTransfer.Sessions.Frames

/-! # What a call can do to a negotiation

Every call of the state machine, with the changes it can make. All facts about runs are derived from
this list.
-/

namespace ObjectTransfer.Sessions
open Foundations Codec

inductive Call where
  | begin
  | acceptControl (frame : Bytes)
  | present (request : SessionOpen)
  | grant (grantedScope : Bytes)
  | refuse (reason : UInt16) (detail : String)
  | abandon
  | carrierClosed

namespace Negotiation

/-- The calls under one signature; frames to send are a reply. -/
def call (n : Negotiation) : Call → Except Error Accepted × Negotiation
  | .begin => (n.begin.1.map .consumed, n.begin.2)
  | .acceptControl frame => n.acceptControl frame
  | .present request => ((n.present request).1.map .consumed, (n.present request).2)
  | .grant scope => ((n.grant scope).1.map .consumed, (n.grant scope).2)
  | .refuse reason detail => ((n.refuse reason detail).1.map .consumed, (n.refuse reason detail).2)
  | .abandon => (.ok (.consumed []), n.abandon)
  | .carrierClosed => (n.carrierClosed.1.map fun _ => .consumed [], n.carrierClosed.2)

end Negotiation

/-- The frames an outcome asks to be sent. -/
def replyOf : Except Error Accepted → List Bytes
  | .ok (.consumed reply) => reply
  | _ => []

/-- A request answers a challenge: its format was offered and its proof fits the binding. -/
def Answers (challenge : AuthContext) (request : SessionOpen) : Prop :=
  request.capabilityFormat ∈ challenge.formats ∧
    bindingProofAgrees challenge.binding request.bindingProof

/-- Everything a call can do. -/
inductive Move (n : Negotiation) : Call → Except Error Accepted → Negotiation → Prop
  | failed {c : Call} {error : Error} : Move n c (.error error) n
  | skipped {frame : Bytes}
      (hframe : ∀ frameType payload, n.readFrame frame = some (frameType, payload) →
        frameType = FrameType.settingsAck) :
      Move n (.acceptControl frame) (.ok (.consumed [])) n
  | application {frame payload : Bytes} {frameType : ℕ}
      (hread : n.readFrame frame = some (frameType, payload)) (hother : frameType ∉ exchangeTypes)
      (hready : n.state.isReady = true ∨ requiresAuthentication frameType = false) :
      Move n (.acceptControl frame) (.ok .application) n
  | reserved {outcome : Except Error Accepted} (hstate : n.state = .connecting)
      (houtcome : ∀ accepted, outcome = .ok accepted → accepted = .consumed []) :
      Move n .begin outcome { n with state := .controlReserved }
  | offered {frames : List Bytes} (hstate : n.state = .connecting) (hrole : n.role = .client)
      (hframes : n.openingFrames = .ok frames) :
      Move n .begin (.ok (.consumed frames)) { n with state := .helloSent }
  | hello {frame payload : Bytes} {hello : Hello}
      (hread : n.readFrame frame = some (FrameType.hello, payload))
      (hstate : n.state = n.helloExpected.1) (hnone : n.peerHello = none) :
      Move n (.acceptControl frame) (.ok (.consumed []))
        { n with peerHello := some hello, state := .helloSent }
  | settings {frame payload : Bytes} {settings : Settings} {outcome : Except Error Accepted}
      (hread : n.readFrame frame = some (FrameType.settings, payload))
      (hstate : n.state = .helloSent) (hnone : n.peerSettings = none)
      (hsettings : decodeSettings payload = .ok settings)
      (houtcome : ∀ accepted, outcome = .ok accepted → accepted = .consumed []) :
      Move n (.acceptControl frame) outcome
        { n with peerSettings := some settings, state := .settingsExchanged }
  | answered {frame payload : Bytes} {settings : Settings} {reply : List Bytes} {state : State}
      (hread : n.readFrame frame = some (FrameType.settings, payload)) (hrole : n.role = .server)
      (hstate : n.state = .helloSent) (hnone : n.peerSettings = none)
      (hsettings : decodeSettings payload = .ok settings)
      (hnext : state = if n.challenge.formats = [] then .authenticated else .negotiated)
      (hreply : ∀ bytes ∈ reply, ExchangeFrame bytes) :
      Move n (.acceptControl frame) (.ok (.consumed reply))
        { n with peerSettings := some settings, state := state }
  | acknowledged {frame payload : Bytes}
      (hread : n.readFrame frame = some (FrameType.settingsAck, payload)) (hrole : n.role = .client)
      (hstate : n.state = .settingsExchanged) :
      Move n (.acceptControl frame) (.ok (.consumed [])) { n with state := .negotiated }
  | concluded {frame payload : Bytes} {context : AuthContext}
      (hread : n.readFrame frame = some (FrameType.authContext, payload)) (hrole : n.role = .client)
      (hstate : n.state = .negotiated) (hunread : n.challengeRead = false)
      (hcontext : decodeAuthContext payload = .ok context) (hformats : context.formats = []) :
      Move n (.acceptControl frame) (.ok (.consumed []))
        { n with challengeRead := true, challenge := context, state := .authenticated }
  | challenged {frame payload : Bytes} {context : AuthContext}
      (hread : n.readFrame frame = some (FrameType.authContext, payload)) (hrole : n.role = .client)
      (hunread : n.challengeRead = false) :
      Move n (.acceptControl frame) (.ok .presentationRequired)
        { n with challengeRead := true, challenge := context }
  | accepted {frame payload : Bytes} {request : SessionOpen} {accept : SessionAccept}
      (hread : n.readFrame frame = some (FrameType.sessionAccept, payload))
      (hrole : n.role = .client) (hstate : n.state = .negotiated) (hopened : n.opened = some request)
      (haccept : decodeSessionAccept payload = .ok accept)
      (hsame : accept.sessionId = request.sessionId) :
      Move n (.acceptControl frame) (.ok (.consumed []))
        { n with opened := none, refusal := none, granted := some accept, state := .authenticated }
  | rejected {frame payload : Bytes} {request : SessionOpen} {reject : SessionReject}
      (hread : n.readFrame frame = some (FrameType.sessionReject, payload))
      (hrole : n.role = .client) (hstate : n.state = .negotiated) (hopened : n.opened = some request)
      (hsame : reject.sessionId = request.sessionId) :
      Move n (.acceptControl frame) (.ok .presentationRequired)
        { n with opened := none, refusal := some reject }
  | requested {frame payload : Bytes} {request : SessionOpen}
      (hread : n.readFrame frame = some (FrameType.sessionOpen, payload))
      (hrole : n.role = .server) (hstate : n.state = .negotiated) (hopened : n.opened = none)
      (hroom : n.attempted.length < maxAuthenticationAttempts)
      (hrequest : decodeSessionOpen payload = .ok request)
      (hfresh : request.sessionId ∉ n.attempted) (hanswers : Answers n.challenge request) :
      Move n (.acceptControl frame) (.ok .authorizationRequired)
        { n with attempted := n.attempted ++ [request.sessionId], opened := some request }
  | presented {request : SessionOpen} {bytes : Bytes} (hrole : n.role = .client)
      (hstate : n.state = .negotiated) (hopened : n.opened = none)
      (hroom : n.attempted.length < maxAuthenticationAttempts)
      (hfresh : request.sessionId ∉ n.attempted) (hanswers : Answers n.challenge request)
      (hframe : ExchangeFrame bytes) :
      Move n (.present request) (.ok (.consumed [bytes]))
        { n with attempted := n.attempted ++ [request.sessionId], refusal := none,
                 opened := some request }
  | granted {request : SessionOpen} {scope bytes : Bytes} (hopened : n.opened = some request)
      (hframe : ExchangeFrame bytes) :
      Move n (.grant scope) (.ok (.consumed [bytes]))
        { n with granted := some ⟨request.sessionId, scope⟩, opened := none,
                 state := .authenticated }
  | refused {request : SessionOpen} {reason : UInt16} {detail : String} {bytes : Bytes}
      (hopened : n.opened = some request) (hframe : ExchangeFrame bytes) :
      Move n (.refuse reason detail) (.ok (.consumed [bytes])) { n with opened := none }
  | closed {c : Call} {outcome : Except Error Accepted} (hcall : c = .abandon ∨ c = .carrierClosed)
      (houtcome : ∀ accepted, outcome = .ok accepted → accepted = .consumed []) :
      Move n c outcome { n with state := .closed }

namespace Negotiation

variable {n : Negotiation} {c : Call}

/-- A handler that keeps the state on an error makes a move when its successes do. -/
theorem keeping_move {result : Except Error (Accepted × Negotiation)}
    (h : ∀ accepted next, result = .ok (accepted, next) → Move n c (.ok accepted) next) :
    Move n c (keeping n result).1 (keeping n result).2 := by
  obtain ⟨error, -, hkeep⟩ | ⟨accepted, next, hresult, hkeep⟩ := keeping_cases n result
  · rw [hkeep]
    exact .failed
  · rw [hkeep]
    exact h accepted next hresult

theorem keeping_reply_move {result : Except Error (List Bytes × Negotiation)}
    (h : ∀ frames next, result = .ok (frames, next) → Move n c (.ok (.consumed frames)) next) :
    Move n c ((keeping n result).1.map .consumed) (keeping n result).2 := by
  obtain ⟨error, -, hkeep⟩ | ⟨frames, next, hresult, hkeep⟩ := keeping_cases n result
  · rw [hkeep]
    exact .failed
  · rw [hkeep]
    exact h frames next hresult

theorem begin_move : Move n .begin (n.begin.1.map .consumed) n.begin.2 := by
  unfold begin
  by_cases hstate : n.state = .connecting
  · rw [if_neg (not_not.mpr hstate)]
    split_ifs with hrole
    · exact .reserved hstate (by rintro _ ⟨⟩; rfl)
    · have hclient : n.role = .client := n.role.eq_client_or_server.resolve_right hrole
      cases hframes : n.openingFrames with
      | ok => exact .offered hstate hclient hframes
      | error => exact .reserved hstate (by rintro _ ⟨⟩)
  · rw [if_pos hstate]
    exact .failed

section Accept

variable {frame payload : Bytes} {frameType : ℕ} {accepted : Accepted} {next : Negotiation}

theorem acceptHello_move (hread : n.readFrame frame = some (FrameType.hello, payload))
    (h : n.acceptHello payload = .ok (accepted, next)) :
    Move n (.acceptControl frame) (.ok accepted) next := by
  simp only [acceptHello, bind_eq_ok, rejectIf_eq_ok, mapError_eq_ok, pure_eq_ok, Prod.mk.injEq,
    not_or, not_not, Bool.not_eq_true, Option.isSome_eq_false_iff, Option.isNone_iff_eq_none] at h
  obtain ⟨_, ⟨hstate, hnone⟩, hello, -, rfl, rfl⟩ := h
  exact .hello hread hstate hnone

theorem replySettings_cases (n : Negotiation) :
    (∃ outcome, n.replySettings = (outcome, n) ∧
      ∀ accepted, outcome = .ok accepted → accepted = .consumed []) ∨
    n.role = .server ∧ ∃ reply, (∀ bytes ∈ reply, ExchangeFrame bytes) ∧
      n.replySettings = (.ok (.consumed reply), { n with
        state := if n.challenge.formats = [] then .authenticated else .negotiated }) := by
  obtain hrole | hrole := n.role.eq_client_or_server
  · have hreply : n.replySettings = (.ok (.consumed []), n) := by rw [replySettings, hrole]
    exact .inl ⟨_, hreply, by rintro _ ⟨⟩; rfl⟩
  · have hreply : n.replySettings = keeping n n.answerSettings := by rw [replySettings, hrole]
    rw [hreply]
    obtain ⟨error, -, hkeep⟩ | ⟨accepted, next, hanswer, hkeep⟩ := keeping_cases n n.answerSettings
    · exact .inl ⟨_, hkeep, by rintro _ ⟨⟩⟩
    · obtain ⟨reply, rfl, hreply, rfl⟩ := answerSettings_exchange hanswer
      exact .inr ⟨hrole, reply, hreply, hkeep⟩

theorem acceptSettings_move (hread : n.readFrame frame = some (FrameType.settings, payload)) :
    Move n (.acceptControl frame) (n.acceptSettings payload).1 (n.acceptSettings payload).2 := by
  unfold acceptSettings
  cases hsettings : n.readSettings payload with
  | error => exact .failed
  | ok settings =>
    simp only [readSettings, bind_eq_ok, rejectIf_eq_ok, mapError_eq_ok, not_or, not_not,
      Bool.not_eq_true, Option.isSome_eq_false_iff, Option.isNone_iff_eq_none] at hsettings
    obtain ⟨_, hnone, _, ⟨hstate, -⟩, hsettings⟩ := hsettings
    dsimp only
    obtain ⟨outcome, hreply, houtcome⟩ | ⟨hrole, reply, hexchange, hreply⟩ :=
      replySettings_cases { n with peerSettings := some settings, state := .settingsExchanged }
    · rw [hreply]
      exact .settings hread hstate hnone hsettings houtcome
    · rw [hreply]
      exact .answered hread hrole hstate hnone hsettings rfl hexchange

theorem acceptSettingsAck_move (hread : n.readFrame frame = some (FrameType.settingsAck, payload))
    (h : n.acceptSettingsAck = .ok (accepted, next)) :
    Move n (.acceptControl frame) (.ok accepted) next := by
  unfold acceptSettingsAck at h
  split_ifs at h with hagain
  · cases h
    exact .skipped fun frameType payload hother => by
      rw [hread] at hother
      exact (Prod.mk.inj (Option.some.inj hother)).1.symm
  · simp only [bind_eq_ok, rejectIf_eq_ok, pure_eq_ok, Prod.mk.injEq, not_or, not_not] at h
    obtain ⟨_, ⟨hrole, hstate⟩, rfl, rfl⟩ := h
    exact .acknowledged hread hrole hstate

theorem acceptAuthContext_move (hread : n.readFrame frame = some (FrameType.authContext, payload))
    (h : n.acceptAuthContext payload = .ok (accepted, next)) :
    Move n (.acceptControl frame) (.ok accepted) next := by
  simp only [acceptAuthContext, bind_eq_ok, rejectIf_eq_ok, mapError_eq_ok, not_or, not_not,
    Bool.not_eq_true] at h
  obtain ⟨_, ⟨hrole, hstate, hunread⟩, context, hcontext, h⟩ := h
  split_ifs at h with hformats
  · cases h
    exact .concluded hread hrole hstate hunread hcontext hformats
  · simp only [bind_eq_ok, pure_eq_ok, Prod.mk.injEq] at h
    obtain ⟨_, -, rfl, rfl⟩ := h
    exact .challenged hread hrole hunread

theorem answeredAttempt_eq_ok {sent : Block 16} :
    n.answeredAttempt frameType = .ok sent ↔ n.role = .client ∧ n.state = .negotiated ∧
      ∃ request, n.opened = some request ∧ request.sessionId = sent := by
  unfold answeredAttempt
  split
  · next request hrole hstate hopened => simp [hrole, hstate, hopened]
  · next hother =>
    refine iff_of_false (by simp) ?_
    rintro ⟨hrole, hstate, request, hopened, -⟩
    exact hother request hrole hstate hopened

theorem acceptSessionAccept_move
    (hread : n.readFrame frame = some (FrameType.sessionAccept, payload))
    (h : n.acceptSessionAccept payload = .ok (accepted, next)) :
    Move n (.acceptControl frame) (.ok accepted) next := by
  simp only [acceptSessionAccept, requireAnswersAttempt, bind_eq_ok, answeredAttempt_eq_ok,
    mapError_eq_ok, rejectIf_eq_ok, not_not, pure_eq_ok, Prod.mk.injEq] at h
  obtain ⟨_, ⟨hrole, hstate, request, hopened, rfl⟩, accept, haccept, _, hsame, rfl, rfl⟩ := h
  exact .accepted hread hrole hstate hopened haccept hsame

theorem acceptSessionReject_move
    (hread : n.readFrame frame = some (FrameType.sessionReject, payload))
    (h : n.acceptSessionReject payload = .ok (accepted, next)) :
    Move n (.acceptControl frame) (.ok accepted) next := by
  simp only [acceptSessionReject, requireAnswersAttempt, bind_eq_ok, answeredAttempt_eq_ok,
    mapError_eq_ok, rejectIf_eq_ok, not_not, pure_eq_ok, Prod.mk.injEq] at h
  obtain ⟨_, ⟨hrole, hstate, request, hopened, rfl⟩, reject, -, _, hsame, rfl, rfl⟩ := h
  exact .rejected hread hrole hstate hopened hsame

theorem acceptSessionOpen_move (hread : n.readFrame frame = some (FrameType.sessionOpen, payload))
    (h : n.acceptSessionOpen payload = .ok (accepted, next)) :
    Move n (.acceptControl frame) (.ok accepted) next := by
  simp only [acceptSessionOpen, bind_eq_ok, mapError_eq_ok, rejectIf_eq_ok, not_or, not_not,
    pure_eq_ok, Prod.mk.injEq, Bool.not_eq_true, Option.isSome_eq_false_iff,
    Option.isNone_iff_eq_none, not_le] at h
  obtain ⟨_, ⟨hrole, hstate, -, hopened⟩, _, hroom, request, hrequest, _, hfresh, _, hformat, _,
    hproof, rfl, rfl⟩ := h
  exact .requested hread hrole hstate hopened hroom hrequest hfresh ⟨hformat, by simpa using hproof⟩

theorem acceptApplication_move (hread : n.readFrame frame = some (frameType, payload))
    (hother : frameType ∉ exchangeTypes) (h : n.acceptApplication frameType = .ok (accepted, next)) :
    Move n (.acceptControl frame) (.ok accepted) next := by
  simp only [acceptApplication, bind_eq_ok, rejectIf_eq_ok, pure_eq_ok, Prod.mk.injEq, not_and,
    Bool.not_eq_true] at h
  obtain ⟨_, -, _, hready, rfl, rfl⟩ := h
  refine .application hread hother ?_
  cases hstate : n.state.isReady with
  | true => exact .inl rfl
  | false => exact .inr (hready hstate)

theorem acceptFrame_move (hread : n.readFrame frame = some (frameType, payload)) :
    Move n (.acceptControl frame) (n.acceptFrame frameType payload).1
      (n.acceptFrame frameType payload).2 := by
  unfold acceptFrame
  split_ifs with h1 h2 h3 h4 h5 h6 h7
  · exact keeping_move fun _ _ => acceptHello_move (h1 ▸ hread)
  · exact acceptSettings_move (h2 ▸ hread)
  · exact keeping_move fun _ _ => acceptSettingsAck_move (h3 ▸ hread)
  · exact keeping_move fun _ _ => acceptAuthContext_move (h4 ▸ hread)
  · exact keeping_move fun _ _ => acceptSessionOpen_move (h5 ▸ hread)
  · exact keeping_move fun _ _ => acceptSessionAccept_move (h6 ▸ hread)
  · exact keeping_move fun _ _ => acceptSessionReject_move (h7 ▸ hread)
  · exact keeping_move fun _ _ => acceptApplication_move hread
      (by simp [exchangeTypes, h1, h2, h3, h4, h5, h6, h7])

end Accept

theorem acceptControl_move (frame : Bytes) :
    Move n (.acceptControl frame) (n.acceptControl frame).1 (n.acceptControl frame).2 := by
  cases hread : n.readFrame frame with
  | some =>
    rw [acceptControl_of_read hread]
    exact acceptFrame_move hread
  | none =>
    obtain ⟨error, hcall⟩ | hcall := acceptControl_of_unread hread
    · rw [hcall]
      exact .failed
    · rw [hcall]
      exact .skipped fun _ _ hsome => by simp [hread] at hsome

theorem pendingPresentation_eq_some {challenge : AuthContext} :
    n.pendingPresentation = some challenge ↔ n.role = .client ∧ n.state = .negotiated ∧
      n.presenting = true ∧ n.challengeRead = true ∧ n.opened = none ∧ challenge = n.challenge := by
  rw [pendingPresentation, Option.ite_none_right_eq_some, Option.some.injEq]
  simp only [and_assoc, eq_comm]

variable {frames : List Bytes} {next : Negotiation}

theorem presented_eq_ok {request : SessionOpen} :
    n.presented request = .ok (frames, next) ↔
      n.pendingPresentation = some n.challenge ∧ n.attempted.length < maxAuthenticationAttempts ∧
      request.sessionId ∉ n.attempted ∧ Answers n.challenge request ∧
      ∃ payload, encodeSessionOpen request = .ok payload ∧ Fits FrameType.sessionOpen payload ∧
        (∀ peer, n.peerSettings = some peer → payload.length ≤ peer.maxControlFramePayload) ∧
        frames = [frameBytes (FrameType.sessionOpen, payload)] ∧
        next = { n with attempted := n.attempted ++ [request.sessionId], refusal := none,
                        opened := some request } := by
  have hpending : n.pendingPresentation.isNone = false ↔
      n.pendingPresentation = some n.challenge := by
    unfold pendingPresentation
    split_ifs <;> simp
  simp only [presented, bind_eq_ok, rejectIf_eq_ok, not_not, Bool.not_eq_true, hpending,
    attemptsRemaining, Nat.sub_eq_zero_iff_le, not_le, Bool.not_eq_false, exists_const, and_assoc,
    ↓answer_eq_ok (show FrameType.sessionOpen ∈ exchangeTypes by decide), Answers]

theorem grants_eq_ok {scope : Bytes} :
    n.grants scope = .ok (frames, next) ↔ ∃ request payload, n.opened = some request ∧
      encodeSessionAccept ⟨request.sessionId, scope⟩ = .ok payload ∧
      Fits FrameType.sessionAccept payload ∧
      (∀ peer, n.peerSettings = some peer → payload.length ≤ peer.maxControlFramePayload) ∧
      frames = [frameBytes (FrameType.sessionAccept, payload)] ∧
      next = { n with granted := some ⟨request.sessionId, scope⟩, opened := none,
                      state := .authenticated } := by
  simp only [grants, bind_eq_ok, okOr_eq_ok, exists_and_left,
    ↓answer_eq_ok (show FrameType.sessionAccept ∈ exchangeTypes by decide)]

theorem refuses_eq_ok {reason : UInt16} {detail : String} :
    n.refuses reason detail = .ok (frames, next) ↔ ∃ request payload, n.opened = some request ∧
      encodeSessionReject ⟨request.sessionId, reason.toUInt64, detail⟩ = .ok payload ∧
      Fits FrameType.sessionReject payload ∧
      (∀ peer, n.peerSettings = some peer → payload.length ≤ peer.maxControlFramePayload) ∧
      frames = [frameBytes (FrameType.sessionReject, payload)] ∧
      next = { n with opened := none } := by
  simp only [refuses, bind_eq_ok, okOr_eq_ok, exists_and_left,
    ↓answer_eq_ok (show FrameType.sessionReject ∈ exchangeTypes by decide)]

theorem present_move (request : SessionOpen) :
    Move n (.present request) ((n.present request).1.map .consumed) (n.present request).2 := by
  refine keeping_reply_move fun frames next h => ?_
  obtain ⟨hpending, hroom, hfresh, hanswers, payload, -, -, -, rfl, rfl⟩ := presented_eq_ok.mp h
  obtain ⟨hrole, hstate, -, -, hopened, -⟩ := pendingPresentation_eq_some.mp hpending
  exact .presented hrole hstate hopened hroom hfresh hanswers ⟨_, by decide, payload, rfl⟩

theorem grant_move (scope : Bytes) :
    Move n (.grant scope) ((n.grant scope).1.map .consumed) (n.grant scope).2 := by
  refine keeping_reply_move fun frames next h => ?_
  obtain ⟨request, payload, hopened, -, -, -, rfl, rfl⟩ := grants_eq_ok.mp h
  exact .granted hopened ⟨_, by decide, payload, rfl⟩

theorem refuse_move (reason : UInt16) (detail : String) :
    Move n (.refuse reason detail) ((n.refuse reason detail).1.map .consumed)
      (n.refuse reason detail).2 := by
  refine keeping_reply_move fun frames next h => ?_
  obtain ⟨request, payload, hopened, -, -, -, rfl, rfl⟩ := refuses_eq_ok.mp h
  exact .refused hopened ⟨_, by decide, payload, rfl⟩

theorem call_move (n : Negotiation) (c : Call) : Move n c (n.call c).1 (n.call c).2 := by
  cases c with
  | begin => exact begin_move
  | acceptControl frame => exact acceptControl_move frame
  | present request => exact present_move request
  | grant scope => exact grant_move scope
  | refuse reason detail => exact refuse_move reason detail
  | abandon => exact .closed (.inl rfl) (by rintro _ ⟨⟩; rfl)
  | carrierClosed =>
    refine .closed (.inr rfl) ?_
    intro accepted h
    rw [call, carrierClosed] at h
    cases hresult : n.carrierClosed.1 with
    | ok =>
      rw [carrierClosed] at hresult
      rw [hresult] at h
      exact (Except.ok.inj h).symm
    | error =>
      rw [carrierClosed] at hresult
      rw [hresult] at h
      cases h

theorem reply_exchange (n : Negotiation) (c : Call) :
    ∀ bytes ∈ replyOf (n.call c).1, ExchangeFrame bytes := by
  have hmove := n.call_move c
  generalize n.call c = result at hmove
  obtain ⟨outcome, next⟩ := result
  have hnone (h : ∀ accepted, outcome = .ok accepted → accepted = .consumed []) :
      ∀ bytes ∈ replyOf outcome, ExchangeFrame bytes := by
    cases outcome with
    | error => simp [replyOf]
    | ok accepted => simp [replyOf, h accepted rfl]
  cases hmove with
  | reserved _ houtcome | settings _ _ _ _ houtcome | closed _ houtcome => exact hnone houtcome
  | offered hstate hrole hframes => exact openingFrames_exchange hframes
  | answered hread hrole hstate hnone hsettings hnext hreply => exact hreply
  | presented _ _ _ _ _ _ hframe | granted _ hframe | refused _ hframe =>
    exact List.forall_mem_singleton.mpr hframe
  | _ => simp [replyOf]

end Negotiation

end ObjectTransfer.Sessions
