import ObjectTransfer.Sessions.Moves

/-! # Two endpoints

A client and a server with the frames in flight between them, delivered in order but at any time. A
reachable pair is at one of a few stages, and each stage says what both ends hold and which turns
move it. All other turns fail and change nothing.
-/

namespace ObjectTransfer.Sessions
open Foundations Codec Negotiation

structure Setup where
  clientSettings : Settings
  serverSettings : Settings
  clientExtensions : Finset ℕ
  serverExtensions : Finset ℕ
  challenge : AuthContext
  presenting : Bool

structure World where
  client : Negotiation
  server : Negotiation
  toServer : List Bytes
  toClient : List Bytes

inductive Turn where
  | beginClient
  | beginServer
  | deliverToServer
  | deliverToClient
  | present (request : SessionOpen)
  | grant (grantedScope : Bytes)
  | refuse (reason : UInt16) (detail : String)

variable {w : World}

namespace World

/-- A call of the client, whose frames go out. -/
def clientCall (w : World) (c : Call) : World :=
  { w with client := (w.client.call c).2, toServer := w.toServer ++ replyOf (w.client.call c).1 }

def serverCall (w : World) (c : Call) : World :=
  { w with server := (w.server.call c).2, toClient := w.toClient ++ replyOf (w.server.call c).1 }

def step (w : World) : Turn → World
  | .beginClient => w.clientCall .begin
  | .beginServer => w.serverCall .begin
  | .deliverToServer =>
    match w.toServer with
    | [] => w
    | frame :: rest => { w with toServer := rest }.serverCall (.acceptControl frame)
  | .deliverToClient =>
    match w.toClient with
    | [] => w
    | frame :: rest => { w with toClient := rest }.clientCall (.acceptControl frame)
  | .present request => w.clientCall (.present request)
  | .grant scope => w.serverCall (.grant scope)
  | .refuse reason detail => w.serverCall (.refuse reason detail)

def reception (w : World) : Turn → Option (Except Error Accepted)
  | .deliverToServer => w.toServer.head?.map fun frame => (w.server.call (.acceptControl frame)).1
  | .deliverToClient => w.toClient.head?.map fun frame => (w.client.call (.acceptControl frame)).1
  | _ => none

/-- Each end begins before it accepts frames. -/
def Allowed (w : World) : Turn → Prop
  | .deliverToServer => w.server.state ≠ .connecting
  | .deliverToClient => w.client.state ≠ .connecting
  | _ => True

inductive Reached (start : World) : World → Prop
  | start : Reached start start
  | step {w : World} {turn : Turn} (h : Reached start w) (hallowed : w.Allowed turn) :
      Reached start (w.step turn)

def Idle (w : World) : Turn → Prop
  | .beginClient => w.client.state ≠ .connecting
  | .beginServer => w.server.state ≠ .connecting
  | .deliverToServer => w.toServer = []
  | .deliverToClient => w.toClient = []
  | .present _ => w.client.pendingPresentation = none
  | .grant _ | .refuse _ _ => w.server.opened = none

/-- A reply of the client is sent, and one that fails leaves everything as it was. -/
def clientReplies (w : World) : Except Error (List Bytes × Negotiation) → World
  | .error _ => w
  | .ok (frames, next) => { w with client := next, toServer := w.toServer ++ frames }

def serverReplies (w : World) : Except Error (List Bytes × Negotiation) → World
  | .error _ => w
  | .ok (frames, next) => { w with server := next, toClient := w.toClient ++ frames }

theorem step_present (w : World) (request : SessionOpen) :
    w.step (.present request) = w.clientReplies (w.client.presented request) := by
  rw [step, clientCall, call, present]
  cases w.client.presented request with
  | error => simp [clientReplies, keeping, replyOf, Except.map]
  | ok => rfl

theorem step_grant (w : World) (scope : Bytes) :
    w.step (.grant scope) = w.serverReplies (w.server.grants scope) := by
  rw [step, serverCall, call, grant]
  cases w.server.grants scope with
  | error => simp [serverReplies, keeping, replyOf, Except.map]
  | ok => rfl

theorem step_refuse (w : World) (reason : UInt16) (detail : String) :
    w.step (.refuse reason detail) = w.serverReplies (w.server.refuses reason detail) := by
  rw [step, serverCall, call, refuse]
  cases w.server.refuses reason detail with
  | error => simp [serverReplies, keeping, replyOf, Except.map]
  | ok => rfl

end World

namespace Negotiation

variable {n : Negotiation} {payload : Bytes}

/-- A frame of the exchange reaches the function that accepts frames of its type. -/
theorem call_frameBytes {frameType : ℕ}
    (hreads : n.localSettings.maxControlFramePayload ≤ hardMaxFramePayload)
    (htype : frameType ∈ exchangeTypes) (hfits : Fits frameType payload) :
    n.call (.acceptControl (frameBytes (frameType, payload))) = n.acceptFrame frameType payload := by
  rw [call, acceptControl_of_read (readFrame_frameBytes htype hfits hreads)]

theorem acceptFrame_hello {hello : Hello} (hstate : n.state = n.helloExpected.1)
    (hnone : n.peerHello = none) (hdecode : decodeHello payload n.helloExpected.2 = .ok hello) :
    n.acceptFrame FrameType.hello payload =
      (.ok (.consumed []), { n with peerHello := some hello, state := .helloSent }) := by
  have hsequence : ¬ (n.state ≠ n.helloExpected.1 ∨ n.peerHello.isSome = true) := by
    simp [hstate, hnone]
  rw [acceptFrame, if_pos rfl, acceptHello, rejectIf_neg hsequence, hdecode]
  rfl

theorem acceptFrame_settings {settings : Settings} (hstate : n.state = .helloSent)
    (hnone : n.peerSettings = none) (hhello : n.peerHello ≠ none)
    (hdecode : decodeSettings payload = .ok settings) :
    n.acceptFrame FrameType.settings payload =
      replySettings { n with peerSettings := some settings, state := .settingsExchanged } := by
  have hsequence : ¬ (n.state ≠ .helloSent ∨ n.peerHello.isNone = true) := by
    simp [hstate, hhello]
  rw [acceptFrame, if_neg (by decide), if_pos rfl, acceptSettings, readSettings,
    rejectIf_neg (by simp [hnone]), ok_bind, rejectIf_neg hsequence, ok_bind, hdecode]
  rfl

theorem begin_offers {frames : List Bytes} (hstate : n.state = .connecting) (hrole : n.role = .client)
    (hframes : n.openingFrames = .ok frames) :
    n.call .begin = (.ok (.consumed frames), { n with state := .helloSent }) := by
  rw [call, begin, if_neg (not_not.mpr hstate), if_neg (by rw [hrole]; decide), hframes]
  rfl

end Negotiation

theorem World.step_idle {turn : Turn} (h : w.Idle turn) : w.step turn = w := by
  cases turn with
  | beginClient =>
    rw [step, clientCall, call, begin, if_pos (by exact h)]
    simp [replyOf, Except.map]
  | beginServer =>
    rw [step, serverCall, call, begin, if_pos (by exact h)]
    simp [replyOf, Except.map]
  | deliverToServer =>
    change w.toServer = [] at h
    rw [step, h]
  | deliverToClient =>
    change w.toClient = [] at h
    rw [step, h]
  | present request =>
    change w.client.pendingPresentation = none at h
    rw [step_present]
    cases hpresented : w.client.presented request with
    | error => rfl
    | ok reply =>
      obtain ⟨hpending, -⟩ := presented_eq_ok.mp hpresented
      rw [h] at hpending
      cases hpending
  | grant scope =>
    change w.server.opened = none at h
    rw [step_grant]
    cases hgrants : w.server.grants scope with
    | error => rfl
    | ok reply =>
      obtain ⟨request, payload, hopened, -⟩ := grants_eq_ok.mp hgrants
      rw [h] at hopened
      cases hopened
  | refuse reason detail =>
    change w.server.opened = none at h
    rw [step_refuse]
    cases hrefuses : w.server.refuses reason detail with
    | error => rfl
    | ok reply =>
      obtain ⟨request, payload, hopened, -⟩ := refuses_eq_ok.mp hrefuses
      rw [h] at hopened
      cases hopened

namespace Setup

variable (cfg : Setup)

/-- Settings in their ranges, extensions that a HELLO carries, and a challenge that can be encoded
within the client's control limit and that the client will answer. -/
structure Honest : Prop where
  client : cfg.clientSettings.InRange
  server : cfg.serverSettings.InRange
  count : cfg.clientExtensions.card ≤ maxExtensionsPerHello
  identifiers : ∀ extension ∈ cfg.clientExtensions, extension ≤ maxQuicVarint
  challenge : ∃ payload, encodeAuthContext cfg.challenge = .ok payload ∧
    payload.length ≤ cfg.clientSettings.maxControlFramePayload
  presents : cfg.challenge.formats ≠ [] → cfg.presenting = true

def common : Finset ℕ := cfg.serverExtensions ∩ cfg.clientExtensions

/-! ## What each end holds on the way -/

def start : World where
  client :=
    if cfg.presenting then .presentingClient cfg.clientSettings cfg.clientExtensions
    else .client cfg.clientSettings cfg.clientExtensions
  server := .server cfg.serverSettings cfg.serverExtensions cfg.challenge
  toServer := []
  toClient := []

def clientStart : Negotiation :=
  .new .client cfg.clientSettings cfg.clientExtensions (noCapability (.replicate 32 0)) cfg.presenting

def serverStart : Negotiation := .server cfg.serverSettings cfg.serverExtensions cfg.challenge

theorem start_eq : cfg.start = ⟨cfg.clientStart, cfg.serverStart, [], []⟩ := by
  unfold start clientStart
  cases cfg.presenting <;> rfl

def clientBegun : Negotiation := { cfg.clientStart with state := .helloSent }

def clientGreeted : Negotiation :=
  { cfg.clientBegun with peerHello := some ⟨draftRevision, .server, cfg.common⟩ }

def clientOffered : Negotiation :=
  { cfg.clientGreeted with peerSettings := some cfg.serverSettings, state := .settingsExchanged }

def clientAcknowledged : Negotiation := { cfg.clientOffered with state := .negotiated }

def clientChallenged : Negotiation :=
  { cfg.clientAcknowledged with challengeRead := true, challenge := cfg.challenge }

/-- The client once it has read some of the server's reply. -/
def clientRead : ℕ → Negotiation
  | 0 => cfg.clientBegun
  | 1 => cfg.clientGreeted
  | 2 => cfg.clientOffered
  | _ => cfg.clientAcknowledged

def serverBegun : Negotiation := { cfg.serverStart with state := .controlReserved }

def serverGreeted : Negotiation :=
  { cfg.serverBegun with
    peerHello := some ⟨draftRevision, .client, cfg.clientExtensions⟩, state := .helloSent }

def serverAnswered : Negotiation :=
  { cfg.serverGreeted with
    peerSettings := some cfg.clientSettings
    state := if cfg.challenge.formats = [] then .authenticated else .negotiated }

/-- The frames both ends write, with the reason each is readable. -/
structure Offers where
  clientHello : Bytes
  clientSettings : Bytes
  serverHello : Bytes
  serverSettings : Bytes
  context : Bytes
  clientHello_encoded :
    encodeHello ⟨draftRevision, .client, cfg.clientExtensions⟩ = .ok clientHello
  clientSettings_encoded : encodeSettings cfg.clientSettings = .ok clientSettings
  serverHello_encoded : encodeHello ⟨draftRevision, .server, cfg.common⟩ = .ok serverHello
  serverSettings_encoded : encodeSettings cfg.serverSettings = .ok serverSettings
  context_encoded : encodeAuthContext cfg.challenge = .ok context
  clientHello_fits : Fits FrameType.hello clientHello
  clientSettings_fits : Fits FrameType.settings clientSettings
  serverHello_fits : Fits FrameType.hello serverHello
  serverSettings_fits : Fits FrameType.settings serverSettings
  context_fits : Fits FrameType.authContext context
  context_within : context.length ≤ cfg.clientSettings.maxControlFramePayload

variable {cfg}

theorem Honest.offers (h : cfg.Honest) : Nonempty cfg.Offers := by
  obtain ⟨clientSettings, hclientSettings, hclientLength⟩ := encodeSettings_of_inRange h.client
  obtain ⟨serverSettings, hserverSettings, hserverLength⟩ := encodeSettings_of_inRange h.server
  obtain ⟨clientHello, hclientHello, hclientHelloLength⟩ := encodeHello_of_bounded
    ⟨draftRevision, .client, cfg.clientExtensions⟩ rfl h.count h.identifiers
  obtain ⟨serverHello, hserverHello, hserverHelloLength⟩ := encodeHello_of_bounded
    ⟨draftRevision, .server, cfg.common⟩ rfl
    ((Finset.card_le_card Finset.inter_subset_right).trans h.count)
    (fun extension hmem => h.identifiers extension (Finset.mem_inter.mp hmem).2)
  obtain ⟨context, hcontext, hwithin⟩ := h.challenge
  have hcontextLength := encodeAuthContext_length hcontext
  have hhello : 8 * (3 + maxExtensionsPerHello) ≤ 4 * 1024 := by decide
  refine ⟨clientHello, clientSettings, serverHello, serverSettings, context, hclientHello,
    hclientSettings, hserverHello, hserverSettings, hcontext, ?_, ?_, ?_, ?_, ?_, hwithin⟩
  all_goals exact fits_of_le rfl (by omega) (by decide) (by decide)

namespace Offers

variable (o : cfg.Offers)

def offer : List Bytes :=
  [frameBytes (FrameType.hello, o.clientHello), frameBytes (FrameType.settings, o.clientSettings)]

def reply : List Bytes :=
  [frameBytes (FrameType.hello, o.serverHello), frameBytes (FrameType.settings, o.serverSettings),
    frameBytes (FrameType.settingsAck, []), frameBytes (FrameType.authContext, o.context)]

end Offers

/-! ## Stages -/

/-- A request the client may send when these attempts were made. -/
structure Attempt (cfg : Setup) (attempted : List (Block 16)) (request : SessionOpen) : Prop where
  room : attempted.length < maxAuthenticationAttempts
  fresh : request.sessionId ∉ attempted
  answers : Answers cfg.challenge request

def clientAsking (cfg : Setup) (attempted : List (Block 16)) (request : SessionOpen) : Negotiation :=
  { cfg.clientChallenged with
    attempted := attempted ++ [request.sessionId], opened := some request }

/-- The client between attempts. -/
def clientIdle (cfg : Setup) (attempted : List (Block 16)) (refusal : Option SessionReject) :
    Negotiation :=
  { cfg.clientChallenged with attempted, refusal }

def serverIdle (cfg : Setup) (attempted : List (Block 16)) : Negotiation :=
  { cfg.serverAnswered with attempted }

/-- The server with a request to decide. -/
def serverAsked (cfg : Setup) (attempted : List (Block 16)) (request : SessionOpen) : Negotiation :=
  { cfg.serverAnswered with
    attempted := attempted ++ [request.sessionId], opened := some request }

def clientGranted (cfg : Setup) (attempted : List (Block 16)) (accept : SessionAccept) :
    Negotiation :=
  { cfg.clientChallenged with attempted, granted := some accept, state := .authenticated }

def serverGranted (cfg : Setup) (attempted : List (Block 16)) (accept : SessionAccept) :
    Negotiation :=
  { cfg.serverAnswered with attempted, granted := some accept, state := .authenticated }

inductive Stage (o : cfg.Offers) : World → Prop
  | fresh (clientBegun serverBegun : Bool) :
      Stage o ⟨if clientBegun then cfg.clientBegun else cfg.clientStart,
        if serverBegun then cfg.serverBegun else cfg.serverStart,
        if clientBegun then o.offer else [], []⟩
  | greeted :
      Stage o ⟨cfg.clientBegun, cfg.serverGreeted,
        [frameBytes (FrameType.settings, o.clientSettings)], []⟩
  | answered (read : Fin 4) :
      Stage o ⟨cfg.clientRead read, cfg.serverAnswered, [], o.reply.drop read⟩
  | concluded (hformats : cfg.challenge.formats = []) :
      Stage o ⟨{ cfg.clientChallenged with state := .authenticated }, cfg.serverAnswered, [], []⟩
  | idle {attempted : List (Block 16)} {refusal : Option SessionReject}
      (hformats : cfg.challenge.formats ≠ [])
      (hroom : attempted.length ≤ maxAuthenticationAttempts) :
      Stage o ⟨cfg.clientIdle attempted refusal, cfg.serverIdle attempted, [], []⟩
  | asked {attempted : List (Block 16)} {request : SessionOpen} {payload : Bytes}
      (hattempt : cfg.Attempt attempted request) (hencoded : encodeSessionOpen request = .ok payload)
      (hfits : Fits FrameType.sessionOpen payload) :
      Stage o ⟨cfg.clientAsking attempted request, cfg.serverIdle attempted,
        [frameBytes (FrameType.sessionOpen, payload)], []⟩
  | waiting {attempted : List (Block 16)} {request : SessionOpen}
      (hattempt : cfg.Attempt attempted request) :
      Stage o ⟨cfg.clientAsking attempted request, cfg.serverAsked attempted request, [], []⟩
  | granting {attempted : List (Block 16)} {request : SessionOpen} {scope payload : Bytes}
      (hattempt : cfg.Attempt attempted request)
      (hencoded : encodeSessionAccept ⟨request.sessionId, scope⟩ = .ok payload)
      (hfits : Fits FrameType.sessionAccept payload) :
      Stage o ⟨cfg.clientAsking attempted request,
        cfg.serverGranted (attempted ++ [request.sessionId]) ⟨request.sessionId, scope⟩,
        [], [frameBytes (FrameType.sessionAccept, payload)]⟩
  | refusing {attempted : List (Block 16)} {request : SessionOpen} {reject : SessionReject}
      {payload : Bytes} (hattempt : cfg.Attempt attempted request)
      (hsame : reject.sessionId = request.sessionId)
      (hencoded : encodeSessionReject reject = .ok payload)
      (hfits : Fits FrameType.sessionReject payload) :
      Stage o ⟨cfg.clientAsking attempted request,
        cfg.serverIdle (attempted ++ [request.sessionId]),
        [], [frameBytes (FrameType.sessionReject, payload)]⟩
  | agreed {attempted : List (Block 16)} {accept : SessionAccept}
      (hformats : cfg.challenge.formats ≠ []) :
      Stage o ⟨cfg.clientGranted attempted accept, cfg.serverGranted attempted accept, [], []⟩

variable {attempted : List (Block 16)} {request : SessionOpen}

theorem Attempt.formats (h : cfg.Attempt attempted request) : cfg.challenge.formats ≠ [] :=
  List.ne_nil_of_mem h.answers.1

theorem Attempt.spent (h : cfg.Attempt attempted request) :
    (attempted ++ [request.sessionId]).length ≤ maxAuthenticationAttempts := by
  rw [List.length_append]
  exact h.room

/-! ## The turns that move a stage -/

section Moves

variable (o : cfg.Offers)

theorem begin_client : cfg.clientStart.call .begin = (.ok (.consumed o.offer), cfg.clientBegun) := by
  have hframes : cfg.clientStart.openingFrames = .ok o.offer := by
    have hhello := helloFrame_eq_ok.mpr
      ⟨_, o.clientHello_encoded, o.clientHello_fits, rfl⟩
    have hsettings : cfg.clientStart.settingsFrame = _ := settingsFrame_eq_ok.mpr
      ⟨_, o.clientSettings_encoded, o.clientSettings_fits, rfl⟩
    have hextensions : cfg.clientStart.extensions = cfg.clientExtensions := rfl
    rw [openingFrames, hextensions, hhello, ok_bind, hsettings, ok_bind]
    rfl
  exact begin_offers rfl rfl hframes

theorem begin_server : cfg.serverStart.call .begin = (.ok (.consumed []), cfg.serverBegun) := rfl

variable {payload : Bytes}

section Server

variable (h : cfg.serverSettings.InRange)

include h

theorem server_hello :
    cfg.serverBegun.call (.acceptControl (frameBytes (FrameType.hello, o.clientHello))) =
      (.ok (.consumed []), cfg.serverGreeted) := by
  have hdecode := decodeHello_encoded (by rfl) o.clientHello_encoded
  exact .trans (call_frameBytes h.control.2 (by decide) o.clientHello_fits)
    (acceptFrame_hello rfl rfl hdecode)

theorem server_settings :
    cfg.serverGreeted.call (.acceptControl (frameBytes (FrameType.settings, o.clientSettings))) =
      (.ok (.consumed o.reply), cfg.serverAnswered) := by
  let n : Negotiation :=
    { cfg.serverGreeted with peerSettings := some cfg.clientSettings, state := .settingsExchanged }
  have hread : cfg.serverGreeted.acceptFrame FrameType.settings _ = n.replySettings :=
    acceptFrame_settings rfl rfl (by rintro ⟨⟩)
      (decodeSettings_encoded o.clientSettings_encoded)
  have hhello := helloFrame_eq_ok.mpr ⟨_, o.serverHello_encoded, o.serverHello_fits, rfl⟩
  have hsettings : n.settingsFrame = _ := settingsFrame_eq_ok.mpr
    ⟨_, o.serverSettings_encoded, o.serverSettings_fits, rfl⟩
  have hcontext : n.authContextFrame = _ := authContextFrame_eq_ok.mpr
    ⟨_, o.context_encoded, o.context_fits, by rintro _ ⟨⟩; exact o.context_within, rfl⟩
  have hanswer : n.answerSettings = .ok (.consumed o.reply, cfg.serverAnswered) := by
    have hcommon : n.negotiatedExtensions = cfg.common := rfl
    rw [answerSettings, hcommon, hhello, ok_bind, hsettings, ok_bind,
      settingsAckFrame_eq, ok_bind, hcontext]
    rfl
  refine .trans (call_frameBytes h.control.2 (by decide) o.clientSettings_fits) ?_
  rw [hread]
  change keeping n n.answerSettings = _
  rw [hanswer]
  rfl

theorem server_open
    (hattempt : cfg.Attempt attempted request) (hencoded : encodeSessionOpen request = .ok payload)
    (hfits : Fits FrameType.sessionOpen payload) :
    (cfg.serverIdle attempted).call
        (.acceptControl (frameBytes (FrameType.sessionOpen, payload))) =
      (.ok .authorizationRequired, cfg.serverAsked attempted request) := by
  have hstate : (cfg.serverIdle attempted).state = .negotiated := if_neg hattempt.formats
  refine .trans (call_frameBytes h.control.2 (by decide) hfits) ?_
  change keeping _ ((cfg.serverIdle attempted).acceptSessionOpen payload) = _
  have hidle : (cfg.serverIdle attempted).role = .server ∧
      (cfg.serverIdle attempted).opened = none := ⟨rfl, rfl⟩
  have hformats : (cfg.serverIdle attempted).challenge.formats ≠ [] := hattempt.formats
  rw [acceptSessionOpen, rejectIf_neg (by simp [hidle, hstate, hformats]), ok_bind,
    rejectIf_neg (by exact not_le.mpr hattempt.room), ok_bind, decodeSessionOpen_eq_ok.mpr hencoded]
  simp only [Except.mapError, ok_bind]
  rw [rejectIf_neg (by exact hattempt.fresh), ok_bind,
    rejectIf_neg (by exact not_not.mpr hattempt.answers.1), ok_bind,
    rejectIf_neg (by exact not_not.mpr hattempt.answers.2)]
  rfl

end Server

section Client

variable (h : cfg.clientSettings.InRange)

include h

theorem client_hello :
    cfg.clientBegun.call (.acceptControl (frameBytes (FrameType.hello, o.serverHello))) =
      (.ok (.consumed []), cfg.clientGreeted) := by
  have hdecode := decodeHello_encoded (by rfl) o.serverHello_encoded
  exact .trans (call_frameBytes h.control.2 (by decide) o.serverHello_fits)
    (acceptFrame_hello rfl rfl hdecode)

theorem client_settings :
    cfg.clientGreeted.call (.acceptControl (frameBytes (FrameType.settings, o.serverSettings))) =
      (.ok (.consumed []), cfg.clientOffered) :=
  .trans (call_frameBytes h.control.2 (by decide) o.serverSettings_fits)
    (acceptFrame_settings rfl rfl (by rintro ⟨⟩)
      (decodeSettings_encoded o.serverSettings_encoded))

theorem client_ack :
    cfg.clientOffered.call (.acceptControl (frameBytes (FrameType.settingsAck, []))) =
      (.ok (.consumed []), cfg.clientAcknowledged) :=
  call_frameBytes h.control.2 (by decide) (by decide)

theorem client_context (hpresents : cfg.challenge.formats ≠ [] → cfg.presenting = true) :
    cfg.clientAcknowledged.call (.acceptControl (frameBytes (FrameType.authContext, o.context))) =
      if cfg.challenge.formats = [] then
        (.ok (.consumed []), { cfg.clientChallenged with state := .authenticated })
      else (.ok .presentationRequired, cfg.clientChallenged) := by
  refine .trans (call_frameBytes h.control.2 (by decide) o.context_fits) ?_
  change keeping _ (cfg.clientAcknowledged.acceptAuthContext o.context) = _
  have hunread : cfg.clientAcknowledged.role = .client ∧ cfg.clientAcknowledged.state = .negotiated ∧
      cfg.clientAcknowledged.challengeRead = false := ⟨rfl, rfl, rfl⟩
  rw [acceptAuthContext, rejectIf_neg (by simp [hunread]), ok_bind,
    decodeAuthContext_eq_ok.mpr o.context_encoded]
  simp only [Except.mapError, ok_bind]
  split_ifs with hformats
  · rfl
  · rw [rejectIf_neg (by exact not_not.mpr (hpresents hformats))]
    rfl

omit h in
theorem answeredAttempt_asking (frameType : ℕ) :
    (cfg.clientAsking attempted request).answeredAttempt frameType = .ok request.sessionId := rfl

theorem client_accept {scope payload : Bytes}
    (hencoded : encodeSessionAccept ⟨request.sessionId, scope⟩ = .ok payload)
    (hfits : Fits FrameType.sessionAccept payload) :
    (cfg.clientAsking attempted request).call
        (.acceptControl (frameBytes (FrameType.sessionAccept, payload))) =
      (.ok (.consumed []),
        cfg.clientGranted (attempted ++ [request.sessionId]) ⟨request.sessionId, scope⟩) := by
  refine .trans (call_frameBytes h.control.2 (by decide) hfits) ?_
  change keeping _ ((cfg.clientAsking attempted request).acceptSessionAccept payload) = _
  rw [acceptSessionAccept, answeredAttempt_asking, ok_bind,
    decodeSessionAccept_eq_ok.mpr hencoded]
  simp only [Except.mapError, ok_bind]
  rw [requireAnswersAttempt, rejectIf_neg (not_not.mpr rfl)]
  rfl

theorem client_reject {reject : SessionReject} (hsame : reject.sessionId = request.sessionId)
    (hencoded : encodeSessionReject reject = .ok payload)
    (hfits : Fits FrameType.sessionReject payload) :
    (cfg.clientAsking attempted request).call
        (.acceptControl (frameBytes (FrameType.sessionReject, payload))) =
      (.ok .presentationRequired,
        cfg.clientIdle (attempted ++ [request.sessionId]) (some reject)) := by
  refine .trans (call_frameBytes h.control.2 (by decide) hfits) ?_
  change keeping _ ((cfg.clientAsking attempted request).acceptSessionReject payload) = _
  rw [acceptSessionReject, answeredAttempt_asking, ok_bind,
    decodeSessionReject_eq_ok.mpr hencoded]
  simp only [Except.mapError, ok_bind]
  rw [requireAnswersAttempt, rejectIf_neg (not_not.mpr hsame)]
  rfl

end Client

end Moves

end Setup

end ObjectTransfer.Sessions
