import ObjectTransfer.Sessions.Handshake

/-! # The two ends agree

Every turn that is allowed keeps the pair at a stage, and no frame is refused. What the ends hold
when all frames are delivered reads off the stages.
-/

namespace ObjectTransfer.Sessions
open Foundations Codec Negotiation World

variable {frames : List Bytes} {refusal : Option SessionReject} {scope : Bytes} {w : World}

namespace Setup

variable {cfg : Setup} {o : cfg.Offers} {client server next : Negotiation} {frame : Bytes}

variable {outcome : Except Error Accepted}

theorem step_toServer {rest toClient : List Bytes}
    (h : server.call (.acceptControl frame) = (outcome, next)) :
    World.step ⟨client, server, frame :: rest, toClient⟩ .deliverToServer =
      ⟨client, next, rest, toClient ++ replyOf outcome⟩ := by
  rw [World.step]
  dsimp only
  rw [serverCall, h]

variable {rest toServer : List Bytes}

theorem step_toClient (h : client.call (.acceptControl frame) = (outcome, next)) :
    World.step ⟨client, server, toServer, frame :: rest⟩ .deliverToClient =
      ⟨next, server, toServer ++ replyOf outcome, rest⟩ := by
  rw [World.step]
  dsimp only
  rw [clientCall, h]

/-- A turn leads to a stage, and the frame it delivers, if any, is accepted. -/
structure Progress (o : cfg.Offers) (w : World) (turn : Turn) : Prop where
  stage : Stage o (w.step turn)
  accepts : ∀ outcome, w.reception turn = some outcome → ∃ accepted, outcome = .ok accepted

variable {accepted : Accepted}

theorem progress_toServer {rest toClient : List Bytes}
    (hcall : server.call (.acceptControl frame) = (.ok accepted, next))
    (hstage : Stage o ⟨client, next, rest, toClient ++ replyOf (.ok accepted)⟩) :
    Progress o ⟨client, server, frame :: rest, toClient⟩ .deliverToServer := by
  constructor
  · rw [step_toServer hcall]
    exact hstage
  · intro outcome houtcome
    rw [reception, List.head?_cons, Option.map_some, hcall] at houtcome
    exact ⟨accepted, (Option.some.inj houtcome).symm⟩

theorem progress_toClient (hcall : client.call (.acceptControl frame) = (.ok accepted, next))
    (hstage : Stage o ⟨next, server, toServer ++ replyOf (.ok accepted), rest⟩) :
    Progress o ⟨client, server, toServer, frame :: rest⟩ .deliverToClient := by
  constructor
  · rw [step_toClient hcall]
    exact hstage
  · intro outcome houtcome
    rw [reception, List.head?_cons, Option.map_some, hcall] at houtcome
    exact ⟨accepted, (Option.some.inj houtcome).symm⟩

variable {turn : Turn}

theorem progress_idle (hstage : Stage o w) (hidle : w.Idle turn) : Progress o w turn := by
  refine ⟨by rwa [step_idle hidle], ?_⟩
  intro outcome houtcome
  cases turn with
  | deliverToServer | deliverToClient =>
    rw [reception, hidle] at houtcome
    cases houtcome
  | _ => cases houtcome

variable {n : Negotiation}

theorem pending_unread (h : n.challengeRead = false) :
    n.pendingPresentation = none := if_neg (by simp [h])

variable {request : SessionOpen}

theorem pending_opened (h : n.opened = some request) :
    n.pendingPresentation = none := if_neg (by simp [h])

theorem pending_authenticated (h : n.state = .authenticated) :
    n.pendingPresentation = none := if_neg (by simp [h])

theorem serverAnswered_state : cfg.serverAnswered.state ≠ .connecting := by
  rw [serverAnswered]
  split_ifs <;> rintro ⟨⟩

theorem serverAnswered_negotiated (h : cfg.challenge.formats ≠ []) :
    cfg.serverAnswered.state.isNegotiated = true := by
  rw [serverAnswered, if_neg h]
  rfl

/-! ## One turn at each stage -/

section Turns

variable (h : cfg.Honest)

include h

theorem fresh_progress (clientBegun serverBegun : Bool)
    (hallowed : turn = .deliverToServer → serverBegun = true) :
    Progress o ⟨if clientBegun then cfg.clientBegun else cfg.clientStart,
      if serverBegun then cfg.serverBegun else cfg.serverStart,
      if clientBegun then o.offer else [], []⟩ turn := by
  have hstage := Stage.fresh (o := o) clientBegun serverBegun
  cases turn with
  | beginClient =>
    cases clientBegun with
    | true => exact progress_idle hstage (by simp [Idle, Setup.clientBegun])
    | false =>
      refine ⟨?_, by rintro _ ⟨⟩⟩
      change Stage o (clientCall ⟨cfg.clientStart, _, [], []⟩ .begin)
      rw [clientCall, begin_client o]
      exact .fresh true serverBegun
  | beginServer =>
    cases serverBegun with
    | true => exact progress_idle hstage (by simp [Idle, Setup.serverBegun])
    | false =>
      refine ⟨?_, by rintro _ ⟨⟩⟩
      change Stage o (serverCall ⟨_, cfg.serverStart, _, []⟩ .begin)
      rw [serverCall, begin_server]
      exact .fresh clientBegun true
  | deliverToServer =>
    obtain rfl := hallowed rfl
    cases clientBegun with
    | true => exact progress_toServer (server_hello o h.server) .greeted
    | false => exact progress_idle hstage rfl
  | deliverToClient => exact progress_idle hstage rfl
  | present =>
    refine progress_idle hstage ?_
    cases clientBegun <;> rfl
  | grant scope | refuse reason detail =>
    refine progress_idle hstage ?_
    cases serverBegun <;> rfl

theorem answered_progress (read : Fin 4) (turn : Turn) :
    Progress o ⟨cfg.clientRead read, cfg.serverAnswered, [], o.reply.drop read⟩ turn := by
  have hstage := Stage.answered (o := o) read
  cases turn with
  | deliverToClient =>
    match read with
    | 0 => exact progress_toClient (client_hello o h.client) (.answered 1)
    | 1 => exact progress_toClient (client_settings o h.client) (.answered 2)
    | 2 => exact progress_toClient (client_ack h.client) (.answered 3)
    | 3 =>
      have hcontext := client_context o h.client h.presents
      split_ifs at hcontext with hformats
      · exact progress_toClient hcontext (.concluded hformats)
      · exact progress_toClient hcontext (.idle hformats (Nat.zero_le _))
  | beginClient =>
    refine progress_idle hstage ?_
    fin_cases read <;> rintro ⟨⟩
  | present =>
    refine progress_idle hstage ?_
    fin_cases read <;> exact pending_unread rfl
  | beginServer => exact progress_idle hstage serverAnswered_state
  | _ => exact progress_idle hstage rfl

variable {attempted : List (Block 16)}

omit h in
theorem idle_progress (hformats : cfg.challenge.formats ≠ [])
    (hroom : attempted.length ≤ maxAuthenticationAttempts) (turn : Turn) :
    Progress o ⟨cfg.clientIdle attempted refusal, cfg.serverIdle attempted, [], []⟩ turn := by
  have hstage : Stage o ⟨cfg.clientIdle attempted refusal, cfg.serverIdle attempted, [], []⟩ :=
    .idle hformats hroom
  cases turn with
  | present request =>
    refine ⟨?_, by rintro _ ⟨⟩⟩
    rw [step_present]
    dsimp only
    cases hpresented : (cfg.clientIdle attempted refusal).presented request with
    | error => exact hstage
    | ok reply =>
      obtain ⟨frames, next⟩ := reply
      obtain ⟨-, hroom, hfresh, hanswers, payload, hencoded, hfits, -, rfl, rfl⟩ :=
        presented_eq_ok.mp hpresented
      exact .asked ⟨hroom, hfresh, hanswers⟩ hencoded hfits
  | beginClient => exact progress_idle hstage (by rintro ⟨⟩)
  | beginServer => exact progress_idle hstage serverAnswered_state
  | _ => exact progress_idle hstage rfl

omit h in
theorem asked_idle (hturn : turn ≠ .deliverToServer) :
    Idle ⟨cfg.clientAsking attempted request, cfg.serverIdle attempted, frames, []⟩ turn := by
  cases turn with
  | deliverToServer => exact absurd rfl hturn
  | present => exact pending_opened rfl
  | beginClient => rintro ⟨⟩
  | beginServer => exact serverAnswered_state
  | _ => rfl

variable {payload : Bytes}

omit h in
theorem waiting_progress (hattempt : cfg.Attempt attempted request) (turn : Turn) :
    Progress o ⟨cfg.clientAsking attempted request, cfg.serverAsked attempted request, [], []⟩
      turn := by
  have hstage := Stage.waiting (o := o) hattempt
  cases turn with
  | grant scope =>
    refine ⟨?_, by rintro _ ⟨⟩⟩
    rw [step_grant]
    dsimp only
    cases hgrants : (cfg.serverAsked attempted request).grants scope with
    | error => exact hstage
    | ok reply =>
      obtain ⟨frames, next⟩ := reply
      obtain ⟨_, payload, ⟨⟩, hencoded, hfits, -, rfl, rfl⟩ := grants_eq_ok.mp hgrants
      exact .granting hattempt hencoded hfits
  | refuse reason detail =>
    refine ⟨?_, by rintro _ ⟨⟩⟩
    rw [step_refuse]
    dsimp only
    cases hrefuses : (cfg.serverAsked attempted request).refuses reason detail with
    | error => exact hstage
    | ok reply =>
      obtain ⟨frames, next⟩ := reply
      obtain ⟨_, payload, ⟨⟩, hencoded, hfits, -, rfl, rfl⟩ := refuses_eq_ok.mp hrefuses
      exact .refusing hattempt rfl hencoded hfits
  | present => exact progress_idle hstage (pending_opened rfl)
  | beginClient => exact progress_idle hstage (by rintro ⟨⟩)
  | beginServer => exact progress_idle hstage serverAnswered_state
  | _ => exact progress_idle hstage rfl

omit h in
/-- While an answer is under way only its delivery does anything. -/
theorem answering_idle (hstate : server.state ≠ .connecting)
    (hopened : server.opened = none) (hturn : turn ≠ .deliverToClient) :
    Idle ⟨cfg.clientAsking attempted request, server, [], frames⟩ turn := by
  cases turn with
  | deliverToClient => exact absurd rfl hturn
  | present => exact pending_opened rfl
  | beginClient => rintro ⟨⟩
  | beginServer => exact hstate
  | deliverToServer => rfl
  | grant scope | refuse reason detail => exact hopened

theorem stage_progress (hstage : Stage o w) (hallowed : w.Allowed turn) : Progress o w turn := by
  -- A turn that is not the one a stage waits for is idle there and leaves the pair as it is.
  cases hstage with
  | fresh =>
    apply fresh_progress h
    rintro rfl
    by_contra hserver
    rw [Bool.not_eq_true] at hserver
    subst hserver
    exact hallowed rfl
  | greeted =>
    cases turn with
    | deliverToServer => exact progress_toServer (server_settings o h.server) (.answered 0)
    | beginClient | beginServer => exact progress_idle .greeted (by rintro ⟨⟩)
    | _ => exact progress_idle .greeted rfl
  | answered read => exact answered_progress h read turn
  | concluded hformats =>
    refine progress_idle (.concluded hformats) ?_
    cases turn with
    | beginClient => rintro ⟨⟩
    | beginServer => exact serverAnswered_state
    | present => exact pending_authenticated rfl
    | _ => rfl
  | idle hformats hroom => exact idle_progress hformats hroom turn
  | asked hattempt hencoded hfits =>
    by_cases hturn : turn = .deliverToServer
    · subst hturn
      exact progress_toServer (server_open h.server hattempt hencoded hfits) (.waiting hattempt)
    · exact progress_idle (.asked hattempt hencoded hfits) (asked_idle hturn)
  | waiting hattempt => exact waiting_progress hattempt turn
  | granting hattempt hencoded hfits =>
    by_cases hturn : turn = .deliverToClient
    · subst hturn
      exact progress_toClient (client_accept h.client hencoded hfits) (.agreed hattempt.formats)
    · exact progress_idle (.granting hattempt hencoded hfits)
        (answering_idle (by rintro ⟨⟩) rfl hturn)
  | refusing hattempt hsame hencoded hfits =>
    by_cases hturn : turn = .deliverToClient
    · subst hturn
      exact progress_toClient (client_reject h.client hsame hencoded hfits)
        (.idle hattempt.formats hattempt.spent)
    · exact progress_idle (.refusing hattempt hsame hencoded hfits)
        (answering_idle serverAnswered_state rfl hturn)
  | agreed hformats =>
    refine progress_idle (.agreed hformats) ?_
    cases turn with
    | beginClient | beginServer => rintro ⟨⟩
    | present => exact pending_authenticated rfl
    | _ => rfl

theorem reached_stage (hw : Reached cfg.start w) : Stage o w := by
  induction hw with
  | start =>
    rw [start_eq]
    exact .fresh false false
  | step _ hallowed ih => exact (stage_progress h ih hallowed).stage

end Turns

/-! ## Reading the stages -/

theorem Stage.presents (hstage : Stage o w)
    (hpending : w.client.pendingPresentation = some w.client.challenge) :
    ∃ attempted refusal, cfg.challenge.formats ≠ [] ∧
      w = ⟨cfg.clientIdle attempted refusal, cfg.serverIdle attempted, [], []⟩ := by
  obtain ⟨-, hstate, -, hread, hopened, -⟩ := pendingPresentation_eq_some.mp hpending
  cases hstage with
  | idle hformats => exact ⟨_, _, hformats, rfl⟩
  | fresh clientBegun =>
    cases clientBegun with
    | true | false => cases hread
  | answered read => fin_cases read <;> cases hread
  | greeted => cases hread
  | concluded | agreed => cases hstate
  | asked | waiting | granting | refusing => cases hopened

theorem Stage.decides (hstage : Stage o w) (hopened : w.server.opened = some request) :
    ∃ attempted, cfg.Attempt attempted request ∧
      w = ⟨cfg.clientAsking attempted request, cfg.serverAsked attempted request, [], []⟩ := by
  cases hstage with
  | waiting hattempt =>
    cases hopened
    exact ⟨_, hattempt, rfl⟩
  | fresh clientBegun serverBegun =>
    cases serverBegun with
    | true | false => cases hopened
  | _ => cases hopened

end Setup

theorem Negotiation.call_begun {n : Negotiation} (h : n.state ≠ .connecting) (c : Call) :
    (n.call c).2.state ≠ .connecting := by
  have hmove := n.call_move c
  generalize n.call c = result at hmove
  obtain ⟨outcome, next⟩ := result
  cases hmove with
  | answered _ _ _ _ _ hnext =>
    rw [hnext]
    split_ifs <;> rintro ⟨⟩
  | failed | skipped | application | challenged | rejected | requested | presented | refused => exact h
  | _ => rintro ⟨⟩

namespace World

/-- Both ends have begun. -/
def Begun (w : World) : Prop := w.client.state ≠ .connecting ∧ w.server.state ≠ .connecting

theorem Begun.step (h : w.Begun) (turn : Turn) : (w.step turn).Begun := by
  obtain ⟨hclient, hserver⟩ := h
  cases turn with
  | beginClient | present => exact ⟨call_begun hclient _, hserver⟩
  | beginServer | grant | refuse => exact ⟨hclient, call_begun hserver _⟩
  | deliverToServer =>
    rw [World.step]
    split
    · exact ⟨hclient, hserver⟩
    · exact ⟨hclient, call_begun hserver _⟩
  | deliverToClient =>
    rw [World.step]
    split
    · exact ⟨hclient, hserver⟩
    · exact ⟨call_begun hclient _, hserver⟩

/-- Turns in any number and order. -/
def runs (w : World) (turns : List Turn) : World := run step w turns

theorem runs_idle {turns : List Turn} (h : ∀ turn ∈ turns, w.Idle turn) : w.runs turns = w := by
  induction turns with
  | nil => rfl
  | cons turn turns ih =>
    rw [List.forall_mem_cons] at h
    rw [runs, run_cons, step_idle h.1]
    exact ih h.2

theorem Reached.runs {start : World} (hw : Reached start w) (h : w.Begun) (turns : List Turn) :
    Reached start (w.runs turns) ∧ (w.runs turns).Begun := by
  induction turns generalizing w with
  | nil => exact ⟨hw, h⟩
  | cons turn turns ih =>
    have hallowed : w.Allowed turn := by
      cases turn with
      | deliverToServer => exact h.2
      | deliverToClient => exact h.1
      | _ => trivial
    exact ih (hw.step hallowed) (h.step turn)

/-- Enough deliveries for everything the opening asks for. -/
def deliveries : List Turn :=
  [.deliverToServer, .deliverToServer, .deliverToClient, .deliverToClient, .deliverToClient,
    .deliverToClient]

/-- Both ends are between attempts, and a request that fits the challenge and the server's limit
can be sent as long as there were fewer than three. -/
structure CanRetry (cfg : Setup) (w : World) : Prop where
  clientOpened : w.client.opened = none
  serverOpened : w.server.opened = none
  attempted : w.client.attempted = w.server.attempted
  bounded : w.client.attempted.length ≤ 3
  presents : ∀ request, (∃ frames, (w.client.present request).1 = .ok frames) ↔
    w.client.attempted.length < 3 ∧ request.sessionId ∉ w.client.attempted ∧
    Answers cfg.challenge request ∧ ∃ payload, encodeSessionOpen request = .ok payload ∧
      Fits FrameType.sessionOpen payload ∧
      payload.length ≤ cfg.serverSettings.maxControlFramePayload

/-- Both ends hold the other's settings and the same extensions, and are as far as the challenge
lets them be. -/
structure Settled (cfg : Setup) (w : World) : Prop where
  clientPeer : w.client.peerSettings = some w.server.localSettings
  serverPeer : w.server.peerSettings = some w.client.localSettings
  clientExtensions : w.client.negotiatedExtensions = w.client.extensions ∩ w.server.extensions
  serverExtensions : w.server.negotiatedExtensions = w.client.extensions ∩ w.server.extensions
  states : if cfg.challenge.formats = [] then
      w.client.state = .authenticated ∧ w.server.state = .authenticated
    else w.client.state.isNegotiated = true ∧ w.server.state.isNegotiated = true

/-- A request the client sent is accepted by the server. -/
structure Asked (w : World) (request : SessionOpen) (asked : World) : Prop where
  attempted : asked.client.attempted = w.client.attempted ++ [request.sessionId]
  accepted : asked.reception .deliverToServer = some (.ok .authorizationRequired)
  opened : (asked.step .deliverToServer).server.opened = some request

/-- Both ends hold the grant of the request that was open. -/
structure Granted (w : World) (scope : Bytes) (next : World) : Prop where
  client : next.client.state = .authenticated
  server : next.server.state = .authenticated
  same : ∃ request, w.server.opened = some request ∧
    next.client.granted = some ⟨request.sessionId, scope⟩ ∧
    next.server.granted = some ⟨request.sessionId, scope⟩

/-- The payload of an answer that the server can send. -/
def Sendable (cfg : Setup) (frameType : ℕ) (encoded : Except Codec.Error Bytes) : Prop :=
  ∃ payload, encoded = .ok payload ∧ Fits frameType payload ∧
    payload.length ≤ cfg.clientSettings.maxControlFramePayload

/-- What holds at every point, and what follows a request and its answer however the turns before
the delivery fall. -/
structure Agrees (cfg : Setup) (w : World) : Prop where
  accepts : ∀ turn outcome, w.Allowed turn → w.reception turn = some outcome →
    ∃ accepted, outcome = .ok accepted
  keeps : w.client.localSettings = cfg.clientSettings ∧ w.server.localSettings = cfg.serverSettings ∧
    w.client.extensions = cfg.clientExtensions ∧ w.server.extensions = cfg.serverExtensions
  /-- A client that begins offers its HELLO and SETTINGS; a server that begins waits for them. -/
  beginsClient : w.client.state = .connecting → ∃ hello settings,
    encodeHello ⟨draftRevision, .client, cfg.clientExtensions⟩ = .ok hello ∧
      encodeSettings cfg.clientSettings = .ok settings ∧
      let frames := [frameBytes (FrameType.hello, hello), frameBytes (FrameType.settings, settings)]
      (w.client.call .begin).1 = .ok (.consumed frames) ∧
        (w.step .beginClient).client.state = .helloSent ∧
        (w.step .beginClient).toServer = frames
  beginsServer : w.server.state = .connecting → (w.server.call .begin).1 = .ok (.consumed []) ∧
    (w.step .beginServer).server.state = .controlReserved
  delivers : w.Begun → let done := w.runs deliveries
    done.toServer = [] ∧ done.toClient = [] ∧ Reached cfg.start done ∧ done.Begun
  settles : w.Begun → w.toServer = [] → w.toClient = [] → w.Settled cfg
  /-- With nothing under way, no request open and no grant yet, the client may ask. -/
  asks : w.Begun → w.toServer = [] → w.toClient = [] → cfg.challenge.formats ≠ [] →
    w.client.opened = none → w.client.state ≠ .authenticated → w.CanRetry cfg
  presents : ∀ request frames between, (w.client.present request).1 = .ok frames →
    .deliverToServer ∉ between → w.Asked request ((w.step (.present request)).runs between)
  /-- A request the server accepted is granted or refused whenever the answer can be sent. -/
  decides : ∀ request, w.server.opened = some request →
    (∀ scope, (∃ frames, (w.server.grant scope).1 = .ok frames) ↔
      Sendable cfg FrameType.sessionAccept (encodeSessionAccept ⟨request.sessionId, scope⟩)) ∧
    ∀ reason detail, (∃ frames, (w.server.refuse reason detail).1 = .ok frames) ↔
      Sendable cfg FrameType.sessionReject
        (encodeSessionReject ⟨request.sessionId, reason.toUInt64, detail⟩)
  grants : ∀ scope frames between, (w.server.grant scope).1 = .ok frames →
    .deliverToClient ∉ between →
    w.Granted scope (((w.step (.grant scope)).runs between).step .deliverToClient)
  refuses : ∀ reason detail frames between, (w.server.refuse reason detail).1 = .ok frames →
    .deliverToClient ∉ between →
    let next := ((w.step (.refuse reason detail)).runs between).step .deliverToClient
    next.client.state = .negotiated ∧ next.server.state = .negotiated ∧ next.CanRetry cfg

end World

namespace Setup

variable {cfg : Setup} {o : cfg.Offers}

/-! ## Delivering what is under way -/

/-- Nothing is under way. -/
def Drained (w : World) : Prop := w.toServer = [] ∧ w.toClient = []

variable {w : World}

theorem Drained.toServer (h : Drained w) : Drained (w.step .deliverToServer) := by
  rwa [step_idle (show w.Idle .deliverToServer from h.1)]

theorem Drained.toClient (h : Drained w) : Drained (w.step .deliverToClient) := by
  rwa [step_idle (show w.Idle .deliverToClient from h.2)]

variable {client server : Negotiation}

theorem step_toServer_nil {toClient : List Bytes} :
    World.step ⟨client, server, [], toClient⟩ .deliverToServer = ⟨client, server, [], toClient⟩ := rfl

/-- The client has read this much of the server's reply. -/
def reading (o : cfg.Offers) (read : Fin 4) : World :=
  ⟨cfg.clientRead read, cfg.serverAnswered, [], o.reply.drop read⟩

/-- Four deliveries to the client. -/
def readAll (w : World) : World :=
  (((w.step .deliverToClient).step .deliverToClient).step .deliverToClient).step .deliverToClient

theorem Drained.readAll (h : Drained w) : Drained (readAll w) :=
  h.toClient.toClient.toClient.toClient

theorem runs_deliveries (w : World) : w.runs deliveries =
    readAll ((w.step .deliverToServer).step .deliverToServer) := rfl

section Deliveries

variable (h : cfg.Honest)

include h

theorem reading_drains (read : Fin 4) : Drained (readAll (reading o read)) := by
  have h0 : (reading o 0).step .deliverToClient = reading o 1 :=
    step_toClient (client_hello o h.client)
  have h1 : (reading o 1).step .deliverToClient = reading o 2 :=
    step_toClient (client_settings o h.client)
  have h2 : (reading o 2).step .deliverToClient = reading o 3 := step_toClient (client_ack h.client)
  have h3 : Drained ((reading o 3).step .deliverToClient) := by
    have hcontext := client_context o h.client h.presents
    split_ifs at hcontext with hformats
    all_goals
      have hstep : (reading o 3).step .deliverToClient = _ := step_toClient hcontext
      rw [hstep]
      exact ⟨rfl, rfl⟩
  match read with
  | 0 => rwa [readAll, h0, h1, h2]
  | 1 =>
    rw [readAll, h1, h2]
    exact h3.toClient
  | 2 =>
    rw [readAll, h2]
    exact h3.toClient.toClient
  | 3 => exact h3.toClient.toClient.toClient

theorem Stage.delivers (hstage : Stage o w) (hbegun : w.Begun) :
    Drained (w.runs deliveries) := by
  have hsettings : World.step ⟨cfg.clientBegun, cfg.serverGreeted,
      [frameBytes (FrameType.settings, o.clientSettings)], []⟩ .deliverToServer = reading o 0 :=
    step_toServer (server_settings o h.server)
  rw [runs_deliveries]
  cases hstage with
  | fresh clientBegun serverBegun =>
    cases clientBegun with
    | false => exact absurd rfl hbegun.1
    | true =>
      cases serverBegun with
      | false => exact absurd rfl hbegun.2
      | true =>
        have hhello : World.step ⟨cfg.clientBegun, cfg.serverBegun, o.offer, []⟩ .deliverToServer = _ :=
          step_toServer (server_hello o h.server)
        change Drained (readAll ((World.step ⟨cfg.clientBegun, cfg.serverBegun, o.offer, []⟩
          .deliverToServer).step .deliverToServer))
        rw [hhello]
        change Drained (readAll (World.step ⟨cfg.clientBegun, cfg.serverGreeted,
          [frameBytes (FrameType.settings, o.clientSettings)], []⟩ .deliverToServer))
        rw [hsettings]
        exact reading_drains h 0
  | greeted =>
    rw [hsettings, reading, step_toServer_nil]
    exact reading_drains h 0
  | answered read => exact reading_drains h read
  | asked hattempt hencoded hfits =>
    apply Drained.readAll
    apply Drained.toServer
    rw [step_toServer (server_open h.server hattempt hencoded hfits)]
    exact ⟨rfl, rfl⟩
  | granting hattempt hencoded hfits =>
    apply Drained.toClient
    apply Drained.toClient
    apply Drained.toClient
    rw [step_toServer_nil, step_toServer_nil, step_toClient (client_accept h.client hencoded hfits)]
    exact ⟨rfl, rfl⟩
  | refusing hattempt hsame hencoded hfits =>
    apply Drained.toClient
    apply Drained.toClient
    apply Drained.toClient
    rw [step_toServer_nil, step_toServer_nil, step_toClient (client_reject h.client hsame hencoded hfits)]
    exact ⟨rfl, rfl⟩
  | _ => exact ⟨rfl, rfl⟩

end Deliveries

/-! ## The ends in agreement -/

theorem Stage.keeps (hstage : Stage o w) :
    w.client.localSettings = cfg.clientSettings ∧ w.server.localSettings = cfg.serverSettings ∧
      w.client.extensions = cfg.clientExtensions ∧ w.server.extensions = cfg.serverExtensions := by
  cases hstage with
  | fresh clientBegun serverBegun =>
    cases clientBegun <;> cases serverBegun <;> exact ⟨rfl, rfl, rfl, rfl⟩
  | answered read => fin_cases read <;> exact ⟨rfl, rfl, rfl, rfl⟩
  | _ => exact ⟨rfl, rfl, rfl, rfl⟩

/-- Both ends have read the other's HELLO and SETTINGS. -/
theorem Stage.settled (hstage : Stage o w)
    (hclient : w.client.peerHello = some ⟨draftRevision, .server, cfg.common⟩ ∧
      w.client.peerSettings = some cfg.serverSettings)
    (hserver : w.server.peerHello = some ⟨draftRevision, .client, cfg.clientExtensions⟩ ∧
      w.server.peerSettings = some cfg.clientSettings)
    (hstates : if cfg.challenge.formats = [] then
        w.client.state = .authenticated ∧ w.server.state = .authenticated
      else w.client.state.isNegotiated = true ∧ w.server.state.isNegotiated = true) :
    w.Settled cfg := by
  obtain ⟨hlocal, hlocal', hextensions, hextensions'⟩ := hstage.keeps
  refine ⟨by rw [hclient.2, hlocal'], by rw [hserver.2, hlocal], ?_, ?_, hstates⟩
  · rw [negotiatedExtensions, hclient.1, hextensions, hextensions', common]
    ext extension
    simp only [Finset.mem_inter]
    tauto
  · rw [negotiatedExtensions, hserver.1, hextensions, hextensions', Finset.inter_comm]

theorem Stage.settles (hstage : Stage o w) (hbegun : w.Begun) (hdrained : Drained w) :
    w.Settled cfg := by
  obtain ⟨htoServer, htoClient⟩ := hdrained
  have hsettled := hstage.settled
  cases hstage with
  | fresh clientBegun =>
    cases clientBegun with
    | false => exact absurd rfl hbegun.1
    | true => cases htoServer
  | greeted | asked => cases htoServer
  | answered read => fin_cases read <;> cases htoClient
  | granting | refusing => cases htoClient
  | concluded hformats =>
    refine hsettled ⟨rfl, rfl⟩ ⟨rfl, rfl⟩ ?_
    rw [if_pos hformats]
    exact ⟨rfl, if_pos hformats⟩
  | idle hformats =>
    refine hsettled ⟨rfl, rfl⟩ ⟨rfl, rfl⟩ ?_
    rw [if_neg hformats]
    exact ⟨rfl, serverAnswered_negotiated hformats⟩
  | waiting hattempt =>
    refine hsettled ⟨rfl, rfl⟩ ⟨rfl, rfl⟩ ?_
    rw [if_neg hattempt.formats]
    exact ⟨rfl, serverAnswered_negotiated hattempt.formats⟩
  | agreed hformats =>
    refine hsettled ⟨rfl, rfl⟩ ⟨rfl, rfl⟩ ?_
    rw [if_neg hformats]
    exact ⟨rfl, rfl⟩

theorem Stage.beginsClient (hstage : Stage o w) (hstate : w.client.state = .connecting) :
    (w.client.call .begin).1 = .ok (.consumed o.offer) ∧
      (w.step .beginClient).client.state = .helloSent ∧ (w.step .beginClient).toServer = o.offer := by
  cases hstage with
  | fresh clientBegun =>
    cases clientBegun with
    | true => cases hstate
    | false =>
      change (cfg.clientStart.call .begin).1 = _ ∧
        (clientCall ⟨cfg.clientStart, _, [], []⟩ .begin).client.state = _ ∧
        (clientCall ⟨cfg.clientStart, _, [], []⟩ .begin).toServer = _
      rw [clientCall, begin_client o]
      exact ⟨rfl, rfl, rfl⟩
  | answered read => fin_cases read <;> cases hstate
  | _ => cases hstate

theorem Stage.beginsServer (hstage : Stage o w) (hstate : w.server.state = .connecting) :
    (w.server.call .begin).1 = .ok (.consumed []) ∧
      (w.step .beginServer).server.state = .controlReserved := by
  cases hstage with
  | fresh clientBegun serverBegun =>
    cases serverBegun with
    | true => cases hstate
    | false => exact ⟨rfl, rfl⟩
  | greeted | granting | agreed => cases hstate
  | _ => exact absurd hstate serverAnswered_state

/-- A reply is given when it can be made. -/
theorem keeping_isOk {n : Negotiation} {result : Except Error (List Bytes × Negotiation)} :
    (∃ frames, (keeping n result).1 = .ok frames) ↔ ∃ frames next, result = .ok (frames, next) := by
  constructor
  · rintro ⟨frames, hframes⟩
    obtain ⟨next, hresult⟩ := keeping_ok hframes
    exact ⟨frames, next, hresult⟩
  · rintro ⟨frames, next, rfl⟩
    exact ⟨frames, rfl⟩

section Answers

variable (h : cfg.Honest)

include h

variable {between : List Turn}

theorem Stage.asks (hstage : Stage o w) {request : SessionOpen}
    (hpresent : (w.client.present request).1 = .ok frames) (hbetween : .deliverToServer ∉ between) :
    w.Asked request ((w.step (.present request)).runs between) := by
  obtain ⟨next, hpresented⟩ := keeping_ok hpresent
  obtain ⟨hpending, -⟩ := presented_eq_ok.mp hpresented
  obtain ⟨attempted, refusal, -, rfl⟩ := hstage.presents hpending
  obtain ⟨-, hroom, hfresh, hanswers, payload, hencoded, hfits, -, rfl, rfl⟩ :=
    presented_eq_ok.mp hpresented
  have hstep : World.step ⟨cfg.clientIdle attempted refusal, cfg.serverIdle attempted, [], []⟩
        (.present request) =
      ⟨cfg.clientAsking attempted request, cfg.serverIdle attempted,
        [frameBytes (FrameType.sessionOpen, payload)], []⟩ := by
    rw [step_present, hpresented]
    rfl
  rw [hstep, runs_idle fun turn hmem => asked_idle fun heq => hbetween (heq ▸ hmem)]
  have hattempt : cfg.Attempt attempted request := ⟨hroom, hfresh, hanswers⟩
  have hopen := server_open h.server hattempt hencoded hfits
  refine ⟨rfl, ?_, ?_⟩
  · rw [reception, List.head?_cons, Option.map_some]
    exact congrArg (fun result => some result.1) hopen
  · rw [step_toServer hopen]
    rfl

theorem Stage.grants (hstage : Stage o w)
    (hgrant : (w.server.grant scope).1 = .ok frames) (hbetween : .deliverToClient ∉ between) :
    w.Granted scope (((w.step (.grant scope)).runs between).step .deliverToClient) := by
  obtain ⟨next, hgrants⟩ := keeping_ok hgrant
  obtain ⟨request, payload, hopened, hencoded, hfits, -, rfl, rfl⟩ :=
    grants_eq_ok.mp hgrants
  obtain ⟨attempted, hattempt, rfl⟩ := hstage.decides hopened
  have hstep : World.step ⟨cfg.clientAsking attempted request, cfg.serverAsked attempted request,
        [], []⟩ (.grant scope) =
      ⟨cfg.clientAsking attempted request,
        cfg.serverGranted (attempted ++ [request.sessionId]) ⟨request.sessionId, scope⟩,
        [], [frameBytes (FrameType.sessionAccept, payload)]⟩ := by
    rw [step_grant, hgrants]
    rfl
  rw [hstep, runs_idle fun turn hmem => answering_idle (by rintro ⟨⟩) rfl
    fun heq => hbetween (heq ▸ hmem), step_toClient (client_accept h.client hencoded hfits)]
  exact ⟨rfl, rfl, request, hopened, rfl, rfl⟩

theorem idle_canRetry {attempted : List (Block 16)}
    (hformats : cfg.challenge.formats ≠ []) (hroom : attempted.length ≤ maxAuthenticationAttempts) :
    CanRetry cfg ⟨cfg.clientIdle attempted refusal, cfg.serverIdle attempted, [], []⟩ := by
  refine ⟨rfl, rfl, rfl, hroom, ?_⟩
  intro request
  have hpending : (cfg.clientIdle attempted refusal).pendingPresentation = some cfg.challenge :=
    pendingPresentation_eq_some.mpr ⟨rfl, rfl, h.presents hformats, rfl, rfl, rfl⟩
  constructor
  · rintro ⟨frames, hpresent⟩
    obtain ⟨next, hpresented⟩ := keeping_ok hpresent
    obtain ⟨-, hspare, hfresh, hanswers, payload, hencoded, hfits, hwithin, -⟩ :=
      presented_eq_ok.mp hpresented
    exact ⟨hspare, hfresh, hanswers, payload, hencoded, hfits, hwithin _ rfl⟩
  · rintro ⟨hspare, hfresh, hanswers, payload, hencoded, hfits, hwithin⟩
    have hpresented := presented_eq_ok.mpr ⟨hpending, hspare, hfresh, hanswers, payload,
      hencoded, hfits, by rintro _ ⟨⟩; exact hwithin, rfl, rfl⟩
    refine ⟨[frameBytes (FrameType.sessionOpen, payload)], ?_⟩
    rw [present, hpresented]
    rfl

theorem Stage.retries (hstage : Stage o w) (hbegun : w.Begun) (hdrained : Drained w)
    (hformats : cfg.challenge.formats ≠ []) (hopened : w.client.opened = none)
    (hstate : w.client.state ≠ .authenticated) : w.CanRetry cfg := by
  obtain ⟨htoServer, htoClient⟩ := hdrained
  cases hstage with
  | idle _ hroom => exact idle_canRetry h hformats hroom
  | fresh clientBegun =>
    cases clientBegun with
    | false => exact absurd rfl hbegun.1
    | true => cases htoServer
  | greeted | asked => cases htoServer
  | answered read => fin_cases read <;> cases htoClient
  | granting | refusing => cases htoClient
  | waiting => cases hopened
  | concluded | agreed => exact absurd rfl hstate

omit h in
theorem Stage.answers (hstage : Stage o w) {request : SessionOpen}
    (hopened : w.server.opened = some request) :
    (∀ scope, (∃ frames, (w.server.grant scope).1 = .ok frames) ↔
      Sendable cfg FrameType.sessionAccept
        (encodeSessionAccept ⟨request.sessionId, scope⟩)) ∧
    ∀ reason detail, (∃ frames, (w.server.refuse reason detail).1 = .ok frames) ↔
      Sendable cfg FrameType.sessionReject
        (encodeSessionReject ⟨request.sessionId, reason.toUInt64, detail⟩) := by
  obtain ⟨attempted, -, rfl⟩ := hstage.decides hopened
  have hrequest : (cfg.serverAsked attempted request).opened = some request := rfl
  have hpeer : (cfg.serverAsked attempted request).peerSettings = some cfg.clientSettings := rfl
  refine ⟨fun scope => keeping_isOk.trans ?_, fun reason detail => keeping_isOk.trans ?_⟩
  · simp [grants_eq_ok, hpeer, hrequest, Sendable]
  · simp [refuses_eq_ok, hpeer, hrequest, Sendable]

theorem Stage.refuses (hstage : Stage o w) {reason : UInt16} {detail : String}
    (hrefuse : (w.server.refuse reason detail).1 = .ok frames)
    (hbetween : .deliverToClient ∉ between) :
    let next := ((w.step (.refuse reason detail)).runs between).step .deliverToClient
    next.client.state = .negotiated ∧ next.server.state = .negotiated ∧ next.CanRetry cfg := by
  obtain ⟨next, hrefuses⟩ := keeping_ok hrefuse
  obtain ⟨request, payload, hopened, hencoded, hfits, -, rfl, rfl⟩ :=
    refuses_eq_ok.mp hrefuses
  obtain ⟨attempted, hattempt, rfl⟩ := hstage.decides hopened
  have hstep : World.step ⟨cfg.clientAsking attempted request, cfg.serverAsked attempted request,
        [], []⟩ (.refuse reason detail) =
      ⟨cfg.clientAsking attempted request, cfg.serverIdle (attempted ++ [request.sessionId]),
        [], [frameBytes (FrameType.sessionReject, payload)]⟩ := by
    rw [step_refuse, hrefuses]
    rfl
  rw [hstep, runs_idle fun turn hmem => answering_idle (by exact serverAnswered_state) rfl
    fun heq => hbetween (heq ▸ hmem), step_toClient (client_reject h.client rfl hencoded hfits)]
  exact ⟨rfl, if_neg hattempt.formats, idle_canRetry h hattempt.formats hattempt.spent⟩

end Answers

end Setup

/-- Two honest endpoints complete the handshake and agree, however their frames are delivered. -/
theorem handshake_agrees {cfg : Setup} (h : cfg.Honest) {w : World}
    (hw : Reached cfg.start w) : w.Agrees cfg := by
  obtain ⟨o⟩ := h.offers
  have hstage : cfg.Stage o w := Setup.reached_stage h hw
  constructor
  · intro turn outcome hallowed hreception
    exact (Setup.stage_progress h hstage hallowed).accepts outcome hreception
  · exact hstage.keeps
  · intro hstate
    exact ⟨o.clientHello, o.clientSettings, o.clientHello_encoded, o.clientSettings_encoded,
      hstage.beginsClient hstate⟩
  · exact hstage.beginsServer
  · intro hbegun
    obtain ⟨htoServer, htoClient⟩ := hstage.delivers h hbegun
    exact ⟨htoServer, htoClient, hw.runs hbegun deliveries⟩
  · intro hbegun htoServer htoClient
    exact hstage.settles hbegun ⟨htoServer, htoClient⟩
  · intro hbegun htoServer htoClient
    exact hstage.retries h hbegun ⟨htoServer, htoClient⟩
  · intro request frames between hpresent hbetween
    exact hstage.asks h hpresent hbetween
  · intro request hopened
    exact hstage.answers hopened
  · intro scope frames between hgrant hbetween
    exact hstage.grants h hgrant hbetween
  · intro reason detail frames between hrefuse hbetween
    exact hstage.refuses h hrefuse hbetween

/-- A challenge that asks for the one format and no proof. -/
def sampleChallenge : AuthContext := ⟨List.replicate 32 1, .none, [7]⟩

def sampleSetup : Setup := ⟨.default, .default, ∅, ∅, sampleChallenge, true⟩

def sampleBegun : World := (sampleSetup.start.step .beginClient).step .beginServer

def sampleRequest : SessionOpen := ⟨.replicate 16 2, 7, [1], [2], []⟩

/-- Everything is delivered, and a request is sent and accepted. -/
def untilAsked : List Turn := deliveries ++ [.present sampleRequest, .deliverToServer]

theorem handshake_agrees_granted : sampleSetup.Honest ∧
    let w := sampleBegun.runs untilAsked
    Reached sampleSetup.start w ∧ w.Agrees sampleSetup ∧ w.server.opened = some sampleRequest ∧
      let last := (w.step (.grant [3])).step .deliverToClient
      last.client.state = .authenticated ∧ last.server.state = .authenticated ∧
        last.client.granted = some ⟨.replicate 16 2, [3]⟩ ∧
        last.server.granted = some ⟨.replicate 16 2, [3]⟩ := by
  have honest : sampleSetup.Honest :=
    ⟨by decide, by decide, by decide, by simp [sampleSetup], ⟨_, rfl, by decide⟩, fun _ => rfl⟩
  have hclient : Reached sampleSetup.start (sampleSetup.start.step .beginClient) :=
    .step .start trivial
  have hstart : Reached sampleSetup.start sampleBegun := .step hclient trivial
  have hbegun : sampleBegun.Begun := by
    unfold Begun
    decide +kernel
  obtain ⟨hreached, -⟩ := hstart.runs hbegun untilAsked
  have hopened : (sampleBegun.runs untilAsked).server.opened = some sampleRequest := by
    decide +kernel
  have hagrees := handshake_agrees honest hreached
  obtain ⟨hgrants, -⟩ := hagrees.decides sampleRequest hopened
  obtain ⟨frames, hgrant⟩ := (hgrants [3]).mpr ⟨_, rfl, by decide, by decide⟩
  obtain ⟨hready, hready', request, hrequest, hgranted, hgranted'⟩ :=
    hagrees.grants [3] frames [] hgrant (by simp)
  obtain rfl := Option.some.inj (hrequest.symm.trans hopened)
  exact ⟨honest, hreached, hagrees, hopened, hready, hready', hgranted, hgranted'⟩

end ObjectTransfer.Sessions
