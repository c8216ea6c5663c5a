import ObjectTransfer.Codec.Session
import ObjectTransfer.Codec.Settings
import ObjectTransfer.Transport.Framing

/-! # Negotiation and authentication

The exchange as a state machine, with no carrier and no buffers. The client offers, the server
answers and challenges, and a challenge that names a capability format is answered by a request that
the server's caller grants or refuses. A call that fails may leave the state further than it was.
-/

namespace ObjectTransfer.Sessions
open Foundations Codec

/-- How far a session has got. -/
inductive State where
  | connecting
  | controlReserved
  | helloSent
  | settingsExchanged
  | negotiated
  | authenticated
  | closed
  deriving DecidableEq, Repr

namespace State

def isReady : State → Bool
  | authenticated => true
  | _ => false

def isNegotiated : State → Bool
  | negotiated | authenticated => true
  | _ => false

end State

inductive Lane where
  | control
  | reliable
  deriving DecidableEq, Repr

/-- Whose limits a frame is measured against; past the local ones is the peer's doing. -/
inductive Side where
  | local
  | peer
  deriving DecidableEq, Repr

/-- Why a request the caller built cannot go out. -/
inductive PresentationError where
  | nothingToAnswer (state : State)
  | attemptsSpent (attempts : ℕ)
  | identifierReused
  | formatNotOffered (format : UInt64)
  | formatRetired (format : UInt64)
  | bindingProof (binding : Binding) (proofBytes : ℕ)
  deriving DecidableEq, Repr

/-- The limits a backend keeps a peer to. -/
structure ReceiveLimits where
  controlPayload : ℕ
  lanes : ℕ
  deriving DecidableEq, Repr

inductive ErrorKind where
  | hello (error : HelloError)
  | settings (error : SettingsError)
  | decode (error : DecodeError)
  | outOfSequence (frameType : ℕ) (state : State)
  | notNegotiated (frameType : ℕ)
  | notAuthenticated (frameType : ℕ)
  | capabilityRequired (formats : ℕ)
  | authContextInvalid
  | sessionOpenInvalid
  | sessionAnswerInvalid (frameType : ℕ)
  | sessionIdentifierMismatch
  | grantedScopeMismatch
  | sessionAnswerUnencodable
  | presentationInvalid (reason : PresentationError)
  | bindingProofMismatch (binding : Binding) (proofBytes : ℕ)
  | sessionIdentifierReused
  | capabilityFormatNotOffered (format : UInt64)
  | tooManyAuthenticationAttempts (attempts : ℕ)
  | authenticationRoleMismatch (role : EndpointRole)
  | interrupted (state : State)
  | notReady (state : State)
  | pendingRecordsExhausted (bytes count : ℕ)
  | handshakeUnsent (remaining : ℕ)
  | frameExceedsLimit (frameType bytes limit : ℕ) (side : Side)
  | laneLimitExceeded (limit : ℕ) (side : Side)
  | notExactlyOneFrame (frameType declared found : ℕ) (side : Side)
  | experimentNotNegotiated (frameType extension : ℕ) (side : Side)
  | requiredExtensionUnavailable (extension : ℕ)
  | negotiationFrameFromApplication (frameType : ℕ)
  | frameOnTheWrongLane (frameType : ℕ) (lane : Lane) (side : Side)
  | frameFromWrongRole (frameType : ℕ) (role : EndpointRole) (side : Side)
  | transport (error : Transport.Error)
  | receiveLimitMismatch (advertisedControl advertisedLanes : ℕ) (backend : ReceiveLimits)
  deriving DecidableEq, Repr

/-- Whether the peer caused this, and so whether it belongs on the wire. -/
def ErrorKind.isPeerFault : ErrorKind → Bool
  | hello _ | settings _ | decode _ | outOfSequence .. | notNegotiated _ | notAuthenticated _
  | authContextInvalid | sessionOpenInvalid | sessionAnswerInvalid _ | sessionIdentifierMismatch
  | grantedScopeMismatch | bindingProofMismatch .. | sessionIdentifierReused
  | capabilityFormatNotOffered _ | tooManyAuthenticationAttempts _ | capabilityRequired _
  | pendingRecordsExhausted .. => true
  | frameExceedsLimit _ _ _ side | laneLimitExceeded _ side | notExactlyOneFrame _ _ _ side
  | experimentNotNegotiated _ _ side | frameOnTheWrongLane _ _ side
  | frameFromWrongRole _ _ side => side = .local
  | notReady _ | transport _ | interrupted _ | receiveLimitMismatch ..
  | negotiationFrameFromApplication _ | sessionAnswerUnencodable | presentationInvalid _
  | authenticationRoleMismatch _ | requiredExtensionUnavailable _ | handshakeUnsent _ => false

structure Error where
  kind : ErrorKind
  closeCode : ℕ
  deriving DecidableEq, Repr

def presentationError (reason : PresentationError) : Error :=
  ⟨.presentationInvalid reason, ErrorCode.authenticationFailed⟩

def decodeError (error : DecodeError) : Error := ⟨.decode error, error.protocolCode⟩

def maxAuthenticationAttempts : ℕ := 3

/-- The challenge of a deployment that asks for no capability. -/
def noCapability (nonce : Block 32) : AuthContext := ⟨nonce.toList, .none, []⟩

/-- Whether a request's proof matches the binding the challenge named. -/
def bindingProofAgrees (binding : Binding) (proof : Bytes) : Bool :=
  match binding with
  | .none => proof.isEmpty
  | .proofOfPossession => !proof.isEmpty

def negotiatedPayloadLimit (frameType : ℕ) (settings : Settings) : ℕ :=
  let ceiling := settings.maxControlFramePayload
  if frameType = FrameType.dataRecord then settings.maxDataRecordPayload
  else if frameType = FrameType.manifestPage ∨ frameType = FrameType.progressivePage then
    min settings.maxManifestPagePayload ceiling
  else ceiling

def exchangeTypes : List ℕ :=
  [FrameType.hello, FrameType.settings, FrameType.settingsAck, FrameType.authContext,
    FrameType.sessionOpen, FrameType.sessionAccept, FrameType.sessionReject]

inductive Accepted where
  | consumed (reply : List Bytes)
  | application
  | authorizationRequired
  | presentationRequired
  deriving DecidableEq, Repr

structure Negotiation where
  role : EndpointRole
  state : State
  localSettings : Settings
  extensions : Finset ℕ
  /-- What a server advertises, or what a client read. -/
  challenge : AuthContext
  challengeRead : Bool
  /-- Whether this client will answer a challenge that asks for a capability. -/
  presenting : Bool
  /-- The attempt under way: what the peer opened on a server, what this endpoint sent on a
  client. -/
  opened : Option SessionOpen
  attempted : List (Block 16)
  granted : Option SessionAccept
  refusal : Option SessionReject
  peerHello : Option Hello
  peerSettings : Option Settings
  deriving DecidableEq

def frame (frameType : ℕ) (payload : Bytes) : Except Error Bytes :=
  match encodeFrame frameType payload [] with
  | (output, .ok ()) => .ok output
  | (_, .error error) => .error (decodeError error)

def settingsAckFrame : Except Error Bytes := frame FrameType.settingsAck []

/-- A frame of the authentication exchange. One that cannot be encoded is the caller's. -/
def sessionFrame (frameType : ℕ) (payload : Except Codec.Error Bytes) : Except Error Bytes :=
  match encodeTyped frameType payload [] with
  | (output, .ok ()) => .ok output
  | (_, .error _) => .error ⟨.sessionAnswerUnencodable, ErrorCode.malformedFrame⟩

namespace Negotiation

def new (role : EndpointRole) (localSettings : Settings) (extensions : Finset ℕ)
    (challenge : AuthContext) (presenting : Bool) : Negotiation where
  role := role
  state := .connecting
  localSettings := localSettings
  extensions := extensions
  challenge := challenge
  challengeRead := false
  presenting := presenting
  opened := none
  attempted := []
  granted := none
  refusal := none
  peerHello := none
  peerSettings := none

def client (localSettings : Settings) (extensions : Finset ℕ) : Negotiation :=
  new .client localSettings extensions (noCapability (.replicate 32 0)) false

def presentingClient (localSettings : Settings) (extensions : Finset ℕ) : Negotiation :=
  new .client localSettings extensions (noCapability (.replicate 32 0)) true

def server (localSettings : Settings) (extensions : Finset ℕ) (challenge : AuthContext) :
    Negotiation :=
  new .server localSettings extensions challenge false

def isReady (n : Negotiation) : Bool := n.state.isReady

/-- The intersection of both endpoints' extensions; nothing before the peer's HELLO. -/
def negotiatedExtensions (n : Negotiation) : Finset ℕ :=
  match n.peerHello with
  | none => ∅
  | some hello => n.extensions ∩ hello.extensions

def extensionIsNegotiated (n : Negotiation) (extension : ℕ) : Bool :=
  n.peerHello.any fun hello => decide (extension ∈ n.extensions ∧ extension ∈ hello.extensions)

def outOfSequence (n : Negotiation) (frameType : ℕ) : Error :=
  ⟨.outOfSequence frameType n.state, ErrorCode.malformedFrame⟩

/-- Refuse an exchange frame past what the peer said it will carry. -/
def withinPeerControlLimit (n : Negotiation) (frame : Bytes) : Except Error Unit :=
  match n.peerSettings with
  | none => .ok ()
  | some peer => do
    let envelope ← (peekEnvelope frame ⟨hardMaxFramePayload, 1⟩).mapError decodeError
    let limit := negotiatedPayloadLimit envelope.frameType peer
    rejectIf (envelope.payloadLength > limit)
      ⟨.frameExceedsLimit envelope.frameType envelope.payloadLength limit .peer,
        ErrorCode.frameTooLarge⟩

def helloFrame (hello : Hello) : Except Error Bytes := do
  let payload ← (encodeHello hello).mapError fun error => ⟨.hello error, error.protocolCode⟩
  frame FrameType.hello payload

def settingsFrame (n : Negotiation) : Except Error Bytes := do
  let payload ← (encodeSettings n.localSettings).mapError fun error =>
    ⟨.settings error, error.protocolCode⟩
  frame FrameType.settings payload

def authContextFrame (n : Negotiation) : Except Error Bytes := do
  let payload ← (encodeAuthContext n.challenge).mapError fun _ =>
    ⟨.authContextInvalid, ErrorCode.malformedFrame⟩
  let frame ← (frame FrameType.authContext payload).mapError fun error =>
    ⟨error.kind, ErrorCode.malformedFrame⟩
  n.withinPeerControlLimit frame
  return frame

def openingFrames (n : Negotiation) : Except Error (List Bytes) := do
  let hello ← helloFrame ⟨draftRevision, .client, n.extensions⟩
  let settings ← n.settingsFrame
  return [hello, settings]

/-- Report the stream reserved. The client speaks first, the server waits for it. -/
def begin (n : Negotiation) : Except Error (List Bytes) × Negotiation :=
  if n.state ≠ .connecting then (.error (n.outOfSequence FrameType.hello), n)
  else if n.role = .server then (.ok [], { n with state := .controlReserved })
  else
    match n.openingFrames with
    | .ok frames => (.ok frames, { n with state := .helloSent })
    | .error error => (.error error, { n with state := .controlReserved })

/-- The state a HELLO is read in and the role it must name. -/
def helloExpected (n : Negotiation) : State × EndpointRole :=
  match n.role with
  | .server => (.controlReserved, .client)
  | .client => (.helloSent, .server)

def acceptHello (n : Negotiation) (payload : Bytes) : Except Error (Accepted × Negotiation) := do
  rejectIf (n.state ≠ n.helloExpected.1 ∨ n.peerHello.isSome) (n.outOfSequence FrameType.hello)
  let hello ← (decodeHello payload n.helloExpected.2).mapError fun error =>
    ⟨.hello error, error.protocolCode⟩
  return (.consumed [], { n with peerHello := some hello, state := .helloSent })

def readSettings (n : Negotiation) (payload : Bytes) : Except Error Settings := do
  rejectIf n.peerSettings.isSome (n.outOfSequence FrameType.settings)
  rejectIf (n.state ≠ .helloSent ∨ n.peerHello.isNone) (n.outOfSequence FrameType.settings)
  (decodeSettings payload).mapError fun error => ⟨.settings error, error.protocolCode⟩

/-- The server's whole reply. A challenge that names no format concludes the exchange. -/
def answerSettings (n : Negotiation) : Except Error (Accepted × Negotiation) := do
  let hello ← helloFrame ⟨draftRevision, .server, n.negotiatedExtensions⟩
  let settings ← n.settingsFrame
  let ack ← settingsAckFrame
  let context ← n.authContextFrame
  return (.consumed [hello, settings, ack, context],
    { n with state := if n.challenge.formats = [] then .authenticated else .negotiated })

def replySettings (n : Negotiation) : Except Error Accepted × Negotiation :=
  match n.role with
  | .client => (.ok (.consumed []), n)
  | .server => keeping n n.answerSettings

/-- The peer's settings are recorded before the reply is built, so they stay also when it cannot
be. -/
def acceptSettings (n : Negotiation) (payload : Bytes) : Except Error Accepted × Negotiation :=
  match n.readSettings payload with
  | .error error => (.error error, n)
  | .ok settings =>
    replySettings { n with peerSettings := some settings, state := .settingsExchanged }

/-- A repeated acknowledgement is ignored. -/
def acceptSettingsAck (n : Negotiation) : Except Error (Accepted × Negotiation) :=
  if n.role = .client ∧ n.state.isNegotiated then .ok (.consumed [], n)
  else do
    rejectIf (n.role ≠ .client ∨ n.state ≠ .settingsExchanged)
      (n.outOfSequence FrameType.settingsAck)
    return (.consumed [], { n with state := .negotiated })

def acceptAuthContext (n : Negotiation) (payload : Bytes) :
    Except Error (Accepted × Negotiation) := do
  rejectIf (n.role ≠ .client ∨ n.state ≠ .negotiated ∨ n.challengeRead)
    (n.outOfSequence FrameType.authContext)
  let context ← (decodeAuthContext payload).mapError fun _ =>
    ⟨.authContextInvalid, ErrorCode.malformedFrame⟩
  if context.formats = [] then
    return (.consumed [],
      { n with challengeRead := true, challenge := context, state := .authenticated })
  else
    rejectIf (¬ n.presenting)
      ⟨.capabilityRequired context.formats.length, ErrorCode.authenticationFailed⟩
    return (.presentationRequired, { n with challengeRead := true, challenge := context })

/-- The attempt an inbound answer must belong to. -/
def answeredAttempt (n : Negotiation) (frameType : ℕ) : Except Error (Block 16) :=
  match n.role, n.state, n.opened with
  | .client, .negotiated, some request => .ok request.sessionId
  | _, _, _ => .error (n.outOfSequence frameType)

def requireAnswersAttempt (answered sent : Block 16) : Except Error Unit :=
  rejectIf (answered ≠ sent) ⟨.sessionIdentifierMismatch, ErrorCode.authenticationFailed⟩

def acceptSessionAccept (n : Negotiation) (payload : Bytes) :
    Except Error (Accepted × Negotiation) := do
  let sent ← n.answeredAttempt FrameType.sessionAccept
  let accept ← (decodeSessionAccept payload).mapError fun _ =>
    ⟨.sessionAnswerInvalid FrameType.sessionAccept, ErrorCode.malformedFrame⟩
  requireAnswersAttempt accept.sessionId sent
  return (.consumed [],
    { n with opened := none, refusal := none, granted := some accept, state := .authenticated })

/-- A refusal leaves the session open for another attempt. -/
def acceptSessionReject (n : Negotiation) (payload : Bytes) :
    Except Error (Accepted × Negotiation) := do
  let sent ← n.answeredAttempt FrameType.sessionReject
  let reject ← (decodeSessionReject payload).mapError fun _ =>
    ⟨.sessionAnswerInvalid FrameType.sessionReject, ErrorCode.malformedFrame⟩
  requireAnswersAttempt reject.sessionId sent
  return (.presentationRequired, { n with opened := none, refusal := some reject })

/-- A request is checked against the challenge; what its capability is worth is the caller's to
say. -/
def acceptSessionOpen (n : Negotiation) (payload : Bytes) :
    Except Error (Accepted × Negotiation) := do
  rejectIf (n.role ≠ .server ∨ n.state ≠ .negotiated ∨ n.challenge.formats = [] ∨ n.opened.isSome)
    (n.outOfSequence FrameType.sessionOpen)
  rejectIf (n.attempted.length ≥ maxAuthenticationAttempts)
    ⟨.tooManyAuthenticationAttempts n.attempted.length, ErrorCode.authenticationFailed⟩
  let request ← (decodeSessionOpen payload).mapError fun _ =>
    ⟨.sessionOpenInvalid, ErrorCode.malformedFrame⟩
  rejectIf (request.sessionId ∈ n.attempted) ⟨.sessionIdentifierReused, ErrorCode.replayRejected⟩
  rejectIf (request.capabilityFormat ∉ n.challenge.formats)
    ⟨.capabilityFormatNotOffered request.capabilityFormat, ErrorCode.authenticationFailed⟩
  rejectIf (¬ bindingProofAgrees n.challenge.binding request.bindingProof)
    ⟨.bindingProofMismatch n.challenge.binding request.bindingProof.length,
      ErrorCode.authenticationFailed⟩
  return (.authorizationRequired,
    { n with attempted := n.attempted ++ [request.sessionId], opened := some request })

def acceptApplication (n : Negotiation) (frameType : ℕ) : Except Error (Accepted × Negotiation) := do
  rejectIf (¬ n.state.isNegotiated) ⟨.notNegotiated frameType, ErrorCode.malformedFrame⟩
  rejectIf (¬ n.state.isReady ∧ requiresAuthentication frameType)
    ⟨.notAuthenticated frameType, ErrorCode.authenticationFailed⟩
  return (.application, n)

def acceptFrame (n : Negotiation) (frameType : ℕ) (payload : Bytes) :
    Except Error Accepted × Negotiation :=
  if frameType = FrameType.hello then keeping n (n.acceptHello payload)
  else if frameType = FrameType.settings then n.acceptSettings payload
  else if frameType = FrameType.settingsAck then keeping n n.acceptSettingsAck
  else if frameType = FrameType.authContext then keeping n (n.acceptAuthContext payload)
  else if frameType = FrameType.sessionOpen then keeping n (n.acceptSessionOpen payload)
  else if frameType = FrameType.sessionAccept then keeping n (n.acceptSessionAccept payload)
  else if frameType = FrameType.sessionReject then keeping n (n.acceptSessionReject payload)
  else keeping n (n.acceptApplication frameType)

/-- Feed one complete control frame. Unknown optional frames are skipped at any point. -/
def acceptControl (n : Negotiation) (frame : Bytes) : Except Error Accepted × Negotiation :=
  match decodeOne frame ⟨n.localSettings.maxControlFramePayload, 1⟩ with
  | .error error => (.error (decodeError error), n)
  | .ok (decoded, consumed) =>
    if consumed ≠ frame.length then
      (.error ⟨.decode (.lengthOverflow consumed), ErrorCode.malformedFrame⟩, n)
    else
      match decoded with
      | .skippedOptional .. => (.ok (.consumed []), n)
      | .known frameType payload => n.acceptFrame frameType payload

/-- End the exchange because the peer broke it. -/
def abandon (n : Negotiation) : Negotiation := { n with state := .closed }

/-- Report the carrier gone; before the exchange finished that is an error. -/
def carrierClosed (n : Negotiation) : Except Error Unit × Negotiation :=
  (rejectIf (¬ (n.state.isReady ∨ n.state = .closed))
    ⟨.interrupted n.state, ErrorCode.malformedFrame⟩, { n with state := .closed })

/-- The challenge awaiting a capability, on a presenting client. -/
def pendingPresentation (n : Negotiation) : Option AuthContext :=
  if n.role = .client ∧ n.state = .negotiated ∧ n.presenting ∧ n.challengeRead ∧ n.opened = none then
    some n.challenge
  else none

def attemptsRemaining (n : Negotiation) : ℕ := maxAuthenticationAttempts - n.attempted.length

/-- The request is encoded and measured before the attempt is spent. -/
def presented (n : Negotiation) (request : SessionOpen) :
    Except Error (List Bytes × Negotiation) := do
  rejectIf n.pendingPresentation.isNone (presentationError (.nothingToAnswer n.state))
  rejectIf (n.attemptsRemaining = 0) (presentationError (.attemptsSpent n.attempted.length))
  rejectIf (request.sessionId ∈ n.attempted) (presentationError .identifierReused)
  rejectIf (request.capabilityFormat ∉ n.challenge.formats)
    (presentationError (.formatNotOffered request.capabilityFormat))
  rejectIf (¬ bindingProofAgrees n.challenge.binding request.bindingProof)
    (presentationError (.bindingProof n.challenge.binding request.bindingProof.length))
  let frame ← sessionFrame FrameType.sessionOpen (encodeSessionOpen request)
  n.withinPeerControlLimit frame
  return ([frame], { n with
    attempted := n.attempted ++ [request.sessionId], refusal := none, opened := some request })

def present (n : Negotiation) (request : SessionOpen) : Except Error (List Bytes) × Negotiation :=
  keeping n (n.presented request)

def grants (n : Negotiation) (grantedScope : Bytes) : Except Error (List Bytes × Negotiation) := do
  let request ← okOr n.opened (n.outOfSequence FrameType.sessionAccept)
  let accept : SessionAccept := ⟨request.sessionId, grantedScope⟩
  let frame ← sessionFrame FrameType.sessionAccept (encodeSessionAccept accept)
  n.withinPeerControlLimit frame
  return ([frame], { n with granted := some accept, opened := none, state := .authenticated })

/-- Authorize the pending request with the scope the policy granted. -/
def grant (n : Negotiation) (grantedScope : Bytes) : Except Error (List Bytes) × Negotiation :=
  keeping n (n.grants grantedScope)

def refuses (n : Negotiation) (reason : UInt16) (detail : String) :
    Except Error (List Bytes × Negotiation) := do
  let request ← okOr n.opened (n.outOfSequence FrameType.sessionReject)
  let frame ← sessionFrame FrameType.sessionReject
    (encodeSessionReject ⟨request.sessionId, reason.toUInt64, detail⟩)
  n.withinPeerControlLimit frame
  return ([frame], { n with opened := none })

/-- Refuse the pending request; the session stays open. -/
def refuse (n : Negotiation) (reason : UInt16) (detail : String) :
    Except Error (List Bytes) × Negotiation :=
  keeping n (n.refuses reason detail)

end Negotiation

end ObjectTransfer.Sessions
