import ObjectTransfer.Foundations.Stateful
import ObjectTransfer.Sessions.Negotiation

/-! # A session over a transport

The negotiation runs over an adapter and gates the data plane. Frames of the exchange wait in a
queue until the backend takes them, and records that arrive before the exchange is concluded are
held. The adapter is a parameter: it answers every call as it likes.
-/

namespace ObjectTransfer.Sessions
open Foundations Codec

inductive DatagramSendState where
  | queued
  | sent
  | acknowledged
  | suspectedLost
  | canceled
  deriving DecidableEq, Repr

inductive Event where
  | connected (connection : ℕ)
  | disconnected (connection : ℕ)
  | control (bytes : Bytes)
  | reliable (stream sequence : ℕ) (bytes : Bytes)
  | acknowledged (stream sequence : ℕ)
  | datagramState (context : ℕ) (state : DatagramSendState)
  | datagram (bytes : Bytes)
  deriving DecidableEq, Repr

class TransportAdapter (α : Type) where
  channelBinding : α → Except Transport.Error (Block 32)
  sendControl : Bytes → α → Except Transport.Error Unit × α
  sendControlShared : Bytes → α → Except Transport.Error Unit × α
  sendReliable : ℕ → Bytes → α → Except Transport.Error Unit × α
  sendReliableShared : ℕ → Bytes → α → Except Transport.Error Unit × α
  sendDatagram : ℕ → Bytes → α → Except Transport.Error Unit × α
  flush : α → Except Transport.Error Unit × α
  poll : α → Option Event × α
  close : ℕ → α → Except Transport.Error Unit × α
  receiveLimits : α → Option ReceiveLimits
  setControlPayloadLimit : ℕ → α → Except Transport.Error Unit × α

def transportError (error : Transport.Error) : Error :=
  ⟨.transport error,
    match error with
    | .recordTooLarge => ErrorCode.frameTooLarge
    | .outboundQueueFull | .inboundQueueFull | .stagingExhausted => ErrorCode.resourceLimit
    | _ => ErrorCode.malformedFrame⟩

def ReceiveLimits.matchSettings (limits : ReceiveLimits) (settings : Settings) : Bool :=
  decide (limits.controlPayload = settings.maxControlFramePayload ∧
    limits.lanes = settings.reliableLaneLimit)

/-! ## Checks of one frame -/

/-- A lane in use is free; another must fit the limit. -/
def laneAllowed (lanes : Finset ℕ) (stream limit : ℕ) (side : Side) : Except Error Unit :=
  rejectIf (¬ (stream ∈ lanes ∨ lanes.card < limit))
    ⟨.laneLimitExceeded limit side, ErrorCode.resourceLimit⟩

/-- Records travel on lanes and everything else on the control stream. -/
def Lane.carries (lane : Lane) (frameType : ℕ) : Bool :=
  match lane with
  | .control => frameType ≠ FrameType.dataRecord
  | .reliable => frameType = FrameType.dataRecord

def isExchangeFrame (frameType : ℕ) : Bool :=
  frameType ∈ exchangeTypes

def senderRole (localRole : EndpointRole) (side : Side) : EndpointRole :=
  match localRole, side with
  | role, .peer => role
  | .client, .local => .server
  | .server, .local => .client

def directionAllowed (frameType : ℕ) (localRole : EndpointRole) (push : Bool) (side : Side) : Bool :=
  let sender := senderRole localRole side
  let publisher := if push then EndpointRole.client else .server
  let requester := if push then EndpointRole.server else .client
  if frameType ∈ [FrameType.packageDescriptor, FrameType.manifestPage, FrameType.progressivePage,
      FrameType.seal, FrameType.proofBundle, FrameType.dataRecord] then sender = publisher
  else if frameType ∈ [FrameType.manifestRequest, FrameType.have, FrameType.rangeRequest,
      FrameType.rangeCancel] then sender = requester
  else true

def checkDirection (frameType : ℕ) (negotiation : Negotiation) (localRole : EndpointRole)
    (side : Side) : Except Error Unit :=
  rejectIf (¬ directionAllowed frameType localRole
    (negotiation.extensionIsNegotiated ExtensionId.push) side)
    ⟨.frameFromWrongRole frameType (senderRole localRole side) side, ErrorCode.malformedFrame⟩

/-- An experimental frame needs its extension, whichever side it came from. -/
def checkExtension (frameType : ℕ) (negotiation : Negotiation) (side : Side) :
    Except Error Unit :=
  match requiredExtension frameType with
  | none => .ok ()
  | some extension =>
    rejectIf (¬ negotiation.extensionIsNegotiated extension)
      ⟨.experimentNotNegotiated frameType extension side, ErrorCode.experimentNotNegotiated⟩

/-- Exactly one whole frame, on its lane, of a type this side may send, within the limits. -/
def checkFrame (frame : Bytes) (settings : Settings) (negotiation : Negotiation) (lane : Lane)
    (side : Side) (localRole : EndpointRole) (enforceDirection : Bool) : Except Error Unit := do
  let envelope ← (peekEnvelope frame ⟨settings.maxControlFramePayload, 1⟩).mapError decodeError
  rejectIf (envelope.totalLength ≠ frame.length)
    ⟨.notExactlyOneFrame envelope.frameType envelope.totalLength frame.length side,
      ErrorCode.malformedFrame⟩
  rejectIf (¬ lane.carries envelope.frameType)
    ⟨.frameOnTheWrongLane envelope.frameType lane side, ErrorCode.malformedFrame⟩
  rejectIf (side = .peer ∧ isExchangeFrame envelope.frameType)
    ⟨.negotiationFrameFromApplication envelope.frameType, ErrorCode.malformedFrame⟩
  checkExtension envelope.frameType negotiation side
  let limit := negotiatedPayloadLimit envelope.frameType settings
  rejectIf (envelope.payloadLength > limit)
    ⟨.frameExceedsLimit envelope.frameType envelope.payloadLength limit side,
      ErrorCode.frameTooLarge⟩
  if enforceDirection then checkDirection envelope.frameType negotiation localRole side else .ok ()

/-! ## Records held before readiness -/

def maxDataRecordWireBytes : ℕ := Transport.maxDataRecordBytes + Transport.maxFrameEnvelopeBytes

def defaultPendingRecordBytes : ℕ := 4 * maxDataRecordWireBytes

def defaultPendingRecordCount : ℕ := 64

structure PendingEvents where
  events : List Event
  bytes : ℕ
  byteLimit : ℕ
  countLimit : ℕ

namespace PendingEvents

def default : PendingEvents := ⟨[], 0, defaultPendingRecordBytes, defaultPendingRecordCount⟩

def cost : Event → ℕ
  | .reliable _ _ bytes => bytes.length
  | _ => 0

def exhaustedError (pending : PendingEvents) : Error :=
  ⟨.pendingRecordsExhausted pending.bytes pending.events.length, ErrorCode.resourceLimit⟩

def tryHold (pending : PendingEvents) (event : Event) : Except Error PendingEvents := do
  let next ← okOr (checkedAdd pending.bytes (cost event)) pending.exhaustedError
  rejectIf (next > pending.byteLimit ∨ pending.events.length ≥ pending.countLimit)
    pending.exhaustedError
  return { pending with bytes := next, events := pending.events ++ [event] }

def popFront (pending : PendingEvents) : Option (Event × PendingEvents) :=
  match pending.events with
  | [] => none
  | event :: events => some (event, { pending with events, bytes := pending.bytes - cost event })

end PendingEvents

/-! ## The session -/

/-- What an endpoint does about authentication. -/
inductive Authentication where
  | notRequired (nonce : Block 32)
  | capability (challenge : AuthContext)
  | presenting
  deriving DecidableEq

def retiredNonceOnlyCapabilityFormat : UInt64 := 0x0001

def channelBoundCapabilityFormat : UInt64 := 0x0002

structure Session (α : Type) where
  adapter : α
  negotiation : Negotiation
  authentication : Authentication
  /-- Frames of the exchange the backend has not accepted yet. -/
  outbound : List Bytes
  pending : PendingEvents
  /-- Lanes this endpoint has sent on. -/
  lanes : Finset ℕ
  controlLimitApplied : Bool
  channelBinding : Option (Block 32)
  bindingRequired : Bool
  requiredExtensions : Finset ℕ
  expectedGrantedScope : Option Bytes

namespace Session

variable {α β : Type}

abbrev Method (α β : Type) := Stateful (Session α) Error β

def new (adapter : α) (negotiation : Negotiation) (authentication : Authentication) :
    Session α where
  adapter := adapter
  negotiation := negotiation
  authentication := authentication
  outbound := []
  pending := .default
  lanes := ∅
  controlLimitApplied := false
  channelBinding := none
  bindingRequired := false
  requiredExtensions := ∅
  expectedGrantedScope := none

def client (adapter : α) (localSettings : Settings) (extensions : Finset ℕ)
    (authentication : Authentication) : Session α :=
  let negotiation := match authentication with
    | .presenting => Negotiation.presentingClient localSettings extensions
    | _ => Negotiation.client localSettings extensions
  new adapter negotiation authentication

def server (adapter : α) (localSettings : Settings) (extensions : Finset ℕ)
    (authentication : Authentication) : Session α :=
  let challenge := match authentication with
    | .capability challenge => challenge
    | .notRequired nonce => noCapability nonce
    | .presenting => noCapability (.replicate 32 0)
  new adapter (Negotiation.server localSettings extensions challenge) authentication

def state (s : Session α) : State := s.negotiation.state

def isReady (s : Session α) : Bool := s.negotiation.isReady

def negotiate (step : Negotiation → Except Error β × Negotiation) : Method α β := fun s =>
  let (result, negotiation) := step s.negotiation
  (result, { s with negotiation })

def backend (operation : α → β × α) : Method α β := fun s =>
  let (result, adapter) := operation s.adapter
  (.ok result, { s with adapter })

def setPendingLimits (bytes count : ℕ) : Method α Unit := do
  Stateful.raise (rejectIf (bytes < maxDataRecordWireBytes ∨ count = 0)
    ⟨.transport .invalidConfiguration, ErrorCode.resourceLimit⟩)
  modify fun s => { s with pending := { s.pending with byteLimit := bytes, countLimit := count } }

def requireExtension (extension : ℕ) : Method α Unit :=
  modify fun s => { s with requiredExtensions := insert extension s.requiredExtensions }

def requireGrantedScope (scope : Bytes) : Method α Unit :=
  modify fun s => { s with expectedGrantedScope := some scope }

/-- A stance that means nothing for the role is refused. -/
def checkAuthenticationRole (s : Session α) : Except Error Unit :=
  match s.authentication, s.negotiation.role with
  | .notRequired _, _ | .capability _, .server | .presenting, .client => .ok ()
  | .capability _, role | .presenting, role =>
    .error ⟨.authenticationRoleMismatch role, ErrorCode.malformedFrame⟩

def checkLocalAuthenticationPolicy (s : Session α) : Except Error Unit :=
  match s.authentication with
  | .capability challenge =>
    rejectIf (retiredNonceOnlyCapabilityFormat ∈ challenge.formats ∨
      channelBoundCapabilityFormat ∈ challenge.formats ∧ challenge.binding ≠ .proofOfPossession)
      ⟨.authContextInvalid, ErrorCode.malformedFrame⟩
  | _ => .ok ()

/-- Whether the policy needs material derived from the carrier. -/
def policyBinds (authentication : Authentication) : Bool :=
  match authentication with
  | .capability challenge => challenge.binding = .proofOfPossession
  | _ => false

def checkInbound (s : Session α) (frame : Bytes) (lane : Lane) : Except Error Unit :=
  checkFrame frame s.negotiation.localSettings s.negotiation lane .local s.negotiation.role s.isReady

def checkOutbound (s : Session α) (frame : Bytes) (lane : Lane) : Except Error Unit :=
  match s.negotiation.peerSettings with
  | none => .ok ()
  | some peer => checkFrame frame peer s.negotiation lane .peer s.negotiation.role s.isReady

/-- The next held event. A record is checked again under what was negotiated since. -/
def takePending : Method α (Option Event) := do
  let s ← get
  match s.pending.popFront with
  | none => return none
  | some (event, pending) => do
    modify fun s => { s with pending := pending }
    match event with
    | .reliable _ _ bytes => Stateful.raise (s.checkInbound bytes .reliable)
    | _ => pure ()
    return some event

def takePendingIfReady : Method α (Option Event) := do
  let s ← get
  if s.isReady then takePending else return none

def hold (record : Event) : Method α Unit := do
  let s ← get
  let pending ← Stateful.raise (s.pending.tryHold record)
  modify fun s => { s with pending := pending }

/-- Whether the server granted another scope than the one required. -/
def scopeMismatch (s : Session α) : Bool :=
  match s.expectedGrantedScope, s.negotiation.granted with
  | some expected, some granted => granted.grantedScope ≠ expected
  | _, _ => false

def missingExtension (s : Session α) : Option ℕ :=
  if s.negotiation.peerHello.isSome then
    (s.requiredExtensions.sort (· ≤ ·)).find? fun extension =>
      !s.negotiation.extensionIsNegotiated extension
  else none

/-- A closed session has nothing left to negotiate. -/
def mayNegotiate (s : Session α) : Bool := s.state ≠ .closed

/-- Readiness is not enough: nothing may overtake a queued frame of the exchange. -/
def requireSendable (s : Session α) : Except Error Unit := do
  rejectIf (¬ s.isReady) ⟨.notReady s.state, ErrorCode.malformedFrame⟩
  rejectIf (s.outbound ≠ []) ⟨.handshakeUnsent s.outbound.length, ErrorCode.resourceLimit⟩

def requireLaneAllowed (s : Session α) (stream : ℕ) : Except Error Unit :=
  match s.negotiation.peerSettings with
  | none => .ok ()
  | some peer => laneAllowed s.lanes stream peer.reliableLaneLimit .peer

variable [TransportAdapter α]

def checkReceiveLimit (s : Session α) : Except Error Unit :=
  match TransportAdapter.receiveLimits s.adapter with
  | none => .ok ()
  | some limits =>
    let advertised := s.negotiation.localSettings
    rejectIf (¬ limits.matchSettings advertised)
      ⟨.receiveLimitMismatch advertised.maxControlFramePayload advertised.reliableLaneLimit limits,
        ErrorCode.invalidSetting⟩

/-- Hand frames to the backend in order. A full queue is backpressure; the frame stays queued. -/
def drain : List Bytes → α → Except Transport.Error Unit × List Bytes × α
  | [], adapter => (.ok (), [], adapter)
  | frame :: rest, adapter =>
    match TransportAdapter.sendControl frame adapter with
    | (.ok (), adapter) => drain rest adapter
    | (.error .outboundQueueFull, adapter) => (.ok (), frame :: rest, adapter)
    | (.error error, adapter) => (.error error, frame :: rest, adapter)

def drainQueue : Method α Unit := fun s =>
  let (result, outbound, adapter) := drain s.outbound s.adapter
  (result.mapError transportError, { s with outbound, adapter })

def flushBackend : Method α Unit := do
  let flushed ← backend TransportAdapter.flush
  Stateful.raise (flushed.mapError transportError)

def drainOutbound : Method α Unit := do
  drainQueue
  flushBackend

def submit (frames : List Bytes) : Method α Unit := do
  modify fun s => { s with outbound := s.outbound ++ frames }
  drainOutbound

def begin : Method α Unit := do
  let s ← get
  Stateful.raise s.checkAuthenticationRole
  Stateful.raise s.checkLocalAuthenticationPolicy
  modify fun s => { s with bindingRequired := policyBinds s.authentication }
  Stateful.raise s.checkReceiveLimit
  let frames ← negotiate Negotiation.begin
  submit frames

/-- The result of closing the carrier is ignored. -/
def closeCarrier (code : ℕ) : Method α Unit := do
  let _ ← backend (TransportAdapter.close code)

def abandon : Method α Unit :=
  modify fun s => { s with negotiation := s.negotiation.abandon }

def clearBinding : Method α Unit :=
  modify fun s => { s with channelBinding := none, bindingRequired := false }

/-- End the session when the peer is the one that broke it, and only then. -/
def fail (error : Error) : Method α Unit :=
  if error.kind.isPeerFault then do
    clearBinding
    closeCarrier error.closeCode
    abandon
  else pure ()

def latchRequiredChannelBinding : Method α Unit := do
  let s ← get
  if s.bindingRequired ∧ s.channelBinding = none then
    match TransportAdapter.channelBinding s.adapter with
    | .ok binding => modify fun s => { s with channelBinding := some binding }
    | .error transport => do
      modify fun s => { s with channelBinding := none }
      closeCarrier (transportError transport).closeCode
      abandon
      throw (transportError transport)
  else pure ()

/-- The peer's limit on control frames is put to the backend, which may have no such bound. -/
def applyPeerLimits : Method α Unit := do
  let s ← get
  match s.negotiation.peerSettings with
  | none => pure ()
  | some peer => do
    let result ← backend (TransportAdapter.setControlPayloadLimit peer.maxControlFramePayload)
    modify fun s => { s with controlLimitApplied := result.isOk }

def answerConsumed (reply : List Bytes) : Method α (Option Event) := do
  let s ← get
  submit reply
  if s.negotiation.state.isNegotiated then applyPeerLimits
  return none

def answerPresentation : Method α (Option Event) := do
  let s ← get
  if s.negotiation.pendingPresentation.any fun challenge =>
      challenge.binding = .proofOfPossession then do
    modify fun s => { s with bindingRequired := true }
    latchRequiredChannelBinding
  return none

def acceptControl (bytes : Bytes) : Method α (Option Event) := do
  match ← negotiate (·.acceptControl bytes) with
  | .application => return some (.control bytes)
  | .consumed reply => answerConsumed reply
  | .authorizationRequired => do
    latchRequiredChannelBinding
    return none
  | .presentationRequired => answerPresentation

/-- What follows an accepted control frame: `none` goes on polling. A refusal gives the caller a
turn. -/
def afterControl (accepted : Option Event) : Method α (Option (Option Event)) := do
  let s ← get
  if s.negotiation.refusal.isSome then return some none
  else if s.scopeMismatch then do
    let error : Error := ⟨.grantedScopeMismatch, ErrorCode.authorizationFailed⟩
    fail error
    throw error
  else
    match s.missingExtension with
    | some extension => do
      closeCarrier ErrorCode.experimentNotNegotiated
      abandon
      throw ⟨.requiredExtensionUnavailable extension, ErrorCode.experimentNotNegotiated⟩
    | none => return accepted.map some

/-- One event of the carrier: `none` goes on polling. -/
def handle (event : Event) : Method α (Option (Option Event)) := do
  match event with
  | .connected connection => do
    latchRequiredChannelBinding
    return some (some (.connected connection))
  | .control bytes => do
    Stateful.raise ((← get).checkInbound bytes .control)
    let accepted ← acceptControl bytes
    afterControl accepted
  | .disconnected connection => do
    clearBinding
    negotiate Negotiation.carrierClosed
    return some (some (.disconnected connection))
  | .reliable stream sequence bytes => do
    Stateful.raise ((← get).checkInbound bytes .reliable)
    if (← get).isReady then return some (some (.reliable stream sequence bytes))
    else do
      hold (.reliable stream sequence bytes)
      return none
  | .datagram bytes => do
    let s ← get
    if s.isReady ∧ s.negotiation.extensionIsNegotiated ExtensionId.datagramFec then
      return some (some (.datagram bytes))
    else return none
  | other => return some (some other)

/-- The polling loop, for at most `fuel` events; `none` when it has not returned by then. -/
def pollLoop : ℕ → Method α (Option (Option Event))
  | 0 => return none
  | fuel + 1 => do
    match ← backend TransportAdapter.poll with
    | none => return some none
    | some event => do
      match ← handle event with
      | some result => return some result
      | none => do
        match ← takePendingIfReady with
        | some event => return some (some event)
        | none => pollLoop fuel

/-- Lifecycle events only, for at most `fuel` events. -/
def drainLifecycle : ℕ → Method α (Option (Option Event))
  | 0 => return none
  | fuel + 1 => do
    match ← backend TransportAdapter.poll with
    | none => return some none
    | some (.control _) | some (.reliable ..) | some (.datagram _) => drainLifecycle fuel
    | some lifecycle => return some (some lifecycle)

def drainIfQueued : Method α Unit := do
  let s ← get
  if s.mayNegotiate ∧ s.outbound ≠ [] then drainOutbound else pure ()

def pollInner (fuel : ℕ) : Method α (Option (Option Event)) := do
  drainIfQueued
  if (← get).state = .closed then drainLifecycle fuel
  else do
    match ← takePendingIfReady with
    | some event => return some (some event)
    | none => pollLoop fuel

/-- An error is reported after what it means for the session. -/
def reporting : Except Error β × Session α → Except Error β × Session α
  | (.error error, s) => (.error error, ((fail error).call s).2)
  | (.ok value, s) => (.ok value, s)

/-- The next event the application should see. -/
def poll (fuel : ℕ) : Method α (Option (Option Event)) := fun s => reporting ((pollInner fuel).call s)

/-- The two ways of submitting a control frame, which differ in what the backend copies. -/
def sendControlWith (send : Bytes → α → Except Transport.Error Unit × α) (frame : Bytes) :
    Method α Unit := do
  let s ← get
  Stateful.raise s.requireSendable
  Stateful.raise (s.checkOutbound frame .control)
  let sent ← backend (send frame)
  Stateful.raise (sent.mapError transportError)

def sendControl (frame : Bytes) : Method α Unit :=
  sendControlWith TransportAdapter.sendControl frame

def sendControlShared (frame : Bytes) : Method α Unit :=
  sendControlWith TransportAdapter.sendControlShared frame

/-- A lane counts only once the backend has taken a record on it. -/
def sendReliableWith (send : ℕ → Bytes → α → Except Transport.Error Unit × α) (stream : ℕ)
    (record : Bytes) : Method α Unit := do
  let s ← get
  Stateful.raise s.requireSendable
  Stateful.raise (s.checkOutbound record .reliable)
  Stateful.raise (s.requireLaneAllowed stream)
  let sent ← backend (send stream record)
  Stateful.raise (sent.mapError transportError)
  modify fun s => { s with lanes := insert stream s.lanes }

def sendReliable (stream : ℕ) (record : Bytes) : Method α Unit :=
  sendReliableWith TransportAdapter.sendReliable stream record

def sendReliableShared (stream : ℕ) (record : Bytes) : Method α Unit :=
  sendReliableWith TransportAdapter.sendReliableShared stream record

def sendDatagram (context : ℕ) (payload : Bytes) : Method α Unit := do
  let s ← get
  Stateful.raise s.requireSendable
  let sent ← backend (TransportAdapter.sendDatagram context payload)
  Stateful.raise (sent.mapError transportError)

/-- A closed session adds nothing to what the backend holds. -/
def flush : Method α Unit := do
  let s ← get
  if s.mayNegotiate then drainOutbound else flushBackend

def present (request : SessionOpen) : Method α Unit := do
  Stateful.raise (rejectIf (request.capabilityFormat = retiredNonceOnlyCapabilityFormat)
    (presentationError (.formatRetired request.capabilityFormat)))
  let reply ← negotiate (·.present request)
  submit reply

def grant (grantedScope : Bytes) : Method α Unit := do
  let reply ← negotiate (·.grant grantedScope)
  submit reply

def refuse (reason : UInt16) (detail : String) : Method α Unit := do
  let reply ← negotiate (·.refuse reason detail)
  submit reply

end Session

end ObjectTransfer.Sessions
