import ObjectTransfer.Sessions.Negotiation

/-! # Frames of the exchange

Everything the state machine asks to be sent is one frame of the exchange, and the peer reads back
its type and its payload.
-/

namespace ObjectTransfer.Sessions
open Foundations Codec

variable {n : Negotiation}

namespace Negotiation

/-- The known frame that makes up the whole input. -/
def readFrame (n : Negotiation) (frame : Bytes) : Option (ℕ × Bytes) :=
  match decodeOne frame ⟨n.localSettings.maxControlFramePayload, 1⟩ with
  | .ok (.known frameType payload, consumed) =>
    if consumed = frame.length then some (frameType, payload) else none
  | _ => none

theorem acceptControl_of_read {frame payload : Bytes} {frameType : ℕ}
    (h : n.readFrame frame = some (frameType, payload)) :
    n.acceptControl frame = n.acceptFrame frameType payload := by
  unfold readFrame at h
  unfold acceptControl
  split at h
  · next hdecoded =>
    rw [hdecoded]
    split_ifs at h with hlength
    cases h
    simp [hlength]
  · cases h

theorem acceptControl_of_unread {frame : Bytes} (h : n.readFrame frame = none) :
    (∃ error, n.acceptControl frame = (.error error, n)) ∨
      n.acceptControl frame = (.ok (.consumed []), n) := by
  unfold readFrame at h
  unfold acceptControl
  cases hdecoded : decodeOne frame ⟨n.localSettings.maxControlFramePayload, 1⟩ with
  | error => exact .inl ⟨_, rfl⟩
  | ok result =>
    obtain ⟨decoded, consumed⟩ := result
    rw [hdecoded] at h
    cases decoded with
    | skippedOptional =>
      by_cases hlength : consumed = frame.length
      · exact .inr (by simp [hlength])
      · exact .inl ⟨⟨.decode (.lengthOverflow consumed), ErrorCode.malformedFrame⟩,
          by simp [hlength]⟩
    | known =>
      simp only [ite_eq_right_iff, reduceCtorEq, imp_false] at h
      exact .inl ⟨⟨.decode (.lengthOverflow consumed), ErrorCode.malformedFrame⟩, by simp [h]⟩

end Negotiation

def Fits (frameType : ℕ) (payload : Bytes) : Prop := (encodeFrame frameType payload []).2 = .ok ()

instance (frameType : ℕ) (payload : Bytes) : Decidable (Fits frameType payload) :=
  inferInstanceAs (Decidable (_ = _))

def ExchangeFrame (bytes : Bytes) : Prop :=
  ∃ frameType ∈ exchangeTypes, ∃ payload, bytes = frameBytes (frameType, payload)

section Encoded

variable {frameType : ℕ} {payload bytes : Bytes}

theorem frame_eq_ok : frame frameType payload = .ok bytes ↔
    Fits frameType payload ∧ bytes = frameBytes (frameType, payload) := by
  unfold frame Fits frameBytes
  cases hresult : encodeFrame frameType payload [] with
  | mk output result =>
    cases result with
    | ok => simp [eq_comm]
    | error => simp

theorem sessionFrame_eq_ok {result : Except Codec.Error Bytes} :
    sessionFrame frameType result = .ok bytes ↔ ∃ payload, result = .ok payload ∧
      Fits frameType payload ∧ bytes = frameBytes (frameType, payload) := by
  unfold sessionFrame encodeTyped Fits frameBytes
  cases result with
  | error => simp
  | ok payload =>
    cases hresult : encodeFrame frameType payload [] with
    | mk output written =>
      cases written with
      | ok => simp [hresult, Except.mapError, eq_comm]
      | error => simp [hresult, Except.mapError]

theorem fits_of_le {limit : ℕ} (hlimit : registeredPayloadLimit frameType = some limit)
    (hlength : payload.length ≤ limit) (hhard : limit ≤ hardMaxFramePayload)
    (htype : frameType ≤ maxQuicVarint) : Fits frameType payload := by
  obtain ⟨kind, hkind⟩ := encodeVarint_ok_iff.mpr htype
  have hsmall : payload.length ≤ maxQuicVarint := by
    unfold hardMaxFramePayload at hhard
    unfold maxQuicVarint
    omega
  obtain ⟨length, hsize⟩ := encodeVarint_ok_iff.mpr hsmall
  rw [Fits, encodeFrame, hkind, hsize, hlimit, Option.getD_some, if_neg (by omega)]

theorem validateLimits_one {limit : ℕ} (h : limit ≤ hardMaxFramePayload) :
    validateLimits ⟨limit, 1⟩ = .ok () := by
  rw [validateLimits, rejectIf_eq_ok]
  dsimp only
  omega

section

variable (htype : frameType ∈ exchangeTypes)
include htype

theorem exchange_registered :
    (registeredPayloadLimit frameType).isSome := by
  revert htype
  exact (by decide : ∀ known ∈ exchangeTypes, (registeredPayloadLimit known).isSome) frameType

theorem exchange_limit (peer : Settings) :
    negotiatedPayloadLimit frameType peer = peer.maxControlFramePayload := by
  have hother : ∀ known ∈ exchangeTypes, known ≠ FrameType.dataRecord ∧
      ¬ (known = FrameType.manifestPage ∨ known = FrameType.progressivePage) := by decide
  unfold negotiatedPayloadLimit
  rw [if_neg (hother _ htype).1, if_neg (hother _ htype).2]

theorem carried_of_exchange (hfits : Fits frameType payload)
    (limits : DecodeLimits) : Carried limits (frameType, payload) := by
  have hknown := exchange_registered htype
  exact ⟨hfits, .inl hknown, fun hnone => by simp [hnone] at hknown⟩

theorem readFrame_frameBytes (hfits : Fits frameType payload)
    (hlimit : n.localSettings.maxControlFramePayload ≤ hardMaxFramePayload) :
    n.readFrame (frameBytes (frameType, payload)) = some (frameType, payload) := by
  have hcarried := carried_of_exchange htype hfits ⟨n.localSettings.maxControlFramePayload, 1⟩
  have hdecode := decodeOne_frameBytes (validateLimits_one hlimit) hcarried []
  rw [List.append_nil] at hdecode
  rw [Negotiation.readFrame, hdecode, delivered, if_pos (exchange_registered htype)]
  simp

theorem within_frameBytes (hfits : Fits frameType payload) :
    n.withinPeerControlLimit (frameBytes (frameType, payload)) = .ok () ↔
      ∀ peer, n.peerSettings = some peer → payload.length ≤ peer.maxControlFramePayload := by
  unfold Negotiation.withinPeerControlLimit
  cases n.peerSettings with
  | none => simp
  | some =>
    obtain ⟨kind, length, hkind, hlength, hbound, hbytes⟩ := encodeFrame_ok hfits
    have hpeek := peekEnvelope_encoded (validateLimits_one le_rfl)
      (carried_of_exchange htype hfits ⟨hardMaxFramePayload, 1⟩) hkind hlength hbound payload
    have hframe : frameBytes (frameType, payload) = kind ++ length ++ payload := hbytes
    rw [hframe, hpeek]
    simp only [Except.mapError, ok_bind, exchange_limit htype, rejectIf_eq_ok, not_lt]
    simp

end

end Encoded

namespace Negotiation

variable {n : Negotiation} {bytes : Bytes}

theorem helloFrame_eq_ok {hello : Hello} : helloFrame hello = .ok bytes ↔
    ∃ payload, encodeHello hello = .ok payload ∧ Fits FrameType.hello payload ∧
      bytes = frameBytes (FrameType.hello, payload) := by
  simp only [helloFrame, bind_eq_ok, mapError_eq_ok, frame_eq_ok]

theorem settingsFrame_eq_ok : n.settingsFrame = .ok bytes ↔
    ∃ payload, encodeSettings n.localSettings = .ok payload ∧ Fits FrameType.settings payload ∧
      bytes = frameBytes (FrameType.settings, payload) := by
  simp only [settingsFrame, bind_eq_ok, mapError_eq_ok, frame_eq_ok]

theorem settingsAckFrame_eq : settingsAckFrame = .ok (frameBytes (FrameType.settingsAck, [])) :=
  frame_eq_ok.mpr ⟨by decide, rfl⟩

theorem authContextFrame_eq_ok : n.authContextFrame = .ok bytes ↔
    ∃ payload, encodeAuthContext n.challenge = .ok payload ∧ Fits FrameType.authContext payload ∧
      (∀ peer, n.peerSettings = some peer → payload.length ≤ peer.maxControlFramePayload) ∧
      bytes = frameBytes (FrameType.authContext, payload) := by
  simp only [authContextFrame, bind_eq_ok, mapError_eq_ok, frame_eq_ok, pure_eq_ok]
  constructor
  · rintro ⟨payload, hpayload, _, ⟨hfits, rfl⟩, _, hwithin, rfl⟩
    exact ⟨payload, hpayload, hfits, (within_frameBytes (by decide) hfits).mp hwithin, rfl⟩
  · rintro ⟨payload, hpayload, hfits, hwithin, rfl⟩
    exact ⟨payload, hpayload, _, ⟨hfits, rfl⟩, (), (within_frameBytes (by decide) hfits).mpr hwithin,
      rfl⟩

theorem answer_eq_ok {frameType : ℕ} (htype : frameType ∈ exchangeTypes)
    {result : Except Codec.Error Bytes} {frames : List Bytes} {m next : Negotiation} :
    (do let frame ← sessionFrame frameType result
        n.withinPeerControlLimit frame
        return ([frame], m)) = .ok (frames, next) ↔
    ∃ payload, result = .ok payload ∧ Fits frameType payload ∧
      (∀ peer, n.peerSettings = some peer → payload.length ≤ peer.maxControlFramePayload) ∧
      frames = [frameBytes (frameType, payload)] ∧ next = m := by
  simp only [bind_eq_ok, pure_eq_ok, Prod.mk.injEq, sessionFrame_eq_ok]
  constructor
  · rintro ⟨_, ⟨payload, hpayload, hfits, rfl⟩, _, hwithin, rfl, rfl⟩
    exact ⟨payload, hpayload, hfits, (within_frameBytes htype hfits).mp hwithin, rfl, rfl⟩
  · rintro ⟨payload, hpayload, hfits, hwithin, rfl, rfl⟩
    exact ⟨_, ⟨payload, hpayload, hfits, rfl⟩, (), (within_frameBytes htype hfits).mpr hwithin, rfl,
      rfl⟩

theorem openingFrames_exchange {frames : List Bytes} (h : n.openingFrames = .ok frames) :
    ∀ frame ∈ frames, ExchangeFrame frame := by
  simp only [openingFrames, bind_eq_ok, pure_eq_ok, helloFrame_eq_ok, settingsFrame_eq_ok] at h
  obtain ⟨_, ⟨hello, -, -, rfl⟩, _, ⟨settings, -, -, rfl⟩, rfl⟩ := h
  simp only [List.forall_mem_cons, List.not_mem_nil, false_implies, implies_true, and_true]
  exact ⟨⟨_, by decide, hello, rfl⟩, ⟨_, by decide, settings, rfl⟩⟩

theorem answerSettings_exchange {accepted : Accepted} {next : Negotiation}
    (h : n.answerSettings = .ok (accepted, next)) :
    ∃ reply, accepted = .consumed reply ∧ (∀ frame ∈ reply, ExchangeFrame frame) ∧ next =
      { n with state := if n.challenge.formats = [] then .authenticated else .negotiated } := by
  simp only [answerSettings, bind_eq_ok, pure_eq_ok, Prod.mk.injEq, helloFrame_eq_ok,
    settingsFrame_eq_ok, settingsAckFrame_eq, authContextFrame_eq_ok, Except.ok.injEq] at h
  obtain ⟨_, ⟨hello, -, -, rfl⟩, _, ⟨settings, -, -, rfl⟩, _, rfl, _, ⟨context, -, -, -, rfl⟩, rfl,
    rfl⟩ := h
  refine ⟨_, rfl, ?_, rfl⟩
  simp only [List.forall_mem_cons, List.not_mem_nil, false_implies, implies_true, and_true]
  exact ⟨⟨_, by decide, hello, rfl⟩, ⟨_, by decide, settings, rfl⟩, ⟨_, by decide, [], rfl⟩,
    ⟨_, by decide, context, rfl⟩⟩

end Negotiation

end ObjectTransfer.Sessions
