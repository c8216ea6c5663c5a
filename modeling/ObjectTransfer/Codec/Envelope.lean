import ObjectTransfer.Codec.Registry
import ObjectTransfer.Foundations.BigEndian
import ObjectTransfer.Foundations.Outcome

/-! # The frame envelope

A frame is its type, its length and its payload, the first two as variable-length integers. A
payload past its registered ceiling is refused before anything is written, and before anything is
taken from the input.
-/

namespace ObjectTransfer.Codec
open Foundations

def maxQuicVarint : ℕ := 2 ^ 62 - 1

def defaultMaxUnknownPayload : ℕ := 1024 * 1024

structure DecodeLimits where
  /-- Limit for an unknown optional frame. -/
  maxUnknownPayload : ℕ
  maxFrames : ℕ
  deriving DecidableEq, Repr

inductive DecodeError where
  | incomplete (needed available : ℕ)
  | valueOutOfRange (value : ℕ)
  | invalidLimits
  | lengthOverflow (length : ℕ)
  | frameTooLarge (frameType length limit : ℕ)
  | unknownCritical (frameType : ℕ)
  | tooManyFrames (limit : ℕ)
  deriving DecidableEq, Repr

/-- The registered code a session closes under for this error. -/
def DecodeError.protocolCode : DecodeError → ℕ
  | frameTooLarge .. => ErrorCode.frameTooLarge
  | unknownCritical _ => ErrorCode.unknownCriticalFrame
  | tooManyFrames _ => ErrorCode.resourceLimit
  | incomplete .. | valueOutOfRange _ | invalidLimits | lengthOverflow _ => ErrorCode.malformedFrame

inductive DecodedFrame where
  | known (frameType : ℕ) (payload : Bytes)
  | skippedOptional (frameType payloadLength : ℕ)
  deriving DecidableEq, Repr

def DecodedFrame.frameType : DecodedFrame → ℕ
  | known frameType _ | skippedOptional frameType _ => frameType

def DecodedFrame.payloadLength : DecodedFrame → ℕ
  | known _ payload => payload.length
  | skippedOptional _ payloadLength => payloadLength

def isCritical (frameType : ℕ) : Bool := frameType % 2 == 1

def isGrease (frameType : ℕ) : Bool :=
  decide (frameType ≥ 0x1f00 ∧ frameType ≤ 0x1ffe ∧ frameType % 2 = 0)

/-- The shortest variable-length form of an integer; nothing is written for one out of range. -/
def encodeVarint (value : ℕ) : Except DecodeError Bytes :=
  if value > maxQuicVarint then .error (.valueOutOfRange value)
  else if value < 2 ^ 6 then .ok (beBytes 1 value)
  else if value < 2 ^ 14 then .ok (beBytes 2 (value + 0x4000))
  else if value < 2 ^ 30 then .ok (beBytes 4 (value + 0x8000_0000))
  else .ok (beBytes 8 (value + 0xc000_0000_0000_0000))

/-- An integer of any legal width at the start of the input, and that width. -/
def decodeVarint (input : Bytes) : Except DecodeError (ℕ × ℕ) :=
  match input with
  | [] => .error (.incomplete 1 0)
  | first :: rest =>
    let width := 2 ^ (first >>> 6).toNat
    if input.length < width then .error (.incomplete width input.length)
    else .ok ((rest.take (width - 1)).foldl (fun value byte => value * 256 + byte.toNat)
      (first &&& 0x3f).toNat, width)

/-- Append one frame. The output is returned also on an error, with what was written until then. -/
def encodeFrame (frameType : ℕ) (payload output : Bytes) : Bytes × Except DecodeError Unit :=
  let limit := min ((registeredPayloadLimit frameType).getD defaultMaxUnknownPayload)
    hardMaxFramePayload
  if payload.length > limit then
    (output, .error (.frameTooLarge frameType payload.length limit))
  else
    match encodeVarint frameType with
    | .error error => (output, .error error)
    | .ok kind =>
      match encodeVarint payload.length with
      | .error error => (output ++ kind, .error error)
      | .ok length => (output ++ kind ++ length ++ payload, .ok ())

structure FrameEnvelope where
  frameType : ℕ
  payloadLength : ℕ
  headerLength : ℕ
  totalLength : ℕ
  skipped : Bool
  deriving DecidableEq, Repr

def validateLimits (limits : DecodeLimits) : Except DecodeError Unit :=
  rejectIf (limits.maxUnknownPayload > hardMaxFramePayload ∨ limits.maxFrames = 0) .invalidLimits

/-- Type and length of the next frame. The payload bound comes before the test for an unknown
critical type. -/
def parseEnvelopePrefix (input : Bytes) (limits : DecodeLimits) :
    Except DecodeError FrameEnvelope := do
  validateLimits limits
  let (frameType, typeWidth) ← decodeVarint input
  let (payloadLength, lengthWidth) ← decodeVarint (input.drop typeWidth)
  let knownLimit := registeredPayloadLimit frameType
  let limit := min (knownLimit.getD limits.maxUnknownPayload) hardMaxFramePayload
  rejectIf (payloadLength > limit) (.frameTooLarge frameType payloadLength limit)
  rejectIf (knownLimit = none ∧ isCritical frameType) (.unknownCritical frameType)
  let headerLength ← okOr (checkedAdd typeWidth lengthWidth) (.lengthOverflow payloadLength)
  let totalLength ← okOr (checkedAdd headerLength payloadLength) (.lengthOverflow payloadLength)
  return { frameType, payloadLength, headerLength, totalLength,
           skipped := knownLimit.isNone || isGrease frameType }

/-- The next envelope, whether or not its payload has arrived. -/
def peekEnvelope (input : Bytes) (limits : DecodeLimits) : Except DecodeError FrameEnvelope :=
  parseEnvelopePrefix input limits

def decodeOne (input : Bytes) (limits : DecodeLimits) :
    Except DecodeError (DecodedFrame × ℕ) := do
  let envelope ← parseEnvelopePrefix input limits
  rejectIf (input.length < envelope.totalLength)
    (.incomplete envelope.totalLength input.length)
  if envelope.skipped then
    return (.skippedOptional envelope.frameType envelope.payloadLength, envelope.totalLength)
  else
    return (.known envelope.frameType
      ((input.take envelope.totalLength).drop envelope.headerLength), envelope.totalLength)

variable {input : Bytes} {value width : ℕ}

theorem decodeVarint_eq_ok :
    decodeVarint input = .ok (value, width) ↔
      ∃ first rest, input = first :: rest ∧ width = 2 ^ (first >>> 6).toNat ∧
        width ≤ input.length ∧ value = (rest.take (width - 1)).foldl
          (fun value byte => value * 256 + byte.toNat) (first &&& 0x3f).toNat := by
  cases input with
  | nil => simp [decodeVarint]
  | cons first rest =>
    simp only [decodeVarint]
    split
    · simp only [reduceCtorEq, false_iff]
      rintro ⟨_, _, ⟨⟩, rfl, hle, -⟩
      omega
    · simp only [Except.ok.injEq, Prod.mk.injEq]
      constructor
      · rintro ⟨rfl, rfl⟩
        exact ⟨first, rest, rfl, rfl, by omega, rfl⟩
      · rintro ⟨_, _, ⟨⟩, rfl, -, rfl⟩
        exact ⟨rfl, rfl⟩

theorem decodeVarint_width_pos (h : decodeVarint input = .ok (value, width)) : 0 < width := by
  obtain ⟨first, rest, -, rfl, -⟩ := decodeVarint_eq_ok.mp h
  exact Nat.two_pow_pos _

variable {limits : DecodeLimits}

theorem peekEnvelope_total_pos {envelope : FrameEnvelope}
    (h : peekEnvelope input limits = .ok envelope) : 0 < envelope.totalLength := by
  simp only [peekEnvelope, parseEnvelopePrefix, bind_eq_ok, okOr_eq_ok, checkedAdd_eq_some,
    pure_eq_ok] at h
  obtain ⟨-, -, ⟨_, typeWidth⟩, htype, _, -, ⟨⟩, -, ⟨⟩, -, header, hheader, total, htotal, rfl⟩ := h
  have hwidth := decodeVarint_width_pos htype
  simp only at hheader ⊢
  omega

theorem decodeOne_consumed_pos {frame : DecodedFrame}
    {consumed : ℕ} (h : decodeOne input limits = .ok (frame, consumed)) : 0 < consumed := by
  obtain ⟨envelope, hparse, hrest⟩ := bind_eq_ok.mp h
  have hpos := peekEnvelope_total_pos hparse
  obtain ⟨-, -, hrest⟩ := bind_eq_ok.mp hrest
  split at hrest <;> rwa [← (Prod.mk.inj (pure_eq_ok.mp hrest)).2]

/-- Every frame of a complete buffer from `offset` on, behind those already decoded. -/
def decodeAllFrom (input : Bytes) (limits : DecodeLimits) (offset : ℕ)
    (frames : List DecodedFrame) : Except DecodeError (List DecodedFrame) :=
  if offset < input.length then
    if frames.length = limits.maxFrames then .error (.tooManyFrames limits.maxFrames)
    else
      match _hone : decodeOne (input.drop offset) limits with
      | .error error => .error error
      | .ok (frame, consumed) =>
        match _hnext : checkedAdd offset consumed with
        | none => .error (.lengthOverflow consumed)
        | some next => decodeAllFrom input limits next (frames ++ [frame])
  else .ok frames
termination_by input.length - offset
decreasing_by
  have hpos := decodeOne_consumed_pos _hone
  rw [checkedAdd_eq_some] at _hnext
  omega

/-- A bounded batch of frames from one complete buffer. -/
def decodeAll (input : Bytes) (limits : DecodeLimits) : Except DecodeError (List DecodedFrame) := do
  validateLimits limits
  decodeAllFrom input limits 0 []

end ObjectTransfer.Codec
