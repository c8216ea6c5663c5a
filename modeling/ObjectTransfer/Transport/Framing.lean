import ObjectTransfer.Codec.Envelope

/-! # Stream reassembly

A carrier delivers a stream in pieces of any size. Frames that arrive whole are passed on from the
piece itself; one that does not is held in a buffer charged to a shared budget, and a frame nobody
reads is counted down without being held.
-/

namespace ObjectTransfer.Transport
open Foundations Codec

inductive Error where
  | invalidConfiguration
  | recordTooLarge
  | outboundQueueFull
  | inboundQueueFull
  | stagingExhausted
  | arithmeticOverflow
  | unsupported
  | backend
  | laneLimitExceeded
  | accountingPoisoned
  deriving DecidableEq, Repr

def maxDataRecordBytes : ℕ := 256 * 1024

def maxFrameEnvelopeBytes : ℕ := 16

def maxPartialFrame : ℕ := maxDataRecordBytes + maxFrameEnvelopeBytes

inductive StreamKind where
  | control
  | reliable (lane : ℕ)
  deriving DecidableEq, Repr

/-- Largest payload a frame on this kind of stream may declare. -/
def StreamKind.payloadLimit (kind : StreamKind) (control : ℕ) : ℕ :=
  match kind with
  | .control => control
  | .reliable _ => maxDataRecordBytes

/-- Largest frame this kind of stream may hold, envelope included. -/
def StreamKind.partialFrameLimit (kind : StreamKind) (control : ℕ) : ℕ :=
  match kind with
  | .control => saturatingAdd control maxFrameEnvelopeBytes
  | .reliable _ => maxPartialFrame

structure FrameFault where
  error : Error
  close : ℕ
  deriving DecidableEq, Repr

namespace FrameFault

def tooLarge : FrameFault := ⟨.recordTooLarge, ErrorCode.frameTooLarge⟩

def fromDecode (error : DecodeError) : FrameFault := ⟨.backend, error.protocolCode⟩

def exhausted : FrameFault := ⟨.inboundQueueFull, ErrorCode.resourceLimit⟩

end FrameFault

/-- A budget for partial-frame storage shared between streams. A refused request changes nothing. -/
class AssemblyBudget (β : Type) (η : outParam Type) where
  reserve : β → ℕ → Option (η × β)
  grow : β → η → ℕ → Option (η × β)
  /-- What is left of the budget when a hold is dropped. -/
  dropped : β → η → β

structure Framing (β η : Type) where
  pending : Bytes
  controlLimit : ℕ
  /-- Payload bytes of a skipped frame still to arrive. -/
  discarding : ℕ
  hold : Option η
  /-- Bytes charged for the frame in `pending`. -/
  charged : ℕ
  budget : β
  kind : StreamKind

/-- How one pass of the reading loop ends: with input left to read, with none, or with a fault. -/
inductive Pass where
  | next (input : Bytes)
  | done
  | fault (fault : FrameFault)

namespace Framing
variable {β η σ : Type}

def new (kind : StreamKind) (budget : β) (controlLimit : ℕ) : Framing β η :=
  ⟨[], controlLimit, 0, none, 0, budget, kind⟩

/-- The next envelope of `input` under this stream's bound; `none` while its header arrives. -/
def envelope (framing : Framing β η) (limits : DecodeLimits) (control : ℕ) (input : Bytes) :
    Except FrameFault (Option FrameEnvelope) :=
  match peekEnvelope input limits with
  | .ok envelope =>
    if envelope.totalLength > framing.kind.partialFrameLimit control then .error .tooLarge
    else .ok (some envelope)
  | .error (.incomplete _ _) => .ok none
  | .error error => .error (.fromDecode error)

def isAssembling (framing : Framing β η) : Bool :=
  framing.pending != [] || framing.discarding != 0

variable [AssemblyBudget β η]

def charge (framing : Framing β η) (growth : ℕ) : Option (η × β) :=
  match framing.hold with
  | some hold => AssemblyBudget.grow framing.budget hold growth
  | none => AssemblyBudget.reserve framing.budget growth

/-- Storage grows geometrically, up to the frame's length once that is known. -/
def storageTarget (required : ℕ) (frameLength : Option ℕ) : ℕ :=
  let geometric := (checkedNextPowerOfTwo required).getD required
  match frameLength with
  | none => geometric
  | some length => min geometric length

def holdBytes (framing : Framing β η) (bytes : Bytes) (frameLength : Option ℕ) :
    Framing β η × Except FrameFault Unit :=
  let target := storageTarget (framing.pending.length + bytes.length) frameLength
  let growth := target - framing.charged
  if growth = 0 then ({ framing with pending := framing.pending ++ bytes }, .ok ())
  else
    match framing.charge growth with
    | none => (framing, .error .exhausted)
    | some (hold, budget) =>
      ({ framing with pending := framing.pending ++ bytes, hold := some hold, charged := target,
                      budget }, .ok ())

/-- Drop the buffered frame and return its storage to the budget. -/
def release (framing : Framing β η) : Framing β η :=
  { framing with
    pending := [], hold := none, charged := 0,
    budget := match framing.hold with
      | some hold => AssemblyBudget.dropped framing.budget hold
      | none => framing.budget }

variable (emit : σ → Bytes → σ × Except FrameFault Unit)

/-- Hand a frame over and go on behind it. -/
def emitThen (framing : Framing β η) (sink : σ) (frame input : Bytes) :
    Framing β η × σ × Pass :=
  match emit sink frame with
  | (sink, .ok ()) => (framing, sink, .next input)
  | (sink, .error fault) => (framing, sink, .fault fault)

/-- Go on with the frame in the buffer, which is the only place bytes accumulate. While its header
arrives one byte is taken at a time. -/
def resume (framing : Framing β η) (limits : DecodeLimits) (control : ℕ) (sink : σ) (input : Bytes) :
    Framing β η × σ × Pass :=
  match framing.envelope limits control framing.pending with
  | .error fault => (framing, sink, .fault fault)
  | .ok none =>
    match framing.holdBytes (input.take 1) none with
    | (framing, .error fault) => (framing, sink, .fault fault)
    | (framing, .ok ()) => (framing, sink, .next (input.drop 1))
  | .ok (some envelope) =>
    let needed := envelope.totalLength - framing.pending.length
    let taken := min needed input.length
    if envelope.skipped then
      ({ framing with discarding := needed - taken }.release, sink, .next (input.drop taken))
    else
      match framing.holdBytes (input.take taken) (some envelope.totalLength) with
      | (framing, .error fault) => (framing, sink, .fault fault)
      | (framing, .ok ()) =>
        if framing.pending.length < envelope.totalLength then (framing, sink, .done)
        else emitThen emit framing.release sink framing.pending (input.drop taken)

def holdRest (framing : Framing β η) (sink : σ) (input : Bytes) (frameLength : Option ℕ) :
    Framing β η × σ × Pass :=
  match framing.holdBytes input frameLength with
  | (framing, .error fault) => (framing, sink, .fault fault)
  | (framing, .ok ()) => (framing, sink, .done)

def direct (framing : Framing β η) (limits : DecodeLimits) (control : ℕ) (sink : σ) (input : Bytes) :
    Framing β η × σ × Pass :=
  match framing.envelope limits control input with
  | .error fault => (framing, sink, .fault fault)
  | .ok none => framing.holdRest sink input none
  | .ok (some envelope) =>
    if input.length < envelope.totalLength then
      if envelope.skipped then
        ({ framing with discarding := envelope.totalLength - input.length }, sink, .done)
      else framing.holdRest sink input (some envelope.totalLength)
    else if envelope.skipped then (framing, sink, .next (input.drop envelope.totalLength))
    else emitThen emit framing sink (input.take envelope.totalLength) (input.drop envelope.totalLength)

/-- One pass of the loop. Bytes of a frame being skipped never reach the buffer. -/
def pass (framing : Framing β η) (limits : DecodeLimits) (control : ℕ) (sink : σ) (input : Bytes) :
    Framing β η × σ × Pass :=
  let dropped := min framing.discarding input.length
  let framing := { framing with discarding := framing.discarding - dropped }
  let input := input.drop dropped
  if framing.discarding ≠ 0 ∨ input = [] then (framing, sink, .done)
  else if framing.pending ≠ [] then framing.resume emit limits control sink input
  else framing.direct emit limits control sink input

/-- What the loop still has to do: input to read, and a buffer to empty. -/
def remaining (framing : Framing β η) (input : Bytes) : ℕ :=
  2 * input.length + if framing.pending = [] then 0 else 1

variable {framing : Framing β η} {limits : DecodeLimits} {input : Bytes} {control : ℕ}

omit [AssemblyBudget β η] in
theorem envelope_total_pos {envelope : FrameEnvelope}
    (h : framing.envelope limits control input = .ok (some envelope)) :
    0 < envelope.totalLength := by
  unfold Framing.envelope at h
  split at h
  · rename_i found hpeek
    split at h
    · cases h
    · cases h
      exact peekEnvelope_total_pos hpeek
  · cases h
  · cases h

variable {framing' : Framing β η} {input' : Bytes} {sink' sink : σ}

omit [AssemblyBudget β η] in
theorem emitThen_next {frame : Bytes}
    (h : emitThen emit framing sink frame input = (framing', sink', .next input')) :
    framing' = framing ∧ input' = input := by
  unfold emitThen at h
  split at h
  · cases h
    exact ⟨rfl, rfl⟩
  · cases h

theorem resume_next (hinput : input ≠ [])
    (h : framing.resume emit limits control sink input = (framing', sink', .next input')) :
    framing'.remaining input' < 2 * input.length + 1 := by
  have hpos : 0 < input.length := List.length_pos_of_ne_nil hinput
  have hreleased (framing : Framing β η) (taken : ℕ) :
      framing.release.remaining (input.drop taken) < 2 * input.length + 1 := by
    simp only [remaining, release, if_true, List.length_drop]
    omega
  unfold resume at h
  split at h
  · cases h
  · split at h
    · cases h
    · cases h
      simp only [remaining, List.length_drop]
      split <;> omega
  · dsimp only at h
    split at h
    · cases h
      exact hreleased _ _
    · split at h
      · cases h
      · split at h
        · cases h
        · obtain ⟨rfl, rfl⟩ := emitThen_next emit h
          exact hreleased _ _

theorem direct_next (hempty : framing.pending = [])
    (h : framing.direct emit limits control sink input = (framing', sink', .next input')) :
    framing'.remaining input' < 2 * input.length := by
  have hrest (taken : ℕ) (hpos : 0 < taken) (hle : ¬ input.length < taken) :
      framing.remaining (input.drop taken) < 2 * input.length := by
    simp only [remaining, hempty, if_true, List.length_drop]
    omega
  unfold direct holdRest at h
  split at h
  · cases h
  · split at h <;> cases h
  · rename_i envelope henvelope
    have hpos := envelope_total_pos henvelope
    split at h
    · split at h
      · cases h
      · split at h <;> cases h
    · rename_i hle
      split at h
      · cases h
        exact hrest _ hpos hle
      · obtain ⟨rfl, rfl⟩ := emitThen_next emit h
        exact hrest _ hpos hle

theorem pass_next
    (h : framing.pass emit limits control sink input = (framing', sink', .next input')) :
    framing'.remaining input' < framing.remaining input := by
  unfold pass at h
  dsimp only at h
  split at h
  · cases h
  · rename_i hcontinue
    rw [not_or] at hcontinue
    have hlength : (input.drop (min framing.discarding input.length)).length ≤ input.length := by
      rw [List.length_drop]
      omega
    split at h
    · rename_i hpending
      have hnext := resume_next emit hcontinue.2 h
      rw [remaining.eq_1 framing, if_neg hpending]
      omega
    · rename_i hpending
      have hnext := direct_next emit (by exact not_not.mp hpending) h
      rw [remaining.eq_1 framing]
      omega

/-- Feed received bytes, one complete frame at a time. -/
def acceptFrom (framing : Framing β η) (limits : DecodeLimits) (control : ℕ) (sink : σ)
    (input : Bytes) : Framing β η × σ × Except FrameFault Unit :=
  match _hpass : framing.pass emit limits control sink input with
  | (framing, sink, .done) => (framing, sink, .ok ())
  | (framing, sink, .fault fault) => (framing, sink, .error fault)
  | (framing, sink, .next input) => acceptFrom framing limits control sink input
termination_by framing.remaining input
decreasing_by exact pass_next emit _hpass

def accept (framing : Framing β η) (sink : σ) (bytes : Bytes) :
    Framing β η × σ × Except FrameFault Unit :=
  let control := framing.controlLimit
  framing.acceptFrom emit ⟨framing.kind.payloadLimit control, 1⟩ control sink bytes

end Framing

end ObjectTransfer.Transport
