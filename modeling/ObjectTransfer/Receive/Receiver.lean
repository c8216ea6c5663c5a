import ObjectTransfer.Cover.Model
import ObjectTransfer.Ranges.Bundle
import ObjectTransfer.Transport.Staging
import Mathlib.Data.List.Lex
import Mathlib.Data.Prod.Lex

/-! # The reliable receiver

Receive state keyed by subject. A subject is received either as one stream of records, hashed as
they come, or in proof-bearing ranges, each written to the subject's sink and only then booked as
covered. Staging covers the bytes in flight. A call that fails leaves behind what it had changed up
to then, so every call returns the receiver next to its result.
-/

namespace ObjectTransfer.Receive
open Foundations Streaming Codec Ranges Transport

def maxProofRangeBytes : ℕ := maxRequestedRange + rangeUnitBytes

def verifierReservation : ℕ := groupSize

inductive Error where
  | unknownObject
  | alreadyReceiving
  | recordTooLarge
  | lengthExceeded
  | lengthMismatch
  | rootMismatch
  | staging (error : Transport.Error)
  | verification (error : VerifyError)
  | proofInvalid
  | unsupportedCompression
  | sink
  | rangeFragmentsExhausted
  deriving DecidableEq

namespace Error

def ofVerify : VerifyError → Error
  | .rootMismatch => rootMismatch
  | .lengthMismatch => lengthMismatch
  | other => verification other

def ofCoverage : Cover.Error → Error
  | .emptyRange | .partialOverlap | .reservedOverlap => lengthMismatch
  | .lengthExceeded => lengthExceeded
  | .fragmentsExhausted => rangeFragmentsExhausted

def ofRange : Ranges.Error → Error
  | .unknownSuite => unknownObject
  | .recordTooLarge => recordTooLarge
  | .lengthExceeded => lengthExceeded
  | .lengthMismatch => lengthMismatch
  | .proofInvalid => proofInvalid
  | .unsupportedCompression => unsupportedCompression

end Error

/-! ## Subjects -/

/-- An object identity, or a marker that is a key and no object. -/
structure SubjectId where
  suite : UInt16
  root : Digest
  length : UInt64
  formed : suite = 0 ∧ length = 0 ∨ ObjectId.validate ⟨suite, root, length⟩ = .ok ()

namespace SubjectId

def key (subject : SubjectId) : ℕ ×ₗ (List ℕ ×ₗ ℕ) :=
  toLex (subject.suite.toNat, toLex (subject.root.toList.map UInt8.toNat, subject.length.toNat))

theorem key_injective : Function.Injective key := by
  rintro ⟨suite, root, length, _⟩ ⟨suite', root', length', _⟩ h
  simp only [key, EmbeddingLike.apply_eq_iff_eq, Prod.mk.injEq] at h
  obtain ⟨hsuite, hroot, hlength⟩ := h
  obtain rfl := UInt16.toNat.inj hsuite
  obtain rfl := List.Vector.toList_injective
    (List.map_injective_iff.mpr (fun _ _ => UInt8.toNat.inj) hroot)
  obtain rfl := UInt64.toNat.inj hlength
  rfl

/-- Subjects are ordered by suite, then root, then length. -/
instance : LinearOrder SubjectId := LinearOrder.lift' key key_injective

def isMarker (subject : SubjectId) : Bool := subject.suite = 0

end SubjectId

def subjectId (object : ObjectId) : Except (Abort Error) SubjectId :=
  if h : object.validate = .ok () then .ok ⟨object.suite, object.root, object.length, .inr h⟩
  else .error .panic

def objectId (subject : SubjectId) : Except (Abort Error) ObjectId := do
  rejectIf subject.isMarker (.error .unknownObject)
  return ⟨subject.suite, subject.root, subject.length⟩

def suite (subject : SubjectId) : Except (Abort Error) Suite :=
  okOr (suiteOf subject.suite.toNat) (.error .unknownObject)

/-! ## Receive state -/

structure ActiveObject where
  verifier : StreamVerifier
  received : ℕ
  reservation : ℕ

/-- The ranges of a subject booked so far, and the sink `σ` its bytes go to. -/
structure RangeState (σ : Type) where
  coverage : Cover.Coverage
  sink : σ
  reservation : ℕ

structure ReliableReceiver (σ : Type) where
  staging : StagingCapacity
  active : OrderedMap SubjectId ActiveObject
  rangeActive : OrderedMap SubjectId (RangeState σ)
  verified : Finset SubjectId
  connections : Finset ℕ
  ackCount : ℕ
  peakStaging : ℕ

/-- A range whose proof held and whose bytes are placed. -/
structure WrittenRange where
  subject : SubjectId
  coveredOffset : ℕ
  bytes : ℕ
  deriving DecidableEq

/-- Current measurements of a path. -/
structure PathStats where
  smoothedRttUs : Option ℕ
  congestionWindowBytes : Option ℕ
  deliveryRateBps : Option ℕ

/-- The staging target the measurements of a path ask for. -/
def PathStats.bdpTarget (stats : PathStats) : Option ℕ :=
  match stats.deliveryRateBps, stats.smoothedRttUs, stats.congestionWindowBytes with
  | some rate, some rtt, _ =>
    ((checkedMul rate rtt).map (· / 8000000)).filter fun bytes => decide (bytes > 0)
  | _, _, some cwnd => if cwnd > 0 then some cwnd else none
  | _, _, none => none

/-- A range a sink took. -/
structure Write (σ : Type) where
  sink : σ
  range : VerifiedRange

/-- Place a proved range outside the receiver; `taken` is the sink's answer. -/
def writeTo (range : VerifiedRange) (taken : Bool) : Except (Abort Error) WrittenRange := do
  rejectIf (!taken) (.error .sink)
  let subject ← subjectId range.object
  return ⟨subject, range.coveredOffset, range.data.length⟩

section Checks
variable [Blake3] [Sha256]

def validateTypedBundle (subject : SubjectId) (bundle : ProofBundle) (records : List DataRecord) :
    Except (Abort Error) ValidatedBundle := do
  let object ← objectId subject
  (validateTypedBundleRef object bundle records).mapError (Abort.map Error.ofRange)

def checkRangeProof (subject : SubjectId) (coveredOffset : ℕ) (data proof : Bytes) :
    Except (Abort Error) VerifiedRange := do
  rejectIf (data.length > maxProofRangeBytes) (.error .recordTooLarge)
  let object ← objectId subject
  (verifyRange object coveredOffset data proof).mapError (Abort.map Error.ofRange)

/-- Check a bundle without touching receiver state. -/
def verifyTypedBundle (subject : SubjectId) (bundle : ProofBundle) (records : List DataRecord) :
    Except (Abort Error) VerifiedRange := do
  let object ← objectId subject
  (verifyTypedBundleRef object bundle records).mapError (Abort.map Error.ofRange)

def checkFinished (subject : SubjectId) (active : ActiveObject) : Except (Abort Error) Unit := do
  rejectIf (active.received ≠ subject.length.toNat) (.error .lengthMismatch)
  let named ← suite subject
  let _ ← (active.verifier.finish ⟨named, subject.root, subject.length.toNat⟩).mapError
    fun error => .error (.ofVerify error)

end Checks

namespace ReliableReceiver
variable {σ : Type}

def new (stagingLimit bdpTarget configuredMax : ℕ) :
    Except (Abort Error) (ReliableReceiver σ) := do
  let staging ← (StagingCapacity.new stagingLimit bdpTarget configuredMax).mapError
    fun error => .error (.staging error)
  return ⟨staging, .empty, .empty, ∅, ∅, 0, 0⟩

/-- The receiver after a call that changes nothing when it fails. -/
def settle (receiver : ReliableReceiver σ) (result : Except (Abort Error) (ReliableReceiver σ)) :
    ReliableReceiver σ × Except (Abort Error) Unit :=
  match result with
  | .ok receiver' => (receiver', .ok ())
  | .error error => (receiver, .error error)

def notePeak (receiver : ReliableReceiver σ) : ReliableReceiver σ :=
  { receiver with peakStaging := max receiver.peakStaging receiver.staging.used }

def reserve (receiver : ReliableReceiver σ) (bytes : ℕ) :
    Except (Abort Error) (ReliableReceiver σ) := do
  let staging ← (receiver.staging.reserve bytes).mapError fun error => .error (.staging error)
  return { receiver with staging := staging }.notePeak

def release (receiver : ReliableReceiver σ) (bytes : ℕ) : ReliableReceiver σ :=
  { receiver with staging := receiver.staging.release bytes }

/-- Run `body` while its bytes are held, if it holds any of its own. -/
def holding {α : Type} (receiver : ReliableReceiver σ) (hold : Option ℕ)
    (body : ReliableReceiver σ → ReliableReceiver σ × Except (Abort Error) α) :
    ReliableReceiver σ × Except (Abort Error) α :=
  match hold with
  | none => body receiver.notePeak
  | some bytes =>
    match receiver.reserve bytes with
    | .error error => (receiver, .error error)
    | .ok held =>
      let outcome := body held
      (outcome.1.release bytes, outcome.2)

def isReceiving (receiver : ReliableReceiver σ) (subject : SubjectId) : Bool :=
  (receiver.active.get? subject).isSome || (receiver.rangeActive.get? subject).isSome

def isVerified (receiver : ReliableReceiver σ) (subject : SubjectId) : Bool :=
  subject ∈ receiver.verified

def recoverAccounting (receiver : ReliableReceiver σ) : ReliableReceiver σ × Bool :=
  if !receiver.staging.isPoisoned ∨ receiver.active.size ≠ 0 ∨ receiver.rangeActive.size ≠ 0 then
    (receiver, false)
  else ({ receiver with staging := receiver.staging.rebuilt }, true)

def connected (receiver : ReliableReceiver σ) (connection : ℕ) : ReliableReceiver σ :=
  { receiver with connections := insert connection receiver.connections }

def disconnected (receiver : ReliableReceiver σ) (connection : ℕ) : ReliableReceiver σ :=
  { receiver with connections := receiver.connections.erase connection }

/-- Acknowledgements are telemetry only. -/
def acknowledged (receiver : ReliableReceiver σ) : ReliableReceiver σ :=
  { receiver with ackCount := saturatingAdd receiver.ackCount 1 }

def observePathStats (receiver : ReliableReceiver σ) (stats : PathStats) : ReliableReceiver σ :=
  match stats.bdpTarget with
  | some bdpTarget => { receiver with staging := receiver.staging.setBdpTarget bdpTarget }
  | none => receiver

def begin (receiver : ReliableReceiver σ) (subject : SubjectId) :
    ReliableReceiver σ × Except (Abort Error) Unit :=
  if subject ∈ receiver.verified then (receiver, .ok ())
  else receiver.settle do
    rejectIf (receiver.isReceiving subject) (.error .alreadyReceiving)
    let named ← suite subject
    let held ← receiver.reserve verifierReservation
    return { held with
      active := held.active.insert subject ⟨.new named, 0, verifierReservation⟩ }

/-- Open range state for a subject and register where its bytes go. -/
def beginRanges (receiver : ReliableReceiver σ) (subject : SubjectId) (sink : σ) :
    ReliableReceiver σ × Except (Abort Error) Unit :=
  if subject ∈ receiver.verified then (receiver, .ok ())
  else receiver.settle do
    rejectIf (receiver.isReceiving subject) (.error .alreadyReceiving)
    let _ ← suite subject
    rejectIf (subject.length = 0) (.error .lengthMismatch)
    let held ← receiver.reserve verifierReservation
    let state := ⟨.forObject subject.length.toNat, sink, verifierReservation⟩
    return { held with rangeActive := held.rangeActive.insert subject state }

/-- The range state of a subject and the booking for a new range of it; none for a replay. -/
def check (receiver : ReliableReceiver σ) (subject : SubjectId) (coveredOffset bytes : ℕ) :
    Except (Abort Error) (Option (RangeState σ × Cover.Booking)) := do
  let active ← okOr (receiver.rangeActive.get? subject) (.error .unknownObject)
  match ← (active.coverage.check coveredOffset bytes).mapError
      fun error => .error (.ofCoverage error) with
  | .replay => return none
  | .new booking => return some (active, booking)

def commit (receiver : ReliableReceiver σ) (subject : SubjectId) (active : RangeState σ)
    (booking : Cover.Booking) : ReliableReceiver σ :=
  let state := { active with coverage := active.coverage.commit booking }
  { receiver with rangeActive := receiver.rangeActive.insert subject state }

/-- Write a checked range to its subject's sink and book it. `taken` is the sink's answer, and the
result is the write it took, if it was asked for one. -/
def insertCheckedRange (receiver : ReliableReceiver σ) (verified : VerifiedRange)
    (callerReserved taken : Bool) : ReliableReceiver σ × Except (Abort Error) (Option (Write σ)) :=
  match subjectId verified.object with
  | .error error => (receiver, .error error)
  | .ok subject =>
    if subject ∈ receiver.verified then (receiver, .ok none)
    else
      match receiver.check subject verified.coveredOffset verified.data.length with
      | .error error => (receiver, .error error)
      | .ok none => (receiver, .ok none)
      | .ok (some (active, booking)) =>
        receiver.holding (if callerReserved then none else some verified.data.length) fun held =>
          if taken then (held.commit subject active booking, .ok (some ⟨active.sink, verified⟩))
          else (held, .error (.error .sink))

section Ranges
variable [Blake3] [Sha256]

def receiveVerifiedRange (receiver : ReliableReceiver σ) (subject : SubjectId) (coveredOffset : ℕ)
    (data proof : Bytes) (callerReserved taken : Bool) :
    ReliableReceiver σ × Except (Abort Error) (Option (Write σ)) :=
  if subject ∉ receiver.verified ∧ receiver.rangeActive.get? subject = none then
    (receiver, .error (.error .unknownObject))
  else
    match checkRangeProof subject coveredOffset data proof with
    | .error error => (receiver, .error error)
    | .ok verified => receiver.insertCheckedRange verified callerReserved taken

/-- Accept a proof-bearing range in any arrival order. -/
def receiveRange (receiver : ReliableReceiver σ) (subject : SubjectId) (coveredOffset : ℕ)
    (data proof : Bytes) (taken : Bool) : ReliableReceiver σ × Except (Abort Error) (Option (Write σ)) :=
  receiver.receiveVerifiedRange subject coveredOffset data proof false taken

/-- Accept a bundle whose records may arrive out of order. -/
def receiveTypedBundle (receiver : ReliableReceiver σ) (subject : SubjectId) (bundle : ProofBundle)
    (records : List DataRecord) (taken : Bool) :
    ReliableReceiver σ × Except (Abort Error) (Option (Write σ)) :=
  match validateTypedBundle subject bundle records with
  | .error error => (receiver, .error error)
  | .ok validated =>
    receiver.holding (some validated.bundle.coveredLength.toNat) fun held =>
      match validated.assemble.mapError (Abort.map Error.ofRange) with
      | .error error => (held, .error error)
      | .ok data =>
        held.receiveVerifiedRange subject bundle.coveredOffset.toNat data bundle.proof true taken

end Ranges

/-- Book a range proved by `verifyTypedBundle`. -/
def admitVerifiedRange (receiver : ReliableReceiver σ) (range : VerifiedRange) (taken : Bool) :
    ReliableReceiver σ × Except (Abort Error) (Option (Write σ)) :=
  receiver.insertCheckedRange range false taken

/-- Book a range whose bytes are already placed. -/
def admitWrittenRange (receiver : ReliableReceiver σ) (range : WrittenRange) :
    ReliableReceiver σ × Except (Abort Error) Unit :=
  if range.subject ∈ receiver.verified then (receiver, .ok ())
  else receiver.settle do
    match ← receiver.check range.subject range.coveredOffset range.bytes with
    | none => return receiver
    | some (active, booking) => return receiver.commit range.subject active booking

def finishRanges (receiver : ReliableReceiver σ) (subject : SubjectId) :
    ReliableReceiver σ × Except (Abort Error) Unit :=
  if subject ∈ receiver.verified then (receiver, .ok ())
  else receiver.settle do
    let active ← okOr (receiver.rangeActive.get? subject) (.error .unknownObject)
    rejectIf (!active.coverage.isComplete subject.length.toNat) (.error .lengthMismatch)
    return { receiver.release active.reservation with
      rangeActive := receiver.rangeActive.erase subject
      verified := insert subject receiver.verified }

def abandonRanges (receiver : ReliableReceiver σ) (subject : SubjectId) :
    ReliableReceiver σ × Bool :=
  match receiver.rangeActive.get? subject with
  | none => (receiver, false)
  | some active =>
    ({ receiver.release active.reservation with
      rangeActive := receiver.rangeActive.erase subject }, true)

section Stream
variable [Sha256]

def receiveReserved (receiver : ReliableReceiver σ) (subject : SubjectId) (record : Bytes) :
    ReliableReceiver σ × Except (Abort Error) Unit :=
  receiver.settle do
    let active ← okOr (receiver.active.get? subject) (.error .unknownObject)
    let received ← okOr (checkedAdd active.received record.length) (.error .lengthExceeded)
    rejectIf (received > subject.length.toNat) (.error .lengthExceeded)
    let verifier ← (active.verifier.update record).mapError fun error => .error (.ofVerify error)
    return { receiver with
      active := receiver.active.insert subject ⟨verifier, received, active.reservation⟩ }

/-- Accept the next record of a stream. An empty record stages nothing. -/
def receive (receiver : ReliableReceiver σ) (subject : SubjectId) (record : Bytes) :
    ReliableReceiver σ × Except (Abort Error) Unit :=
  match validateDataRecord record with
  | .error .recordTooLarge => (receiver, .error (.error .recordTooLarge))
  | .error other => (receiver, .error (.error (.staging other)))
  | .ok () =>
    receiver.holding (if record.length = 0 then none else some record.length) fun held =>
      held.receiveReserved subject record

/-- End a stream. Its state is gone whether or not it turns out to be the subject. -/
def finish [Blake3] (receiver : ReliableReceiver σ) (subject : SubjectId) :
    ReliableReceiver σ × Except (Abort Error) Unit :=
  if subject ∈ receiver.verified then (receiver, .ok ())
  else
    match receiver.active.get? subject with
    | none => (receiver, .error (.error .unknownObject))
    | some active =>
      let closed := { receiver.release active.reservation with
        active := receiver.active.erase subject }
      closed.settle do
        checkFinished subject active
        return { closed with verified := insert subject closed.verified }

end Stream

end ReliableReceiver

end ObjectTransfer.Receive
