import ObjectTransfer.Codec.Transfer
import ObjectTransfer.Foundations.OrderedMap
import ObjectTransfer.Proof.Bao64
import ObjectTransfer.Proof.Bep52

/-! # Proof bundles with their records

A bundle announces a covered range, a number of records and a proof. Its records may come in any
order: they are put in the order of their indices, joined, and checked against the proof as one
range.
-/

namespace ObjectTransfer.Ranges
open Foundations Streaming Proof Codec

def rangeUnitBytes : ℕ := 65536

/-- An 8 MiB request plus one unaligned edge group. -/
def maxProofRangeBytes : ℕ := 8 * 1024 * 1024 + rangeUnitBytes

inductive Error where
  | unknownSuite
  | recordTooLarge
  | lengthExceeded
  | lengthMismatch
  | proofInvalid
  | unsupportedCompression
  deriving DecidableEq, Repr

/-- A bundle and its records by index, checked one by one but not yet joined. -/
structure ValidatedBundle where
  bundle : ProofBundle
  ordered : OrderedMap ℕ DataRecord

/-- Bytes authenticated against one object identity and offset. -/
structure VerifiedRange where
  object : ObjectId
  coveredOffset : ℕ
  data : Bytes

/-- One record, checked and put at its index. -/
def insertRecord (bundle : ProofBundle) (ordered : OrderedMap ℕ DataRecord) (record : DataRecord) :
    Except (Abort Error) (OrderedMap ℕ DataRecord) := do
  record.validate.mapError fun _ => .error .proofInvalid
  rejectIf (record.bundleId ≠ bundle.bundleId) (.error .proofInvalid)
  rejectIf (record.compression ≠ 0) (.error .unsupportedCompression)
  rejectIf (ordered.get? record.recordIndex.toNat ≠ none) (.error .lengthMismatch)
  return ordered.insert record.recordIndex.toNat record

def validateTypedBundleRef (object : ObjectId) (bundle : ProofBundle) (records : List DataRecord) :
    Except (Abort Error) ValidatedBundle := do
  bundle.validate.mapError fun _ => .error .proofInvalid
  rejectIf (bundle.object.suite ≠ object.suite ∨ bundle.object.root ≠ object.root ∨
    bundle.object.length ≠ object.length ∨ bundle.dataRecordCount.toNat ≠ records.length)
    (.error .lengthMismatch)
  let ordered ← records.foldlM (insertRecord bundle) .empty
  return ⟨bundle, ordered⟩

def checkedOffset (coveredOffset assembled : ℕ) : Except (Abort Error) ℕ :=
  okOr (checkedAdd coveredOffset assembled) (.error .lengthExceeded)

/-- The record of the next index goes to the end of the joined bytes. -/
def assembleNext (bundle : ProofBundle) (ordered : OrderedMap ℕ DataRecord) (data : Bytes)
    (index : ℕ) : Except (Abort Error) Bytes := do
  let record ← okOr (ordered.get? index) (.error .lengthMismatch)
  let expectedOffset ← checkedOffset bundle.coveredOffset.toNat data.length
  rejectIf (record.plaintextOffset.toNat ≠ expectedOffset) (.error .lengthMismatch)
  return data ++ record.encoded

/-- The records joined in index order. Room for the covered length is allocated first, which no
allocation past the address space gets. -/
def assembleOrdered (bundle : ProofBundle) (ordered : OrderedMap ℕ DataRecord) :
    Except (Abort Error) Bytes := do
  rejectIf (bundle.coveredLength.toNat > isizeMax) .panic
  let data ← (List.range bundle.dataRecordCount.toNat).foldlM (assembleNext bundle ordered) []
  rejectIf (data.length ≠ bundle.coveredLength.toNat) (.error .lengthMismatch)
  return data

def ValidatedBundle.assemble (validated : ValidatedBundle) : Except (Abort Error) Bytes :=
  assembleOrdered validated.bundle validated.ordered

def checkRangeGeometry (objectLength coveredOffset bytes : ℕ) : Except (Abort Error) ℕ := do
  rejectIf (bytes = 0 ∨ bytes > maxProofRangeBytes) (.error .recordTooLarge)
  let coveredEnd ← checkedOffset coveredOffset bytes
  rejectIf (coveredOffset % rangeUnitBytes ≠ 0 ∨ coveredEnd > objectLength)
    (.error .lengthExceeded)
  rejectIf (coveredEnd < objectLength ∧ bytes % rangeUnitBytes ≠ 0) (.error .lengthExceeded)
  return coveredEnd

def suiteOf (identifier : ℕ) : Option Suite :=
  if identifier = 1 then some .blake3Bao64
  else if identifier = 2 then some .sha256Bep52
  else none

variable [Blake3] [Sha256]

def verifySuite (suite : Suite) (root : Digest) (objectLength coveredOffset : ℕ)
    (data proof : Bytes) : Except (Abort Proof.Error) Unit :=
  match suite with
  | .blake3Bao64 => Bao64.verify root objectLength coveredOffset data proof
  | .sha256Bep52 => Bep52.verify root objectLength coveredOffset data proof

def verifyRange (object : ObjectId) (coveredOffset : ℕ) (data proof : Bytes) :
    Except (Abort Error) VerifiedRange := do
  let _ ← checkRangeGeometry object.length.toNat coveredOffset data.length
  let suite ← okOr (suiteOf object.suite.toNat) (.error .unknownSuite)
  (verifySuite suite object.root object.length.toNat coveredOffset data proof).mapError
    (Abort.map fun _ => .proofInvalid)
  return ⟨object, coveredOffset, data⟩

def verifyTypedBundleRef (object : ObjectId) (bundle : ProofBundle) (records : List DataRecord) :
    Except (Abort Error) VerifiedRange := do
  let validated ← validateTypedBundleRef object bundle records
  let data ← validated.assemble
  verifyRange object bundle.coveredOffset.toNat data bundle.proof

end ObjectTransfer.Ranges
