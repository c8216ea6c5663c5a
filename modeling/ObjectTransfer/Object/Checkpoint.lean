import ObjectTransfer.Object.Identity
import ObjectTransfer.Proof.Bao64Checkpoint
import ObjectTransfer.Proof.Bep52Checkpoint

/-! # Checkpoints of a growing object

An update replaces whole groups and sets the length, and gives a new checkpoint; the old one stays.
An object of at most one group is prepared afresh, a larger one keeps its tree and shares what an
update does not touch. The admission rule asks for every byte that the kept leaves cannot vouch for.
-/

namespace ObjectTransfer.Object
open Foundations Streaming ProofStore Proof

def proofLeafSize : ℕ := groupSize

inductive CheckpointProof where
  | small (prepared : PreparedObject MemoryProofStore)
  | blake3 (proof : Bao64.ProofCheckpoint)
  | sha256 (proof : Bep52.ProofCheckpoint)

structure ObjectCheckpoint where
  suite : Suite
  object : ObjectId
  proof : CheckpointProof

/-- Whether an update of `bytes` bytes at `offset` may take an object from length `previous` to
`length`. -/
def validateUpdate (previous length offset bytes : ℕ) : Except (Abort Error) Unit := do
  rejectIf (length > maxObjectLength) (.error .expectedLengthOutOfRange)
  let stop ← okOr (checkedAdd offset bytes) (.error .lengthOverflow)
  rejectIf (offset % proofLeafSize ≠ 0 ∨ stop > length ∨
    bytes % proofLeafSize ≠ 0 ∧ stop ≠ length) (.error .invalidRange)
  rejectIf (length > previous ∧
    (offset > previous / proofLeafSize * proofLeafSize ∨ stop ≠ length)) (.error .invalidRange)
  rejectIf (length < previous ∧ length % proofLeafSize ≠ 0 ∧ stop ≠ length) (.error .invalidRange)
  rejectIf (length > proofLeafSize ∧ previous ≤ proofLeafSize ∧ offset ≠ 0) (.error .invalidRange)
  rejectIf (length ≤ proofLeafSize ∧ ¬ (length = previous ∧ bytes = 0) ∧ bytes ≠ length)
    (.error .invalidRange)

variable [Blake3] [Sha256]

def proofLeavesAt (suite : Suite) (offset : ℕ) (bytes : Bytes) (objectLength : ℕ) :
    Except (Abort Error) (List Digest) :=
  match suite with
  | .sha256Bep52 => fromProof (Bep52.pieceHashesAt offset bytes objectLength)
  | .blake3Bao64 => fromProof (Bao64.groupCvsAt offset bytes objectLength)

/-- The leaves an update supplies; one that only changes the length has none. -/
def suppliedLeaves (suite : Suite) (offset : ℕ) (bytes : Bytes) (objectLength : ℕ) :
    Except (Abort Error) (List Digest) :=
  if bytes = [] then .ok [] else proofLeavesAt suite offset bytes objectLength

def prepare (suite : Suite) (expectedLength : Option ℕ) (bytes : Bytes) :
    Except (Abort Error) (PreparedObject MemoryProofStore) := do
  let builder ← ObjectBuilder.new suite expectedLength
  let builder ← settled (builder.update bytes)
  builder.finish

namespace CheckpointProof

/-- The tree of an object that grows past one group. -/
def new (suite : Suite) (length : ℕ) (leaves : List Digest) :
    Except (Abort Error) CheckpointProof :=
  match suite with
  | .blake3Bao64 => fromProof ((Bao64.ProofCheckpoint.new length leaves).map blake3)
  | .sha256Bep52 => fromProof ((Bep52.ProofCheckpoint.new length leaves).map sha256)

def updated (proof : CheckpointProof) (suite : Suite) (length first : ℕ) (leaves : List Digest) :
    Except (Abort Error) CheckpointProof :=
  match proof with
  | small _ => new suite length leaves
  | blake3 previous => fromProof ((previous.updated length first leaves).map blake3)
  | sha256 previous => fromProof ((previous.updated length first leaves).map sha256)

def root : CheckpointProof → Except (Abort Error) Digest
  | small _ => .error .panic
  | blake3 proof => fromProof proof.root
  | sha256 proof => fromProof proof.root

end CheckpointProof

namespace ObjectCheckpoint

def small (suite : Suite) (bytes : Bytes) : Except (Abort Error) ObjectCheckpoint := do
  let prepared ← prepare suite (some bytes.length) bytes
  return ⟨suite, prepared.object, .small prepared⟩

def new (suite : Suite) : Except (Abort Error) ObjectCheckpoint := small suite []

def updated (checkpoint : ObjectCheckpoint) (offset : ℕ) (bytes : Bytes) (length : ℕ) :
    Except (Abort Error) ObjectCheckpoint := do
  validateUpdate checkpoint.object.length length offset bytes.length
  if bytes = [] ∧ length = checkpoint.object.length then return checkpoint
  else if length ≤ proofLeafSize then small checkpoint.suite bytes
  else
    let leaves ← suppliedLeaves checkpoint.suite offset bytes length
    let proof ← checkpoint.proof.updated checkpoint.suite length (offset / proofLeafSize) leaves
    let root ← proof.root
    return ⟨checkpoint.suite, ⟨checkpoint.suite.identifier, root, length⟩, proof⟩

def prove (checkpoint : ObjectCheckpoint) (offset length : ℕ) : Except (Abort Error) RangeCover :=
  match checkpoint.proof with
  | .small prepared => prepared.prove offset length
  | .blake3 proof => fromProof (proof.prove offset length)
  | .sha256 proof => fromProof (proof.prove offset length)

def holds (checkpoint : ObjectCheckpoint) (first : ℕ) (bytes : Bytes) : Bool :=
  match checkpoint.proof with
  | .small prepared => prepared.holds 0 bytes
  | .blake3 proof =>
    (chunks groupSize bytes).zipIdx.all fun (group, index) => proof.holds (first + index) group
  | .sha256 proof =>
    (chunks groupSize bytes).zipIdx.all fun (group, index) => proof.holds (first + index) group

instance : RetainedProof ObjectCheckpoint where
  prove := prove
  holds := holds
  treeRoot checkpoint := .ok (some checkpoint.object.root)

/-- The checkpoint behind the ordinary preparation interface. -/
def prepared (checkpoint : ObjectCheckpoint) : PreparedObject ObjectCheckpoint :=
  ⟨checkpoint.object, checkpoint⟩

end ObjectCheckpoint

end ObjectTransfer.Object
