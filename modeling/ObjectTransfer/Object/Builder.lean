import ObjectTransfer.Foundations.Regroup
import ObjectTransfer.Proof.Bao64Retained
import ObjectTransfer.Proof.Bep52Retained

/-! # Preparing an object

The bytes of an object stream in once. Each full group goes to a retained proof, in memory or in
host storage; the first one also goes to the streaming verifier, whose digest names an object of a
single group. The root of a larger object is the top of the retained tree.
-/

namespace ObjectTransfer.Object
open Foundations Streaming ProofStore Proof

def maxObjectLength : ℕ := 2 ^ 63 - 1

inductive Error where
  | expectedLengthOutOfRange
  | lengthOverflow
  | lengthExceeded
  | lengthMismatch
  | invalidRange
  | proof
  | storage (error : StoreError)
  | verifier (error : VerifyError)
  deriving DecidableEq, Repr

structure ObjectId where
  suite : ℕ
  root : Digest
  length : ℕ
  deriving DecidableEq

/-- The errors of the two proof crates under one name; both are mapped alike. -/
def mapProofError : Proof.Error → Error
  | .emptyRange | .outOfBounds => .invalidRange
  | .lengthOverflow => .lengthOverflow
  | .malformedProof | .hashMismatch => .proof
  | .storage error => .storage error

def fromProof {α : Type} (result : Except (Abort Proof.Error) α) : Except (Abort Error) α :=
  result.mapError (Abort.map mapProofError)

def fromVerifier {α : Type} (result : Except VerifyError α) : Except (Abort Error) α :=
  result.mapError fun error => .error (.verifier error)

class RetainedProof (ρ : Type) where
  prove : ρ → ℕ → ℕ → Except (Abort Error) RangeCover
  holds : ρ → ℕ → Bytes → Bool
  treeRoot : ρ → Except (Abort Error) (Option Digest)

/-- Material in the making. A failed push may have changed it. -/
class RetainedProofBuilder (β : Type) (ρ : outParam Type) where
  push : β → Bytes → β × Except (Abort Error) Unit
  finish : β → Except (Abort Error) ρ

/-- Whether the groups of `bytes` are those kept from `first` on. -/
def holdsFrom (holds : ℕ → Bytes → Bool) (first : ℕ) (bytes : Bytes) : Bool :=
  (chunks groupSize bytes).zipIdx.all fun (group, offset) =>
    match checkedAdd first offset with
    | some index => holds index group
    | none => false

inductive MemoryProofStore where
  | blake3 (cvs : Bao64.GroupCvs)
  | sha256 (pieces : Bep52.PieceHashes)

/-- The leaves of an object as they go to host storage. -/
inductive StoredProofBuilder (σ : Type) where
  | blake3 (cvs : Bao64.StoredGroupCvs σ)
  | sha256 (pieces : Bep52.StoredPieceHashes σ)

inductive StoredProof (σ : Type) where
  | blake3 (cvs : Bao64.SealedGroupCvs σ)
  | sha256 (pieces : Bep52.SealedPieceHashes σ)

variable [Blake3] [Sha256]

namespace MemoryProofStore

def new : Suite → MemoryProofStore
  | .blake3Bao64 => .blake3 .new
  | .sha256Bep52 => .sha256 .new

/-- A rejected group leaves the store as it was. -/
def push (store : MemoryProofStore) (group : Bytes) :
    MemoryProofStore × Except (Abort Error) Unit :=
  let pushed := match store with
    | blake3 cvs => (cvs.push group).map blake3
    | sha256 pieces => (pieces.push group).map sha256
  match pushed with
  | .ok store => (store, .ok ())
  | .error error => (store, .error (error.map fun _ => .proof))

/-- Build the tree every later proof reads. -/
def sealTree : MemoryProofStore → MemoryProofStore
  | blake3 cvs => blake3 cvs.sealLevels
  | sha256 pieces => sha256 pieces.sealLayers

instance : RetainedProofBuilder MemoryProofStore MemoryProofStore where
  push := push
  finish store := .ok store.sealTree

def treeRoot : MemoryProofStore → Except (Abort Error) (Option Digest)
  | blake3 cvs => fromProof cvs.treeRoot
  | sha256 pieces => .ok pieces.treeRoot

def prove : MemoryProofStore → ℕ → ℕ → Except (Abort Error) RangeCover
  | blake3 cvs, offset, length => fromProof (Bao64.proveWith cvs offset length)
  | sha256 pieces, offset, length => fromProof (Bep52.proveWith pieces offset length)

def holds : MemoryProofStore → ℕ → Bytes → Bool
  | blake3 cvs => holdsFrom cvs.holds
  | sha256 pieces => holdsFrom pieces.holds

instance : RetainedProof MemoryProofStore where
  prove := prove
  holds := holds
  treeRoot := treeRoot

end MemoryProofStore

section Stored

variable {σ : Type} [NodeStorage σ]

namespace StoredProofBuilder

def new (suite : Suite) (storage : σ) : Except (Abort Error) (StoredProofBuilder σ) :=
  match suite with
  | .blake3Bao64 => fromProof ((Bao64.StoredGroupCvs.new storage).map blake3)
  | .sha256Bep52 => fromProof ((Bep52.StoredPieceHashes.new storage).map sha256)

def push (builder : StoredProofBuilder σ) (group : Bytes) :
    StoredProofBuilder σ × Except (Abort Error) Unit :=
  match builder with
  | blake3 cvs =>
    let pushed := cvs.push group
    (blake3 pushed.1, fromProof pushed.2)
  | sha256 pieces =>
    let pushed := pieces.push group
    (sha256 pushed.1, fromProof pushed.2)

def finish : StoredProofBuilder σ → Except (Abort Error) (StoredProof σ)
  | blake3 cvs => fromProof (cvs.finish.map .blake3)
  | sha256 pieces => fromProof (pieces.finish.map .sha256)

instance : RetainedProofBuilder (StoredProofBuilder σ) (StoredProof σ) where
  push := push
  finish := finish

end StoredProofBuilder

namespace StoredProof

def treeRoot : StoredProof σ → Except (Abort Error) (Option Digest)
  | blake3 cvs => fromProof cvs.treeRoot
  | sha256 pieces => fromProof pieces.treeRoot

def prove : StoredProof σ → ℕ → ℕ → Except (Abort Error) RangeCover
  | blake3 cvs, offset, length => fromProof (cvs.prove offset length)
  | sha256 pieces, offset, length => fromProof (pieces.prove offset length)

def holds : StoredProof σ → ℕ → Bytes → Bool
  | blake3 cvs => holdsFrom cvs.holds
  | sha256 pieces => holdsFrom pieces.holds

instance : RetainedProof (StoredProof σ) where
  prove := prove
  holds := holds
  treeRoot := treeRoot

end StoredProof

end Stored

/-- What the groups of an object are fed to. -/
structure Feeding (β : Type) where
  verifier : Option StreamVerifier
  groups : ℕ
  proof : β

structure ObjectBuilder (β : Type) extends Feeding β where
  suite : Suite
  expectedLength : Option ℕ
  length : ℕ
  pending : Bytes
  failure : Option Error

/-- An identity bound to the material that proves its ranges. -/
structure PreparedObject (ρ : Type) where
  object : ObjectId
  proof : ρ

variable {β ρ : Type} [RetainedProofBuilder β ρ] [RetainedProof ρ]

/-- Only the first group goes to the verifier. -/
def Feeding.feedGroup (feeding : Feeding β) (group : Bytes) :
    Except (Abort Error) (Feeding β) := do
  let verifier ← if feeding.groups = 0 then do
      let verifier ← okOr feeding.verifier (.error .proof)
      some <$> fromVerifier (verifier.update group)
    else pure none
  let proof ← settled (RetainedProofBuilder.push feeding.proof group)
  let groups ← okOr (checkedAdd feeding.groups 1) (.error .lengthOverflow)
  return { verifier, groups, proof }

/-- The top of the tree, or the digest of the one group. -/
def Feeding.root (feeding : Feeding β) : Option Digest → Except (Abort Error) Digest
  | some root => .ok root
  | none => do
    let verifier ← okOr feeding.verifier (.error .proof)
    fromVerifier verifier.digest

namespace ObjectBuilder

def withBuilder (suite : Suite) (expectedLength : Option ℕ) (proof : β) :
    Except (Abort Error) (ObjectBuilder β) := do
  rejectIf (∃ length ∈ expectedLength, maxObjectLength < length) (.error .expectedLengthOutOfRange)
  return { suite, expectedLength, proof, length := 0, verifier := some (.new suite), groups := 0,
           pending := [], failure := none }

def new (suite : Suite) (expectedLength : Option ℕ) :
    Except (Abort Error) (ObjectBuilder MemoryProofStore) :=
  withBuilder suite expectedLength (MemoryProofStore.new suite)

def withProofStorage {σ : Type} [NodeStorage σ] (suite : Suite) (expectedLength : Option ℕ)
    (storage : σ) : Except (Abort Error) (ObjectBuilder (StoredProofBuilder σ)) := do
  rejectIf (∃ length ∈ expectedLength, maxObjectLength < length) (.error .expectedLengthOutOfRange)
  let proof ← StoredProofBuilder.new suite storage
  withBuilder suite expectedLength proof

/-- Feed the groups that are full with `bytes`, and return what is left pending. -/
def updateInner (builder : ObjectBuilder β) (bytes : Bytes) :
    Except (Abort Error) (Feeding β × Bytes) :=
  regroup groupSize Feeding.feedGroup builder.toFeeding builder.pending bytes

/-- A failure stays. -/
def usable (builder : ObjectBuilder β) : Except (Abort Error) Unit :=
  match builder.failure with
  | some error => .error (.error error)
  | none => .ok ()

/-- Add the next bytes. A length that does not fit changes nothing; after a failure further
on, what was fed until then is not read again. -/
def update (builder : ObjectBuilder β) (bytes : Bytes) :
    ObjectBuilder β × Except (Abort Error) Unit :=
  let checked : Except (Abort Error) ℕ := do
    builder.usable
    let nextLength ← okOr (checkedAdd builder.length bytes.length) (.error .lengthOverflow)
    rejectIf (maxObjectLength < nextLength ∨
      ∃ expected ∈ builder.expectedLength, expected < nextLength) (.error .lengthExceeded)
    return nextLength
  match checked with
  | .error error => (builder, .error error)
  | .ok length =>
    match builder.updateInner bytes with
    | .ok (feeding, pending) =>
      ({ builder with toFeeding := feeding, pending, length }, .ok ())
    | .error (.error error) => ({ builder with failure := some error }, .error (.error error))
    | .error .panic => (builder, .error .panic)

def updateAll (builder : ObjectBuilder β) (pieces : List Bytes) :
    Except (Abort Error) (ObjectBuilder β) :=
  pieces.foldlM (fun builder bytes => settled (builder.update bytes)) builder

def feedPending (builder : ObjectBuilder β) : Except (Abort Error) (Feeding β) :=
  if builder.pending = [] then .ok builder.toFeeding
  else builder.toFeeding.feedGroup builder.pending

def finish (builder : ObjectBuilder β) : Except (Abort Error) (PreparedObject ρ) := do
  builder.usable
  rejectIf (∃ expected ∈ builder.expectedLength, expected ≠ builder.length)
    (.error .lengthMismatch)
  let feeding ← builder.feedPending
  let proof ← RetainedProofBuilder.finish feeding.proof
  let tree ← RetainedProof.treeRoot proof
  let root ← feeding.root tree
  return { object := ⟨builder.suite.identifier, root, builder.length⟩, proof }

end ObjectBuilder

namespace PreparedObject

variable {ρ : Type} [RetainedProof ρ]

def prove (prepared : PreparedObject ρ) (offset length : ℕ) : Except (Abort Error) RangeCover :=
  RetainedProof.prove prepared.proof offset length

def holds (prepared : PreparedObject ρ) (coveredOffset : ℕ) (bytes : Bytes) : Bool :=
  if bytes = [] ∨ coveredOffset % groupSize ≠ 0 then false
  else
    match checkedAdd coveredOffset bytes.length with
    | none => false
    | some stop =>
      if prepared.object.length < stop then false
      else RetainedProof.holds prepared.proof (coveredOffset / groupSize) bytes

end PreparedObject

end ObjectTransfer.Object
