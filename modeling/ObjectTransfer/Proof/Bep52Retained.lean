import ObjectTransfer.Proof.Bep52Correct
import ObjectTransfer.Proof.Retained

/-! # Retained SHA-256 piece hashes

The piece hashes of an object are enough to prove its ranges. Sealing keeps the padded tree in
memory; a store keeps the layers without their padding, so that the odd node at the end of a layer
is merged with a subtree of zero pieces.
-/

namespace ObjectTransfer.Proof.Bep52
open Foundations Streaming ProofStore

variable [Sha256]

def pieceHashesAt (offset : ℕ) (bytes : Bytes) (objectLength : ℕ) :
    Except (Abort Error) (List Digest) := do
  rejectIf (bytes = []) (.error .emptyRange)
  rejectIf (offset % pieceSize ≠ 0) (.error .outOfBounds)
  let stop ← okOr (checkedAdd offset bytes.length) (.error .lengthOverflow)
  rejectIf (stop > objectLength ∨ stop ≠ objectLength ∧ bytes.length % pieceSize ≠ 0)
    (.error .outOfBounds)
  return (chunks pieceSize bytes).map pieceHash

structure PieceHashes where
  hashes : List Digest := []
  length : ℕ := 0
  ended : Bool := false
  layers : List (List Digest) := []

namespace PieceHashes

def new : PieceHashes := {}

def push (pieces : PieceHashes) (piece : Bytes) : Except (Abort Error) PieceHashes := do
  rejectIf (piece = [] ∨ piece.length > pieceSize) (.error .outOfBounds)
  rejectIf (pieces.ended = true) (.error .outOfBounds)
  let length ← okOr (checkedAdd pieces.length piece.length) .panic
  return { hashes := pieces.hashes ++ [pieceHash piece]
           length
           ended := decide (piece.length < pieceSize)
           layers := [] }

def pushAll (pieces : PieceHashes) (bytes : List Bytes) : Except (Abort Error) PieceHashes :=
  bytes.foldlM push pieces

/-- Retain the tree every later proof reads. -/
def sealLayers (pieces : PieceHashes) : PieceHashes :=
  { pieces with layers := paddedPieceTree pieces.hashes }

def sealed (pieces : PieceHashes) : Bool := !pieces.layers.isEmpty

def fromPieceHashes (hashes : List Digest) (length : ℕ) : Except (Abort Error) PieceHashes := do
  let expected := divCeil length pieceSize
  rejectIf (expected < 2 ∨ hashes.length ≠ expected) (.error .outOfBounds)
  return sealLayers { hashes, length, ended := true, layers := [] }

def treeRoot (pieces : PieceHashes) : Option Digest :=
  if pieces.hashes.length < 2 then none else pieces.layers.getLast?.bind List.head?

def holds (pieces : PieceHashes) (index : ℕ) (piece : Bytes) : Bool :=
  match pieces.hashes[index]? with
  | some hash => decide (piece ≠ [] ∧ piece.length ≤ pieceSize ∧ pieceHash piece = hash)
  | none => false

end PieceHashes

def proveWith (pieces : PieceHashes) (offset length : ℕ) : Except (Abort Error) RangeCover := do
  let geometry ← RangeGeometry.of pieceSize pieces.length offset length
  let proof ← okOr (if pieces.sealed then
      encodeProofFrom pieces.layers pieces.hashes.length geometry.first geometry.stop
    else encodeProof pieces.hashes geometry.first geometry.stop) .panic
  return ⟨geometry.coveredOffset, geometry.coveredEnd - geometry.coveredOffset, proof⟩

def maxStoredPieces : ℕ := u64Max / pieceSize + 1

variable {σ : Type} [NodeStorage σ]

structure StoredPieceHashes (σ : Type) where
  storage : σ
  length : ℕ
  pieces : ℕ
  ended : Bool
  failure : Option StoreError

structure SealedPieceHashes (σ : Type) where
  storage : σ
  length : ℕ
  pieces : ℕ
  layers : List StoredLayer

namespace StoredPieceHashes

def new (storage : σ) : Except (Abort Error) (StoredPieceHashes σ) := do
  let isEmpty ← fromStore (NodeStorage.isEmpty storage)
  rejectIf (isEmpty = false) (.error (.storage .corrupt))
  return ⟨storage, 0, 0, false, none⟩

/-- Append the hash of the next piece. A failed append poisons the builder. -/
def push (stored : StoredPieceHashes σ) (piece : Bytes) :
    StoredPieceHashes σ × Except (Abort Error) Unit :=
  let checked : Except (Abort Error) (ℕ × ℕ) := do
    match stored.failure with
    | some error => .error (.error (.storage error))
    | none => pure ()
    rejectIf (piece = [] ∨ piece.length > pieceSize ∨ stored.ended = true) (.error .outOfBounds)
    let nextLength ← okOr (checkedAdd stored.length piece.length) (.error .lengthOverflow)
    let nextPieces ← okOr (checkedAdd stored.pieces 1) (.error .lengthOverflow)
    return (nextLength, nextPieces)
  match checked with
  | .error error => (stored, .error error)
  | .ok (length, pieces) =>
    match NodeStorage.append stored.storage (pieceHash piece) with
    | (storage, .error error) =>
      ({ stored with storage, failure := some error }, .error (.error (.storage error)))
    | (storage, .ok ()) =>
      (⟨storage, length, pieces, decide (piece.length < pieceSize), stored.failure⟩, .ok ())

def pushAll (stored : StoredPieceHashes σ) (bytes : List Bytes) :
    Except (Abort Error) (StoredPieceHashes σ) :=
  bytes.foldlM (fun stored piece => settled (stored.push piece)) stored

/-- Append one parent; the sibling of an odd last child is padding. -/
def appendParent (child : StoredLayer) (childWidth : ℕ) (storage : σ) (parentIndex : ℕ) :
    Except (Abort Error) σ := do
  let leftIndex ← okOr (checkedMul parentIndex 2) (.error (.storage .capacity))
  let left ← readStoredNode storage child leftIndex
  let right ← if leftIndex + 1 < child.count then readStoredNode storage child (leftIndex + 1)
    else pure (zeroSubtree childWidth)
  appendNode storage (parent left right)

/-- Append the layers above the last one. -/
def finishLayers (storage : σ) (layers : List StoredLayer) (child : StoredLayer) :
    Except (Abort Error) (σ × List StoredLayer) :=
  if h : 1 < child.count then do
    let childWidth ← okOr (if layers.length - 1 < 64 then some (2 ^ (layers.length - 1)) else none)
      (.error (.storage .capacity))
    let parentBase ← okOr (checkedAdd child.base child.count) (.error (.storage .capacity))
    let records ← fromStore (NodeStorage.len storage)
    rejectIf (records ≠ parentBase) (.error (.storage .corrupt))
    let parentCount := divCeil child.count 2
    let storage ← (List.range parentCount).foldlM (appendParent child childWidth) storage
    rejectIf (layers.length ≥ maxStoredLevels) .panic
    let layer : StoredLayer := ⟨parentBase, parentCount⟩
    finishLayers storage (layers ++ [layer]) layer
  else .ok (storage, layers)
termination_by child.count
decreasing_by exact divCeil_two_lt h

def finish (stored : StoredPieceHashes σ) : Except (Abort Error) (SealedPieceHashes σ) := do
  match stored.failure with
  | some error => .error (.error (.storage error))
  | none => pure ()
  let records ← fromStore (NodeStorage.len stored.storage)
  rejectIf (records ≠ stored.pieces) (.error (.storage .corrupt))
  rejectIf (stored.pieces > maxStoredPieces) (.error (.storage .capacity))
  let base : StoredLayer := ⟨0, stored.pieces⟩
  let layers := if stored.pieces = 0 then [] else [base]
  let built ← finishLayers stored.storage layers base
  return ⟨built.1, stored.length, stored.pieces, built.2⟩

end StoredPieceHashes

/-- Append the siblings met when climbing from a node to the root. -/
def encodeStoredUncles (stored : SealedPieceHashes σ) (treeWidth start width level : ℕ)
    (output : Bytes) : Except (Abort Error) Bytes :=
  if width = treeWidth then .ok output
  else if width = 0 then .error .panic
  else do
    let sibling := (start / width) ^^^ 1
    let siblingStart ← okOr (checkedMul sibling width) (.error .lengthOverflow)
    let output ← if siblingStart < stored.pieces then do
        let layer ← okOr stored.layers[level]? (.error (.storage .corrupt))
        let node ← readStoredNode stored.storage layer sibling
        pure (output ++ node.toList)
      else pure output
    if width * 2 ≤ u64Max then
      encodeStoredUncles stored treeWidth (min start siblingStart) (width * 2) (level + 1) output
    else .error (.error .lengthOverflow)
termination_by u64Max - width
decreasing_by omega

def encodeStoredProof (stored : SealedPieceHashes σ) (first stop : ℕ) :
    Except (Abort Error) Bytes :=
  if stored.pieces ≤ 1 then .ok []
  else do
    let treeWidth ← okOr (checkedNextPowerOfTwo stored.pieces) (.error .lengthOverflow)
    let window := proofWindow first stop treeWidth
    let _windowEnd ← okOr (checkedAdd window.1 window.2) (.error .lengthOverflow)
    let output ← (List.range' window.1 window.2).foldlM (fun output index =>
      if (index < first ∨ index ≥ stop) ∧ index < stored.pieces then do
        let node ← readStoredNode stored.storage (stored.layers.headD ⟨0, 0⟩) index
        pure (output ++ node.toList)
      else pure output) []
    encodeStoredUncles stored treeWidth window.1 window.2 (trailingZeros window.2) output

namespace SealedPieceHashes

def treeRoot (stored : SealedPieceHashes σ) : Except (Abort Error) (Option Digest) :=
  if stored.pieces < 2 then .ok none
  else
    match stored.layers.getLast? with
    | none => .ok none
    | some top => (readStoredNode stored.storage top 0).map some

def prove (stored : SealedPieceHashes σ) (offset length : ℕ) : Except (Abort Error) RangeCover := do
  let geometry ← RangeGeometry.of pieceSize stored.length offset length
  let proof ← encodeStoredProof stored geometry.first geometry.stop
  return ⟨geometry.coveredOffset, geometry.coveredEnd - geometry.coveredOffset, proof⟩

def holds (stored : SealedPieceHashes σ) (index : ℕ) (piece : Bytes) : Bool :=
  match stored.layers.head? with
  | none => false
  | some layer =>
    match readStoredNode stored.storage layer index with
    | .ok expected => decide (piece ≠ [] ∧ piece.length ≤ pieceSize ∧ pieceHash piece = expected)
    | .error _ => false

end SealedPieceHashes

end ObjectTransfer.Proof.Bep52
