import ObjectTransfer.Foundations.Blocks
import ObjectTransfer.Proof.Geometry
import ObjectTransfer.Streaming.Stream

/-! # SHA-256 range proofs

Pieces of 64 KiB are the leaves of a perfect tree, padded with zero pieces. A proof
holds the uncovered pieces of a power-of-two window around the covered ones and then
the siblings on the way from the window to the root; padding is never sent. Both sides
derive the same window from the covered range. Hashing a piece and merging digests is
what the streaming verifier does. Out-of-bounds indexing, underflow and a loop that
does not end are panics.
-/

namespace ObjectTransfer.Proof.Bep52
open Foundations Streaming

def pieceSize : ℕ := 65536

theorem pieceSize_pos : 0 < pieceSize := by decide

/-- The smallest aligned power-of-two window that holds the pieces from `first` up to `stop`. -/
def proofWindow.grow (first stop width : ℕ) : ℕ × ℕ :=
  if 0 < width ∧ ¬ stop ≤ width * (first / width) + width then grow first stop (2 * width)
  else (width * (first / width), width)
termination_by stop - width
decreasing_by
  have := Nat.le_add_left width (width * (first / width))
  omega

def proofWindow (first stop treeWidth : ℕ) : ℕ × ℕ :=
  let width := nextPowerOfTwo (stop - first)
  proofWindow.grow first stop (if treeWidth > 1 then max width 2 else width)

variable [Sha256]

def zeroPiece : Digest :=
  let zeroParent := parent zeroDigest zeroDigest
  parent zeroParent zeroParent

/-- A layer and the layers above it, up to the root. -/
def layersFrom (base : List Digest) : List (List Digest) :=
  if 1 < base.length then base :: layersFrom (pairUp parent base) else [base]
termination_by base.length
decreasing_by simp; omega

def paddedPieceTree (pieces : List Digest) : List (List Digest) :=
  layersFrom (resize pieces (nextPowerOfTwo (max pieces.length 1)) zeroPiece)

/-- Append the siblings met when climbing from a node to the root. -/
def encodeUncles (pieceCount treeWidth : ℕ) (hash : ℕ → ℕ → Option Digest) (start width : ℕ)
    (output : Bytes) : Option Bytes :=
  if width = treeWidth then some output
  else if 0 < width ∧ width < treeWidth then do
    let sibling := (start / width) ^^^ 1
    let siblingStart := sibling * width
    let output ← if siblingStart < pieceCount then
        (hash siblingStart width).map (output ++ ·.toList)
      else some output
    encodeUncles pieceCount treeWidth hash (min start siblingStart) (2 * width) output
  else none
termination_by treeWidth - width
decreasing_by omega

def encodeProofBy (pieceCount first stop : ℕ) (hash : ℕ → ℕ → Option Digest) : Option Bytes :=
  if pieceCount ≤ 1 then some []
  else do
    let treeWidth := nextPowerOfTwo pieceCount
    let window := proofWindow first stop treeWidth
    let output ← (List.range' window.1 window.2).foldlM (fun output index =>
      if (index < first ∨ stop ≤ index) ∧ index < pieceCount then
        (hash index 1).map (output ++ ·.toList)
      else some output) []
    encodeUncles pieceCount treeWidth hash window.1 window.2 output

/-- The proof for a range, read out of a tree already built. -/
def encodeProofFrom (layers : List (List Digest)) (pieceCount first stop : ℕ) : Option Bytes :=
  encodeProofBy pieceCount first stop fun start width => do
    let layer ← layers[trailingZeros width]?
    layer[start / width]?

def encodeProof (pieces : List Digest) (first stop : ℕ) : Option Bytes :=
  if pieces.length ≤ 1 then some []
  else encodeProofFrom (paddedPieceTree pieces) pieces.length first stop

def readHash (proof : Bytes) (cursor : ℕ) : Except (Abort Error) (Digest × ℕ) := do
  let stop ← okOr (checkedAdd cursor 32) (.error .malformedProof)
  let bytes ← okOr (slice? proof cursor stop) (.error .malformedProof)
  return (Block.ofBytes 32 bytes, stop)

def zeroSubtree.grow (value : Digest) (width : ℕ) : Digest :=
  if 1 < width then grow (parent value value) (width / 2) else value
termination_by width

def zeroSubtree (width : ℕ) : Digest := zeroSubtree.grow zeroPiece width

def windowCapacity (pieceCount windowStart windowWidth covered proofBytes : ℕ) :
    Except (Abort Error) ℕ := do
  let left ← okOr (checkedSub pieceCount windowStart) .panic
  let supplied ← okOr (checkedSub (min windowWidth left) covered) .panic
  rejectIf (supplied > proofBytes / 32) (.error .malformedProof)
  return windowWidth

/-- One piece of the window: covered, read from the proof, or padding. -/
def decodeNode (pieceCount first stop : ℕ) (covered : List Digest) (proof : Bytes)
    (cursor index : ℕ) : Except (Abort Error) (Digest × ℕ) :=
  if first ≤ index ∧ index < stop then do
    let value ← okOr covered[index - first]? .panic
    return (value, cursor)
  else if index < pieceCount then readHash proof cursor
  else return (zeroPiece, cursor)

/-- The pieces of the window from `index` on, and the cursor after them. -/
def decodeWindow (pieceCount first stop : ℕ) (covered : List Digest) (proof : Bytes)
    (cursor index : ℕ) : ℕ → Except (Abort Error) (List Digest × ℕ)
  | 0 => return ([], cursor)
  | count + 1 => do
    let node ← decodeNode pieceCount first stop covered proof cursor index
    let rest ← decodeWindow pieceCount first stop covered proof node.2 (index + 1) count
    return (node.1 :: rest.1, rest.2)

/-- Climb from the window to the root. -/
def decodeUncles (pieceCount treeWidth : ℕ) (proof : Bytes) (value : Digest)
    (start width cursor : ℕ) : Except (Abort Error) (Digest × ℕ) :=
  if width < treeWidth then
    if 0 < width then do
      let siblingOnLeft := start / width % 2 = 1
      let siblingStart := if siblingOnLeft then start - width else start + width
      let sibling ← if siblingStart < pieceCount then readHash proof cursor
        else pure (zeroSubtree width, cursor)
      let value := if siblingOnLeft then parent sibling.1 value else parent value sibling.1
      decodeUncles pieceCount treeWidth proof value (min start siblingStart) (2 * width) sibling.2
    else .error .panic
  else return (value, cursor)
termination_by treeWidth - width
decreasing_by omega

def decodeRoot (pieceCount first stop : ℕ) (covered : List Digest) (proof : Bytes) :
    Except (Abort Error) Digest :=
  if pieceCount = 1 then do
    rejectIf (first ≠ 0 ∨ stop ≠ 1 ∨ covered.length ≠ 1 ∨ proof ≠ []) (.error .malformedProof)
    okOr covered[0]? .panic
  else do
    let expected ← okOr (checkedSub stop first) .panic
    rejectIf (covered.length ≠ expected) (.error .malformedProof)
    let treeWidth := nextPowerOfTwo pieceCount
    let window := proofWindow first stop treeWidth
    let _capacity ← windowCapacity pieceCount window.1 window.2 covered.length proof.length
    let nodes ← decodeWindow pieceCount first stop covered proof 0 window.1 window.2
    if h : nodes.1 = [] then .error .panic
    else
      let value := reduce nodes.1 h
      let top ← decodeUncles pieceCount treeWidth proof value window.1 window.2 nodes.2
      rejectIf (top.2 ≠ proof.length) (.error .malformedProof)
      return top.1

def verifyHashes (expectedRoot : Digest) (objectLen first stop : ℕ) (hashes : List Digest)
    (proof : Bytes) : Except (Abort Error) Unit := do
  let actual ← decodeRoot (divCeil objectLen pieceSize) first stop hashes proof
  rejectIf (actual ≠ expectedRoot) (.error .hashMismatch)

variable [Blake3]

/-- The root of an object; the source expects the verifier not to fail. -/
def root (data : Bytes) : Option Digest := (Streaming.root .sha256Bep52 data).toOption

def pieceLayer (data : Bytes) : Option (List Digest) :=
  if data = [] then some []
  else if data.length ≤ pieceSize then (root data).map ([·])
  else some ((chunks pieceSize data).map pieceHash)

def prove (data : Bytes) (offset length : ℕ) : Except (Abort Error) RangeProof := do
  let objectLen := data.length
  let geometry ← RangeGeometry.of pieceSize objectLen offset length
  let pieces ← okOr (pieceLayer data) .panic
  let proof ← okOr (encodeProof pieces geometry.first geometry.stop) .panic
  let covered ← okOr (slice? data geometry.coveredOffset geometry.coveredEnd) .panic
  return { coveredOffset := geometry.coveredOffset, data := covered, proof := proof }

def verify (expectedRoot : Digest) (objectLen coveredOffset : ℕ) (data proof : Bytes) :
    Except (Abort Error) Unit := do
  let units ← checkCover pieceSize objectLen coveredOffset data.length
  let coveredHashes ← if objectLen ≤ pieceSize then okOr ((root data).map ([·])) .panic
    else pure ((chunks pieceSize data).map pieceHash)
  verifyHashes expectedRoot objectLen units.1 units.2 coveredHashes proof

end ObjectTransfer.Proof.Bep52
