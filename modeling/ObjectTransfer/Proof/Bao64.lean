import ObjectTransfer.Foundations.Blocks
import ObjectTransfer.Proof.Geometry
import ObjectTransfer.Streaming.Stream

/-! # BLAKE3 range proofs

The groups of an object are the leaves of a left-balanced tree. A proof lists the
two child values of every inner node above the covered groups, in preorder, and
the verifier walks the same tree with a cursor into the proof bytes. Out-of-bounds
indexing and a failed `expect` are panics.
-/

namespace ObjectTransfer.Proof.Bao64
open Foundations Streaming

/-- Largest power of two strictly below `count`, zero when `count` cannot split. -/
def leftCount (count : ℕ) : ℕ :=
  match checkedSub count 1 with
  | none => 0
  | some predecessor =>
    if predecessor = 0 then 0
    else
      let shift := 63 - leadingZeros predecessor
      if shift < 64 then 2 ^ shift else 0

variable {count : ℕ}

theorem leftCount_eq (h : 2 ≤ count) : leftCount count = 2 ^ min 63 (Nat.log2 (count - 1)) := by
  have hsub : checkedSub count 1 = some (count - 1) := by simp [checkedSub]; omega
  have hne : count - 1 ≠ 0 := by omega
  have hshift : 63 - (63 - Nat.log2 (count - 1)) = min 63 (Nat.log2 (count - 1)) := by omega
  simp only [leftCount, hsub, hne, if_false, leadingZeros, hshift]
  rw [if_pos (by omega)]

theorem leftCount_pos (h : 2 ≤ count) : 0 < leftCount count := by
  rw [leftCount_eq h]
  exact Nat.two_pow_pos _

theorem leftCount_lt (h : 2 ≤ count) : leftCount count < count := by
  have hlog : 2 ^ Nat.log2 (count - 1) ≤ count - 1 := Nat.log2_self_le (by omega)
  have hmono : 2 ^ min 63 (Nat.log2 (count - 1)) ≤ 2 ^ Nat.log2 (count - 1) :=
    Nat.pow_le_pow_right (by omega) (min_le_right _ _)
  rw [leftCount_eq h]
  omega

/-- A run of groups. It is never empty, so that splitting it ends. -/
structure Node where
  start : ℕ
  count : ℕ
  pos : 0 < count

namespace Node

def split (node : Node) (h : node.count ≠ 1) : Node × Node :=
  have h2 : 2 ≤ node.count := by have := node.pos; omega
  ({ start := node.start
     count := leftCount node.count
     pos := leftCount_pos h2 },
   { start := saturatingAdd node.start (leftCount node.count)
     count := node.count - leftCount node.count
     pos := Nat.sub_pos_of_lt (leftCount_lt h2) })

def Intersects (node : Node) (first stop : ℕ) : Prop :=
  node.start < stop ∧ first < saturatingAdd node.start node.count

instance (node : Node) (first stop : ℕ) : Decidable (node.Intersects first stop) :=
  inferInstanceAs (Decidable (_ ∧ _))

theorem split_left_lt (node : Node) (h : node.count ≠ 1) :
    (node.split h).1.count < node.count :=
  leftCount_lt (by have := node.pos; omega)

theorem split_right_lt (node : Node) (h : node.count ≠ 1) :
    (node.split h).2.count < node.count :=
  Nat.sub_lt node.pos (leftCount_pos (by have := node.pos; omega))

end Node

def groupCount (length : ℕ) : ℕ := divCeil (max length 1) groupSize

theorem groupCount_pos (length : ℕ) : 0 < groupCount length := by
  have hle := le_mul_divCeil groupSize_pos (max length 1)
  by_contra hcon
  rw [groupCount, not_lt, Nat.le_zero] at hcon
  rw [hcon] at hle
  omega

def rootNode (objectLen : ℕ) : Node :=
  { start := 0, count := groupCount objectLen, pos := groupCount_pos objectLen }

theorem rootNode_count_ne_one {objectLen : ℕ} (h : ¬ objectLen ≤ groupSize) :
    (rootNode objectLen).count ≠ 1 := by
  have hle := le_mul_divCeil groupSize_pos (max objectLen 1)
  intro hone
  rw [show (rootNode objectLen).count = divCeil (max objectLen 1) groupSize from rfl] at hone
  rw [hone] at hle
  omega

variable [Blake3]

/-- The chaining value of a group placed at an offset. -/
def positionedCv (offset : ℕ) (group : Bytes) : Digest :=
  ((Hasher.new.setInputOffset offset).update group).finalizeNonRoot

def groupCv (data : Bytes) (index : ℕ) : Option Digest := do
  let start := groupSize * index
  let group ← slice? data start (min (start + groupSize) data.length)
  return positionedCv start group

def nodeCv (node : Node) (data : Bytes) : Option Digest :=
  if h : node.count = 1 then groupCv data node.start
  else do
    let left ← nodeCv (node.split h).1 data
    let right ← nodeCv (node.split h).2 data
    return Blake3.mergeSubtreesNonRoot left right
termination_by node.count
decreasing_by
  · exact node.split_left_lt h
  · exact node.split_right_lt h

def encodeSelected (node : Node) (first stop : ℕ) (data output : Bytes) : Option Bytes :=
  if h : node.count = 1 ∨ ¬ node.Intersects first stop then some output
  else do
    let left ← nodeCv (node.split (mt Or.inl h)).1 data
    let right ← nodeCv (node.split (mt Or.inl h)).2 data
    let output ← encodeSelected (node.split (mt Or.inl h)).1 first stop data
      (output ++ left.toList ++ right.toList)
    encodeSelected (node.split (mt Or.inl h)).2 first stop data output
termination_by node.count
decreasing_by
  · exact node.split_left_lt _
  · exact node.split_right_lt _

def prove (data : Bytes) (offset length : ℕ) : Except (Abort Error) RangeProof := do
  let objectLen := data.length
  let geometry ← RangeGeometry.of groupSize objectLen offset length
  let proof ← okOr (encodeSelected (rootNode objectLen) geometry.first geometry.stop data []) .panic
  let covered ← okOr (slice? data geometry.coveredOffset geometry.coveredEnd) .panic
  return { coveredOffset := geometry.coveredOffset, data := covered, proof := proof }

/-- The next pair of child values and the cursor after it. -/
def readParent (proof : Bytes) (cursor : ℕ) : Except (Abort Error) ((Digest × Digest) × ℕ) := do
  let stop ← okOr (checkedAdd cursor 64) (.error .malformedProof)
  let bytes ← okOr (slice? proof cursor stop) (.error .malformedProof)
  return (readPair bytes, stop)

/-- Check the subtree below `node` against the value its parent gave it, and return the
cursor after the pairs it read. -/
def verifyChild (node : Node) (first stop : ℕ) (leaf : ℕ → Option Digest) (proof : Bytes)
    (cursor : ℕ) (expected : Digest) : Except (Abort Error) ℕ :=
  if ¬ node.Intersects first stop then .ok cursor
  else if h : node.count = 1 then do
    let actual ← okOr (leaf node.start) .panic
    if actual = expected then .ok cursor else .error (.error .hashMismatch)
  else do
    let pair ← readParent proof cursor
    let cursor ← verifyChild (node.split h).1 first stop leaf proof pair.2 pair.1.1
    let cursor ← verifyChild (node.split h).2 first stop leaf proof cursor pair.1.2
    if Blake3.mergeSubtreesNonRoot pair.1.1 pair.1.2 = expected then .ok cursor
    else .error (.error .hashMismatch)
termination_by node.count
decreasing_by
  · exact node.split_left_lt h
  · exact node.split_right_lt h

/-- Check a proof of a multi-group object from the root down. -/
def verifyTree (expectedRoot : Digest) (objectLen first stop : ℕ) (proof : Bytes)
    (leaf : ℕ → Option Digest) (h : (rootNode objectLen).count ≠ 1) :
    Except (Abort Error) Unit := do
  let nodes := (rootNode objectLen).split h
  let pair ← readParent proof 0
  let cursor ← verifyChild nodes.1 first stop leaf proof pair.2 pair.1.1
  let cursor ← verifyChild nodes.2 first stop leaf proof cursor pair.1.2
  rejectIf (cursor ≠ proof.length) (.error .malformedProof)
  rejectIf (Blake3.mergeSubtreesRoot pair.1.1 pair.1.2 ≠ expectedRoot)
    (.error .hashMismatch)

/-- The chaining value of the covered group `index`, taken from the presented bytes. -/
def presentedCv (first : ℕ) (data : Bytes) (index : ℕ) : Option Digest := do
  let remaining ← slice? data (groupSize * (index - first)) data.length
  return positionedCv (groupSize * index) (remaining.take groupSize)

variable [Sha256]

/-- The root of an object; the source expects the verifier not to fail. -/
def root (data : Bytes) : Option Digest := (Streaming.root .blake3Bao64 data).toOption

def verify (expectedRoot : Digest) (objectLen coveredOffset : ℕ) (data proof : Bytes) :
    Except (Abort Error) Unit := do
  let units ← checkCover groupSize objectLen coveredOffset data.length
  if h : objectLen ≤ groupSize then
    rejectIf (proof ≠ []) (.error .malformedProof)
    let actual ← okOr (root data) .panic
    rejectIf (actual ≠ expectedRoot) (.error .hashMismatch)
  else
    verifyTree expectedRoot objectLen units.1 units.2 proof (presentedCv units.1 data)
      (rootNode_count_ne_one h)

end ObjectTransfer.Proof.Bao64
