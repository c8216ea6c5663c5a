import ObjectTransfer.Proof.Bao64Correct
import ObjectTransfer.Proof.Retained

/-! # Retained BLAKE3 chaining values

The group chaining values of an object are enough to prove its ranges. Sealing keeps the values of
all full aligned nodes as well; the ragged nodes of the right edge are merged when they are needed.
In a store the aligned levels follow one another, each after the one below it.
-/

namespace ObjectTransfer.Proof.Bao64
open Foundations Streaming ProofStore

/-- Level and place of a node that is full and aligned. -/
def retainedAt (node : Node) : Option (ℕ × ℕ) :=
  if node.count = 0 ∨ ¬ isPowerOfTwo node.count ∨ node.start % node.count ≠ 0 then none
  else some (trailingZeros node.count, node.start / node.count)

section Producers

variable [Blake3] (value : Node → Except (Abort Error) Digest)

/-- The child values above a window, taken from any source of node values. -/
def encodeSelectedBy (node : Node) (first stop : ℕ) (output : Bytes) :
    Except (Abort Error) Bytes :=
  if h : node.count = 1 ∨ ¬ node.Intersects first stop then .ok output
  else do
    let left ← value (node.split (mt Or.inl h)).1
    let right ← value (node.split (mt Or.inl h)).2
    let output ← encodeSelectedBy (node.split (mt Or.inl h)).1 first stop
      (output ++ left.toList ++ right.toList)
    encodeSelectedBy (node.split (mt Or.inl h)).2 first stop output
termination_by node.count
decreasing_by
  · exact node.split_left_lt _
  · exact node.split_right_lt _

def treeRootBy (objectLen : ℕ) : Except (Abort Error) (Option Digest) :=
  if h : (rootNode objectLen).count < 2 then .ok none
  else do
    let nodes := (rootNode objectLen).split (by omega)
    let left ← value nodes.1
    let right ← value nodes.2
    return some (Blake3.mergeSubtreesRoot left right)

def proveBy (objectLen offset length : ℕ) : Except (Abort Error) RangeCover := do
  let geometry ← RangeGeometry.of groupSize objectLen offset length
  let proof ← encodeSelectedBy value (rootNode objectLen) geometry.first geometry.stop []
  return ⟨geometry.coveredOffset, geometry.coveredEnd - geometry.coveredOffset, proof⟩

end Producers

variable [Blake3]

/-- The segment rule: an aligned start, inside the object, and whole groups unless the segment ends
the object. -/
def checkSegment (offset : ℕ) (bytes : Bytes) (objectLength : ℕ) : Except (Abort Error) Unit := do
  rejectIf (bytes = []) (.error .emptyRange)
  rejectIf (offset % groupSize ≠ 0) (.error .outOfBounds)
  let stop ← okOr (checkedAdd offset bytes.length) (.error .lengthOverflow)
  rejectIf (stop > objectLength) (.error .outOfBounds)
  rejectIf (stop ≠ objectLength ∧ bytes.length % groupSize ≠ 0) (.error .outOfBounds)

/-- Hash the group at the running offset. -/
def groupCvsAt.next (state : ℕ × List Digest) (group : Bytes) :
    Except (Abort Error) (ℕ × List Digest) := do
  let offset ← okOr (checkedAdd state.1 group.length) .panic
  return (offset, state.2 ++ [positionedCv state.1 group])

def groupCvsAt (inputOffset : ℕ) (bytes : Bytes) (objectLength : ℕ) :
    Except (Abort Error) (List Digest) := do
  checkSegment inputOffset bytes objectLength
  let hashed ← (chunks groupSize bytes).foldlM groupCvsAt.next (inputOffset, [])
  return hashed.2

structure GroupCvs where
  cvs : List Digest := []
  length : ℕ := 0
  ended : Bool := false
  levels : List (List Digest) := []

/-- A node's chaining value, from the retained levels where it is in them. -/
def nodeCvRetained (node : Node) (cvs : List Digest) (levels : List (List Digest)) :
    Option Digest :=
  if h : node.count = 1 then cvs[node.start]?
  else
    match (retainedAt node).bind fun place => levels[place.1]?.bind (·[place.2]?) with
    | some cv => some cv
    | none => do
      let left ← nodeCvRetained (node.split h).1 cvs levels
      let right ← nodeCvRetained (node.split h).2 cvs levels
      return Blake3.mergeSubtreesNonRoot left right
termination_by node.count
decreasing_by
  · exact node.split_left_lt h
  · exact node.split_right_lt h

namespace GroupCvs

def new : GroupCvs := {}

def push (groups : GroupCvs) (group : Bytes) : Except (Abort Error) GroupCvs := do
  rejectIf (group = [] ∨ group.length > groupSize) (.error .outOfBounds)
  rejectIf (groups.ended = true) (.error .outOfBounds)
  let length ← okOr (checkedAdd groups.length group.length) .panic
  return { cvs := groups.cvs ++ [positionedCv groups.length group]
           length
           ended := decide (group.length < groupSize)
           levels := [] }

def pushAll (groups : GroupCvs) (bytes : List Bytes) : Except (Abort Error) GroupCvs :=
  bytes.foldlM push groups

/-- Retain the values every later proof reads. -/
def sealLevels (groups : GroupCvs) : GroupCvs :=
  { groups with levels := pairLevels Blake3.mergeSubtreesNonRoot groups.cvs }

def fromGroupCvs (cvs : List Digest) (length : ℕ) : Except (Abort Error) GroupCvs := do
  rejectIf (groupCount length < 2 ∨ cvs.length ≠ groupCount length) (.error .outOfBounds)
  return sealLevels { cvs, length, ended := true, levels := [] }

def nodeCv (groups : GroupCvs) (node : Node) : Except (Abort Error) Digest :=
  okOr (nodeCvRetained node groups.cvs groups.levels) .panic

def treeRoot (groups : GroupCvs) : Except (Abort Error) (Option Digest) :=
  treeRootBy groups.nodeCv groups.length

def holds (groups : GroupCvs) (index : ℕ) (group : Bytes) : Bool :=
  match groups.cvs[index]?, checkedMul index groupSize with
  | some cv, some inputOffset =>
    decide (group ≠ [] ∧ group.length ≤ groupSize ∧ positionedCv inputOffset group = cv)
  | _, _ => false

end GroupCvs

def proveWith (groups : GroupCvs) (offset length : ℕ) : Except (Abort Error) RangeCover :=
  proveBy groups.nodeCv groups.length offset length

variable {σ : Type} [NodeStorage σ]

structure StoredGroupCvs (σ : Type) where
  storage : σ
  length : ℕ
  groups : ℕ
  ended : Bool
  failure : Option StoreError

structure SealedGroupCvs (σ : Type) where
  storage : σ
  length : ℕ
  groups : ℕ
  levels : List StoredLayer

namespace StoredGroupCvs

def new (storage : σ) : Except (Abort Error) (StoredGroupCvs σ) := do
  let isEmpty ← fromStore (NodeStorage.isEmpty storage)
  rejectIf (isEmpty = false) (.error (.storage .corrupt))
  return ⟨storage, 0, 0, false, none⟩

/-- Append the value of the next group. A failed append poisons the layer. -/
def push (stored : StoredGroupCvs σ) (group : Bytes) :
    StoredGroupCvs σ × Except (Abort Error) Unit :=
  let checked : Except (Abort Error) (ℕ × ℕ) := do
    match stored.failure with
    | some error => .error (.error (.storage error))
    | none => pure ()
    rejectIf (group = [] ∨ group.length > groupSize ∨ stored.ended = true) (.error .outOfBounds)
    let nextLength ← okOr (checkedAdd stored.length group.length) (.error .lengthOverflow)
    let nextGroups ← okOr (checkedAdd stored.groups 1) (.error (.storage .capacity))
    return (nextLength, nextGroups)
  match checked with
  | .error error => (stored, .error error)
  | .ok (length, groups) =>
    match NodeStorage.append stored.storage (positionedCv stored.length group) with
    | (storage, .error error) =>
      ({ stored with storage, failure := some error }, .error (.error (.storage error)))
    | (storage, .ok ()) =>
      (⟨storage, length, groups, decide (group.length < groupSize), stored.failure⟩, .ok ())

def pushAll (stored : StoredGroupCvs σ) (bytes : List Bytes) :
    Except (Abort Error) (StoredGroupCvs σ) :=
  bytes.foldlM (fun stored group => settled (stored.push group)) stored

def appendParent (previous : StoredLayer) (storage : σ) (index : ℕ) : Except (Abort Error) σ := do
  let child ← okOr (checkedMul index 2) (.error (.storage .capacity))
  let leftOrdinal ← okOr (checkedAdd previous.base child) (.error (.storage .capacity))
  let rightOrdinal ← okOr (checkedAdd leftOrdinal 1) (.error (.storage .capacity))
  let left ← fromStore (NodeStorage.read storage leftOrdinal)
  let right ← fromStore (NodeStorage.read storage rightOrdinal)
  appendNode storage (Blake3.mergeSubtreesNonRoot left right)

/-- Append the levels above the last one. -/
def finishLevels (storage : σ) (levels : List StoredLayer) (previous : StoredLayer)
    (expectedRecords : ℕ) : Except (Abort Error) (σ × List StoredLayer) :=
  if _h : 2 ≤ previous.count then do
    rejectIf (levels.length ≥ maxStoredLevels) (.error (.storage .capacity))
    let before ← fromStore (NodeStorage.len storage)
    rejectIf (before ≠ expectedRecords) (.error (.storage .corrupt))
    let count := previous.count / 2
    let level : StoredLayer := ⟨expectedRecords, count⟩
    let storage ← (List.range count).foldlM (appendParent previous) storage
    let expectedRecords ← okOr (checkedAdd expectedRecords count) (.error (.storage .capacity))
    let after ← fromStore (NodeStorage.len storage)
    rejectIf (after ≠ expectedRecords) (.error (.storage .corrupt))
    finishLevels storage (levels ++ [level]) level expectedRecords
  else .ok (storage, levels)
termination_by previous.count
decreasing_by omega

def finish (stored : StoredGroupCvs σ) : Except (Abort Error) (SealedGroupCvs σ) := do
  match stored.failure with
  | some error => .error (.error (.storage error))
  | none => pure ()
  let records ← fromStore (NodeStorage.len stored.storage)
  rejectIf (records ≠ stored.groups) (.error (.storage .corrupt))
  let base : StoredLayer := ⟨0, stored.groups⟩
  let levels := if stored.groups = 0 then [] else [base]
  let built ← finishLevels stored.storage levels base stored.groups
  return ⟨built.1, stored.length, stored.groups, built.2⟩

end StoredGroupCvs

namespace SealedGroupCvs

def nodeCv (stored : SealedGroupCvs σ) (node : Node) : Except (Abort Error) Digest :=
  match retainedAt node with
  | some (levelIndex, index) => do
    let level ← okOr stored.levels[levelIndex]? (.error (.storage .corrupt))
    readStoredNode stored.storage level index
  | none =>
    if h : node.count = 1 then .error .panic
    else do
      let left ← nodeCv stored (node.split h).1
      let right ← nodeCv stored (node.split h).2
      return Blake3.mergeSubtreesNonRoot left right
termination_by node.count
decreasing_by
  · exact node.split_left_lt h
  · exact node.split_right_lt h

def treeRoot (stored : SealedGroupCvs σ) : Except (Abort Error) (Option Digest) :=
  treeRootBy stored.nodeCv stored.length

def prove (stored : SealedGroupCvs σ) (offset length : ℕ) : Except (Abort Error) RangeCover :=
  proveBy stored.nodeCv stored.length offset length

def holds (stored : SealedGroupCvs σ) (index : ℕ) (group : Bytes) : Bool :=
  match stored.levels.head? with
  | none => false
  | some level =>
    match readStoredNode stored.storage level index, checkedMul index groupSize with
    | .ok expected, some inputOffset =>
      decide (group ≠ [] ∧ group.length ≤ groupSize ∧ positionedCv inputOffset group = expected)
    | _, _ => false

end SealedGroupCvs

end ObjectTransfer.Proof.Bao64
