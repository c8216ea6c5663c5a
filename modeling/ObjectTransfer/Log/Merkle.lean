import ObjectTransfer.Foundations.Blocks
import ObjectTransfer.Foundations.LogWalk
import ObjectTransfer.Foundations.Outcome
import ObjectTransfer.Streaming.Hash

/-! # The transparency log

An append-only Merkle tree over the entries' hashes. The log proves that an entry is in the tree of
a given size and that one tree is a beginning of another; a reader checks both against the heads,
walking up from the bits of the index or of the sizes.
-/

namespace ObjectTransfer.Log
open Foundations Streaming

abbrev Hash := Digest

def maxEntries : ℕ := 1 <<< 32

inductive Error where
  | outOfRange
  | proofInvalid
  | malformed
  | unwitnessed
  | full
  deriving DecidableEq, Repr

/-- Largest power of two strictly less than `n`, for `n > 1`. -/
def split (n : ℕ) : ℕ := 1 <<< (64 - 1 - leadingZeros (n - 1))

theorem split_pos (n : ℕ) : 0 < split n := by
  rw [split, Nat.one_shiftLeft]
  exact Nat.two_pow_pos _

variable {n : ℕ}

theorem split_eq (h : 1 < n) : split n = 2 ^ min 63 (Nat.log2 (n - 1)) := by
  rw [split, Nat.one_shiftLeft, leadingZeros, if_neg (by omega)]
  congr 1
  omega

theorem split_le_splitPoint (h : 1 < n) : split n ≤ splitPoint n := by
  rw [split_eq h]
  exact Nat.pow_le_pow_right (by omega) (min_le_right _ _)

theorem split_lt (h : 1 < n) : split n < n :=
  (split_le_splitPoint h).trans_lt (splitPoint_lt h)

theorem split_eq_splitPoint (h : 1 < n) (hbound : n ≤ 2 ^ 64) : split n = splitPoint n := by
  have hlog : Nat.log2 (n - 1) ≤ 63 := by
    by_contra hlarge
    have hle : 2 ^ Nat.log2 (n - 1) ≤ n - 1 := Nat.log2_self_le (by omega)
    have hpow : 2 ^ 64 ≤ 2 ^ Nat.log2 (n - 1) := Nat.pow_le_pow_right (by omega) (by omega)
    omega
  rw [split_eq h, min_eq_right hlog, splitPoint]

section Tree
variable [Sha256]

/-- What is hashed for an entry, and for a pair of nodes. -/
def leafInput (entry : Bytes) : Bytes := 0x00 :: entry

def nodeInput (pair : Hash × Hash) : Bytes := 0x01 :: writePair pair

def leafHash (entry : Bytes) : Hash := Sha256.digest (leafInput entry)

def nodeHash (left right : Hash) : Hash := Sha256.digest (nodeInput (left, right))

def rootOf (leaves : List Hash) : Hash :=
  match leaves with
  | [] => Sha256.digest []
  | [leaf] => leaf
  | first :: second :: rest =>
    let k := split (rest.length + 2)
    nodeHash (rootOf ((first :: second :: rest).take k)) (rootOf ((first :: second :: rest).drop k))
termination_by leaves.length
decreasing_by
  all_goals
    have hlt := split_lt (n := rest.length + 2) (by omega)
    have hpos := split_pos (rest.length + 2)
    simp only [List.length_take, List.length_drop, List.length_cons]
    omega

/-- The siblings of a leaf on its way to the root. -/
def path (index : ℕ) (leaves : List Hash) : List Hash :=
  if leaves.length ≤ 1 then []
  else
    let k := split leaves.length
    if index < k then path index (leaves.take k) ++ [rootOf (leaves.drop k)]
    else path (index - k) (leaves.drop k) ++ [rootOf (leaves.take k)]
termination_by leaves.length
decreasing_by
  all_goals
    have hlt := split_lt (n := leaves.length) (by omega)
    have hpos := split_pos leaves.length
    simp only [List.length_take, List.length_drop]
    omega

/-- The nodes that reconcile the tree of `oldSize` leaves with the whole. No size of zero is ever
asked for, so a list of one leaf is always reached at its own size. -/
def subproof (oldSize : ℕ) (leaves : List Hash) (isPrefix : Bool) : List Hash :=
  if leaves.length ≤ 1 ∨ oldSize = leaves.length then
    if isPrefix then [] else [rootOf leaves]
  else
    let k := split leaves.length
    if oldSize ≤ k then subproof oldSize (leaves.take k) isPrefix ++ [rootOf (leaves.drop k)]
    else subproof (oldSize - k) (leaves.drop k) false ++ [rootOf (leaves.take k)]
termination_by leaves.length
decreasing_by
  all_goals
    have hlt := split_lt (n := leaves.length) (by omega)
    have hpos := split_pos leaves.length
    simp only [List.length_take, List.length_drop]
    omega

end Tree

/-- The leaf hashes of a log within the size limit. -/
structure MerkleLog where
  leaves : List Hash
  bounded : leaves.length ≤ maxEntries

namespace MerkleLog
variable [Sha256]

def rootAt (log : MerkleLog) (size : ℕ) : Except Error Hash := do
  rejectIf (size > log.leaves.length) .outOfRange
  return rootOf (log.leaves.take size)

def inclusionProof (log : MerkleLog) (index size : ℕ) : Except Error (List Hash) := do
  rejectIf (size > log.leaves.length ∨ index ≥ size) .outOfRange
  return path index (log.leaves.take size)

def consistencyProof (log : MerkleLog) (oldSize newSize : ℕ) : Except Error (List Hash) := do
  rejectIf (oldSize = 0 ∨ oldSize > newSize ∨ newSize > log.leaves.length) .outOfRange
  return subproof oldSize (log.leaves.take newSize) true

end MerkleLog

/-- The length of an inclusion proof inside the leaf's subtree and along the right border. -/
def decompose (index size : ℕ) : ℕ × ℕ :=
  let inner := 64 - leadingZeros (index ^^^ (size - 1))
  (inner, countOnes (index >>> inner))

/-- Go up while the node is the second of its pair. -/
def climbOdd : ℕ → ℕ → ℕ → ℕ × ℕ
  | 0, node, last => (node, last)
  | fuel + 1, node, last =>
    if node % 2 = 0 then (node, last) else climbOdd fuel (node / 2) (last / 2)

def splitFirst (proof : List Hash) : Except Error (Hash × List Hash) :=
  match proof with
  | [] => .error .proofInvalid
  | first :: rest => .ok (first, rest)

section Verify
variable [Sha256]

def verifyInclusion (leaf : Hash) (index size : ℕ) (proof : List Hash) (root : Hash) :
    Except Error Unit := do
  rejectIf (size = 0 ∨ size > maxEntries ∨ index ≥ size) .outOfRange
  let (inner, border) := decompose index size
  rejectIf (proof.length ≠ inner + border) .proofInvalid
  let computed := (proof.take inner).zipIdx.foldl (fun computed (sibling, level) =>
    if (index >>> level) % 2 = 0 then nodeHash computed sibling
    else nodeHash sibling computed) leaf
  let computed := (proof.drop inner).foldl (fun computed sibling => nodeHash sibling computed) computed
  rejectIf (computed ≠ root) .proofInvalid

/-- Merge siblings into both heads, up to the level at which the old tree ends; returns the last node
of that level, what is left of the proof, and both heads. -/
def mergeBoth : ℕ → ℕ → ℕ → List Hash → Hash → Hash → Except Error (ℕ × List Hash × Hash × Hash)
  | 0, _, last, rest, fromOld, fromNew => .ok (last, rest, fromOld, fromNew)
  | fuel + 1, node, last, rest, fromOld, fromNew =>
    if node = 0 then .ok (last, rest, fromOld, fromNew)
    else if node % 2 = 1 then do
      let (sibling, rest) ← splitFirst rest
      mergeBoth fuel (node / 2) (last / 2) rest (nodeHash sibling fromOld) (nodeHash sibling fromNew)
    else if node < last then do
      let (sibling, rest) ← splitFirst rest
      mergeBoth fuel (node / 2) (last / 2) rest fromOld (nodeHash fromNew sibling)
    else mergeBoth fuel (node / 2) (last / 2) rest fromOld fromNew

/-- Merge the siblings above the old tree into the new head. -/
def mergeNew : ℕ → ℕ → List Hash → Hash → Except Error (List Hash × Hash)
  | 0, _, rest, fromNew => .ok (rest, fromNew)
  | fuel + 1, last, rest, fromNew =>
    if last = 0 then .ok (rest, fromNew)
    else do
      let (sibling, rest) ← splitFirst rest
      mergeNew fuel (last / 2) rest (nodeHash fromNew sibling)

/-- The node both walks start from. A complete old tree is its own start and is left out of the
proof. -/
def startNode (node : ℕ) (oldRoot : Hash) (proof : List Hash) : Except Error (Hash × List Hash) :=
  if node > 0 then splitFirst proof else .ok (oldRoot, proof)

def verifyConsistency (oldSize : ℕ) (oldRoot : Hash) (newSize : ℕ) (newRoot : Hash)
    (proof : List Hash) : Except Error Unit := do
  rejectIf (oldSize = 0 ∨ oldSize > newSize ∨ newSize > maxEntries) .outOfRange
  if oldSize = newSize then rejectIf (¬ (proof = [] ∧ oldRoot = newRoot)) .proofInvalid
  else
    let (node, last) := climbOdd 64 (oldSize - 1) (newSize - 1)
    let (start, rest) ← startNode node oldRoot proof
    let (last, rest, fromOld, fromNew) ← mergeBoth 64 node last rest start start
    let (rest, fromNew) ← mergeNew 64 last rest fromNew
    rejectIf (¬ (fromOld = oldRoot ∧ fromNew = newRoot ∧ rest = [])) .proofInvalid

end Verify

end ObjectTransfer.Log
