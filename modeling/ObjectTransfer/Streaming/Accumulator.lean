import ObjectTransfer.Foundations.Chunks
import ObjectTransfer.Foundations.Levels
import ObjectTransfer.Foundations.Outcome
import ObjectTransfer.Streaming.Hash

/-! # The SHA-256 piece tree accumulator

A binary counter of subtree roots: level `l` is occupied exactly when bit `l` of
the count is set. Adding a subtree carries through the occupied levels, and
finishing pads the leaf count to a power of two with subtrees of zero pieces.
-/

namespace ObjectTransfer.Streaming
open Foundations

inductive VerifyError where
  | groupOutOfOrder
  | invalidGroupLength
  | groupAfterFinal
  | lengthOverflow
  | suiteMismatch
  | lengthMismatch
  | rootMismatch
  deriving DecidableEq, Repr

def sha256LeafSize : ℕ := 16384

def zeroDigest : Digest := List.Vector.replicate 32 0

/-- `l` cut or padded with `value` to length `n`. -/
def resize {α : Type*} (l : List α) (n : ℕ) (value : α) : List α :=
  l.take n ++ List.replicate (n - l.length) value

variable {α : Type*}

@[simp] theorem resize_length (l : List α) (n : ℕ) (value : α) : (resize l n value).length = n := by
  simp [resize]
  omega

theorem resize_ne_nil {l : List α} {n : ℕ} {value : α} (h : n ≠ 0) : resize l n value ≠ [] := by
  rw [← List.length_pos_iff, resize_length]
  omega

variable [Sha256]

def parent (left right : Digest) : Digest := Sha256.digest (left.toList ++ right.toList)

def reduce (nodes : List Digest) (h : nodes ≠ []) : Digest := reduceLevels parent nodes h

def leafHashes (bytes : Bytes) : List Digest := (chunks sha256LeafSize bytes).map Sha256.digest

def pieceHash (bytes : Bytes) : Digest :=
  reduce (resize (leafHashes bytes) 4 zeroDigest) (resize_ne_nil (by decide))

def singleGroupRoot (bytes : Bytes) : Digest :=
  reduce (resize (leafHashes bytes) (nextPowerOfTwo (leafHashes bytes).length) zeroDigest)
    (resize_ne_nil (nextPowerOfTwo_pos _).ne')

/-- The root of `2 ^ level` zero pieces. -/
def zeroSubtree (level : ℕ) : Digest := (fun value => parent value value)^[level] (pieceHash [])

structure MerkleAccumulator where
  count : ℕ := 0
  levels : List (Option Digest) := []

namespace MerkleAccumulator

/-- Merge the new node with the occupied levels from `level` on, emptying them. -/
def carry (count : ℕ) (levels : List (Option Digest)) (node : Digest) (level : ℕ) :
    Except VerifyError (List (Option Digest) × Digest × ℕ) :=
  if 64 ≤ level then .error .lengthOverflow
  else if count.testBit level then
    match levels[level]? with
    | some (some left) => carry count (levels.set level none) (parent left node) (level + 1)
    | _ => .error .lengthOverflow
  else .ok (levels, node, level)
termination_by 64 - level

def addSubtree (acc : MerkleAccumulator) (node : Digest) (level : ℕ) :
    Except VerifyError MerkleAccumulator := do
  rejectIf (64 ≤ level) .lengthOverflow
  rejectIf (acc.count % 2 ^ level ≠ 0) .lengthOverflow
  let (levels, node, top) ← carry acc.count acc.levels node level
  let levels := if levels.length ≤ top then resize levels (top + 1) none else levels
  let count ← okOr (checkedAdd acc.count (2 ^ level)) .lengthOverflow
  return { count := count, levels := levels.set top (some node) }

def addLeaf (acc : MerkleAccumulator) (leaf : Digest) : Except VerifyError MerkleAccumulator :=
  acc.addSubtree leaf 0

theorem addSubtree_count {acc acc' : MerkleAccumulator} {node : Digest} {level : ℕ}
    (h : acc.addSubtree node level = .ok acc') : acc'.count = acc.count + 2 ^ level := by
  simp only [addSubtree, bind_eq_ok, okOr_eq_ok, checkedAdd_eq_some, pure_eq_ok] at h
  obtain ⟨-, -, -, -, ⟨levels, node, top⟩, -, count, ⟨-, rfl⟩, rfl⟩ := h
  rfl

/-- Add subtrees of zero pieces until the count is `target`. -/
def pad (acc : MerkleAccumulator) (target : ℕ) : Except VerifyError MerkleAccumulator :=
  if acc.count < target then
    match _h : acc.addSubtree (zeroSubtree (trailingZeros acc.count)) (trailingZeros acc.count) with
    | .error e => .error e
    | .ok acc' => pad acc' target
  else .ok acc
termination_by target - acc.count
decreasing_by
  have hc := addSubtree_count _h
  have := Nat.two_pow_pos (trailingZeros acc.count)
  omega

def finish (acc : MerkleAccumulator) : Except VerifyError Digest :=
  if acc.count = 0 then .ok (Sha256.digest [])
  else do
    let target ← okOr (checkedNextPowerOfTwo acc.count) .lengthOverflow
    let acc ← acc.pad target
    okOr (acc.levels[trailingZeros target]?).join .lengthOverflow

end MerkleAccumulator

end ObjectTransfer.Streaming
