import ObjectTransfer.Foundations.Outcome
import ObjectTransfer.Foundations.Words

/-! # Shared proof subtrees

An immutable binary tree keeps the hash of every subtree. The left child is the largest perfect one
that leaves something for the right. An edit builds the nodes it changes and keeps the others; a
node that cannot be reached is a panic, written `none`.
-/

namespace ObjectTransfer.ProofStore
open Foundations

/-- A subtree with its hash. The count the source stores beside it is that of the leaves below. -/
inductive Node where
  | leaf (hash : Digest)
  | branch (hash : Digest) (left right : Node)

/-- Leaves on the left of a tree with at least two. -/
def split (count : ℕ) : ℕ := 2 ^ Nat.log2 (count - 1)

theorem split_pos (count : ℕ) : 0 < split count := Nat.two_pow_pos _

theorem split_lt {count : ℕ} (h : 2 ≤ count) : split count < count := by
  have := Nat.log2_self_le (n := count - 1) (by omega)
  unfold split
  omega

theorem le_two_mul_split {count : ℕ} (h : 2 ≤ count) : count ≤ 2 * split count := by
  have := Nat.lt_log2_self (n := count - 1)
  unfold split
  omega

namespace Node

def hash : Node → Digest
  | leaf hash => hash
  | branch hash _ _ => hash

def count : Node → ℕ
  | leaf _ => 1
  | branch _ left right => left.count + right.count

theorem count_pos (node : Node) : 0 < node.count := by
  cases node with
  | leaf => exact Nat.one_pos
  | branch _ left => exact Nat.add_pos_left left.count_pos _

def children : Node → Option (Node × Node)
  | leaf _ => none
  | branch _ left right => some (left, right)

/-- An exact descendant, `start` leaves into this subtree. -/
def subtree (node : Node) (start count : ℕ) : Option Node :=
  if start = 0 ∧ count = node.count then some node
  else
    match node with
    | leaf _ => none
    | branch _ left right =>
      if start < left.count then left.subtree start count
      else right.subtree (start - left.count) count

variable (merge : Digest → Digest → Digest)

def join (left right : Node) : Node := branch (merge left.hash right.hash) left right

def build (leaves : List Digest) : Option Node :=
  if _h : 2 ≤ leaves.length then do
    let left ← build (leaves.take (split leaves.length))
    let right ← build (leaves.drop (split leaves.length))
    return join merge left right
  else leaves.head?.map leaf
termination_by leaves.length
decreasing_by
  · rw [List.length_take]
    exact lt_of_le_of_lt (min_le_left _ _) (split_lt _h)
  · have := split_pos leaves.length
    rw [List.length_drop]
    omega

def prefixNode (node : Node) (count : ℕ) : Option Node :=
  if count = node.count then some node
  else
    match node with
    | leaf _ => none
    | branch _ left right =>
      if count ≤ left.count then left.prefixNode count
      else do
        let right ← right.prefixNode (count - left.count)
        return join merge left right

def replace (node : Node) (start : ℕ) (leaves : List Digest) : Option Node :=
  if leaves = [] then some node
  else if start = 0 ∧ leaves.length = node.count then build merge leaves
  else
    match node with
    | leaf _ => none
    | branch _ left right => do
      let leftLen := min (left.count - start) leaves.length
      let updatedLeft ← if leftLen = 0 then some left else left.replace start (leaves.take leftLen)
      let updatedRight ← right.replace (start - left.count) (leaves.drop leftLen)
      return join merge updatedLeft updatedRight

/-- Leaves that go into the right side before the tree is perfect. -/
def room (count : ℕ) : ℕ := split (count + 1) - (count - split (count + 1))

theorem room_pos {count : ℕ} (h : 0 < count) : 0 < room count := by
  have h2 := le_two_mul_split (show 2 ≤ count + 1 by omega)
  unfold room
  omega

def append (node : Node) (leaves : List Digest) : Option Node :=
  if _h : leaves = [] then some node
  else
    let next := if node.count = split (node.count + 1) then
        (build merge (leaves.take (room node.count))).map (join merge node)
      else
        match node with
        | leaf _ => none
        | branch hash left right =>
          (append right (leaves.take (room (branch hash left right).count))).map (join merge left)
    next.bind fun next => append next (leaves.drop (room node.count))
termination_by (leaves.length, node.count)
decreasing_by
  · have := left.count_pos
    rw [Prod.lex_def]
    simp only [List.length_take, count]
    omega
  · have := room_pos node.count_pos
    have := List.length_pos_iff.mpr _h
    rw [Prod.lex_def]
    simp only [List.length_drop]
    omega

end Node

structure ProofTree where
  root : Option Node

namespace ProofTree

variable (merge : Digest → Digest → Digest)

def new (leaves : List Digest) : ProofTree := ⟨Node.build merge leaves⟩

def len (tree : ProofTree) : ℕ := (tree.root.map Node.count).getD 0

def subtree (tree : ProofTree) (start count : ℕ) : Option Digest :=
  (tree.root.bind (·.subtree start count)).map Node.hash

/-- Replace a range of leaves and set the number of leaves. A range outside the new tree and growth
that does not supply every new leaf are rejected. -/
def updated (tree : ProofTree) (start : ℕ) (leaves : List Digest) (count : ℕ) :
    Except (Abort Unit) ProofTree := do
  let stop ← okOr (checkedAdd start leaves.length) (.error ())
  rejectIf (stop > count ∨ count > tree.len ∧ (start > tree.len ∨ stop ≠ count)) (.error ())
  let retained := min count tree.len
  if retained = 0 then return ⟨Node.build merge leaves⟩
  else
    let previous ← okOr tree.root (.error ())
    let kept ← okOr (previous.prefixNode merge retained) .panic
    let replaceCount := min (retained - start) leaves.length
    let replaced ← okOr (kept.replace merge start (leaves.take replaceCount)) .panic
    let grown ← okOr (replaced.append merge (leaves.drop replaceCount)) .panic
    return ⟨some grown⟩

end ProofTree

end ObjectTransfer.ProofStore
