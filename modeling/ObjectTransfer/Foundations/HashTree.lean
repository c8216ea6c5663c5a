import Mathlib.Tactic

/-! # Range proofs over binary hash trees

A tree of leaf positions gets a value from a leaf function and a merge function.
A range proof lists, in preorder, the pairs of child values of every inner node
above a selected leaf. Checking consumes the pairs in the same order. A proof is
accepted exactly when it is the one the tree emits, provided merging is injective
on the pairs that occur in the tree or in the proof.
-/

namespace ObjectTransfer.Foundations
open List

inductive HashTree (ι : Type*) where
  | leaf (i : ι)
  | node (left right : HashTree ι)

namespace HashTree

variable {ι δ : Type*}

def leaves : HashTree ι → List ι
  | leaf i => [i]
  | node left right => left.leaves ++ right.leaves

/-- Some leaf of the tree lies in the window. -/
def selected (window : ι → Prop) [DecidablePred window] (tree : HashTree ι) : Bool :=
  tree.leaves.any window

def value (leafValue : ι → δ) (merge : δ → δ → δ) : HashTree ι → δ
  | leaf i => leafValue i
  | node left right => merge (left.value leafValue merge) (right.value leafValue merge)

/-- The child values of every inner node, in preorder. -/
def parents (leafValue : ι → δ) (merge : δ → δ → δ) : HashTree ι → List (δ × δ)
  | leaf _ => []
  | node left right =>
    (left.value leafValue merge, right.value leafValue merge) ::
      (left.parents leafValue merge ++ right.parents leafValue merge)

section Window

variable (window : ι → Prop) [DecidablePred window]

/-- The child values of the inner nodes above the window, in preorder. -/
def proof (leafValue : ι → δ) (merge : δ → δ → δ) : HashTree ι → List (δ × δ)
  | leaf _ => []
  | node left right =>
    if (node left right).selected window then
      (left.value leafValue merge, right.value leafValue merge) ::
        (left.proof leafValue merge ++ right.proof leafValue merge)
    else []

/-- Check a subtree against an expected value and return the pairs left over. A subtree
outside the window is taken on trust, as its value was already bound by its parent. -/
def check [DecidableEq δ] (presented : ι → δ) (merge : δ → δ → δ) :
    HashTree ι → δ → List (δ × δ) → Option (List (δ × δ))
  | leaf i, expected, pairs =>
    if (leaf i).selected window ∧ presented i ≠ expected then none else some pairs
  | node left right, expected, pairs =>
    if (node left right).selected window then
      match pairs with
      | [] => none
      | (l, r) :: rest => do
        let rest ← left.check presented merge l rest
        let rest ← right.check presented merge r rest
        if merge l r = expected then some rest else none
    else some pairs

end Window

@[simp] theorem selected_leaf (window : ι → Prop) [DecidablePred window] (i : ι) :
    (leaf i).selected window = true ↔ window i := by
  simp [selected, leaves]

theorem selected_iff (window : ι → Prop) [DecidablePred window] (tree : HashTree ι) :
    tree.selected window = true ↔ ∃ i ∈ tree.leaves, window i := by
  simp [selected]

variable {tree : HashTree ι} {merge : δ → δ → δ} {window : ι → Prop}

theorem proof_eq_nil [DecidablePred window] {leafValue : ι → δ}
    (h : tree.selected window = false) : tree.proof window leafValue merge = [] := by
  cases tree with
  | leaf => rfl
  | node => rw [proof, h]; simp

variable {presented : ι → δ} {expected : δ}

theorem check_unselected [DecidableEq δ] [DecidablePred window]
    {pairs : List (δ × δ)} (h : tree.selected window = false) :
    tree.check window presented merge expected pairs = some pairs := by
  cases tree with
  | leaf => simp [check, h]
  | node => cases pairs <;> simp only [check, h] <;> simp

variable {pairs rest : List (δ × δ)}

section Correctness

variable [DecidableEq δ] {window : ι → Prop} [DecidablePred window]
variable {leafValue presented : ι → δ} {merge : δ → δ → δ}

theorem check_proof (merge : δ → δ → δ) (tree : HashTree ι)
    (hleaf : ∀ i ∈ tree.leaves, window i → presented i = leafValue i) (rest : List (δ × δ)) :
    tree.check window presented merge (tree.value leafValue merge)
      (tree.proof window leafValue merge ++ rest) = some rest := by
  induction tree generalizing rest with
  | leaf i =>
    have hi := hleaf i (by simp [leaves])
    by_cases h : window i
    · simp [check, proof, value, hi h]
    · simp [check, proof, h]
  | node left right ihl ihr =>
    by_cases h : (node left right).selected window = true
    · have hl := ihl (fun i hi => hleaf i (by simp [leaves, hi]))
      have hr := ihr (fun i hi => hleaf i (by simp [leaves, hi]))
      simp only [proof, h, if_true, cons_append, append_assoc, check, value]
      rw [hl]
      simp [hr]
    · rw [Bool.not_eq_true] at h
      rw [check_unselected h, proof_eq_nil h, nil_append]

/-- An accepted proof begins with the emitted one, and the presented leaves in the window
are the tree's own. -/
theorem check_sound (tree : HashTree ι) {known : Set (δ × δ)}
    (hinj : Set.InjOn (fun p : δ × δ => merge p.1 p.2) known)
    (htree : ∀ p ∈ tree.parents leafValue merge, p ∈ known) (hpairs : ∀ p ∈ pairs, p ∈ known)
    (h : tree.check window presented merge (tree.value leafValue merge) pairs = some rest) :
    pairs = tree.proof window leafValue merge ++ rest ∧
      ∀ i ∈ tree.leaves, window i → presented i = leafValue i := by
  induction tree generalizing pairs rest with
  | leaf i =>
    simp only [check, selected_leaf, value] at h
    split_ifs at h with hc
    refine ⟨by simpa [proof] using h, ?_⟩
    intro j hj hw
    obtain rfl : j = i := by simpa [leaves] using hj
    by_contra hne
    exact hc ⟨hw, hne⟩
  | node left right ihl ihr =>
    by_cases hs : (node left right).selected window = true
    · cases pairs with
      | nil => simp [check, hs] at h
      | cons p =>
        simp only [check, hs, if_true, Option.bind_eq_bind, Option.bind_eq_some_iff,
          Option.ite_none_right_eq_some, Option.some.injEq] at h
        obtain ⟨mid, hmid, last, hlast, hmerge, rfl⟩ := h
        have hp : p = (left.value leafValue merge, right.value leafValue merge) :=
          hinj (hpairs p (by simp)) (htree _ (by simp [parents])) hmerge
        subst hp
        obtain ⟨rfl, hl⟩ := ihl (fun q hq => htree q (by simp [parents, hq]))
          (fun q hq => hpairs q (by simp [hq])) hmid
        obtain ⟨rfl, hr⟩ := ihr (fun q hq => htree q (by simp [parents, hq]))
          (fun q hq => hpairs q (by simp [hq])) hlast
        refine ⟨by simp [proof, hs], ?_⟩
        intro i hi hw
        rcases mem_append.mp hi with hi | hi
        · exact hl i hi hw
        · exact hr i hi hw
    · rw [Bool.not_eq_true] at hs
      rw [check_unselected hs, Option.some.injEq] at h
      refine ⟨by rw [proof_eq_nil hs, nil_append, h], ?_⟩
      intro i hi hw
      rw [← Bool.not_eq_true, selected_iff] at hs
      exact absurd ⟨i, hi, hw⟩ hs

end Correctness

theorem check_suffix [DecidableEq δ] [DecidablePred window] (tree : HashTree ι)
    (h : tree.check window presented merge expected pairs = some rest) : rest <:+ pairs := by
  induction tree generalizing expected pairs rest with
  | leaf =>
    simp only [check] at h
    split_ifs at h
    rw [Option.some.inj h]
  | node left right ihl ihr =>
    by_cases hs : (node left right).selected window = true
    · cases pairs with
      | nil => simp [check, hs] at h
      | cons p tail =>
        simp only [check, hs, if_true, Option.bind_eq_bind, Option.bind_eq_some_iff,
          Option.ite_none_right_eq_some, Option.some.injEq] at h
        obtain ⟨mid, hmid, last, hlast, -, rfl⟩ := h
        exact ((ihr hlast).trans (ihl hmid)).trans (suffix_cons p tail)
    · rw [Bool.not_eq_true] at hs
      rw [check_unselected hs, Option.some.injEq] at h
      rw [h]

/-- Every proof has fewer pairs than the tree has leaves. -/
theorem proof_length_lt (window : ι → Prop) [DecidablePred window] (leafValue : ι → δ)
    (merge : δ → δ → δ) (tree : HashTree ι) :
    (tree.proof window leafValue merge).length < tree.leaves.length := by
  induction tree with
  | leaf => simp [proof, leaves]
  | node =>
    rw [proof, leaves, length_append]
    split_ifs
    · rw [length_cons, length_append]
      omega
    · rw [length_nil]
      omega

/-- The value of a whole tree, whose top merge differs from the inner ones. -/
def rootValue (leafValue : ι → δ) (merge mergeRoot : δ → δ → δ) : HashTree ι → δ
  | leaf i => leafValue i
  | node left right => mergeRoot (left.value leafValue merge) (right.value leafValue merge)

end HashTree

/-- The left-balanced tree over `count` consecutive leaves: the left subtree is the largest
perfect one that leaves something for the right. -/
def leftBalanced (start count : ℕ) : HashTree ℕ :=
  if 2 ≤ count then
    .node (leftBalanced start (2 ^ Nat.log2 (count - 1)))
      (leftBalanced (start + 2 ^ Nat.log2 (count - 1)) (count - 2 ^ Nat.log2 (count - 1)))
  else .leaf start
termination_by count
decreasing_by
  · have := Nat.log2_self_le (n := count - 1) (by omega)
    omega
  · have := Nat.two_pow_pos (Nat.log2 (count - 1))
    omega

theorem leftBalanced_one (start : ℕ) : leftBalanced start 1 = .leaf start := by
  rw [leftBalanced, if_neg (by omega)]

theorem leftBalanced_node (start : ℕ) {count : ℕ} (h : 2 ≤ count) :
    leftBalanced start count =
      .node (leftBalanced start (2 ^ Nat.log2 (count - 1)))
        (leftBalanced (start + 2 ^ Nat.log2 (count - 1)) (count - 2 ^ Nat.log2 (count - 1))) := by
  rw [leftBalanced, if_pos h]

theorem leftBalanced_leaves (start : ℕ) {count : ℕ} (h : 0 < count) :
    (leftBalanced start count).leaves = List.range' start count := by
  induction start, count using leftBalanced.induct with
  | case1 start count h2 ihl ihr =>
    have hlog := Nat.log2_self_le (n := count - 1) (by omega)
    rw [leftBalanced_node start h2, HashTree.leaves, ihl (Nat.two_pow_pos _), ihr (by omega),
      range'_append_1]
    congr 1
    omega
  | case2 start count =>
    obtain rfl : count = 1 := by omega
    rw [leftBalanced_one]
    rfl

end ObjectTransfer.Foundations
