import ObjectTransfer.ProofStore.TreeCorrect

/-! # A tree after any edits is the tree of the edited leaves

Whatever was replaced, appended and cut off in which order, the tree is the one a fresh build gives,
so that its subtrees are those of the left-balanced tree over the leaves it has now.
-/

namespace ObjectTransfer.ProofStore
open Foundations List

/-- The ranges of leaves below the nodes of the left-balanced tree over `n` leaves. -/
inductive NodeAt : ℕ → ℕ → ℕ → Prop where
  | whole {n : ℕ} (hpos : 0 < n) : NodeAt n 0 n
  | left {n start count : ℕ} (h2 : 2 ≤ n) (h : NodeAt (split n) start count) : NodeAt n start count
  | right {n start count : ℕ} (h2 : 2 ≤ n) (h : NodeAt (n - split n) start count) :
      NodeAt n (split n + start) count

variable {n start count : ℕ}

theorem NodeAt.inside (h : NodeAt n start count) : 0 < count ∧ start + count ≤ n := by
  induction h with
  | whole => omega
  | left h2 | right h2 =>
    have := split_lt h2
    omega

/-- The nodes of a tree of at least two leaves: the root, and those of its two sides. -/
theorem nodeAt_iff (h2 : 2 ≤ n) : NodeAt n start count ↔
    (start = 0 ∧ count = n) ∨ (start < split n ∧ NodeAt (split n) start count) ∨
      (split n ≤ start ∧ NodeAt (n - split n) (start - split n) count) := by
  constructor
  · intro h
    cases h with
    | whole => exact .inl ⟨rfl, rfl⟩
    | left _ h => exact .inr (.inl ⟨by have := h.inside; omega, h⟩)
    | right _ => exact .inr (.inr ⟨Nat.le_add_right _ _, by rwa [Nat.add_sub_cancel_left]⟩)
  · rintro (⟨rfl, rfl⟩ | ⟨-, h⟩ | ⟨hle, h⟩)
    · exact .whole (by omega)
    · exact .left h2 h
    · have hright := NodeAt.right h2 h
      rwa [Nat.add_sub_cancel' hle] at hright

namespace Node

variable {merge : Digest → Digest → Digest}

/-- A subtree is found exactly for the ranges of nodes, and is the tree of the leaves there. -/
theorem subtree_eq_some_iff {leaves : List Digest} {node : Node} (h : build merge leaves = some node)
    {found : Node} : node.subtree start count = some found ↔
      NodeAt leaves.length start count ∧
        build merge ((leaves.drop start).take count) = some found := by
  induction leaves, node, h using build_induction generalizing start with
  | single hash =>
    rw [subtree]
    constructor
    · intro hfound
      split_ifs at hfound with hroot
      obtain ⟨rfl, rfl⟩ := hroot
      exact ⟨.whole Nat.one_pos, (build_single hash).trans hfound⟩
    · rintro ⟨hnode, hbuild⟩
      have := hnode.inside
      obtain ⟨rfl, rfl⟩ : start = 0 ∧ count = 1 := by
        rw [length_singleton] at this
        omega
      exact (build_single hash).symm.trans hbuild
  | sides a b left right k ha hb hfit hleft hright ihl ihr =>
    have hac := build_count hleft
    have hbc := build_count hright
    have hpos := length_pos_iff.mpr hb
    have hsplit : split (a ++ b).length = a.length := by
      rw [length_append, ha, split_eq hpos hfit]
    have hrest : (a ++ b).length - a.length = b.length := by simp
    rw [nodeAt_iff (by rw [length_append]; omega), hsplit, hrest]
    by_cases hroot : start = 0 ∧ count = (join merge left right).count
    · obtain ⟨rfl, rfl⟩ := hroot
      have hall : (join merge left right).count = (a ++ b).length := by
        rw [count_join, hac, hbc, length_append]
      rw [subtree_self, drop_zero, hall, take_length, build_append ha hb hfit hleft hright]
      exact ⟨fun h => ⟨.inl ⟨rfl, rfl⟩, h⟩, And.right⟩
    · have hnot : ¬ (start = 0 ∧ count = (a ++ b).length) := by
        rwa [count_join, hac, hbc, ← length_append] at hroot
      rw [subtree_join hroot, hac]
      by_cases hside : start < a.length
      · rw [if_pos hside, ihl]
        have hslice : NodeAt a.length start count →
            ((a ++ b).drop start).take count = (a.drop start).take count := by
          intro hnode
          have := hnode.inside
          rw [drop_append_of_le_length hside.le,
            take_append_of_le_length (by rw [length_drop]; omega)]
        constructor
        · rintro ⟨hnode, hbuild⟩
          exact ⟨.inr (.inl ⟨hside, hnode⟩), by rwa [hslice hnode]⟩
        · rintro ⟨hroot | ⟨-, hnode⟩ | ⟨hle, -⟩, hbuild⟩
          · exact absurd hroot hnot
          · exact ⟨hnode, by rwa [hslice hnode] at hbuild⟩
          · omega
      · have hge := Nat.le_of_not_lt hside
        rw [if_neg hside, ihr, drop_append, drop_of_length_le hge, nil_append]
        constructor
        · rintro ⟨hnode, hbuild⟩
          exact ⟨.inr (.inr ⟨hge, hnode⟩), hbuild⟩
        · rintro ⟨hroot | ⟨hlt, -⟩ | ⟨-, hnode⟩, hbuild⟩
          · exact absurd hroot hnot
          · omega
          · exact ⟨hnode, hbuild⟩

end Node

structure Edit where
  start : ℕ
  leaves : List Digest
  count : ℕ

/-- The leaves an edit leaves: as many of the old ones as fit, with the new ones written over them. -/
def Edit.apply (leaves : List Digest) (edit : Edit) : List Digest :=
  splice (leaves.take edit.count) edit.start edit.leaves

/-- The replaced range ends within the new tree, and every leaf beyond the old ones is supplied. -/
def Edit.Admissible (length : ℕ) (edit : Edit) : Prop :=
  edit.start + edit.leaves.length ≤ u64Max ∧ edit.start + edit.leaves.length ≤ edit.count ∧
    ∀ i, length ≤ i → i < edit.count → edit.start ≤ i ∧ i < edit.start + edit.leaves.length

namespace ProofTree

variable {merge : Digest → Digest → Digest} {leaves : List Digest} {tree : ProofTree} {edit : Edit}

/-- What growth asks for, as the source checks it. -/
theorem admissible_iff {length : ℕ} : edit.Admissible length ↔
    edit.start + edit.leaves.length ≤ u64Max ∧ ¬ (edit.start + edit.leaves.length > edit.count ∨
      edit.count > length ∧ (edit.start > length ∨ edit.start + edit.leaves.length ≠ edit.count)) := by
  refine and_congr_right fun _ => ?_
  constructor
  · rintro ⟨hstop, hcovers⟩ (hover | ⟨hmore, hgap⟩)
    · omega
    · have hfirst := hcovers length (Nat.le_refl _) hmore
      have hlast := hcovers (edit.count - 1) (by omega) (by omega)
      omega
  · intro h
    refine ⟨by omega, fun i hi hlt => ?_⟩
    omega

theorem Holds.updated_admissible (h : tree.Holds merge leaves)
    (hadmissible : edit.Admissible leaves.length) :
    ∃ next, tree.updated merge edit.start edit.leaves edit.count = .ok next ∧
      next.Holds merge (edit.apply leaves) := by
  obtain ⟨hfit, hcond⟩ := admissible_iff.mp hadmissible
  by_cases hretained : min edit.count leaves.length = 0
  · -- nothing of the old tree is kept
    have hkept : leaves.take edit.count = [] := by
      rw [← length_eq_zero_iff, length_take, hretained]
    refine ⟨⟨Node.build merge edit.leaves⟩, ?_, ?_⟩
    · rw [updated, checkedAdd_of_le hfit, okOr_some, ok_bind,
        rejectIf_neg (by rw [h.len_eq]; exact hcond), ok_bind]
      rw [h.len_eq, if_pos hretained]
      rfl
    · rw [Edit.apply, hkept, nil_splice]
      rfl
  · refine h.updated_eq (ne_nil_of_length_pos (by omega)) (by omega) hfit (by omega) ?_
    omega

theorem Holds.updated_refused (h : tree.Holds merge leaves)
    (hrefused : ¬ edit.Admissible leaves.length) :
    tree.updated merge edit.start edit.leaves edit.count = .error (.error ()) := by
  rw [admissible_iff, not_and] at hrefused
  rw [updated]
  by_cases hfit : edit.start + edit.leaves.length ≤ u64Max
  · rw [checkedAdd_of_le hfit, okOr_some, ok_bind,
      rejectIf_pos (by rw [h.len_eq]; exact not_not.mp (hrefused hfit))]
    rfl
  · rw [checkedAdd, if_neg hfit]
    rfl

theorem Holds.subtree_iff (h : tree.Holds merge leaves) {hash : Digest} :
    tree.subtree start count = some hash ↔ NodeAt leaves.length start count ∧
      (Node.build merge ((leaves.drop start).take count)).map Node.hash = some hash := by
  rw [subtree, h]
  by_cases hne : leaves = []
  · subst hne
    refine ⟨fun hfound => ?_, fun hnode => ?_⟩
    · rw [Node.build] at hfound
      cases hfound
    · have := hnode.1.inside
      simp at this
      omega
  · obtain ⟨node, hnode⟩ := Node.build_isSome merge hne
    rw [hnode, Option.bind_some, Option.map_eq_some_iff, Option.map_eq_some_iff]
    simp only [Node.subtree_eq_some_iff hnode]
    constructor
    · rintro ⟨found, ⟨hat, hbuild⟩, hhash⟩
      exact ⟨hat, found, hbuild, hhash⟩
    · rintro ⟨hat, found, hbuild, hhash⟩
      exact ⟨found, ⟨hat, hbuild⟩, hhash⟩

/-- Edits one after another, up to the first that is refused. -/
def edited (merge : Digest → Digest → Digest) (tree : ProofTree) (edits : List Edit) :
    Except (Abort Unit) ProofTree :=
  edits.foldlM (fun tree edit => tree.updated merge edit.start edit.leaves edit.count) tree

theorem Holds.run (h : tree.Holds merge leaves) {edits : List Edit} {last : ProofTree}
    (hrun : tree.edited merge edits = .ok last) :
    last.Holds merge (edits.foldl Edit.apply leaves) := by
  induction edits generalizing tree leaves with
  | nil =>
    cases hrun
    exact h
  | cons edit edits ih =>
    obtain ⟨middle, hmiddle, hrest⟩ := bind_eq_ok.mp hrun
    by_cases hadmissible : edit.Admissible leaves.length
    · obtain ⟨next, hnext, hholds⟩ := h.updated_admissible hadmissible
      cases hnext.symm.trans hmiddle
      exact ih hholds hrest
    · cases (h.updated_refused hadmissible).symm.trans hmiddle

/-- However a tree was edited: it is the tree of the edited leaves, it has the nodes of the
left-balanced tree over them, and the next edit is refused exactly when it is not admissible. -/
theorem edits_equal_rebuilds (merge : Digest → Digest → Digest) (leaves : List Digest)
    {edits : List Edit} {tree : ProofTree} (hrun : (new merge leaves).edited merge edits = .ok tree) :
    tree = new merge (edits.foldl Edit.apply leaves) ∧
    (∀ start count hash, tree.subtree start count = some hash ↔
      NodeAt (edits.foldl Edit.apply leaves).length start count ∧
        (Node.build merge (((edits.foldl Edit.apply leaves).drop start).take count)).map Node.hash =
          some hash) ∧
    (∀ edit : Edit, tree.updated merge edit.start edit.leaves edit.count = .error (.error ()) ↔
      ¬ edit.Admissible (edits.foldl Edit.apply leaves).length) ∧
    ∀ edit : Edit, tree.updated merge edit.start edit.leaves edit.count ≠ .error .panic := by
  have hstart : (new merge leaves).Holds merge leaves := rfl
  have hholds := hstart.run hrun
  refine ⟨?_, fun start count hash => hholds.subtree_iff, fun edit => ⟨fun hrefused hadmissible => ?_,
    hholds.updated_refused⟩, fun edit => ?_⟩
  · cases tree
    exact congrArg ProofTree.mk hholds
  · obtain ⟨next, hnext, -⟩ := hholds.updated_admissible hadmissible
    rw [hnext] at hrefused
    cases hrefused
  · by_cases hadmissible : edit.Admissible (edits.foldl Edit.apply leaves).length
    · obtain ⟨next, hnext, -⟩ := hholds.updated_admissible hadmissible
      rw [hnext]
      nofun
    · rw [hholds.updated_refused hadmissible]
      nofun

def sampleLeaf : Digest := List.Vector.replicate 32 0

/-- A second leaf after the first. -/
def sampleEdit : Edit := ⟨1, [sampleLeaf], 2⟩

/-- One leaf grown by a second. -/
theorem edits_equal_rebuilds_growth : ∃ tree,
    (new (fun left _ => left) [sampleLeaf]).edited (fun left _ => left) [sampleEdit] = .ok tree ∧
      tree = new (fun left _ => left) [sampleLeaf, sampleLeaf] := by
  have hstart : (new (fun left _ => left) [sampleLeaf]).Holds (fun left _ => left) [sampleLeaf] := rfl
  have hadmissible : sampleEdit.Admissible [sampleLeaf].length := admissible_iff.mpr (by decide)
  obtain ⟨next, hnext, -⟩ := hstart.updated_admissible hadmissible
  have hrun : (new (fun left _ => left) [sampleLeaf]).edited (fun left _ => left) [sampleEdit] =
      .ok next := bind_eq_ok.mpr ⟨next, hnext, rfl⟩
  exact ⟨next, hrun, (edits_equal_rebuilds (fun left _ => left) [sampleLeaf] hrun).1⟩

end ProofTree

end ObjectTransfer.ProofStore
