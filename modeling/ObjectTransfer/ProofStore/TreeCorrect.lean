import ObjectTransfer.Foundations.Edits
import ObjectTransfer.Foundations.Levels
import ObjectTransfer.ProofStore.Tree

/-! # Edits give the tree of the edited leaves

There is one tree for every non-empty list of leaves. Cutting it short, writing over leaves and
appending some give the tree of the list edited that way, so that what was kept of an earlier tree
is never stale.
-/

namespace ObjectTransfer.ProofStore
open Foundations List

variable {k : ℕ}

/-- The split of a tree whose left side is perfect and whose right side fits under it. -/
theorem split_eq {m : ℕ} (hpos : 0 < m) (hle : m ≤ 2 ^ k) : split (2 ^ k + m) = 2 ^ k := by
  have hlog : Nat.log2 (2 ^ k + m - 1) = k := by
    rw [Nat.log2_eq_iff (by have := Nat.two_pow_pos k; omega), pow_succ]
    omega
  rw [split, hlog]

variable {leaves : List Digest} {part : List Digest}

namespace Node

variable {merge : Digest → Digest → Digest}

@[simp] theorem count_join (left right : Node) :
    (join merge left right).count = left.count + right.count := rfl

theorem build_single (hash : Digest) : build merge [hash] = some (leaf hash) := by
  rw [build, dif_neg (by simp)]
  rfl

variable {right left : Node}

/-- Two trees, the left one perfect and no smaller than the right, join to the tree of both. -/
theorem build_append {a b : List Digest} (ha : a.length = 2 ^ k) (hb : b ≠ [])
    (hle : b.length ≤ 2 ^ k) (hleft : build merge a = some left)
    (hright : build merge b = some right) :
    build merge (a ++ b) = some (join merge left right) := by
  have hpos := length_pos_iff.mpr hb
  rw [build, dif_pos (by rw [length_append]; omega), length_append, ha,
    split_eq hpos hle, ← ha, take_left, drop_left, hleft, hright]
  rfl

theorem exists_sides (h : 2 ≤ leaves.length) :
    ∃ a b k, leaves = a ++ b ∧ a.length = 2 ^ k ∧ b ≠ [] ∧ b.length ≤ 2 ^ k := by
  have hlt := split_lt h
  have hle := le_two_mul_split h
  refine ⟨leaves.take (split leaves.length), leaves.drop (split leaves.length),
    Nat.log2 (leaves.length - 1), (take_append_drop _ _).symm, ?_, ?_, ?_⟩
  · rw [length_take, min_eq_left hlt.le]
    rfl
  · rw [← length_pos_iff, length_drop]
    omega
  · rw [length_drop]
    change _ ≤ split leaves.length
    omega

theorem build_isSome (merge : Digest → Digest → Digest) (h : leaves ≠ []) :
    ∃ node, build merge leaves = some node := by
  induction hn : leaves.length using Nat.strong_induction_on generalizing leaves with
  | _ n ih =>
    by_cases h2 : 2 ≤ leaves.length
    · obtain ⟨a, b, k, rfl, ha, hb, hle⟩ := exists_sides h2
      have hpos := length_pos_iff.mpr hb
      rw [length_append] at hn
      obtain ⟨left, hleft⟩ := ih a.length (by omega) (length_pos_iff.mp (by omega)) rfl
      obtain ⟨right, hright⟩ := ih b.length (by omega) hb rfl
      exact ⟨_, build_append ha hb hle hleft hright⟩
    · obtain ⟨hash, rfl⟩ : ∃ hash, leaves = [hash] := by
        have := length_pos_iff.mpr h
        exact length_eq_one_iff.mp (by omega)
      exact ⟨_, build_single hash⟩

/-- Induction over the trees of non-empty lists: a leaf, or two sides. -/
theorem build_induction {motive : ∀ leaves node, build merge leaves = some node → Prop}
    (single : ∀ hash, motive [hash] (leaf hash) (build_single hash))
    (sides : ∀ (a b : List Digest) (left right : Node) (k : ℕ) (ha : a.length = 2 ^ k)
      (hb : b ≠ []) (hle : b.length ≤ 2 ^ k) (hleft : build merge a = some left)
      (hright : build merge b = some right), motive a left hleft → motive b right hright →
      motive (a ++ b) (join merge left right) (build_append ha hb hle hleft hright))
    (leaves : List Digest) (node : Node) (h : build merge leaves = some node) :
    motive leaves node h := by
  induction hn : leaves.length using Nat.strong_induction_on generalizing leaves node with
  | _ n ih =>
    by_cases h2 : 2 ≤ leaves.length
    · obtain ⟨a, b, k, rfl, ha, hb, hle⟩ := exists_sides h2
      have hpos := length_pos_iff.mpr hb
      rw [length_append] at hn
      obtain ⟨left, hleft⟩ := build_isSome merge (length_pos_iff.mp (show 0 < a.length by omega))
      obtain ⟨right, hright⟩ := build_isSome merge hb
      obtain rfl := Option.some.inj ((build_append ha hb hle hleft hright).symm.trans h)
      exact sides a b left right k ha hb hle hleft hright (ih a.length (by omega) _ _ hleft rfl)
        (ih b.length (by omega) _ _ hright rfl)
    · match leaves with
      | [] =>
        rw [build] at h
        cases h
      | [hash] =>
        obtain rfl := Option.some.inj ((build_single hash).symm.trans h)
        exact single hash
      | _ :: _ :: _ => exact absurd (by simp) h2

variable {node : Node}

theorem build_count (h : build merge leaves = some node) : node.count = leaves.length := by
  induction leaves, node, h using build_induction with
  | single => rfl
  | sides a b left right k ha hb hle hleft hright ihl ihr =>
    rw [count_join, ihl, ihr, length_append]

variable {count : ℕ}

section Prefix

theorem prefixNode_all (node : Node) : node.prefixNode merge node.count = some node := by
  cases node <;> simp [prefixNode, count]

theorem prefixNode_join (h : count ≠ (join merge left right).count) :
    (join merge left right).prefixNode merge count =
      if count ≤ left.count then left.prefixNode merge count
      else (right.prefixNode merge (count - left.count)).map (join merge left) := by
  rw [join] at h ⊢
  rw [prefixNode, if_neg h]
  split_ifs
  · rfl
  · cases right.prefixNode merge (count - left.count) <;> rfl

theorem prefixNode_eq (h : build merge leaves = some node)
    (hpos : 0 < count) (hle : count ≤ leaves.length) :
    node.prefixNode merge count = build merge (leaves.take count) := by
  induction leaves, node, h using build_induction generalizing count with
  | single hash =>
    obtain rfl : count = 1 := by simp at hle; omega
    exact (prefixNode_all (leaf hash)).trans (build_single hash).symm
  | sides a b left right k ha hb hfit hleft hright ihl ihr =>
    have hac := build_count hleft
    have hbc := build_count hright
    rw [length_append] at hle
    by_cases hall : count = a.length + b.length
    · have hcount : count = (join merge left right).count := by rw [count_join, hac, hbc, hall]
      rw [take_of_length_le (by rw [length_append, hall]), hcount, prefixNode_all,
        build_append ha hb hfit hleft hright]
    · rw [prefixNode_join (by rwa [count_join, hac, hbc]), hac]
      split_ifs with hside
      · rw [ihl hpos hside, take_append_of_le_length hside]
      · have hkeep : b.take (count - a.length) ≠ [] := by
          rw [← length_pos_iff, length_take]
          omega
        obtain ⟨kept, hkept⟩ := build_isSome merge hkeep
        rw [ihr (by omega) (by omega), take_append,
          take_of_length_le (Nat.le_of_not_le hside), hkept, build_append ha hkeep
            (by rw [length_take]; omega) hleft hkept]
        rfl

end Prefix

section Replace

theorem replace_nil (node : Node) (start : ℕ) : node.replace merge start [] = some node := by
  cases node <;> simp [replace]

theorem replace_all (h : leaves.length = node.count) :
    node.replace merge 0 leaves = build merge leaves := by
  have hne : leaves ≠ [] := by
    rw [← length_pos_iff, h]
    exact node.count_pos
  cases node <;> rw [replace, if_neg hne, if_pos ⟨rfl, h⟩]

variable {start : ℕ}

theorem replace_join (h : ¬ (start = 0 ∧ leaves.length = (join merge left right).count)) :
    (join merge left right).replace merge start leaves = do
      let updatedLeft ← left.replace merge start
        (leaves.take (min (left.count - start) leaves.length))
      let updatedRight ← right.replace merge (start - left.count)
        (leaves.drop (min (left.count - start) leaves.length))
      return join merge updatedLeft updatedRight := by
  by_cases hne : leaves = []
  · simp [hne, replace_nil, join]
  rw [join] at h ⊢
  rw [replace, if_neg hne, if_neg h]
  dsimp only
  split_ifs with hzero
  · rw [hzero, take_zero, replace_nil]
  · rfl

theorem replace_eq (h : build merge leaves = some node)
    (hle : start + part.length ≤ leaves.length) :
    node.replace merge start part = build merge (splice leaves start part) := by
  induction leaves, node, h using build_induction generalizing start part with
  | single =>
    by_cases hpart : part = []
    · rw [hpart, replace_nil, splice_nil, build_single]
    · have hpos := length_pos_iff.mpr hpart
      rw [length_singleton] at hle
      obtain rfl : start = 0 := by omega
      obtain ⟨other, rfl⟩ := length_eq_one_iff.mp (show part.length = 1 by omega)
      exact replace_all rfl
  | sides a b left right k ha hb hfit hleft hright ihl ihr =>
    have hac := build_count hleft
    have hbc := build_count hright
    rw [length_append] at hle
    by_cases hall : start = 0 ∧ part.length = (join merge left right).count
    · obtain ⟨rfl, hlen⟩ := hall
      rw [count_join] at hlen
      rw [replace_all (by exact hlen), splice, take_zero, nil_append, drop_of_length_le, append_nil]
      rw [length_append]
      omega
    · have hl : start ≤ a.length ∨ min (a.length - start) part.length = 0 := by omega
      have hla : (splice a start (part.take (min (a.length - start) part.length))).length =
          a.length := by
        rcases hl with hl | hl
        · refine splice_length ?_
          rw [length_take]
          omega
        · rw [hl, take_zero, splice_nil]
      have hlb : (splice b (start - a.length)
          (part.drop (min (a.length - start) part.length))).length = b.length := by
        refine splice_length ?_
        rw [length_drop]
        omega
      have hpa : splice a start (part.take (min (a.length - start) part.length)) ≠ [] := by
        rw [← length_pos_iff, hla, ha]
        exact Nat.two_pow_pos k
      have hpb : splice b (start - a.length)
          (part.drop (min (a.length - start) part.length)) ≠ [] := by
        rw [← length_pos_iff, hlb]
        exact length_pos_iff.mpr hb
      obtain ⟨left', hleft'⟩ := build_isSome merge hpa
      obtain ⟨right', hright'⟩ := build_isSome merge hpb
      have hreplaced : left.replace merge start (part.take (min (a.length - start) part.length)) =
          some left' := by
        rcases hl with hl | hl
        · rw [ihl (by rw [length_take]; omega), hleft']
        · rw [hl, take_zero, splice_nil, hleft] at hleft'
          rw [hl, take_zero, replace_nil, hleft']
      rw [replace_join hall, hac, hreplaced, ihr (by rw [length_drop]; omega), hright',
        splice_append, build_append (hla.trans ha) hpb (hlb.trans_le hfit) hleft' hright']
      rfl

end Replace

section Append

theorem append_nil (node : Node) : node.append merge [] = some node := by
  rw [append.eq_def, dif_pos rfl]

theorem append_perfect (h : node.count = split (node.count + 1)) (hne : leaves ≠ []) :
    node.append merge leaves =
      ((build merge (leaves.take (room node.count))).map (join merge node)).bind fun next =>
        next.append merge (leaves.drop (room node.count)) := by
  rw [append.eq_def, dif_neg hne, if_pos h]

/-- The right side of any other tree is filled first. -/
theorem append_join (h : (join merge left right).count ≠ split ((join merge left right).count + 1))
    (hne : leaves ≠ []) :
    (join merge left right).append merge leaves =
      ((right.append merge (leaves.take (room (join merge left right).count))).map
        (join merge left)).bind fun next =>
        next.append merge (leaves.drop (room (join merge left right).count)) := by
  rw [append.eq_def, dif_neg hne, if_neg h]
  rfl

/-- A tree that is not perfect has a right side with room in it. -/
theorem exists_room (h : build merge leaves = some node)
    (hcount : node.count ≠ split (node.count + 1)) :
    ∃ a b left right k, leaves = a ++ b ∧ node = join merge left right ∧ a.length = 2 ^ k ∧
      b.length + room node.count = 2 ^ k ∧ build merge a = some left ∧
      build merge b = some right ∧ b ≠ [] := by
  induction leaves, node, h using build_induction with
  | single => exact absurd rfl hcount
  | sides a b left right k ha hb hfit hleft hright _ _ =>
    rw [count_join, build_count hleft, build_count hright, ha] at hcount
    have hlt : b.length < 2 ^ k := by
      refine lt_of_le_of_ne hfit fun hfull => hcount ?_
      rw [hfull, ← two_mul, ← Nat.pow_succ', split_eq Nat.one_pos Nat.one_le_two_pow]
    refine ⟨a, b, left, right, k, rfl, rfl, ha, ?_, hleft, hright, hb⟩
    rw [count_join, build_count hleft, build_count hright, ha, room, add_assoc,
      split_eq (Nat.succ_pos _) hlt]
    omega

theorem append_eq (h : build merge leaves = some node) (part : List Digest) :
    node.append merge part = build merge (leaves ++ part) := by
  -- On the number of new leaves, and for the right side on the number of old ones.
  induction hp : part.length using Nat.strong_induction_on generalizing leaves node part with
  | _ n ihn =>
    induction hl : leaves.length using Nat.strong_induction_on generalizing leaves node part with
    | _ m ihm =>
      by_cases hne : part = []
      · rw [hne, List.append_nil, append_nil, h]
      have hcount := build_count h
      have hroom := room_pos node.count_pos
      have hpos := length_pos_iff.mpr hne
      have htake : part.take (room node.count) ≠ [] := by
        rw [← length_pos_iff, length_take]
        omega
      have hrest : ∀ next, build merge (leaves ++ part.take (room node.count)) = some next →
          next.append merge (part.drop (room node.count)) = build merge (leaves ++ part) := by
        intro next hnext
        rw [ihn _ (by rw [length_drop]; omega) hnext _ rfl, append_assoc, take_append_drop]
      by_cases hperfect : node.count = split (node.count + 1)
      · obtain ⟨right, hright⟩ := build_isSome merge htake
        have hfull : leaves.length = 2 ^ Nat.log2 (node.count + 1 - 1) :=
          hcount.symm.trans hperfect
        have hfit : (part.take (room node.count)).length ≤ 2 ^ Nat.log2 (node.count + 1 - 1) := by
          rw [length_take, ← hfull, room, ← hperfect, hcount]
          omega
        rw [append_perfect hperfect hne, hright]
        exact hrest _ (build_append hfull htake hfit h hright)
      · obtain ⟨a, b, left, right, k, rfl, rfl, ha, hb, hleft, hright, hbne⟩ :=
          exists_room h hperfect
        have hgrown : right.append merge (part.take (room (join merge left right).count)) =
            build merge (b ++ part.take (room (join merge left right).count)) := by
          by_cases hsame : (part.take (room (join merge left right).count)).length = n
          · refine ihm b.length ?_ hright _ hsame rfl
            rw [length_append] at hl
            omega
          · refine ihn _ (lt_of_le_of_ne ?_ hsame) hright _ rfl
            rw [length_take]
            omega
        have hgrownne : b ++ part.take (room (join merge left right).count) ≠ [] := by
          simp [hbne]
        obtain ⟨grown, hnode⟩ := build_isSome merge hgrownne
        rw [append_join hperfect hne, hgrown, hnode]
        refine hrest _ ?_
        rw [append_assoc]
        refine build_append ha hgrownne ?_ hleft hnode
        rw [length_append, length_take]
        omega

end Append

section Subtree

theorem subtree_self (node : Node) : node.subtree 0 node.count = some node := by
  cases node <;> simp [subtree, count]

theorem subtree_join {start count : ℕ} (h : ¬ (start = 0 ∧ count = (join merge left right).count)) :
    (join merge left right).subtree start count =
      if start < left.count then left.subtree start count
      else right.subtree (start - left.count) count := by
  rw [join] at h ⊢
  rw [subtree, if_neg h]

/-- Every aligned block of leaves is a subtree, the last one as far as it goes. -/
theorem subtree_aligned (h : build merge leaves = some node) {i : ℕ}
    (hlt : 2 ^ k * i < leaves.length) :
    node.subtree (2 ^ k * i) (min (2 ^ k) (leaves.length - 2 ^ k * i)) =
      build merge ((leaves.drop (2 ^ k * i)).take (2 ^ k)) := by
  have hk := Nat.two_pow_pos k
  induction leaves, node, h using build_induction generalizing i with
  | single hash =>
    have hzero : 2 ^ k * i = 0 := by simpa using hlt
    rw [hzero, drop_zero, take_of_length_le hk, build_single, length_singleton,
      Nat.sub_zero, min_eq_right hk]
    exact subtree_self (leaf hash)
  | sides a b left right m ha hb hfit hleft hright ihl ihr =>
    have hac := build_count hleft
    have hbc := build_count hright
    rw [length_append] at hlt ⊢
    by_cases hall : 2 ^ k * i = 0 ∧ min (2 ^ k) (a.length + b.length - 2 ^ k * i) =
        (join merge left right).count
    · obtain ⟨hzero, hmin⟩ := hall
      rw [hzero, Nat.sub_zero, count_join, hac, hbc] at hmin
      rw [hzero, Nat.sub_zero, hmin, drop_zero, take_of_length_le,
        build_append ha hb hfit hleft hright, ← hac, ← hbc, ← count_join, subtree_self]
      rw [length_append]
      omega
    have hsmall : k ≤ m := by
      by_contra hlarge
      have hdouble : 2 * 2 ^ m ≤ 2 ^ k := by
        rw [← Nat.pow_succ']
        exact Nat.pow_le_pow_right (by omega) (by omega)
      have hi : i = 0 := by
        by_contra hi
        have := Nat.le_mul_of_pos_right (2 ^ k) (Nat.pos_of_ne_zero hi)
        omega
      refine hall ⟨by rw [hi, mul_zero], ?_⟩
      rw [hi, mul_zero, Nat.sub_zero, count_join, hac, hbc]
      exact min_eq_right (by omega)
    have hpow : 2 ^ m = 2 ^ k * 2 ^ (m - k) := by rw [← pow_add, Nat.add_sub_cancel' hsmall]
    rw [subtree_join hall, hac]
    split_ifs with hside
    · have hblock : 2 ^ k * i + 2 ^ k ≤ a.length := by
        rw [ha, hpow] at hside ⊢
        exact Nat.mul_le_mul_left _ (Nat.lt_of_mul_lt_mul_left hside)
      have hmin : min (2 ^ k) (a.length + b.length - 2 ^ k * i) =
          min (2 ^ k) (a.length - 2 ^ k * i) := by omega
      rw [hmin, ihl hside, drop_append_of_le_length (by omega),
        take_append_of_le_length (by rw [length_drop]; omega)]
    · have hstart : 2 ^ k * i - a.length = 2 ^ k * (i - 2 ^ (m - k)) := by
        rw [ha, hpow, Nat.mul_sub]
      have hlen : a.length + b.length - 2 ^ k * i = b.length - (2 ^ k * i - a.length) := by omega
      rw [hlen, drop_append, drop_of_length_le (Nat.le_of_not_lt hside),
        nil_append, hstart, ihr (by omega)]

theorem subtree_one (h : build merge leaves = some node) (i : ℕ) :
    (node.subtree i 1).map hash = leaves[i]? := by
  by_cases hi : i < leaves.length
  · have haligned := subtree_aligned h (k := 0) (by simpa using hi)
    rw [Nat.pow_zero, one_mul, min_eq_left (by omega)] at haligned
    rw [haligned, getElem?_eq_getElem hi, drop_eq_getElem_cons hi, take_succ_cons,
      take_zero, build_single]
    rfl
  · rw [getElem?_eq_none (Nat.le_of_not_lt hi)]
    induction leaves, node, h using build_induction generalizing i with
    | single =>
      rw [length_singleton] at hi
      rw [subtree, if_neg (by omega)]
      rfl
    | sides a b left right k ha hb hfit hleft hright ihl ihr =>
      have hpos := length_pos_iff.mpr hb
      have hac := build_count hleft
      rw [length_append] at hi
      rw [subtree_join (by omega), hac, if_neg (by omega)]
      exact ihr _ (by omega)

end Subtree

section Shape

variable (merge) in
/-- The tree of a shape, with the values of its leaves. -/
def ofTree (f : ℕ → Digest) : HashTree ℕ → Node
  | .leaf i => leaf (f i)
  | .node left right => join merge (ofTree f left) (ofTree f right)

@[simp] theorem hash_ofTree (f : ℕ → Digest) (tree : HashTree ℕ) :
    (ofTree merge f tree).hash = tree.value f merge := by
  induction tree with
  | leaf => rfl
  | node left right ihl ihr =>
    change merge (ofTree merge f left).hash (ofTree merge f right).hash = _
    rw [ihl, ihr]
    rfl

@[simp] theorem count_ofTree (f : ℕ → Digest) (tree : HashTree ℕ) :
    (ofTree merge f tree).count = tree.leaves.length := by
  induction tree with
  | leaf => rfl
  | node left right ihl ihr =>
    rw [ofTree, count_join, ihl, ihr, HashTree.leaves, length_append]

theorem build_range' (f : ℕ → Digest) (start : ℕ) (h : 0 < count) :
    build merge ((List.range' start count).map f) =
      some (ofTree merge f (leftBalanced start count)) := by
  induction start, count using leftBalanced.induct with
  | case1 start count h2 ihl ihr =>
    have hlt := split_lt h2
    have hle := le_two_mul_split h2
    have hsplit : split count = 2 ^ Nat.log2 (count - 1) := rfl
    have hrange : range' start count = range' start (2 ^ Nat.log2 (count - 1)) ++
        range' (start + 2 ^ Nat.log2 (count - 1)) (count - 2 ^ Nat.log2 (count - 1)) := by
      rw [range'_append_1]
      congr 1
      omega
    rw [hrange, map_append, leftBalanced_node start h2]
    refine build_append (k := Nat.log2 (count - 1)) (by simp) ?_ ?_ (ihl (Nat.two_pow_pos _))
      (ihr (by omega))
    · rw [← length_pos_iff, length_map, length_range']
      omega
    · rw [length_map, length_range']
      omega
  | case2 start count =>
    obtain rfl : count = 1 := by omega
    rw [leftBalanced_one]
    exact build_single (f start)

end Shape

end Node

namespace ProofTree

variable {merge : Digest → Digest → Digest}

def Holds (merge : Digest → Digest → Digest) (leaves : List Digest) (tree : ProofTree) : Prop :=
  tree.root = Node.build merge leaves

variable {tree : ProofTree}

theorem Holds.len_eq (h : tree.Holds merge leaves) : tree.len = leaves.length := by
  rw [len, h]
  by_cases hne : leaves = []
  · rw [hne, Node.build]
    rfl
  · obtain ⟨node, hnode⟩ := Node.build_isSome merge hne
    rw [hnode]
    exact Node.build_count hnode

theorem Holds.subtree_one (h : tree.Holds merge leaves)
    (i : ℕ) : tree.subtree i 1 = leaves[i]? := by
  rw [subtree, h]
  by_cases hne : leaves = []
  · rw [hne, Node.build]
    rfl
  · obtain ⟨node, hnode⟩ := Node.build_isSome merge hne
    rw [hnode]
    exact Node.subtree_one hnode i

theorem Holds.updated_eq (h : tree.Holds merge leaves) (hne : leaves ≠ []) {start count : ℕ}
    (hpos : 0 < count) (hfit : start + part.length ≤ u64Max) (hstop : start + part.length ≤ count)
    (hgrow : leaves.length < count → start ≤ leaves.length ∧ start + part.length = count) :
    ∃ next, tree.updated merge start part count = .ok next ∧
      next.Holds merge (splice (leaves.take count) start part) := by
  obtain ⟨node, hnode⟩ := Node.build_isSome merge hne
  have hlen := length_pos_iff.mpr hne
  have hcond : ¬ (start + part.length > count ∨
      count > tree.len ∧ (start > tree.len ∨ start + part.length ≠ count)) := by
    rw [h.len_eq]
    rintro (hover | ⟨hmore, hstart | hend⟩)
    · omega
    · omega
    · exact hend (hgrow hmore).2
  have hkept : (leaves.take count).length = min count leaves.length := length_take
  have hkeptne : leaves.take count ≠ [] := by
    rw [← length_pos_iff, hkept]
    omega
  obtain ⟨kept, hkeptnode⟩ := Node.build_isSome merge hkeptne
  have hprefix : node.prefixNode merge (min count leaves.length) = some kept := by
    rw [Node.prefixNode_eq hnode (by omega) (min_le_right _ _), ← take_take, take_length, hkeptnode]
  -- Written over as far as the kept leaves go, appended after them.
  have hsplice := splice_append (leaves.take count) [] start part
  rw [append_nil, nil_splice, hkept] at hsplice
  have hover : start + (part.take (min (min count leaves.length - start) part.length)).length ≤
      (leaves.take count).length := by
    rw [hkept, length_take]
    omega
  have hreplacedne : splice (leaves.take count) start
      (part.take (min (min count leaves.length - start) part.length)) ≠ [] := by
    rw [← length_pos_iff, splice_length hover, hkept]
    omega
  obtain ⟨replaced, hreplaced⟩ := Node.build_isSome merge hreplacedne
  have hgrownne : splice (leaves.take count) start part ≠ [] := by
    rw [hsplice]
    exact append_ne_nil_of_left_ne_nil hreplacedne _
  obtain ⟨grown, hgrown⟩ := Node.build_isSome merge hgrownne
  refine ⟨⟨some grown⟩, ?_, hgrown.symm⟩
  rw [updated, checkedAdd_of_le hfit, okOr_some, ok_bind, rejectIf_neg hcond, ok_bind]
  dsimp only
  rw [h.len_eq, if_neg (by omega), h, hnode, okOr_some, ok_bind, hprefix, okOr_some, ok_bind,
    Node.replace_eq hkeptnode hover, hreplaced, okOr_some, ok_bind, Node.append_eq hreplaced,
    ← hsplice, hgrown]
  rfl

/-- The leaves of an edited list, from those of the list before and of the part. -/
theorem Holds.edited {α : Type} {unit : ℕ} (hunit : 0 < unit) {l : List α}
    {leaf : ℕ → List α → Digest} (h : tree.Holds merge
      ((List.range (divCeil l.length unit)).map fun j => leaf j (chunkAt unit l j)))
    (hne : l ≠ []) (fill : α) {start length : ℕ} {part : List α}
    (hsettles : Settles unit l.length length start part.length) (hpos : 0 < length)
    (hfit : length ≤ u64Max) :
    ∃ next, tree.updated merge (start / unit) ((List.range (divCeil part.length unit)).map fun k =>
        leaf (start / unit + k) (chunkAt unit part k)) (divCeil length unit) = .ok next ∧
      next.Holds merge ((List.range (divCeil length unit)).map fun j =>
        leaf j (chunkAt unit (Foundations.edited fill l start part length) j)) := by
  have hstop : start / unit + divCeil part.length unit = divCeil (start + part.length) unit := by
    rw [← divCeil_mul_add hunit, hsettles.start_eq]
  have hlist : (range (divCeil l.length unit)).map (fun j => leaf j (chunkAt unit l j)) ≠ [] := by
    rw [← length_pos_iff, length_map, length_range, lt_divCeil_iff hunit]
    simpa using length_pos_iff.mpr hne
  have hinside : start / unit + divCeil part.length unit ≤ divCeil length unit := by
    rw [hstop]
    exact divCeil_mono hunit hsettles.inside
  rw [map_chunkAt_edited fill hunit hsettles leaf]
  refine h.updated_eq hlist ((lt_divCeil_iff hunit).mpr (by simpa using hpos)) ?_ ?_ ?_
  · rw [length_map, length_range]
    exact (hinside.trans (divCeil_le_self hunit _)).trans hfit
  · rw [length_map, length_range]
    exact hinside
  · simp only [length_map, length_range]
    intro hmore
    have hgrow : l.length < length := by
      by_contra hless
      have := divCeil_mono hunit (Nat.le_of_not_lt hless)
      omega
    refine ⟨Nat.div_le_of_le_mul ?_, by rw [hstop, (hsettles.grown hgrow).2]⟩
    exact le_trans hsettles.start_le (le_mul_divCeil hunit _)

end ProofTree

end ObjectTransfer.ProofStore
