import ObjectTransfer.Proof.Bao64

/-! # The BLAKE3 group tree as a hash tree

A node denotes the left-balanced tree over its groups. Encoding a range emits the
range proof of that tree, and verifying a node with a byte cursor is checking the
tree against the pairs the proof bytes hold.
-/

namespace ObjectTransfer.Proof.Bao64
open Foundations Streaming List HashTree

def window (first stop i : ℕ) : Prop := first ≤ i ∧ i < stop

instance (first stop : ℕ) : DecidablePred (window first stop) :=
  fun _ => inferInstanceAs (Decidable (_ ∧ _))

variable {node : Node} {first stop : ℕ}

namespace Node

def tree (node : Node) : HashTree ℕ := leftBalanced node.start node.count

def Within (node : Node) (n : ℕ) : Prop := node.start + node.count ≤ n

theorem tree_of_one (h : node.count = 1) : node.tree = .leaf node.start := by
  rw [tree, h, leftBalanced_one]

theorem leaves_tree (node : Node) : node.tree.leaves = List.range' node.start node.count :=
  leftBalanced_leaves _ node.pos

variable {n : ℕ} (hn : n ≤ u64Max) {node : Node} (hnode : node.Within n)
include hn hnode

theorem leftCount_eq_log (h : node.count ≠ 1) :
    leftCount node.count = 2 ^ Nat.log2 (node.count - 1) := by
  have hpos := node.pos
  have hlog : Nat.log2 (node.count - 1) < 64 := by
    rw [Nat.log2_lt (by omega)]
    unfold Within at hnode
    unfold u64Max at hn
    omega
  rw [leftCount_eq (by omega), min_eq_right (by omega)]

theorem split_within (h : node.count ≠ 1) :
    (node.split h).1.Within n ∧ (node.split h).2.Within n ∧
      (node.split h).2.start = node.start + leftCount node.count := by
  have hpos := node.pos
  have hlt := leftCount_lt (show 2 ≤ node.count by omega)
  unfold Within at hnode ⊢
  have hsat : saturatingAdd node.start (leftCount node.count) =
      node.start + leftCount node.count := saturatingAdd_eq (by omega)
  refine ⟨?_, ?_, hsat⟩
  · change node.start + leftCount node.count ≤ n
    omega
  · change saturatingAdd node.start (leftCount node.count) + (node.count - leftCount node.count) ≤ n
    omega

theorem tree_split (h : node.count ≠ 1) :
    node.tree = .node (node.split h).1.tree (node.split h).2.tree := by
  have hpos := node.pos
  have hstart := (split_within hn hnode h).2.2
  have hleft := leftCount_eq_log hn hnode h
  rw [tree, leftBalanced_node _ (by omega), ← hleft, ← hstart]
  rfl

theorem intersects_iff (hwin : first < stop) :
    node.Intersects first stop ↔
      node.tree.selected (window first stop) = true := by
  have hpos := node.pos
  unfold Within at hnode
  rw [Intersects, saturatingAdd_eq (by omega), selected_iff, leaves_tree]
  simp only [mem_range'_1, window]
  constructor
  · rintro ⟨h1, h2⟩
    exact ⟨max node.start first, by omega, by omega⟩
  · rintro ⟨i, hi, hw⟩
    omega

omit hnode

/-- Induction along the splits of nodes that cover groups below `n`. -/
theorem within_induction {motive : ∀ node : Node, node.Within n → Prop}
    (one : ∀ (node : Node) (hnode : node.Within n), node.count = 1 → motive node hnode)
    (split : ∀ (node : Node) (hnode : node.Within n) (h : node.count ≠ 1),
      motive (node.split h).1 (split_within hn hnode h).1 →
      motive (node.split h).2 (split_within hn hnode h).2.1 → motive node hnode)
    (node : Node) (hnode : node.Within n) : motive node hnode := by
  induction hc : node.count using Nat.strong_induction_on generalizing node with
  | _ count ih =>
    by_cases h : node.count = 1
    · exact one node hnode h
    · exact split node hnode h (ih _ (hc ▸ node.split_left_lt h) _ _ rfl)
        (ih _ (hc ▸ node.split_right_lt h) _ _ rfl)

end Node

theorem group_start_le {data : Bytes} (h : node.Within (groupCount data.length)) :
    groupSize * node.start ≤ data.length := by
  have hlt := mul_divCeil_lt groupSize_pos (max data.length 1)
  have hpos := node.pos
  have hle : groupSize * (node.start + 1) ≤ groupSize * groupCount data.length :=
    Nat.mul_le_mul_left _ (by unfold Node.Within at h; omega)
  rw [Nat.mul_succ] at hle
  unfold groupCount at hle
  omega

section Values

variable [Blake3]

def groupValue (data : Bytes) (i : ℕ) : Digest :=
  Blake3.chainingValue (groupSize * i) (chunkAt groupSize data i)

theorem positionedCv_eq (offset : ℕ) (group : Bytes) :
    positionedCv offset group = Blake3.chainingValue offset group := by
  simp [positionedCv, Hasher.new, Hasher.setInputOffset, Hasher.update, Hasher.finalizeNonRoot]

theorem groupCv_eq {data : Bytes} {i : ℕ} (h : groupSize * i ≤ data.length) :
    groupCv data i = some (groupValue data i) := by
  have hslice : slice? data (groupSize * i) (min (groupSize * i + groupSize) data.length) =
      some (chunkAt groupSize data i) := by
    rw [slice?_eq (by omega) (by omega), chunkAt]
    congr 1
    rw [take_eq_take_iff, length_drop]
    omega
  simp [groupCv, hslice, groupValue, positionedCv_eq]

variable {data : Bytes} (hn : groupCount data.length ≤ u64Max)
include hn

theorem nodeCv_eq (hnode : node.Within (groupCount data.length)) :
    nodeCv node data =
      some (node.tree.value (groupValue data) Blake3.mergeSubtreesNonRoot) := by
  induction node, hnode using Node.within_induction hn with
  | one node hnode h =>
    rw [nodeCv, dif_pos h, groupCv_eq (group_start_le hnode), Node.tree_of_one h]
    rfl
  | split node hnode h ihl ihr =>
    rw [nodeCv, dif_neg h, ihl, ihr, Node.tree_split hn hnode h]
    rfl

theorem encodeSelected_eq (hwin : first < stop)
    (hnode : node.Within (groupCount data.length)) (output : Bytes) :
    encodeSelected node first stop data output = some (output ++ writeAll writePair
      (node.tree.proof (window first stop) (groupValue data)
        Blake3.mergeSubtreesNonRoot)) := by
  induction node, hnode using Node.within_induction hn generalizing output with
  | one node hnode h =>
    rw [encodeSelected, dif_pos (.inl h), Node.tree_of_one h]
    simp [proof]
  | split node hnode h ihl ihr =>
    have htree := Node.tree_split hn hnode h
    have hiff := Node.intersects_iff hn hnode hwin
    obtain ⟨hleft, hright, -⟩ := Node.split_within hn hnode h
    by_cases hsel : node.Intersects first stop
    · have hgo : ¬ (node.count = 1 ∨ ¬ node.Intersects first stop) := by simp [h, hsel]
      rw [encodeSelected, dif_neg hgo, nodeCv_eq hn hleft, nodeCv_eq hn hright]
      rw [hiff, htree] at hsel
      rw [htree, proof, if_pos hsel]
      simp [ihl, ihr, writePair]
    · rw [encodeSelected, dif_pos (.inr hsel)]
      rw [hiff, Bool.not_eq_true] at hsel
      rw [proof_eq_nil hsel]
      simp

end Values

def proofPairs (proof : Bytes) : List (Digest × Digest) := readAll readPair 64 proof

variable {proof : Bytes} {k : ℕ}

theorem readParent_eq_ok {next : (Digest × Digest) × ℕ} (h : readParent proof (64 * k) = .ok next) :
    (proofPairs proof).drop k = next.1 :: (proofPairs proof).drop (k + 1) ∧
      next.2 = 64 * (k + 1) := by
  simp only [readParent, bind_eq_ok, okOr_eq_ok, checkedAdd_eq_some, slice?_eq_some,
    pure_eq_ok] at h
  obtain ⟨_, ⟨-, rfl⟩, _, ⟨-, hle, rfl⟩, rfl⟩ := h
  exact ⟨(drop_readAll_eq_cons (by decide)).mpr ⟨hle, by simp [chunkAt], rfl⟩, rfl⟩

theorem readParent_of_cons (hproof : proof.length ≤ u64Max) {p : Digest × Digest}
    {tail : List (Digest × Digest)} (h : (proofPairs proof).drop k = p :: tail) :
    readParent proof (64 * k) = .ok (p, 64 * (k + 1)) := by
  obtain ⟨hle, rfl, -⟩ := (drop_readAll_eq_cons (by decide)).mp h
  rw [readParent, checkedAdd_of_le (by omega), okOr_some, ok_bind, slice?_eq (by omega) hle]
  simp [chunkAt, Nat.mul_succ]

private theorem drop_inj {α : Type*} {l : List α} {k m : ℕ} (hk : k ≤ l.length)
    (hm : m ≤ l.length) (h : l.drop k = l.drop m) : k = m := by
  have := congrArg length h
  rw [length_drop, length_drop] at this
  omega

section Verify

variable [Blake3] {n : ℕ} (hn : n ≤ u64Max) {first stop : ℕ} (hwin : first < stop)
variable {leaf : ℕ → Option Digest} {presented : ℕ → Digest}
variable (hleaf : ∀ i, window first stop i → leaf i = some (presented i))
include hn hwin hleaf

variable {expected : Digest}

/-- A node the cursor walk accepts is accepted by the tree check on the remaining pairs. -/
theorem check_of_verifyChild (hnode : node.Within n) {k c : ℕ}
    (h : verifyChild node first stop leaf proof (64 * k) expected = .ok c) :
    ∃ m, c = 64 * m ∧
      node.tree.check (window first stop) presented Blake3.mergeSubtreesNonRoot
        expected ((proofPairs proof).drop k) = some ((proofPairs proof).drop m) := by
  induction node, hnode using Node.within_induction hn generalizing k c expected with
  | one node hnode hone =>
    have hiff := Node.intersects_iff hn hnode hwin
    rw [Node.tree_of_one hone, selected_leaf] at hiff
    rw [verifyChild] at h
    by_cases hsel : node.Intersects first stop
    · rw [if_neg (not_not.mpr hsel), dif_pos hone, hleaf _ (hiff.mp hsel), okOr_some, ok_bind] at h
      split_ifs at h with heq
      refine ⟨k, (Except.ok.inj h).symm, ?_⟩
      rw [Node.tree_of_one hone]
      simp [check, heq]
    · rw [if_pos hsel] at h
      refine ⟨k, (Except.ok.inj h).symm, ?_⟩
      rw [Node.tree_of_one hone, check_unselected]
      rw [← Bool.not_eq_true, selected_leaf, ← hiff]
      exact hsel
  | split node hnode hone ihl ihr =>
    have hiff := Node.intersects_iff hn hnode hwin
    have htree := Node.tree_split hn hnode hone
    rw [verifyChild] at h
    by_cases hsel : node.Intersects first stop
    · rw [if_neg (not_not.mpr hsel), dif_neg hone] at h
      simp only [bind_eq_ok] at h
      obtain ⟨pair, hpair, c₁, hl, c₂, hr, hend⟩ := h
      obtain ⟨hdrop, hnext⟩ := readParent_eq_ok hpair
      rw [hnext] at hl
      obtain ⟨m₁, rfl, hcl⟩ := ihl hl
      obtain ⟨m₂, rfl, hcr⟩ := ihr hr
      split_ifs at hend with heq
      refine ⟨m₂, (Except.ok.inj hend).symm, ?_⟩
      rw [hiff, htree] at hsel
      rw [htree, hdrop, check, if_pos hsel]
      simp [hcl, hcr, heq]
    · rw [if_pos hsel] at h
      rw [hiff, Bool.not_eq_true] at hsel
      exact ⟨k, (Except.ok.inj h).symm, check_unselected hsel⟩

/-- A node the tree check accepts is accepted by the cursor walk. -/
theorem verifyChild_of_check (hnode : node.Within n) (hproof : proof.length ≤ u64Max) {k m : ℕ}
    (h : node.tree.check (window first stop) presented Blake3.mergeSubtreesNonRoot
      expected ((proofPairs proof).drop k) = some ((proofPairs proof).drop m))
    (hk : k ≤ (proofPairs proof).length) (hm : m ≤ (proofPairs proof).length) :
    verifyChild node first stop leaf proof (64 * k) expected = .ok (64 * m) := by
  induction node, hnode using Node.within_induction hn generalizing k m expected with
  | one node hnode hone =>
    have hiff := Node.intersects_iff hn hnode hwin
    rw [Node.tree_of_one hone, selected_leaf] at hiff
    simp only [Node.tree_of_one hone, check, selected_leaf] at h
    split_ifs at h with hbad
    have hmk := drop_inj hk hm (Option.some.inj h)
    rw [verifyChild]
    by_cases hsel : node.Intersects first stop
    · have heq : presented node.start = expected := by
        by_contra hne
        exact hbad ⟨hiff.mp hsel, hne⟩
      rw [if_neg (not_not.mpr hsel), dif_pos hone, hleaf _ (hiff.mp hsel), okOr_some, ok_bind,
        if_pos heq, hmk]
    · rw [if_pos hsel, hmk]
  | split node hnode hone ihl ihr =>
    have hiff := Node.intersects_iff hn hnode hwin
    have htree := Node.tree_split hn hnode hone
    rw [verifyChild]
    by_cases hsel : node.Intersects first stop
    · rw [if_neg (not_not.mpr hsel), dif_neg hone]
      rw [hiff, htree] at hsel
      cases hpairs : (proofPairs proof).drop k with
      | nil => simp [htree, hpairs, check, hsel] at h
      | cons =>
        have hread := readParent_of_cons hproof hpairs
        obtain ⟨hdrop, -⟩ := readParent_eq_ok hread
        have hk' : k + 1 ≤ (proofPairs proof).length := by
          have := congrArg length hpairs
          rw [length_drop, length_cons] at this
          omega
        rw [htree, hdrop, check, if_pos hsel] at h
        simp only [Option.bind_eq_bind, Option.bind_eq_some_iff, Option.ite_none_right_eq_some,
          Option.some.injEq] at h
        obtain ⟨mid, hmid, last, hlast, heq, rfl⟩ := h
        have hsuffix : mid <:+ proofPairs proof :=
          (check_suffix _ hmid).trans (drop_suffix _ _)
        rw [suffix_iff_eq_drop] at hsuffix
        rw [hsuffix] at hmid hlast
        rw [hread, ok_bind, ihl hmid hk' (Nat.sub_le _ _), ok_bind,
          ihr hlast (Nat.sub_le _ _) hm, ok_bind, if_pos heq]
    · rw [if_pos hsel]
      rw [hiff, Bool.not_eq_true] at hsel
      rw [check_unselected hsel, Option.some.injEq] at h
      rw [drop_inj hk hm h]

/-- A node whose own proof stands at the cursor is accepted with its own value. -/
theorem verifyChild_proof (hnode : node.Within n)
    (hproof : proof.length ≤ u64Max) {value : ℕ → Digest}
    (hvalue : ∀ i, window first stop i → presented i = value i) (before after : List _)
    (hpairs : proofPairs proof = before ++ (node.tree.proof (window first stop) value
      Blake3.mergeSubtreesNonRoot ++ after)) :
    verifyChild node first stop leaf proof (64 * before.length)
        (node.tree.value value Blake3.mergeSubtreesNonRoot) =
      .ok (64 * (before.length + (node.tree.proof (window first stop) value
        Blake3.mergeSubtreesNonRoot).length)) := by
  have hcheck := check_proof Blake3.mergeSubtreesNonRoot node.tree
    (fun i _ => hvalue i) after
  refine verifyChild_of_check hn hwin hleaf hnode hproof ?_ (by simp [hpairs]) (by simp [hpairs])
  rw [hpairs, drop_left, drop_length_add_append, drop_left]
  exact hcheck

end Verify

end ObjectTransfer.Proof.Bao64
