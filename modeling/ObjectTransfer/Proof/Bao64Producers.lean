import ObjectTransfer.Proof.Bao64Retained

/-! # All BLAKE3 proof producers agree

A producer is right as soon as its node values are the values of the object's tree. For retained
levels that is the meeting of two trees: a full aligned node of the left-balanced tree is a node of
the perfect tree over the same groups.
-/

namespace ObjectTransfer.Proof.Bao64
open Foundations Streaming ProofStore List GroupCvs

section Aligned

variable {n : ℕ} (hn : n ≤ u64Max) {node : Node} (hnode : node.Within n)
include hn hnode

variable {level index : ℕ}

/-- What the place of a retained node says about it. -/
theorem retainedAt_eq_some (h : retainedAt node = some (level, index)) :
    node.count = 2 ^ level ∧ node.start = 2 ^ level * index := by
  unfold retainedAt at h
  split_ifs at h with hcond
  simp only [not_or, not_not] at hcond
  obtain ⟨-, hpow, haligned⟩ := hcond
  obtain ⟨k, hk⟩ := isPowerOfTwo_iff.mp hpow
  have hlt : k < 64 := by
    by_contra hge
    have := Nat.pow_le_pow_right (show 0 < 2 by omega) (not_lt.mp hge)
    unfold Node.Within at hnode
    unfold u64Max at hn
    omega
  have hzeros : trailingZeros node.count = k := by rw [hk, trailingZeros_two_pow hlt]
  rw [Option.some.injEq, Prod.mk.injEq, hzeros] at h
  obtain ⟨rfl, rfl⟩ := h
  refine ⟨hk, ?_⟩
  rw [← hk, Nat.mul_div_cancel' (Nat.dvd_of_mod_eq_zero haligned)]

theorem retainedAt_lt (h : retainedAt node = some (level, index)) :
    2 ^ level ≤ n ∧ index < n / 2 ^ level := by
  obtain ⟨hcount, hstart⟩ := retainedAt_eq_some hn hnode h
  unfold Node.Within at hnode
  rw [hcount, hstart] at hnode
  refine ⟨by omega, ?_⟩
  rw [Nat.lt_div_iff_mul_lt (Nat.two_pow_pos _)]
  have hpos := Nat.two_pow_pos level
  rw [mul_comm] at hnode
  omega

theorem tree_value_retained (f : ℕ → Digest) (merge : Digest → Digest → Digest)
    (h : retainedAt node = some (level, index)) :
    node.tree.value f merge = perfect merge f level index := by
  obtain ⟨hcount, hstart⟩ := retainedAt_eq_some hn hnode h
  rw [Node.tree, hcount, hstart, leftBalanced_value]

end Aligned

variable {node : Node}

theorem retainedAt_one (h : node.count = 1) : retainedAt node = some (0, node.start) := by
  have hpow : isPowerOfTwo 1 = true := isPowerOfTwo_iff.mpr ⟨0, rfl⟩
  have hzeros : trailingZeros 1 = 0 := trailingZeros_two_pow (show 0 < 64 by omega)
  rw [retainedAt, h, if_neg (by simp [hpow, Nat.mod_one]), hzeros, Nat.div_one]

theorem treeRootBy_single [Blake3] (value : Node → Except (Abort Error) Digest) {length : ℕ}
    (hone : length ≤ groupSize) : treeRootBy value length = .ok none := by
  have hcount : (rootNode length).count = 1 := by
    change groupCount length = 1
    exact divCeil_eq_one (by omega) (max_le hone groupSize_pos)
  rw [treeRootBy, dif_pos (by omega)]

section Spec

variable [Blake3] {D : Bytes} (hlen : D.length ≤ isizeMax)
variable {value : Node → Except (Abort Error) Digest}
variable (hvalue : ∀ node : Node, node.Within (groupCount D.length) →
  value node = .ok (node.tree.value (groupValue D) Blake3.mergeSubtreesNonRoot))
include hlen hvalue

theorem encodeSelectedBy_eq {first stop : ℕ} (hwin : first < stop)
    (hnode : node.Within (groupCount D.length)) (output : Bytes) :
    encodeSelectedBy value node first stop output = .ok (output ++ writeAll writePair
      (node.tree.proof (window first stop) (groupValue D) Blake3.mergeSubtreesNonRoot)) := by
  have hn := groupCount_le_u64Max hlen
  induction node, hnode using Node.within_induction hn generalizing output with
  | one node hnode h =>
    rw [encodeSelectedBy, dif_pos (.inl h), Node.tree_of_one h]
    simp [HashTree.proof]
  | split node hnode h ihl ihr =>
    have htree := Node.tree_split hn hnode h
    have hiff := Node.intersects_iff hn hnode hwin
    obtain ⟨hleft, hright, -⟩ := Node.split_within hn hnode h
    by_cases hsel : node.Intersects first stop
    · have hgo : ¬ (node.count = 1 ∨ ¬ node.Intersects first stop) := by simp [h, hsel]
      rw [encodeSelectedBy, dif_neg hgo, hvalue _ hleft, hvalue _ hright]
      rw [hiff, htree] at hsel
      rw [htree, HashTree.proof, if_pos hsel]
      simp [ihl, ihr, writePair]
    · rw [encodeSelectedBy, dif_pos (.inr hsel)]
      rw [hiff, Bool.not_eq_true] at hsel
      rw [HashTree.proof_eq_nil hsel]
      simp

theorem treeRootBy_eq (hsplit : SplitRoot) : treeRootBy value D.length =
    .ok (if groupSize < D.length then some (Blake3.hash D) else none) := by
  split_ifs with hmulti
  · have hcount := rootNode_count_ne_one (not_le.mpr hmulti)
    have hpos := (rootNode D.length).pos
    obtain ⟨hleft, hright, -⟩ :=
      Node.split_within (groupCount_le_u64Max hlen) (rootNode_within D.length) hcount
    rw [treeRootBy, dif_neg (by omega)]
    simp only [hvalue _ hleft, hvalue _ hright, ok_bind]
    rw [hash_eq hlen (not_le.mpr hmulti) hsplit]
    rfl
  · exact treeRootBy_single value (not_lt.mp hmulti)

/-- Right node values answer every request as proving from the bytes does. -/
theorem proveBy_eq (offset length : ℕ) :
    proveBy value D.length offset length = (prove D offset length).map RangeProof.cover :=
  (proves hlen).agrees (encodeSelectedBy value (rootNode D.length) · · [])
    (fun _ _ cover => encodeSelectedBy_eq hlen hvalue (cover.units_lt groupSize_pos)
      (rootNode_within D.length) []) offset length

end Spec

variable {k : ℕ} {D : Bytes}

variable {f : ℕ → Digest} {n : ℕ}

section Memory

variable [Blake3]

/-- Reading a level and merging the same subtree give the same value. -/
theorem nodeCvRetained_eq (hn : n ≤ u64Max) {levels : List (List Digest)} (hlevels : levels = [] ∨
      levels = pairLevels Blake3.mergeSubtreesNonRoot ((List.range n).map f))
    (hnode : node.Within n) :
    nodeCvRetained node ((List.range n).map f) levels =
      some (node.tree.value f Blake3.mergeSubtreesNonRoot) := by
  induction node, hnode using Node.within_induction hn with
  | one node hnode h =>
    unfold Node.Within at hnode
    rw [nodeCvRetained, dif_pos h, Node.tree_of_one h, getElem?_map, getElem?_range (by omega)]
    rfl
  | split node hnode h ihl ihr =>
    rw [nodeCvRetained, dif_neg h]
    cases hplace : (retainedAt node).bind fun place => levels[place.1]?.bind (·[place.2]?) with
    | none =>
      simp only [ihl, ihr, Node.tree_split hn hnode h]
      rfl
    | some =>
      obtain ⟨⟨level, index⟩, hat, hcv⟩ := Option.bind_eq_some_iff.mp hplace
      obtain ⟨hlevel, hindex⟩ := retainedAt_lt hn hnode hat
      rcases hlevels with rfl | rfl
      · simp at hcv
      · rw [pairLevels_getElem? _ f hlevel, Option.bind_some, getElem?_map,
          getElem?_range hindex] at hcv
        rw [tree_value_retained hn hnode f _ hat, ← hcv]
        rfl

def objectCvs (D : Bytes) : List Digest := (List.range (groupCount D.length)).map (groupValue D)

/-- The retained values are those of an object. -/
structure GroupCvs.Keeps (D : Bytes) (groups : GroupCvs) : Prop where
  cvs : groups.cvs = objectCvs D
  length : groups.length = D.length
  levels : groups.levels = [] ∨
    groups.levels = pairLevels Blake3.mergeSubtreesNonRoot (objectCvs D)

variable {groups : GroupCvs}

theorem GroupCvs.Keeps.sealLevels (h : groups.Keeps D) : groups.sealLevels.Keeps D :=
  ⟨h.cvs, h.length, .inr (by rw [GroupCvs.sealLevels, h.cvs])⟩

variable {D : Bytes} (hlen : D.length ≤ isizeMax)
include hlen

theorem GroupCvs.Keeps.nodeCv (h : groups.Keeps D) (node : Node)
    (hnode : node.Within (groupCount D.length)) :
    groups.nodeCv node = .ok (node.tree.value (groupValue D) Blake3.mergeSubtreesNonRoot) := by
  rw [GroupCvs.nodeCv, h.cvs, objectCvs,
    nodeCvRetained_eq (groupCount_le_u64Max hlen) h.levels hnode, okOr_some]

theorem GroupCvs.pushAll_chunks (hne : D ≠ []) :
    ∃ groups, GroupCvs.new.pushAll (chunks groupSize D) = .ok groups ∧ groups.Keeps D := by
  have hu64 := le_u64Max_of_le_isizeMax hlen
  obtain ⟨_, hpush, rfl⟩ := foldlM_chunks push .new (l := D)
    (P := fun k groups => groups = ⟨(range k).map (groupValue D), min (groupSize * k) D.length,
      decide (D.length < groupSize * k), []⟩)
    groupSize_pos (by simp [new]) (by
      rintro k _ hlt rfl
      obtain ⟨hchunk, hle, hnext, hshort⟩ := chunkAt_next groupSize_pos hlt
      have hstart : min (groupSize * k) D.length = groupSize * k := by omega
      refine ⟨_, ?_, rfl⟩
      rw [push, rejectIf_neg (by simp [hchunk, hle]), rejectIf_neg (by simp; omega)]
      simp only [ok_bind]
      rw [checkedAdd_of_le (by omega), hnext, hstart, positionedCv_eq]
      simp only [okOr_some, ok_bind, hshort, range_succ, map_append, map_singleton]
      rfl)
  refine ⟨_, hpush, ?_, min_eq_right (le_mul_divCeil groupSize_pos D.length), .inl rfl⟩
  rw [objectCvs, groupCount_eq hne]

omit hlen in
/-- A segment is accepted when it covers groups of the object, and hashed where it sits. -/
theorem groupCvsAt_eq_ok {offset length : ℕ} {bytes : Bytes} (hfit : length ≤ u64Max)
    {leaves : List Digest} :
    groupCvsAt offset bytes length = .ok leaves ↔ Cover groupSize length offset bytes.length ∧
      (List.range (divCeil bytes.length groupSize)).map (fun k =>
        Blake3.chainingValue (offset + groupSize * k) (chunkAt groupSize bytes k)) = leaves := by
  have hfold (hsum : offset + bytes.length ≤ u64Max) :
      (chunks groupSize bytes).foldlM groupCvsAt.next (offset, []) = .ok
        (offset + min (groupSize * divCeil bytes.length groupSize) bytes.length,
          (range (divCeil bytes.length groupSize)).map fun k =>
            Blake3.chainingValue (offset + groupSize * k) (chunkAt groupSize bytes k)) := by
    obtain ⟨_, hnext, rfl⟩ := foldlM_chunks groupCvsAt.next (offset, []) (l := bytes)
      (P := fun k state => state = (offset + min (groupSize * k) bytes.length, (range k).map fun k =>
        Blake3.chainingValue (offset + groupSize * k) (chunkAt groupSize bytes k)))
      groupSize_pos rfl (by
        rintro k _ hlt rfl
        obtain ⟨-, -, hnext, -⟩ := chunkAt_next groupSize_pos hlt
        have hstart : min (groupSize * k) bytes.length = groupSize * k := by omega
        refine ⟨_, ?_, rfl⟩
        rw [groupCvsAt.next, checkedAdd_of_le (by omega), okOr_some, add_assoc, hnext, hstart,
          positionedCv_eq, range_succ, map_append]
        rfl)
    exact hnext
  have hsegment : checkSegment offset bytes length = .ok () ↔
      Cover groupSize length offset bytes.length := by
    simp only [checkSegment, bind_eq_ok, rejectIf_eq_ok, okOr_eq_ok, checkedAdd_eq_some, not_not,
      Cover.iff_segment]
    constructor
    · rintro ⟨-, hne, -, haligned, stop, ⟨-, rfl⟩, -, hin, hclosed⟩
      exact ⟨length_pos_iff.mpr hne, haligned, by omega, by omega⟩
    · rintro ⟨hpos, haligned, hin, hclosed⟩
      exact ⟨(), length_pos_iff.mp hpos, (), haligned, _, ⟨by omega, rfl⟩, (), by omega,
        by omega⟩
  rw [groupCvsAt, bind_eq_ok]
  constructor
  · rintro ⟨_, hok, h⟩
    have cover := hsegment.mp hok
    have hin := cover.inside
    rw [hfold (by omega)] at h
    exact ⟨cover, Except.ok.inj h⟩
  · rintro ⟨cover, rfl⟩
    have hin := cover.inside
    refine ⟨(), hsegment.mpr cover, ?_⟩
    rw [hfold (by omega)]
    rfl

theorem groupCvsAt_eq (hne : D ≠ []) : groupCvsAt 0 D D.length = .ok (objectCvs D) := by
  refine (groupCvsAt_eq_ok (le_u64Max_of_le_isizeMax hlen)).mpr
    ⟨⟨rfl, length_pos_iff.mpr hne, by omega, .inl (zero_add _)⟩, ?_⟩
  rw [objectCvs, groupCount_eq hne]
  simp only [zero_add]
  rfl

omit hlen in
/-- Values alone are taken for more than one group only. -/
theorem GroupCvs.fromGroupCvs_eq (D : Bytes) :
    fromGroupCvs (objectCvs D) D.length = if groupCount D.length < 2 then .error (.error .outOfBounds)
      else .ok (GroupCvs.sealLevels ⟨objectCvs D, D.length, true, []⟩) := by
  have hcount : (objectCvs D).length = groupCount D.length := by simp [objectCvs]
  by_cases h : groupCount D.length < 2
  · rw [fromGroupCvs, rejectIf_pos (.inl h), if_pos h, error_bind]
  · rw [fromGroupCvs, rejectIf_neg (by simp [h, hcount]), if_neg h, ok_bind]
    rfl

end Memory

variable {group : Bytes} {index : ℕ}

section Stored

open LawfulNodeStorage

variable [Blake3] {σ : Type} [NodeStorage σ] [LawfulNodeStorage σ] {store : σ}

namespace StoredGroupCvs

omit [Blake3] in
theorem new_eq {storage : σ} (h : contents storage = []) :
    StoredGroupCvs.new storage = .ok ⟨storage, 0, 0, false, none⟩ := by
  rw [StoredGroupCvs.new, isEmpty_eq h, fromStore_ok, ok_bind, rejectIf_neg (by simp), ok_bind]
  rfl

theorem push_eq (stored : StoredGroupCvs σ) (hfailure : stored.failure = none)
    (hgroup : group ≠ []) (hle : group.length ≤ groupSize) (hopen : stored.ended = false)
    (hfit : stored.length + group.length ≤ u64Max) (hgroups : stored.groups + 1 ≤ u64Max) :
    ∃ storage, settled (stored.push group) = .ok ⟨storage, stored.length + group.length,
        stored.groups + 1, decide (group.length < groupSize), none⟩ ∧
      contents storage = contents stored.storage ++ [positionedCv stored.length group] := by
  obtain ⟨storage, happend, hcontents⟩ :=
    append_eq stored.storage (positionedCv stored.length group)
  refine ⟨storage, ?_, hcontents⟩
  simp only [push, hfailure, checkedAdd_of_le hfit, checkedAdd_of_le hgroups, okOr_some]
  rw [rejectIf_neg (by simp [hgroup, hle, hopen])]
  simp only [ok_bind, pure, Except.pure, happend]
  rfl

section Levels

variable {f : ℕ → Digest} {n : ℕ} {storage : σ}

theorem appendParent_eq {layer : StoredLayer} {level : ℕ}
    (hretains : Retains (contents storage) layer (perfect Blake3.mergeSubtreesNonRoot f level))
    (hfit : (contents storage).length ≤ u64Max) (hindex : index < layer.count / 2) :
    appendParent layer storage index =
      appendNode storage (perfect Blake3.mergeSubtreesNonRoot f (level + 1) index) := by
  have hleft := hretains (2 * index) (by omega)
  have hright := hretains (2 * index + 1) (by omega)
  have hlt := (List.getElem?_eq_some_iff.mp hright).1
  rw [← add_assoc] at hright
  have hmul : checkedMul index 2 = some (2 * index) := by
    rw [checkedMul, mul_comm, if_pos (by omega)]
  simp only [appendParent, hmul, checkedAdd_of_le (show layer.base + 2 * index ≤ u64Max by omega),
    checkedAdd_of_le (show layer.base + 2 * index + 1 ≤ u64Max by omega), okOr_some, ok_bind,
    read_eq storage _ _ hleft, read_eq storage _ _ hright, fromStore_ok]
  rfl

/-- The levels of an object, and where they are in the store. -/
abbrev Built (f : ℕ → Digest) (n : ℕ) (storage : σ) (levels : List StoredLayer)
    (last : StoredLayer) : Prop :=
  Leveled (perfect Blake3.mergeSubtreesNonRoot f) (n / 2 ^ ·) (contents storage) levels last

variable {levels : List StoredLayer} {last : StoredLayer}

/-- A level with two nodes or more is not the last one there is room for. -/
theorem Built.length_lt (hn : n ≤ 2 ^ 48) (h : Built f n storage levels last)
    (h2 : 2 ≤ last.count) : levels.length < maxStoredLevels := by
  have hcount := h.last_held.1
  by_contra hge
  have hpow : 2 ^ 48 ≤ 2 ^ (levels.length - 1) :=
    Nat.pow_le_pow_right (by omega) (by unfold maxStoredLevels at hge; omega)
  have : n / 2 ^ (levels.length - 1) ≤ 1 := by
    rw [← Nat.lt_succ_iff, Nat.div_lt_iff_lt_mul (Nat.two_pow_pos _)]
    omega
  omega

theorem appendParents_eq (hn : n ≤ 2 ^ 48) (h : Built f n storage levels last)
    (h2 : 2 ≤ last.count) :
    ∃ storage', (List.range (last.count / 2)).foldlM (appendParent last) storage = .ok storage' ∧
      (contents storage').length = (contents storage).length + last.count / 2 ∧
      (contents storage').length ≤ u64Max ∧
      Built f n storage' (levels ++ [⟨(contents storage).length, last.count / 2⟩])
        ⟨(contents storage).length, last.count / 2⟩ := by
  have hpos := h.length_pos
  have hwidth : last.count / 2 = n / 2 ^ levels.length := by
    rw [h.last_held.1, Nat.div_div_eq_div_mul, ← Nat.pow_succ,
      show (levels.length - 1).succ = levels.length by omega]
  rw [hwidth]
  refine h.append_layer (h.length_lt hn h2) (by rwa [pow_zero, Nat.div_one])
    (by rw [pow_zero, Nat.div_one]; exact Nat.div_le_self _ _)
    fun current index hindex hretains hfit => ?_
  rw [appendParent_eq hretains hfit (hwidth ▸ hindex),
    show levels.length - 1 + 1 = levels.length by omega]

/-- Building keeps the levels and ends when the last one has a single node. -/
theorem finishLevels_eq (hn : n ≤ 2 ^ 48) (h : Built f n storage levels last)
    (hfits : (contents storage).length ≤ u64Max) :
    ∃ storage' levels' last', finishLevels storage levels last (contents storage).length =
        .ok (storage', levels') ∧ last'.count < 2 ∧ (contents storage').length ≤ u64Max ∧
      Built f n storage' levels' last' := by
  induction hc : last.count using Nat.strong_induction_on generalizing storage levels last with
  | _ count ih =>
    rw [finishLevels]
    by_cases h2 : 2 ≤ last.count
    · have hlevels := h.length_lt hn h2
      obtain ⟨storage', hfold, hlength, hfit, hbuilt⟩ := appendParents_eq hn h h2
      obtain ⟨final, levels', last', hfinish, hlast, hfinal⟩ :=
        ih (last.count / 2) (by omega) hbuilt hfit rfl
      refine ⟨final, levels', last', ?_, hlast, hfinal⟩
      rw [hlength] at hfit hfinish
      simp only [dif_pos h2, rejectIf_neg (not_le.mpr hlevels), len_eq, fromStore_ok, ok_bind,
        hfold, checkedAdd_of_le hfit, okOr_some, hlength, rejectIf_neg (not_not.mpr rfl), hfinish]
    · exact ⟨storage, levels, last, by rw [dif_neg h2], by omega, hfits, h⟩

theorem finish_eq (hn : n ≤ 2 ^ 48) (hpos : 0 < n) (stored : StoredGroupCvs σ)
    (hfailure : stored.failure = none) (hgroups : stored.groups = n)
    (hcontents : contents stored.storage = (List.range n).map f) :
    ∃ whole : SealedGroupCvs σ, stored.finish = .ok whole ∧ whole.length = stored.length ∧
      ∃ last, last.count < 2 ∧ (contents whole.storage).length ≤ u64Max ∧
        Built f n whole.storage whole.levels last := by
  have hlength : (contents stored.storage).length = n := by simp [hcontents]
  have hbase : Built f n stored.storage [⟨0, n⟩] ⟨0, n⟩ := by
    have h := Leveled.base (perfect Blake3.mergeSubtreesNonRoot f) (n / 2 ^ ·)
    simp only [pow_zero, Nat.div_one] at h
    rw [Built, hcontents]
    exact h
  obtain ⟨storage', levels', last, hfinish, hlast, hfit, hbuilt⟩ :=
    finishLevels_eq hn hbase (by rw [hlength]; unfold u64Max; omega)
  rw [hlength] at hfinish
  refine ⟨⟨storage', stored.length, n, levels'⟩, ?_, rfl, last, hlast, hfit, hbuilt⟩
  simp only [finish, hfailure, len_eq, fromStore_ok, ok_bind, hlength, hgroups,
    rejectIf_neg (not_not.mpr (rfl : n = n)), if_neg hpos.ne', hfinish]
  rfl

end Levels

end StoredGroupCvs

structure SealedGroupCvs.Keeps (D : Bytes) (stored : SealedGroupCvs σ) : Prop where
  length : stored.length = D.length
  built : ∃ last, last.count < 2 ∧ (contents stored.storage).length ≤ u64Max ∧
    StoredGroupCvs.Built (groupValue D) (groupCount D.length) stored.storage stored.levels last

theorem StoredGroupCvs.pushAll_chunks (hlen : D.length ≤ isizeMax) (hne : D ≠ [])
    (hstore : contents store = []) :
    ∃ filled whole, StoredGroupCvs.pushAll ⟨store, 0, 0, false, none⟩ (chunks groupSize D) =
        .ok filled ∧ filled.finish = .ok whole ∧ whole.Keeps D := by
  have hu64 := le_u64Max_of_le_isizeMax hlen
  have hcount := groupCount_eq hne
  have hgroups := groupCount_le_u64Max hlen
  obtain ⟨_, hpush, storage, rfl, hcontents⟩ := foldlM_chunks
    (fun stored group => settled (push stored group)) ⟨store, 0, 0, false, none⟩ (l := D)
    (P := fun k stored => ∃ storage : σ,
      stored = ⟨storage, min (groupSize * k) D.length, k, decide (D.length < groupSize * k), none⟩ ∧
        contents storage = (range k).map (groupValue D)) groupSize_pos ⟨store, by simp, hstore⟩ (by
      rintro k _ hlt ⟨before, rfl, hbefore⟩
      obtain ⟨hchunk, hle, hnext, hshort⟩ := chunkAt_next groupSize_pos hlt
      have hstart : min (groupSize * k) D.length = groupSize * k := by omega
      have hk := (lt_divCeil_iff groupSize_pos).mpr hlt
      obtain ⟨storage, hpush, hafter⟩ := push_eq ⟨before, min (groupSize * k) D.length, k,
        decide (D.length < groupSize * k), none⟩ rfl hchunk hle (by simp; omega)
        (by simp only; omega) (by simp only; omega)
      refine ⟨_, hpush, storage, by simp only [hnext, hshort], ?_⟩
      rw [hafter, hbefore, hstart, positionedCv_eq, range_succ, map_append]
      rfl)
  rw [← hcount] at hpush hcontents
  obtain ⟨whole, hfinish, hlength, hbuilt⟩ := finish_eq (groupCount_le hlen) (groupCount_pos _)
    ⟨storage, min (groupSize * groupCount D.length) D.length, groupCount D.length, _, none⟩ rfl rfl
    hcontents
  refine ⟨_, whole, hpush, hfinish, ?_, hbuilt⟩
  rw [hlength, hcount]
  exact min_eq_right (le_mul_divCeil groupSize_pos D.length)

/-- A sealed layer finds every node of the tree. -/
theorem SealedGroupCvs.Keeps.nodeCv (hlen : D.length ≤ isizeMax) {stored : SealedGroupCvs σ}
    (h : stored.Keeps D) (node : Node) (hnode : node.Within (groupCount D.length)) :
    stored.nodeCv node = .ok (node.tree.value (groupValue D) Blake3.mergeSubtreesNonRoot) := by
  have hn := groupCount_le_u64Max hlen
  obtain ⟨last, hlast, hfit, hbuilt⟩ := h.built
  have hread : ∀ node : Node, node.Within (groupCount D.length) →
      ∀ level index, retainedAt node = some (level, index) →
      stored.nodeCv node = .ok (node.tree.value (groupValue D) Blake3.mergeSubtreesNonRoot) := by
    intro node hnode level index hat
    obtain ⟨hlevel, hindex⟩ := retainedAt_lt hn hnode hat
    have hheld : level < stored.levels.length := by
      have hpos := hbuilt.length_pos
      have hcount := hbuilt.last_held.1
      by_contra hge
      have hpow := Nat.pow_le_pow_right (show 0 < 2 by omega) (not_lt.mp hge)
      have hdouble : 2 * 2 ^ (stored.levels.length - 1) = 2 ^ stored.levels.length := by
        rw [← Nat.pow_succ', show (stored.levels.length - 1).succ = stored.levels.length by omega]
      have : 2 ≤ groupCount D.length / 2 ^ (stored.levels.length - 1) := by
        rw [Nat.le_div_iff_mul_le (Nat.two_pow_pos _)]
        omega
      omega
    obtain ⟨layer, hlayer, hcount, hretains⟩ := hbuilt.held level hheld
    rw [SealedGroupCvs.nodeCv, hat]
    simp only [hlayer, okOr_some, ok_bind]
    rw [readStoredNode_eq hretains (by rw [hcount]; exact hindex) hfit,
      tree_value_retained hn hnode (groupValue D) _ hat]
  induction node, hnode using Node.within_induction hn with
  | one node hnode h => exact hread node hnode 0 node.start (retainedAt_one h)
  | split node hnode h ihl ihr =>
    cases hat : retainedAt node with
    | none =>
      rw [SealedGroupCvs.nodeCv, hat]
      simp only [dif_neg h, ihl, ihr, ok_bind, Node.tree_split hn hnode h]
      rfl
    | some place => exact hread node hnode place.1 place.2 hat

end Stored

section Agreement

variable [Blake3] {D : Bytes} (hlen : D.length ≤ isizeMax)
include hlen

variable {groups : GroupCvs}

theorem GroupCvs.Keeps.proveWith_eq (h : groups.Keeps D) (offset length : ℕ) :
    proveWith groups offset length = (prove D offset length).map RangeProof.cover := by
  rw [proveWith, h.length]
  exact proveBy_eq hlen (h.nodeCv hlen) offset length

/-- A retained value answers for the group it was taken from, and for no other one. -/
theorem GroupCvs.Keeps.holds_iff (h : groups.Keeps D) (hne : D ≠ [])
    (hinj : index < divCeil D.length groupSize →
      Blake3.chainingValue (groupSize * index) group = groupValue D index →
        group = chunkAt groupSize D index) :
    groups.holds index group = true ↔
      index < divCeil D.length groupSize ∧ group = chunkAt groupSize D index := by
  rw [holds, h.cvs, objectCvs, groupCount_eq hne]
  by_cases hi : index < divCeil D.length groupSize
  swap
  · simp [hi]
  have hmul : index * groupSize ≤ u64Max := by
    have := le_u64Max_of_le_isizeMax hlen
    have := (lt_divCeil_iff groupSize_pos).mp hi
    rw [mul_comm]
    omega
  rw [getElem?_map, getElem?_range hi, Option.map_some, checkedMul_eq_some.mpr ⟨hmul, rfl⟩]
  simp only [hi, true_and, decide_eq_true_eq, positionedCv_eq, mul_comm index]
  constructor
  · rintro ⟨-, -, hcv⟩
    exact hinj hi hcv
  · rintro rfl
    have cover := Cover.of_unit groupSize_pos hi
    refine ⟨ne_nil_of_length_pos cover.nonempty, ?_, rfl⟩
    rw [chunkAt_length]
    exact min_le_left _ _

theorem GroupCvs.Keeps.treeRoot_eq (h : groups.Keeps D) (hsplit : SplitRoot) :
    groups.treeRoot = .ok (if groupSize < D.length then some (Blake3.hash D) else none) := by
  rw [treeRoot, h.length]
  exact treeRootBy_eq hlen (h.nodeCv hlen) hsplit

variable {σ : Type} [NodeStorage σ] [LawfulNodeStorage σ] {stored : SealedGroupCvs σ}

theorem SealedGroupCvs.Keeps.prove_eq (h : stored.Keeps D) (offset length : ℕ) :
    stored.prove offset length = (Bao64.prove D offset length).map RangeProof.cover := by
  rw [SealedGroupCvs.prove, h.length]
  exact proveBy_eq hlen (h.nodeCv hlen) offset length

theorem SealedGroupCvs.Keeps.treeRoot_eq (h : stored.Keeps D) (hsplit : SplitRoot) :
    stored.treeRoot = .ok (if groupSize < D.length then some (Blake3.hash D) else none) := by
  rw [SealedGroupCvs.treeRoot, h.length]
  exact treeRootBy_eq hlen (h.nodeCv hlen) hsplit

end Agreement

/-- Every producer gives the proof made from the bytes, and knows the object's root when the object
has more than one group. Values alone are not taken for an object of a single group. -/
theorem group_producers_agree [Blake3] [Sha256] {σ : Type} [NodeStorage σ] [LawfulNodeStorage σ]
    (hsplit : SplitRoot) {D : Bytes} (hne : D ≠ []) (hlen : D.length ≤ isizeMax) {store : σ}
    (hstore : LawfulNodeStorage.contents store = []) :
    ∃ (leaves : List Digest) (fed : GroupCvs) (start filled : StoredGroupCvs σ)
      (stored : SealedGroupCvs σ),
      groupCvsAt 0 D D.length = .ok leaves ∧
      GroupCvs.new.pushAll (chunks groupSize D) = .ok fed ∧
      StoredGroupCvs.new store = .ok start ∧ start.pushAll (chunks groupSize D) = .ok filled ∧
      filled.finish = .ok stored ∧
      (∀ offset length, 0 < length → offset + length ≤ D.length → ∃ proof,
        prove D offset length = .ok proof ∧
        proveWith fed offset length = .ok proof.cover ∧
        proveWith fed.sealLevels offset length = .ok proof.cover ∧
        (∀ rebuilt, fromGroupCvs leaves D.length = .ok rebuilt →
          proveWith rebuilt offset length = .ok proof.cover) ∧
        stored.prove offset length = .ok proof.cover) ∧
      (groupSize < D.length → ∃ rebuilt value,
        fromGroupCvs leaves D.length = .ok rebuilt ∧ root D = some value ∧
        fed.treeRoot = .ok (some value) ∧ fed.sealLevels.treeRoot = .ok (some value) ∧
        rebuilt.treeRoot = .ok (some value) ∧ stored.treeRoot = .ok (some value)) ∧
      (D.length ≤ groupSize →
        fromGroupCvs leaves D.length = .error (.error .outOfBounds) ∧
        fed.treeRoot = .ok none ∧ fed.sealLevels.treeRoot = .ok none ∧
        stored.treeRoot = .ok none) := by
  obtain ⟨fed, hfed, hkeeps⟩ := pushAll_chunks hlen hne
  obtain ⟨filled, stored, hfilled, hfinish, hstored⟩ :=
    StoredGroupCvs.pushAll_chunks hlen hne hstore
  have hrebuilt : ∀ rebuilt, fromGroupCvs (objectCvs D) D.length = .ok rebuilt →
      rebuilt.Keeps D := by
    intro rebuilt h
    rw [fromGroupCvs_eq] at h
    split_ifs at h
    obtain rfl := Except.ok.inj h
    exact GroupCvs.Keeps.sealLevels ⟨rfl, rfl, .inl rfl⟩
  refine ⟨objectCvs D, fed, _, filled, stored, groupCvsAt_eq hlen hne, hfed,
    StoredGroupCvs.new_eq hstore, hfilled, hfinish, fun offset length hpos hin => ?_, fun hmulti => ?_,
    fun hone => ?_⟩
  · obtain ⟨_, _, -, -, -, hprove⟩ := (proves hlen).widens hpos hin
    refine ⟨_, hprove, ?_, ?_, fun rebuilt h => ?_, ?_⟩
    · rw [hkeeps.proveWith_eq hlen, hprove]
      rfl
    · rw [hkeeps.sealLevels.proveWith_eq hlen, hprove]
      rfl
    · rw [(hrebuilt rebuilt h).proveWith_eq hlen, hprove]
      rfl
    · rw [hstored.prove_eq hlen, hprove]
      rfl
  · have hcount : ¬ groupCount D.length < 2 := by
      rw [groupCount_eq hne]
      exact not_lt.mpr (two_le_divCeil groupSize_pos hmulti)
    have hok := fromGroupCvs_eq D
    rw [if_neg hcount] at hok
    refine ⟨_, Blake3.hash D, hok, root_eq_hash hlen, ?_, ?_, ?_, ?_⟩
    · rw [hkeeps.treeRoot_eq hlen hsplit, if_pos hmulti]
    · rw [hkeeps.sealLevels.treeRoot_eq hlen hsplit, if_pos hmulti]
    · rw [(hrebuilt _ hok).treeRoot_eq hlen hsplit, if_pos hmulti]
    · rw [hstored.treeRoot_eq hlen hsplit, if_pos hmulti]
  · have hcount : groupCount D.length < 2 := by
      rw [groupCount_eq hne, divCeil_eq_one (length_pos_iff.mpr hne) hone]
      omega
    refine ⟨by rw [fromGroupCvs_eq, if_pos hcount], ?_, ?_, ?_⟩
    · rw [hkeeps.treeRoot_eq hlen hsplit, if_neg (by omega)]
    · rw [hkeeps.sealLevels.treeRoot_eq hlen hsplit, if_neg (by omega)]
    · rw [hstored.treeRoot_eq hlen hsplit, if_neg (by omega)]

section Sample

attribute [local instance] sampleBlake3 sampleSha256

theorem group_producers_agree_two_groups :
    SplitRoot ∧ sampleObject ≠ [] ∧ sampleObject.length ≤ isizeMax ∧
      LawfulNodeStorage.contents (⟨[]⟩ : MemoryNodeStorage) = [] ∧
      ∃ fed, GroupCvs.new.pushAll (chunks groupSize sampleObject) = .ok fed ∧
        ∃ value, root sampleObject = some value ∧ fed.treeRoot = .ok (some value) := by
  have hne := sampleObject_ne_nil
  have hlen := sampleObject_length_le
  have hstore : LawfulNodeStorage.contents (⟨[]⟩ : MemoryNodeStorage) = [] := rfl
  refine ⟨splitRoot_sample, hne, hlen, hstore, ?_⟩
  obtain ⟨_, fed, _, _, _, -, hfed, -, -, -, -, hmulti, -⟩ :=
    group_producers_agree splitRoot_sample hne hlen hstore
  obtain ⟨_, value, -, hroot, htree, -⟩ := hmulti (by rw [sampleObject_length]; omega)
  exact ⟨fed, hfed, value, hroot, htree⟩

/-- The bytes of a one-group object prove a range, its group value alone is refused. -/
theorem single_group_not_rebuilt :
    (∃ proof, prove [7] 0 1 = .ok proof) ∧
      ∃ leaves, groupCvsAt 0 [7] 1 = .ok leaves ∧
        fromGroupCvs leaves 1 = .error (.error .outOfBounds) := by
  have hne : [(7 : UInt8)] ≠ [] := by simp
  have hlen : [(7 : UInt8)].length ≤ isizeMax := by decide
  have hcover : Cover groupSize [(7 : UInt8)].length 0 [(7 : UInt8)].length :=
    ⟨rfl, by decide, by decide, .inl rfl⟩
  refine ⟨⟨_, prove_cover hlen hcover rfl⟩, _, groupCvsAt_eq hlen hne, ?_⟩
  exact (fromGroupCvs_eq [7]).trans (if_pos (by decide))

end Sample

end ObjectTransfer.Proof.Bao64
