import ObjectTransfer.Proof.Bao64Tree

/-! # BLAKE3 range proofs are exact

A cover verifies against the root of an object exactly when its bytes are the
object's and its proof is the one the object emits. Soundness assumes that the
hash functions do not collide on the inputs hashed for this object and this proof.
-/

namespace ObjectTransfer.Proof.Bao64
open Foundations Streaming List

def objectTree (D : Bytes) : HashTree ℕ := leftBalanced 0 (groupCount D.length)

variable {D : Bytes}

theorem groupCount_eq (hne : D ≠ []) : groupCount D.length = divCeil D.length groupSize := by
  have := length_pos_iff.mpr hne
  rw [groupCount, max_eq_left (by omega)]

variable {length : ℕ}

theorem groupCount_le (h : length ≤ isizeMax) : groupCount length ≤ 2 ^ 48 :=
  unitCount_le (max_le h (by decide))

theorem groupCount_le_u64Max (h : length ≤ isizeMax) : groupCount length ≤ u64Max := by
  have := groupCount_le h
  unfold u64Max
  omega

theorem rootNode_within (length : ℕ) : (rootNode length).Within (groupCount length) := by
  simp [Node.Within, rootNode]

theorem mem_objectTree_leaves {i : ℕ} : i ∈ (objectTree D).leaves ↔ i < groupCount D.length := by
  rw [objectTree, leftBalanced_leaves _ (groupCount_pos _), mem_range'_1]
  omega

theorem objectTree_node (hlen : D.length ≤ isizeMax) (h : ¬ D.length ≤ groupSize) :
    objectTree D = .node ((rootNode D.length).split (rootNode_count_ne_one h)).1.tree
      ((rootNode D.length).split (rootNode_count_ne_one h)).2.tree :=
  Node.tree_split (groupCount_le_u64Max hlen) (rootNode_within _) (rootNode_count_ne_one h)

theorem stop_le_groupCount (hne : D ≠ []) {offset length : ℕ}
    (cover : Cover groupSize D.length offset length) :
    divCeil (offset + length) groupSize ≤ groupCount D.length := by
  rw [groupCount_eq hne]
  exact cover.stop_le groupSize_pos

theorem objectTree_leaf (hne : D ≠ []) (hone : D.length ≤ groupSize) : objectTree D = .leaf 0 := by
  rw [objectTree, groupCount_eq hne, divCeil_eq_one (length_pos_iff.mpr hne) hone, leftBalanced_one]

section Correctness

variable [Blake3]

/-- What the `blake3` crate promises about objects of several groups: their root is the root
merge of the two sides of the left-balanced group tree. -/
def SplitRoot : Prop := ∀ D : Bytes, groupSize < D.length →
  Blake3.hash D = (objectTree D).rootValue (groupValue D) Blake3.mergeSubtreesNonRoot
    Blake3.mergeSubtreesRoot

/-- The positioned groups of `bytes`, the first of them at `offset`. -/
def groupQueries (offset : ℕ) (bytes : Bytes) : Set (ℕ × Bytes) :=
  {q | ∃ i < divCeil bytes.length groupSize,
    q = (offset + groupSize * i, chunkAt groupSize bytes i)}

/-- The pairs merged while hashing an object, or presented by a proof. -/
def pairQueries (D proof : Bytes) : Set (Digest × Digest) :=
  {p | p ∈ (objectTree D).parents (groupValue D) Blake3.mergeSubtreesNonRoot ∨
    p ∈ proofPairs proof}

/-- No two of the inputs hashed for the object `D` and for a presented cover collide. -/
structure CollisionFree (D : Bytes) (coveredOffset : ℕ) (data proof : Bytes) : Prop where
  whole : Set.InjOn Blake3.hash {D, data}
  group : Set.InjOn (fun q : ℕ × Bytes => Blake3.chainingValue q.1 q.2)
    (groupQueries 0 D ∪ groupQueries coveredOffset data)
  nonRoot : Set.InjOn (fun p : Digest × Digest => Blake3.mergeSubtreesNonRoot p.1 p.2)
    (pairQueries D proof)
  root : Set.InjOn (fun p : Digest × Digest => Blake3.mergeSubtreesRoot p.1 p.2)
    (pairQueries D proof)

def objectProof (D : Bytes) (first stop : ℕ) : Bytes :=
  writeAll writePair ((objectTree D).proof (window first stop) (groupValue D)
    Blake3.mergeSubtreesNonRoot)

theorem proofPairs_objectProof (D : Bytes) (first stop : ℕ) :
    proofPairs (objectProof D first stop) =
      (objectTree D).proof (window first stop) (groupValue D) Blake3.mergeSubtreesNonRoot :=
  readAll_writeAll (by omega) writePair_length readPair_writePair _

theorem objectProof_length (D : Bytes) (first stop : ℕ) :
    (objectProof D first stop).length = 64 * (proofPairs (objectProof D first stop)).length := by
  rw [proofPairs_objectProof, objectProof, writeAll_length writePair_length]

theorem objectProof_length_le (hlen : D.length ≤ isizeMax) (first stop : ℕ) :
    (objectProof D first stop).length ≤ u64Max := by
  have hcount := groupCount_le hlen
  have hlt := HashTree.proof_length_lt (window first stop) (groupValue D)
    Blake3.mergeSubtreesNonRoot (objectTree D)
  rw [objectTree, leftBalanced_leaves _ (groupCount_pos _), length_range'] at hlt
  rw [objectProof_length, proofPairs_objectProof, objectTree]
  unfold u64Max
  omega

variable {proof : Bytes}

section Tree

variable {D : Bytes} (hlen : D.length ≤ isizeMax) (hmulti : ¬ D.length ≤ groupSize)
variable (hsplit : SplitRoot)
include hlen hmulti hsplit

theorem hash_eq :
    Blake3.hash D = Blake3.mergeSubtreesRoot
      (((rootNode D.length).split (rootNode_count_ne_one hmulti)).1.tree.value (groupValue D)
        Blake3.mergeSubtreesNonRoot)
      (((rootNode D.length).split (rootNode_count_ne_one hmulti)).2.tree.value (groupValue D)
        Blake3.mergeSubtreesNonRoot) := by
  rw [hsplit D (Nat.lt_of_not_le hmulti), objectTree_node hlen hmulti]
  rfl

variable {first stop : ℕ} (hwin : first < stop) (hstop : stop ≤ groupCount D.length)
variable {leaf : ℕ → Option Digest} {presented : ℕ → Digest}
variable (hleaf : ∀ i, window first stop i → leaf i = some (presented i))
include hwin hstop hleaf

theorem verifyTree_complete (hgroups : ∀ i, window first stop i → presented i = groupValue D i) :
    verifyTree (Blake3.hash D) D.length first stop (objectProof D first stop) leaf
      (rootNode_count_ne_one hmulti) = .ok () := by
  have hn := groupCount_le_u64Max hlen
  have htree := objectTree_node hlen hmulti
  have hbound := objectProof_length_le hlen first stop
  have hlast := objectProof_length D first stop
  have hpairs := proofPairs_objectProof D first stop
  have hsel : (objectTree D).selected (window first stop) = true := by
    rw [HashTree.selected_iff]
    exact ⟨first, mem_objectTree_leaves.mpr (by omega), le_rfl, hwin⟩
  obtain ⟨hleft, hright, -⟩ := Node.split_within hn (rootNode_within D.length)
    (rootNode_count_ne_one hmulti)
  rw [htree] at hsel
  rw [htree, HashTree.proof, if_pos hsel] at hpairs
  have hread := readParent_of_cons (k := 0) hbound hpairs
  have hl := verifyChild_proof hn hwin hleaf hleft hbound hgroups [_] _ hpairs
  have hr := verifyChild_proof hn hwin hleaf hright hbound hgroups (_ :: _) []
    (by rw [append_nil, hpairs, cons_append])
  rw [length_singleton] at hl
  rw [length_cons, add_comm _ 1] at hr
  rw [hpairs, length_cons, length_append] at hlast
  simp only [verifyTree, hread, ok_bind, zero_add]
  rw [hl, ok_bind, hr, ok_bind, rejectIf_neg (by omega), ok_bind,
    rejectIf_neg (not_not.mpr (hash_eq hlen hmulti hsplit).symm)]

/-- A proof that passes is the object's own, and the presented groups are the object's. -/
theorem verifyTree_sound
    (hnonRoot : Set.InjOn (fun p : Digest × Digest => Blake3.mergeSubtreesNonRoot p.1 p.2)
      (pairQueries D proof))
    (hroot : Set.InjOn (fun p : Digest × Digest => Blake3.mergeSubtreesRoot p.1 p.2)
      (pairQueries D proof)) (h : verifyTree (Blake3.hash D) D.length first stop proof leaf
      (rootNode_count_ne_one hmulti) = .ok ()) :
    proof = objectProof D first stop ∧
      ∀ i, window first stop i → presented i = groupValue D i := by
  have hn := groupCount_le_u64Max hlen
  have htree := objectTree_node hlen hmulti
  have hsel : (objectTree D).selected (window first stop) = true := by
    rw [HashTree.selected_iff]
    exact ⟨first, mem_objectTree_leaves.mpr (by omega), le_rfl, hwin⟩
  obtain ⟨hleft, hright, -⟩ := Node.split_within hn (rootNode_within D.length)
    (rootNode_count_ne_one hmulti)
  simp only [verifyTree, bind_eq_ok, rejectIf_eq_ok, not_not] at h
  obtain ⟨pair, hpair, c₁, hl, c₂, hr, -, hend, hmerge⟩ := h
  obtain ⟨hpairs, hnext⟩ := readParent_eq_ok (k := 0) hpair
  rw [hnext] at hl
  obtain ⟨m₁, rfl, hcl⟩ := check_of_verifyChild hn hwin hleaf hleft hl
  obtain ⟨m₂, rfl, hcr⟩ := check_of_verifyChild hn hwin hleaf hright hr
  have hpresented : ∀ q ∈ proofPairs proof, q ∈ pairQueries D proof := fun q hq => .inr hq
  have htop : ∀ q ∈ (objectTree D).parents (groupValue D) Blake3.mergeSubtreesNonRoot,
      q ∈ pairQueries D proof := fun q hq => .inl hq
  rw [htree, HashTree.parents] at htop
  have hmem : pair.1 ∈ proofPairs proof := by
    rw [drop_zero] at hpairs
    rw [hpairs]
    exact mem_cons_self
  have hval : pair.1 = _ := hroot (hpresented _ hmem) (htop _ mem_cons_self)
    (hmerge.trans (hash_eq hlen hmulti hsplit))
  rw [hval] at hcl hcr
  obtain ⟨hpl, hgl⟩ := HashTree.check_sound _ hnonRoot (fun q hq => htop q (by simp [hq]))
    (fun q hq => hpresented q (mem_of_mem_drop hq)) hcl
  obtain ⟨hpr, hgr⟩ := HashTree.check_sound _ hnonRoot (fun q hq => htop q (by simp [hq]))
    (fun q hq => hpresented q (mem_of_mem_drop hq)) hcr
  have hlast : (proofPairs proof).drop m₂ = [] := by
    rw [drop_eq_nil_iff, proofPairs, readAll_length]
    omega
  have hall : proofPairs proof = (objectTree D).proof (window first stop) (groupValue D)
      Blake3.mergeSubtreesNonRoot := by
    rw [drop_zero, hpl, hpr, hlast, hval, append_nil] at hpairs
    rw [htree] at hsel
    rw [hpairs, htree, HashTree.proof, if_pos hsel]
  refine ⟨?_, ?_⟩
  · rw [objectProof, ← hall, proofPairs, writeAll_readAll fun _ => writePair_readPair]
    exact ⟨m₂, hend.symm⟩
  · intro i hi
    have hmemi : i ∈ (objectTree D).leaves :=
      mem_objectTree_leaves.mpr (lt_of_lt_of_le hi.2 hstop)
    rw [htree, HashTree.leaves, mem_append] at hmemi
    rcases hmemi with hi' | hi'
    · exact hgl i hi' hi
    · exact hgr i hi' hi

end Tree

/-- The chaining value of group `i`, read from presented bytes whose first group is `first`. -/
def presentedValue (first : ℕ) (data : Bytes) (i : ℕ) : Digest :=
  Blake3.chainingValue (groupSize * i) (chunkAt groupSize data (i - first))

theorem presentedCv_eq {objectLen offset : ℕ} {data : Bytes}
    (cover : Cover groupSize objectLen offset data.length) {i : ℕ}
    (hi : window (offset / groupSize) (divCeil (offset + data.length) groupSize) i) :
    presentedCv (offset / groupSize) data i =
      some (presentedValue (offset / groupSize) data i) := by
  have hlt := (lt_divCeil_iff groupSize_pos).mp hi.2
  have hmul := cover.mul_sub i
  have hrest : (data.drop (groupSize * i - offset)).take
      (data.length - (groupSize * i - offset)) = data.drop (groupSize * i - offset) :=
    take_of_length_le (by rw [length_drop])
  rw [presentedCv, hmul, slice?_eq (by omega) le_rfl, hrest]
  simp [presentedValue, positionedCv_eq, chunkAt, hmul]

omit [Blake3] in
/-- The groups of a cover are groups of the object. -/
theorem groupQueries_subset {D data : Bytes} {offset : ℕ}
    (cover : Cover groupSize D.length offset data.length)
    (hslice : slice? D offset (offset + data.length) = some data) :
    groupQueries offset data ⊆ groupQueries 0 D := by
  rintro q ⟨k, hk, rfl⟩
  rw [lt_divCeil_iff groupSize_pos] at hk
  have hoffset := cover.offset_eq
  have hstop : offset / groupSize + k < divCeil (offset + data.length) groupSize := by
    rw [lt_divCeil_iff groupSize_pos, mul_add]
    omega
  have hin := cover.inside
  refine ⟨offset / groupSize + k, ?_, ?_⟩
  · rw [lt_divCeil_iff groupSize_pos, mul_add]
    omega
  · rw [zero_add, mul_add, ← hoffset, ← cover.units_of_slice groupSize_pos hslice
      (Nat.le_add_right _ _) hstop, Nat.add_sub_cancel_left]

section Object

variable {D : Bytes} (hne : D ≠ []) (hlen : D.length ≤ isizeMax)
variable {offset : ℕ} {data : Bytes} (cover : Cover groupSize D.length offset data.length)
include cover hlen

theorem prove_cover (hslice : slice? D offset (offset + data.length) = some data) :
    prove D offset data.length = .ok
      { coveredOffset := offset
        data := data
        proof := objectProof D (offset / groupSize)
          (divCeil (offset + data.length) groupSize) } := by
  have hfit := add_unit_le hlen
  have hencode : encodeSelected (rootNode D.length) (offset / groupSize)
      (divCeil (offset + data.length) groupSize) D [] =
      some (objectProof D (offset / groupSize) (divCeil (offset + data.length) groupSize)) :=
    encodeSelected_eq (groupCount_le_u64Max hlen) (cover.units_lt groupSize_pos)
      (rootNode_within _) []
  simp only [prove, RangeGeometry.of_eq_of_cover groupSize_pos hfit cover, ok_bind, hencode,
    hslice, okOr_some]
  rfl

omit cover in
theorem proves : Proves groupSize D (prove D) (objectProof D) :=
  ⟨groupSize_pos, add_unit_le hlen, ⟨_, fun _ _ => rfl⟩,
    fun _ _ cover hslice => prove_cover hlen cover hslice⟩

variable [Sha256]

omit cover in
theorem root_eq_hash : root D = some (Blake3.hash D) := by
  have hfit := le_u64Max_of_le_isizeMax hlen
  rw [root, root_blake3 hfit]
  rfl

include hne

theorem verify_complete (hsplit : SplitRoot)
    (hslice : slice? D offset (offset + data.length) = some data) :
    verify (Blake3.hash D) D.length offset data (objectProof D (offset / groupSize)
      (divCeil (offset + data.length) groupSize)) = .ok () := by
  have hfit := le_u64Max_of_le_isizeMax hlen
  have hcheck := (checkCover_eq_ok hfit (_, _)).mpr ⟨cover, rfl⟩
  simp only [verify, hcheck, ok_bind]
  by_cases hone : D.length ≤ groupSize
  · obtain ⟨rfl, rfl⟩ := cover.whole_slice hone hslice
    have hnil : objectProof D (0 / groupSize) (divCeil (0 + D.length) groupSize) = [] := by
      rw [objectProof, objectTree_leaf hne hone]
      rfl
    rw [dif_pos hone, hnil, rejectIf_neg (not_not.mpr rfl), ok_bind, root_eq_hash hlen, okOr_some,
      ok_bind, rejectIf_neg (not_not.mpr rfl)]
  · rw [dif_neg hone]
    refine verifyTree_complete hlen hone hsplit (cover.units_lt groupSize_pos)
      (stop_le_groupCount hne cover) (fun i hi => presentedCv_eq cover hi) (fun i hi => ?_)
    rw [presentedValue, cover.units_of_slice groupSize_pos hslice hi.1 hi.2]
    rfl

omit cover in
/-- Whatever passes is a cover of the object with the object's bytes and the object's proof. -/
theorem verify_sound (hsplit : SplitRoot) (free : CollisionFree D offset data proof)
    (h : verify (Blake3.hash D) D.length offset data proof = .ok ()) :
    Cover groupSize D.length offset data.length ∧
      slice? D offset (offset + data.length) = some data ∧
      proof = objectProof D (offset / groupSize) (divCeil (offset + data.length) groupSize) := by
  have hfit := le_u64Max_of_le_isizeMax hlen
  simp only [verify, bind_eq_ok] at h
  obtain ⟨units, hcheck, h⟩ := h
  obtain ⟨cover, rfl⟩ := (checkCover_eq_ok hfit _).mp hcheck
  refine ⟨cover, ?_⟩
  split_ifs at h with hone
  · obtain ⟨rfl, hall⟩ := cover.whole hone
    simp only [bind_eq_ok, rejectIf_eq_ok, okOr_eq_ok, not_not] at h
    obtain ⟨-, rfl, actual, hroot, hactual⟩ := h
    rw [root_eq_hash (hall ▸ hlen), Option.some.injEq] at hroot
    obtain rfl : data = D := free.whole (by simp) (by simp) (hroot.trans hactual)
    refine ⟨by simp [slice?], ?_⟩
    rw [objectProof, objectTree_leaf hne hone]
    rfl
  · obtain ⟨hproof, hgroups⟩ := verifyTree_sound hlen hone hsplit (cover.units_lt groupSize_pos)
      (stop_le_groupCount hne cover) (fun i hi => presentedCv_eq cover hi) free.nonRoot free.root h
    refine ⟨cover.slice_of_units groupSize_pos fun i h1 h2 => ?_, hproof⟩
    have hlt := (lt_divCeil_iff groupSize_pos).mp h2
    have hoff := cover.offset_eq
    have hmul := cover.mul_sub i
    have hge : offset ≤ groupSize * i := hoff ▸ Nat.mul_le_mul_left _ h1
    have hin := cover.inside
    have hpresented : (groupSize * i, chunkAt groupSize data (i - offset / groupSize)) ∈
        groupQueries 0 D ∪ groupQueries offset data := by
      refine .inr ⟨i - offset / groupSize, (lt_divCeil_iff groupSize_pos).mpr (by omega), ?_⟩
      rw [hmul, Nat.add_sub_cancel' hge]
    have hobject : (groupSize * i, chunkAt groupSize D i) ∈
        groupQueries 0 D ∪ groupQueries offset data := by
      refine .inl ⟨i, (lt_divCeil_iff groupSize_pos).mpr (by omega), ?_⟩
      rw [zero_add]
    exact congrArg Prod.snd (free.group hpresented hobject (hgroups i ⟨h1, h2⟩))

end Object

/-- Range proofs are complete, sound and not malleable. -/
theorem range_proofs_exact [Sha256] (hsplit : SplitRoot) {D : Bytes} (hne : D ≠ [])
    (hlen : D.length ≤ isizeMax) :
    ∃ expected, root D = some expected ∧
      (∀ offset length, 0 < length → offset + length ≤ D.length →
        ∃ c, prove D offset length = .ok c ∧
          verify expected D.length c.coveredOffset c.data c.proof = .ok ()) ∧
      (∀ coveredOffset data proof, CollisionFree D coveredOffset data proof →
        verify expected D.length coveredOffset data proof = .ok () →
        slice? D coveredOffset (coveredOffset + data.length) = some data ∧
          ∃ c, prove D coveredOffset data.length = .ok c ∧ c.proof = proof) := by
  refine ⟨Blake3.hash D, root_eq_hash hlen, ?_, ?_⟩
  · intro offset length hpos hin
    obtain ⟨offset', data, cover, hslice, -, hprove⟩ := (proves hlen).widens hpos hin
    exact ⟨_, hprove, verify_complete hne hlen cover hsplit hslice⟩
  · intro coveredOffset data proof free h
    obtain ⟨cover, hslice, hproof⟩ := verify_sound hne hlen hsplit free h
    exact ⟨hslice, _, prove_cover hlen cover hslice, hproof.symm⟩

end Correctness

section Sample

/-- Stand-ins for the crate's functions that keep the two groups of a small object apart. -/
abbrev sampleBlake3 : Blake3 where
  hash D := if D.length ≤ groupSize then Block.ofBytes 32 D
    else (objectTree D).rootValue (fun i => Block.ofBytes 32 [UInt8.ofNat i])
      (fun _ _ => Block.ofBytes 32 [3]) (fun _ _ => Block.ofBytes 32 [4])
  chainingValue offset _ := Block.ofBytes 32 [UInt8.ofNat (offset / groupSize)]
  mergeSubtreesNonRoot _ _ := Block.ofBytes 32 [3]
  mergeSubtreesRoot _ _ := Block.ofBytes 32 [4]

abbrev sampleSha256 : Sha256 where
  digest := Block.ofBytes 32

attribute [local instance] sampleBlake3 sampleSha256

/-- One full group and one byte. -/
def sampleObject : Bytes := List.replicate (groupSize + 1) 7

theorem sampleObject_length : sampleObject.length = groupSize + 1 := length_replicate

theorem sampleObject_ne_nil : sampleObject ≠ [] := by
  rw [← length_pos_iff, sampleObject_length]
  exact Nat.succ_pos _

theorem sampleObject_length_le : sampleObject.length ≤ isizeMax := by
  rw [sampleObject_length]
  decide

theorem objectTree_sample : objectTree sampleObject = .node (.leaf 0) (.leaf 1) := by
  have hcount : groupCount sampleObject.length = 2 := by
    rw [sampleObject_length]
    decide
  have hlog : Nat.log2 (2 - 1) = 0 := by decide
  rw [objectTree, hcount, leftBalanced_node _ le_rfl, hlog]
  simp [leftBalanced_one]

theorem groupValue_sample (D : Bytes) (i : ℕ) :
    groupValue D i = Block.ofBytes 32 [UInt8.ofNat i] := by
  change Block.ofBytes 32 [UInt8.ofNat (groupSize * i / groupSize)] = _
  rw [Nat.mul_div_cancel_left _ groupSize_pos]

theorem splitRoot_sample : SplitRoot := by
  intro D hD
  rw [funext (groupValue_sample D)]
  exact if_neg (not_le.mpr hD)

theorem cover_sample : Cover groupSize sampleObject.length groupSize [(7 : UInt8)].length := by
  rw [sampleObject_length]
  exact ⟨Nat.mod_self _, by simp, by simp, .inl rfl⟩

theorem slice_sample {offset n : ℕ} (h : offset + n ≤ groupSize + 1) :
    slice? sampleObject offset (offset + n) = some (replicate n 7) := by
  rw [slice?_eq (by omega) (sampleObject_length ▸ h), sampleObject, drop_replicate,
    take_replicate]
  congr 2
  omega

theorem pairQueries_sample {first stop : ℕ} {p q : Digest × Digest}
    (hp : p ∈ pairQueries sampleObject (objectProof sampleObject first stop))
    (hq : q ∈ pairQueries sampleObject (objectProof sampleObject first stop)) : p = q := by
  have hpair {r : Digest × Digest}
      (hr : r ∈ pairQueries sampleObject (objectProof sampleObject first stop)) :
      r = (groupValue sampleObject 0, groupValue sampleObject 1) := by
    rw [pairQueries, proofPairs_objectProof, objectTree_sample, HashTree.proof] at hr
    split_ifs at hr <;> simpa [HashTree.parents, HashTree.proof, HashTree.value] using hr
  rw [hpair hp, hpair hq]

theorem hash_sample : Blake3.hash sampleObject = Block.ofBytes 32 [4] := by
  rw [splitRoot_sample sampleObject (by rw [sampleObject_length]; omega), objectTree_sample]
  rfl

/-- Either group of the object, with its proof. -/
theorem collisionFree_sample {offset n : ℕ}
    (cover : Cover groupSize sampleObject.length offset (replicate n (7 : UInt8)).length)
    (hn : n ≤ groupSize) :
    CollisionFree sampleObject offset (replicate n 7) (objectProof sampleObject (offset / groupSize)
      (divCeil (offset + (replicate n (7 : UInt8)).length) groupSize)) := by
  refine ⟨?_, ?_, fun p hp q hq _ => pairQueries_sample hp hq,
    fun p hp q hq _ => pairQueries_sample hp hq⟩
  · have hapart : Blake3.hash sampleObject ≠ Blake3.hash (replicate n 7) := by
      obtain ⟨k, rfl⟩ := Nat.exists_eq_succ_of_ne_zero (length_replicate ▸ cover.nonempty).ne'
      have hsmall : Blake3.hash (replicate (k + 1) 7) = Block.ofBytes 32 (replicate (k + 1) 7) :=
        if_pos (by rwa [length_replicate])
      rw [hash_sample, hsmall]
      intro h
      have hhead : some (4 : UInt8) = some 7 :=
        congrArg (fun digest : Digest => digest.toList.head?) h
      exact absurd hhead (by decide)
    rintro x (rfl | rfl) y (rfl | rfl) hxy
    · rfl
    · exact absurd hxy hapart
    · exact absurd hxy.symm hapart
    · rfl
  · have hin := cover.inside
    rw [length_replicate, sampleObject_length] at hin
    have hsubset := groupQueries_subset cover (by rw [length_replicate]; exact slice_sample hin)
    intro p hp q hq hpq
    obtain ⟨i, hi, rfl⟩ := hp.elim id (hsubset ·)
    obtain ⟨j, hj, rfl⟩ := hq.elim id (hsubset ·)
    have hcount : divCeil sampleObject.length groupSize = 2 := by
      rw [sampleObject_length]
      decide
    rw [zero_add, zero_add] at *
    have hij : (Block.ofBytes 32 [UInt8.ofNat i] : Digest) = Block.ofBytes 32 [UInt8.ofNat j] :=
      (groupValue_sample _ i).symm.trans (hpq.trans (groupValue_sample _ j))
    rw [hcount] at hi hj
    have : i = j := by
      interval_cases i <;> interval_cases j <;> revert hij <;> decide
    rw [this]

theorem range_proofs_exact_two_groups :
    ∃ expected c, root sampleObject = some expected ∧
      prove sampleObject groupSize 1 = .ok c ∧
      CollisionFree sampleObject c.coveredOffset c.data c.proof ∧
      verify expected sampleObject.length c.coveredOffset c.data c.proof = .ok () ∧
      slice? sampleObject c.coveredOffset (c.coveredOffset + c.data.length) = some c.data := by
  have hne := sampleObject_ne_nil
  have hlen := sampleObject_length_le
  obtain ⟨expected, hroot, hcomplete, hsound⟩ := range_proofs_exact splitRoot_sample hne hlen
  have hprove := prove_cover hlen cover_sample (slice_sample (n := 1) le_rfl)
  obtain ⟨c, hc, hverify⟩ := hcomplete groupSize 1 (by omega) (by rw [sampleObject_length])
  obtain rfl := Except.ok.inj (hprove.symm.trans hc)
  have hfree := collisionFree_sample (n := 1) cover_sample (by decide)
  exact ⟨expected, _, hroot, hprove, hfree, hverify, (hsound _ _ _ hfree hverify).1⟩

end Sample

end ObjectTransfer.Proof.Bao64
