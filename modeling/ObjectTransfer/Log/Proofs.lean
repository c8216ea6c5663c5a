import ObjectTransfer.Log.Merkle

/-! # Inclusion and consistency proofs are complete and sound

The log's recursive proofs are the paths of the left-balanced tree, and its verifiers climb along
those paths. Soundness is relative to the hash inputs that occur: those of the trees and those of
the climb.
-/

namespace ObjectTransfer.Log
open Foundations Streaming List LogTree

section
variable [Sha256]

def emptyRoot : Hash := Sha256.digest []

section Tree
variable {leaves : List Hash} {index oldSize : ℕ}

omit [Sha256] in
theorem halves_bounded (h : 1 < leaves.length) (hbound : leaves.length ≤ 2 ^ 64) :
    (lower leaves).length ≤ 2 ^ 64 ∧ (upper leaves).length ≤ 2 ^ 64 := by
  have hlt := splitPoint_lt h
  rw [lower_length h, upper_length]
  omega

theorem rootOf_split (h : 1 < leaves.length) :
    rootOf leaves = nodeHash (rootOf (leaves.take (split leaves.length)))
      (rootOf (leaves.drop (split leaves.length))) := by
  match leaves, h with
  | first :: second :: rest, _ => rw [rootOf]; rfl

theorem rootOf_eq (hbound : leaves.length ≤ 2 ^ 64) :
    rootOf leaves = LogTree.root nodeHash emptyRoot leaves := by
  induction leaves using splitInduction with
  | short leaves h =>
    match leaves, h with
    | [], _ => rw [rootOf, root]; rfl
    | [leaf], _ => rw [rootOf, root]
  | split leaves h ihl ihu =>
    obtain ⟨hlower, hupper⟩ := halves_bounded h hbound
    rw [rootOf_split h, split_eq_splitPoint h hbound, take_splitPoint, drop_splitPoint,
      ihl hlower, ihu hupper, root_split h]

theorem path_eq (hbound : leaves.length ≤ 2 ^ 64) :
    path index leaves = LogTree.path nodeHash emptyRoot index leaves := by
  induction leaves using splitInduction generalizing index with
  | short leaves h => rw [path, if_pos h, path_short h]
  | split leaves h ihl ihu =>
    obtain ⟨hlower, hupper⟩ := halves_bounded h hbound
    rw [path, if_neg (by omega)]
    simp only [split_eq_splitPoint h hbound, take_splitPoint, drop_splitPoint,
      rootOf_eq hlower, rootOf_eq hupper, ihl hlower, ihu hupper]
    split
    · rename_i hindex
      rw [path_lower h hindex]
    · rename_i hindex
      rw [path_upper h hindex]

/-- The base leads the proof unless it is a beginning of both trees. -/
theorem subproof_eq (hpos : 0 < oldSize) (hle : oldSize ≤ leaves.length)
    (hbound : leaves.length ≤ 2 ^ 64) (isPrefix : Bool) :
    subproof oldSize leaves isPrefix =
      (if isPrefix ∧ true ∉ steps oldSize leaves.length then []
        else [LogTree.root nodeHash emptyRoot (base oldSize leaves)]) ++
      siblings nodeHash emptyRoot oldSize leaves := by
  induction oldSize, leaves, hpos, hle using prefixInduction generalizing isPrefix with
  | same =>
    rw [subproof, if_pos (.inr rfl), siblings_self, steps_self, base_self, rootOf_eq hbound]
    cases isPrefix <;> simp
  | below oldSize leaves h hpos hlt hm ih =>
    obtain ⟨hlower, hupper⟩ := halves_bounded h hbound
    rw [subproof, if_neg (by omega)]
    simp only [split_eq_splitPoint h hbound, take_splitPoint, drop_splitPoint, if_pos hm]
    rw [ih hlower, rootOf_eq hupper, siblings_lower h hlt.ne hm, base_lower h hlt.ne hm,
      steps_lower h hlt.ne hm, lower_length h]
    simp
  | above oldSize leaves hpos h hlt hm ih =>
    obtain ⟨hlower, hupper⟩ := halves_bounded h hbound
    rw [subproof, if_neg (by omega)]
    simp only [split_eq_splitPoint h hbound, take_splitPoint, drop_splitPoint, if_neg hm]
    rw [ih hupper, rootOf_eq hlower, siblings_upper h hlt.ne hm, base_upper h hlt.ne hm,
      steps_upper h hlt.ne hm]
    simp

end Tree

/-! ## Hash inputs -/

def treeInputs (leaves : List Hash) : Set Bytes :=
  {input | ∃ pair ∈ nodes nodeHash emptyRoot leaves, input = nodeInput pair}

def climbInputs (start : Hash) (steps : List (Bool × Hash)) : Set Bytes :=
  {input | ∃ pair ∈ LogTree.climbPairs nodeHash start steps, input = nodeInput pair}

omit [Sha256] in
theorem nodeInput_injective : Function.Injective nodeInput := by
  intro pair other h
  have hpairs := congrArg readPair (cons_inj_right _ |>.mp h)
  rwa [readPair_writePair, readPair_writePair] at hpairs

theorem nodeHash_injOn {inputs : Set Bytes} (hinj : Set.InjOn Sha256.digest inputs) :
    Set.InjOn (fun pair : Hash × Hash => nodeHash pair.1 pair.2) {pair | nodeInput pair ∈ inputs} :=
  fun _ hpair _ hother h => nodeInput_injective (hinj hpair hother h)

/-! ## Inclusion -/

variable {leaves : List Hash}

section Inclusion
variable {leaf root : Hash} {index size : ℕ} {proof : List Hash}

omit [Sha256] in
theorem bitLength_eq {n : ℕ} (h : n < 2 ^ 64) : 64 - leadingZeros n = Nat.size n := by
  unfold leadingZeros
  by_cases hzero : n = 0
  · simp [hzero]
  · have hlow : 2 ^ Nat.log2 n ≤ n := Nat.log2_self_le hzero
    have hhigh : n < 2 ^ (Nat.log2 n + 1) := Nat.lt_log2_self
    have hsize : Nat.size n = Nat.log2 n + 1 :=
      le_antisymm (Nat.size_le.mpr hhigh) (Nat.lt_size.mpr hlow)
    have hlog : Nat.log2 n < 64 := by
      rw [← Nat.pow_lt_pow_iff_right (a := 2) (by omega)]
      exact hlow.trans_lt h
    rw [if_neg hzero, hsize]
    omega

omit [Sha256] in
theorem sides_decompose (hindex : index < size) (hbound : size ≤ 2 ^ 64) :
    LogTree.sides index size = lowBits index (decompose index size).1 ++
      List.replicate (decompose index size).2 true := by
  have hxor : index ^^^ (size - 1) < 2 ^ 64 := Nat.xor_lt_two_pow (by omega) (by omega)
  rw [sides_eq_bits hindex, decompose, bitLength_eq hxor]

omit [Sha256] in
theorem climb_bits (merge : Hash → Hash → Hash) (index : ℕ) (siblings : List Hash) (start : Hash)
    (level : ℕ) :
    (siblings.zipIdx level).foldl (fun computed (sibling, i) =>
      if (index >>> i) % 2 = 0 then merge computed sibling else merge sibling computed) start =
      LogTree.climb merge start
        (((List.range' level siblings.length).map index.testBit).zip siblings) := by
  induction siblings generalizing start level with
  | nil => rfl
  | cons sibling siblings ih =>
    rw [zipIdx_cons, foldl_cons, ih, length_cons, range'_succ, map_cons, zip_cons_cons]
    have hbit : index.testBit level = ((index >>> level) % 2 == 1) := by
      rw [Nat.testBit_eq_decide_div_mod_eq, Nat.shiftRight_eq_div_pow]
      rfl
    have hstep : mergeSide merge start (index.testBit level, sibling) =
        if (index >>> level) % 2 = 0 then merge start sibling else merge sibling start := by
      unfold mergeSide
      rw [hbit]
      rcases Nat.mod_two_eq_zero_or_one (index >>> level) with h | h <;> simp [h]
    simp only [← hstep]
    rfl

omit [Sha256] in
theorem climb_border (merge : Hash → Hash → Hash) (siblings : List Hash) (start : Hash) :
    siblings.foldl (fun computed sibling => merge sibling computed) start =
      LogTree.climb merge start ((List.replicate siblings.length true).zip siblings) := by
  induction siblings generalizing start with
  | nil => rfl
  | cons sibling siblings ih =>
    rw [foldl_cons, ih, length_cons, replicate_succ, zip_cons_cons]
    rfl

theorem verifyInclusion_eq_ok (hindex : index < size) (hbound : size ≤ maxEntries) :
    verifyInclusion leaf index size proof root = .ok () ↔
      proof.length = (LogTree.sides index size).length ∧
      LogTree.climb nodeHash leaf ((LogTree.sides index size).zip proof) = root := by
  have hwide : size ≤ 2 ^ 64 := hbound.trans (by decide)
  have hsides := sides_decompose hindex hwide
  have hlength : (LogTree.sides index size).length =
      (decompose index size).1 + (decompose index size).2 := by
    rw [hsides]
    simp [lowBits]
  have hrange : ¬ (size = 0 ∨ size > maxEntries ∨ index ≥ size) := by omega
  rw [verifyInclusion, rejectIf_neg hrange, ok_bind, hlength]
  by_cases hproof : proof.length = (decompose index size).1 + (decompose index size).2
  · have hinner : (proof.take (decompose index size).1).length = (decompose index size).1 :=
      length_take_of_le (by omega)
    have hborder : (proof.drop (decompose index size).1).length = (decompose index size).2 := by
      rw [length_drop]
      omega
    have hclimb : LogTree.climb nodeHash leaf ((LogTree.sides index size).zip proof) =
        LogTree.climb nodeHash (LogTree.climb nodeHash leaf
          ((lowBits index (decompose index size).1).zip (proof.take (decompose index size).1)))
          ((replicate (decompose index size).2 true).zip
            (proof.drop (decompose index size).1)) := by
      conv_lhs => rw [hsides, ← take_append_drop (decompose index size).1 proof]
      rw [zip_append (by rw [hinner]; simp [lowBits]), LogTree.climb, foldl_append]
      rfl
    have hbits := climb_bits nodeHash index (proof.take (decompose index size).1) leaf 0
    have hrest := climb_border nodeHash (proof.drop (decompose index size).1)
      (LogTree.climb nodeHash leaf ((lowBits index (decompose index size).1).zip
        (proof.take (decompose index size).1)))
    rw [hinner, ← range_eq_range', ← lowBits] at hbits
    rw [hborder] at hrest
    rw [hclimb, ← hrest, ← hbits]
    simp [hproof]
  · simp [hproof]

theorem inclusionProof_eq (log : MerkleLog) (hsize : size ≤ log.leaves.length) (hindex : index < size) :
    log.inclusionProof index size =
      .ok (LogTree.path nodeHash emptyRoot index (log.leaves.take size)) := by
  have hbound := log.bounded.trans (show maxEntries ≤ 2 ^ 64 by decide)
  rw [MerkleLog.inclusionProof, rejectIf_neg (by omega), ok_bind,
    path_eq ((length_take_le' _ _).trans hbound)]
  rfl

theorem rootAt_eq (log : MerkleLog) (hsize : size ≤ log.leaves.length) :
    log.rootAt size = .ok (LogTree.root nodeHash emptyRoot (log.leaves.take size)) := by
  have hbound := log.bounded.trans (show maxEntries ≤ 2 ^ 64 by decide)
  rw [MerkleLog.rootAt, rejectIf_neg (by omega), ok_bind,
    rootOf_eq ((length_take_le' _ _).trans hbound)]
  rfl

def inclusionInputs (leaf : Hash) (index size : ℕ) (proof : List Hash) : Set Bytes :=
  climbInputs leaf ((LogTree.sides index size).zip proof)

theorem verifyInclusion_path (hbound : leaves.length ≤ maxEntries)
    (hleaf : leaves[index]? = some leaf) :
    verifyInclusion leaf index leaves.length (LogTree.path nodeHash emptyRoot index leaves)
      (LogTree.root nodeHash emptyRoot leaves) = .ok () := by
  obtain ⟨hindex, -⟩ := List.getElem?_eq_some_iff.mp hleaf
  rw [verifyInclusion_eq_ok hindex hbound]
  exact ⟨path_length nodeHash emptyRoot index leaves, climb_path nodeHash emptyRoot hleaf⟩

theorem verifyInclusion_inj (hbound : leaves.length ≤ maxEntries) (hindex : index < leaves.length)
    (hinj : Set.InjOn Sha256.digest (treeInputs leaves ∪ inclusionInputs leaf index leaves.length proof))
    (hverify : verifyInclusion leaf index leaves.length proof
      (LogTree.root nodeHash emptyRoot leaves) = .ok ()) :
    leaves[index]? = some leaf ∧ proof = LogTree.path nodeHash emptyRoot index leaves := by
  obtain ⟨hproof, hroot⟩ := (verifyInclusion_eq_ok hindex hbound).mp hverify
  exact climb_inj (nodeHash_injOn hinj) hindex hproof
    (fun pair hpair => .inl ⟨pair, hpair, rfl⟩) (fun pair hpair => .inr ⟨pair, hpair, rfl⟩) hroot

/-- The head of every tree of the log accepts each leaf with the proof the log gives, and nothing
else. -/
theorem inclusion_complete_sound (log : MerkleLog) {index size : ℕ}
    (hsize : size ≤ log.leaves.length) (hindex : index < size) :
    ∃ leaf proof root, log.leaves[index]? = some leaf ∧ log.inclusionProof index size = .ok proof ∧
      log.rootAt size = .ok root ∧ verifyInclusion leaf index size proof root = .ok () ∧
      proof.length = (decompose index size).1 + (decompose index size).2 ∧
      ∀ leaf' proof', Set.InjOn Sha256.digest (treeInputs (log.leaves.take size) ∪
          inclusionInputs leaf' index size proof') →
        verifyInclusion leaf' index size proof' root = .ok () → leaf' = leaf ∧ proof' = proof := by
  have hlength : (log.leaves.take size).length = size := length_take_of_le hsize
  have hproof := inclusionProof_eq log hsize hindex
  have hroot := rootAt_eq log hsize
  have hbound : size ≤ maxEntries := hsize.trans log.bounded
  obtain ⟨leaf, hleaf⟩ : ∃ leaf, log.leaves[index]? = some leaf :=
    ⟨_, getElem?_eq_getElem (hindex.trans_le hsize)⟩
  have htaken : (log.leaves.take size)[index]? = some leaf := by
    rwa [getElem?_take_of_lt hindex]
  refine ⟨leaf, _, _, hleaf, hproof, hroot, ?_, ?_, ?_⟩
  all_goals
    clear hproof hroot
    generalize log.leaves.take size = leaves at hlength htaken
    subst hlength
  · exact verifyInclusion_path hbound htaken
  · rw [path_length, sides_decompose hindex (hbound.trans (by decide))]
    simp [lowBits]
  · intro leaf' proof' hinj hverify
    obtain ⟨hfound, hsame⟩ := verifyInclusion_inj hbound hindex hinj hverify
    rw [htaken] at hfound
    exact ⟨(Option.some.inj hfound).symm, hsame⟩

end Inclusion

/-! ## Consistency -/

section Consistency

variable {fuel node last : ℕ}

omit [Sha256] in
theorem climbOdd_eq (h : node < 2 ^ fuel) : climbOdd fuel node last = ascend node last := by
  induction fuel generalizing node last with
  | zero =>
    obtain rfl : node = 0 := by omega
    rw [climbOdd, ascend_even (by omega)]
  | succ fuel ih =>
    rw [climbOdd]
    by_cases heven : node % 2 = 0
    · rw [if_pos heven, ascend_even (by omega)]
    · rw [if_neg heven, ih (by omega)]
      exact (ascend_odd (by omega) last).symm

/-- Merge siblings along a list of steps into both heads. -/
def consume : List Bool → List Hash → Hash → Hash → Except Error (List Hash × Hash × Hash)
  | [], rest, fromOld, fromNew => .ok (rest, fromOld, fromNew)
  | shared :: steps, proof, fromOld, fromNew => do
    let (sibling, rest) ← splitFirst proof
    consume steps rest (if shared then nodeHash sibling fromOld else fromOld)
      (mergeSide nodeHash fromNew (shared, sibling))

/-- Above the old tree there are only siblings of the new one. -/
theorem mergeNew_eq (h : last < 2 ^ fuel) (rest : List Hash) (fromOld fromNew : Hash) :
    (mergeNew fuel last rest fromNew).map (fun result => (result.1, fromOld, result.2)) =
      consume (walk 0 last) rest fromOld fromNew := by
  induction fuel generalizing last rest fromNew with
  | zero =>
    obtain rfl : last = 0 := by omega
    rw [walk_zero]
    rfl
  | succ fuel ih =>
    by_cases hzero : last = 0
    · subst hzero
      rw [walk_zero, mergeNew, if_pos rfl]
      rfl
    · rw [walk_pos hzero, if_neg (by omega), if_pos (by omega), mergeNew, if_neg hzero]
      cases rest with
      | nil => rfl
      | cons sibling rest => exact ih (by omega) rest _

theorem merges_eq (hnode : node < 2 ^ fuel) (hle : node ≤ last) (hlast : last < 2 ^ 64)
    (rest : List Hash) (fromOld fromNew : Hash) :
    (mergeBoth fuel node last rest fromOld fromNew >>= fun state =>
      (mergeNew 64 state.1 state.2.1 state.2.2.2).map
        fun result => (result.1, state.2.2.1, result.2)) =
      consume (walk node last) rest fromOld fromNew := by
  induction fuel generalizing node last rest fromOld fromNew with
  | zero =>
    obtain rfl : node = 0 := by omega
    exact mergeNew_eq hlast rest fromOld fromNew
  | succ fuel ih =>
    by_cases hzero : node = 0
    · subst hzero
      exact mergeNew_eq hlast rest fromOld fromNew
    · rw [mergeBoth, if_neg hzero]
      rw [walk_pos (by omega)]
      by_cases hodd : node % 2 = 1
      · rw [if_pos hodd, if_pos hodd]
        cases rest with
        | nil => rfl
        | cons sibling rest => exact ih (by omega) (by omega) (by omega) rest _ _
      · rw [if_neg hodd, if_neg hodd]
        by_cases hlt : node < last
        · rw [if_pos hlt, if_pos hlt]
          cases rest with
          | nil => rfl
          | cons sibling rest => exact ih (by omega) (by omega) (by omega) rest _ _
        · rw [if_neg hlt, if_neg hlt]
          exact ih (by omega) (by omega) (by omega) rest _ _

variable {proof : List Hash}

theorem consume_eq_ok {steps : List Bool} {fromOld fromNew oldRoot newRoot : Hash} :
    consume steps proof fromOld fromNew = .ok ([], oldRoot, newRoot) ↔
      proof.length = steps.length ∧
      LogTree.climb nodeHash fromOld (shared (steps.zip proof)) = oldRoot ∧
      LogTree.climb nodeHash fromNew (steps.zip proof) = newRoot := by
  induction steps generalizing proof fromOld fromNew with
  | nil => simp [consume, shared, LogTree.climb, length_eq_zero_iff]
  | cons shared steps ih =>
    cases proof with
    | nil => simp [consume, splitFirst]
    | cons =>
      rw [consume, splitFirst, ok_bind]
      simp only [ih, length_cons, Nat.add_right_cancel_iff]
      cases shared <;> rfl

variable {oldRoot newRoot : Hash}

/-- Both loops and the final comparison accept exactly a walk that ends at both heads. -/
theorem merges_eq_ok (hle : node ≤ last) (hlast : last < 2 ^ 64) (rest : List Hash) (start : Hash) :
    (mergeBoth 64 node last rest start start >>= fun (last, rest, fromOld, fromNew) =>
      mergeNew 64 last rest fromNew >>= fun (rest, fromNew) =>
        rejectIf (¬ (fromOld = oldRoot ∧ fromNew = newRoot ∧ rest = [])) Error.proofInvalid) = .ok () ↔
      consume (walk node last) rest start start = .ok ([], oldRoot, newRoot) := by
  rw [← merges_eq (hle.trans_lt hlast) hle hlast rest start start]
  cases hboth : mergeBoth 64 node last rest start start with
  | error => simp
  | ok state =>
    obtain ⟨last, rest, fromOld, fromNew⟩ := state
    cases hnew : mergeNew 64 last rest fromNew with
    | error => simp [hnew, Except.map]
    | ok state =>
      obtain ⟨rest, fromNew⟩ := state
      simp only [ok_bind, hnew, rejectIf_eq_ok, not_not, Except.map, Except.ok.injEq, Prod.mk.injEq]
      tauto

variable {oldSize newSize : ℕ}

/-- The verifier climbs from the base along the steps between the two sizes. -/
theorem verifyConsistency_eq_ok
    (hpos : 0 < oldSize) (hlt : oldSize < newSize) (hbound : newSize ≤ maxEntries) :
    verifyConsistency oldSize oldRoot newSize newRoot proof = .ok () ↔ ∃ start path,
      proof = (if true ∈ steps oldSize newSize then [start] else []) ++ path ∧
      (true ∉ steps oldSize newSize → start = oldRoot) ∧
      path.length = (steps oldSize newSize).length ∧
      LogTree.climb nodeHash start (shared ((steps oldSize newSize).zip path)) =
        oldRoot ∧
      LogTree.climb nodeHash start ((steps oldSize newSize).zip path) = newRoot := by
  have hwide : newSize ≤ 2 ^ 32 := hbound
  have hsteps := steps_eq_walk hpos hlt
  have hle : (ascend (oldSize - 1) (newSize - 1)).1 ≤
      (ascend (oldSize - 1) (newSize - 1)).2 := ascend_le (by omega)
  have hlast := ascend_last_le (oldSize - 1) (newSize - 1)
  rw [verifyConsistency, rejectIf_neg (by omega), ok_bind, if_neg (by omega),
    climbOdd_eq (by omega)]
  generalize ascend (oldSize - 1) (newSize - 1) = walked at hsteps hle hlast ⊢
  obtain ⟨node, last⟩ := walked
  simp only at hsteps hle hlast ⊢
  have hmem : true ∈ steps oldSize newSize ↔ node ≠ 0 := by
    rw [hsteps]
    exact true_mem_walk hle
  have haccept := @merges_eq_ok _ node last oldRoot newRoot hle (by omega)
  simp only [← hsteps, consume_eq_ok] at haccept
  by_cases hnode : node = 0
  · have hnone : true ∉ steps oldSize newSize := by simp [hmem, hnode]
    rw [startNode, if_neg (by omega), ok_bind]
    simp only [hnone, not_false_eq_true, forall_const]
    rw [haccept]
    constructor
    · intro h
      exact ⟨oldRoot, proof, rfl, rfl, h⟩
    · rintro ⟨start, path, rfl, rfl, h⟩
      exact h
  · have hsome : true ∈ steps oldSize newSize := hmem.mpr hnode
    rw [startNode, if_pos (by omega)]
    simp only [hsome, not_true_eq_false, false_imp_iff, true_and]
    cases proof with
    | nil => simp [splitFirst]
    | cons first rest =>
      rw [splitFirst, ok_bind]
      simp only [haccept]
      constructor
      · intro h
        exact ⟨first, rest, rfl, h⟩
      · rintro ⟨start, path, hproof, h⟩
        cases hproof
        exact h

/-- The inputs hashed while a consistency proof is checked: both climbs from the start node. -/
def consistencyInputs (oldRoot : Hash) (oldSize newSize : ℕ) (proof : List Hash) : Set Bytes :=
  {input | ∃ start path,
    (if true ∈ steps oldSize newSize then proof = start :: path
      else start = oldRoot ∧ proof = path) ∧
    (input ∈ climbInputs start (shared ((steps oldSize newSize).zip path)) ∨
      input ∈ climbInputs start ((steps oldSize newSize).zip path))}

omit [Sha256] in
/-- When the base is a beginning of both trees it is the whole old tree. -/
theorem base_eq_take (hpos : 0 < oldSize)
    (hle : oldSize ≤ leaves.length) (hnone : true ∉ steps oldSize leaves.length) :
    base oldSize leaves = leaves.take oldSize := by
  induction oldSize, leaves, hpos, hle using prefixInduction with
  | same => rw [base_self, take_length]
  | below oldSize leaves h hpos hlt hm ih =>
    rw [steps_lower h hlt.ne hm] at hnone
    rw [base_lower h hlt.ne hm, ← take_lower hm]
    apply ih
    rw [lower_length h]
    simpa using hnone
  | above oldSize leaves hpos h hlt hm =>
    rw [steps_upper h hlt.ne hm] at hnone
    simp at hnone

theorem verifyConsistency_subproof (hpos : 0 < oldSize)
    (hle : oldSize ≤ leaves.length) (hbound : leaves.length ≤ maxEntries) :
    verifyConsistency oldSize (LogTree.root nodeHash emptyRoot (leaves.take oldSize)) leaves.length
      (LogTree.root nodeHash emptyRoot leaves) (subproof oldSize leaves true) = .ok () := by
  have hwide : leaves.length ≤ 2 ^ 64 := hbound.trans (by decide)
  rw [subproof_eq hpos hle hwide]
  by_cases hsame : oldSize = leaves.length
  · subst hsame
    rw [verifyConsistency, rejectIf_neg (by omega), ok_bind, if_pos rfl, steps_self,
      siblings_self, take_length]
    simp
  · rw [verifyConsistency_eq_ok hpos (by omega) hbound]
    obtain ⟨hold, hnew⟩ := climb_siblings nodeHash emptyRoot hpos hle
    refine ⟨_, _, ?_, ?_, siblings_length nodeHash emptyRoot hpos hle, hold, hnew⟩
    · by_cases hmem : true ∈ steps oldSize leaves.length <;> simp [hmem]
    · intro hnone
      rw [base_eq_take hpos hle hnone]

theorem verifyConsistency_inj {older leaves : List Hash} (hpos : 0 < older.length)
    (hle : older.length ≤ leaves.length) (hbound : leaves.length ≤ maxEntries)
    (hinj : Set.InjOn Sha256.digest (treeInputs older ∪ treeInputs leaves ∪
      consistencyInputs (LogTree.root nodeHash emptyRoot older) older.length leaves.length proof))
    (hverify : verifyConsistency older.length (LogTree.root nodeHash emptyRoot older) leaves.length
      (LogTree.root nodeHash emptyRoot leaves) proof = .ok ()) :
    older = leaves.take older.length ∧ proof = subproof older.length leaves true := by
  have hwide : leaves.length ≤ 2 ^ 64 := hbound.trans (by decide)
  have hmerge := nodeHash_injOn hinj
  by_cases hsame : older.length = leaves.length
  · rw [verifyConsistency, rejectIf_neg (by omega), ok_bind, if_pos hsame, rejectIf_eq_ok,
      not_not] at hverify
    have hequal : older = leaves := root_inj hmerge hsame
      (fun pair hpair => .inl (.inl ⟨pair, hpair, rfl⟩))
      (fun pair hpair => .inl (.inr ⟨pair, hpair, rfl⟩)) hverify.2
    subst hequal
    rw [subproof, if_pos (.inr rfl), take_length]
    exact ⟨rfl, hverify.1⟩
  · obtain ⟨start, path, hproof, hstart, hlength, hold, hnew⟩ :=
      (verifyConsistency_eq_ok hpos (by omega) hbound).mp hverify
    have hfound : if true ∈ steps older.length leaves.length then proof = start :: path
        else start = root nodeHash emptyRoot older ∧ proof = path := by
      split
      · rename_i hmem
        rw [hproof, if_pos hmem]
        rfl
      · rename_i hmem
        exact ⟨hstart hmem, by rw [hproof, if_neg hmem, nil_append]⟩
    obtain ⟨htake, hbase, hpath⟩ := climbs_inj hmerge hpos hle rfl hlength
      (fun pair hpair => .inl (.inl ⟨pair, hpair, rfl⟩))
      (fun pair hpair => .inl (.inr ⟨pair, hpair, rfl⟩))
      (fun pair hpair => .inr ⟨start, path, hfound, .inl ⟨pair, hpair, rfl⟩⟩)
      (fun pair hpair => .inr ⟨start, path, hfound, .inr ⟨pair, hpair, rfl⟩⟩) hold hnew
    refine ⟨htake, ?_⟩
    rw [hproof, subproof_eq hpos hle hwide, ← hpath, ← hbase]
    by_cases hmem : true ∈ steps older.length leaves.length <;> simp [hmem]

theorem consistencyProof_eq (log : MerkleLog) (hpos : 1 ≤ oldSize)
    (hle : oldSize ≤ newSize) (hnew : newSize ≤ log.leaves.length) :
    log.consistencyProof oldSize newSize =
      .ok (subproof oldSize (log.leaves.take newSize) true) := by
  rw [MerkleLog.consistencyProof, rejectIf_neg (by omega), ok_bind]
  rfl

/-- The log's consistency proofs are accepted, and an accepted proof shows the older tree to be a
beginning of the newer one and is the one the log gives. -/
theorem consistency_complete_sound :
    (∀ (log : MerkleLog) (oldSize newSize : ℕ), 1 ≤ oldSize → oldSize ≤ newSize →
      newSize ≤ log.leaves.length → ∃ oldRoot newRoot proof, log.rootAt oldSize = .ok oldRoot ∧
        log.rootAt newSize = .ok newRoot ∧ log.consistencyProof oldSize newSize = .ok proof ∧
        verifyConsistency oldSize oldRoot newSize newRoot proof = .ok ()) ∧
    ∀ (older : List Hash) (log : MerkleLog) (proof : List Hash), 1 ≤ older.length →
      older.length ≤ log.leaves.length →
      Set.InjOn Sha256.digest (treeInputs older ∪ treeInputs log.leaves ∪
        consistencyInputs (rootOf older) older.length log.leaves.length proof) →
      verifyConsistency older.length (rootOf older) log.leaves.length (rootOf log.leaves) proof =
        .ok () →
      older = log.leaves.take older.length ∧
        log.consistencyProof older.length log.leaves.length = .ok proof := by
  constructor
  · intro log oldSize newSize hpos hle hnew
    have hlength : (log.leaves.take newSize).length = newSize := length_take_of_le hnew
    have htake : (log.leaves.take newSize).take oldSize = log.leaves.take oldSize := by
      rw [take_take, min_eq_left hle]
    refine ⟨_, _, _, rootAt_eq log (hle.trans hnew), rootAt_eq log hnew,
      consistencyProof_eq log hpos hle hnew, ?_⟩
    have hbound : newSize ≤ maxEntries := hnew.trans log.bounded
    rw [← htake]
    generalize log.leaves.take newSize = leaves at hlength
    subst hlength
    exact verifyConsistency_subproof hpos hle hbound
  · intro older log proof hpos hle hinj hverify
    have hwide : log.leaves.length ≤ 2 ^ 64 := log.bounded.trans (by decide)
    rw [rootOf_eq hwide, rootOf_eq (hle.trans hwide)] at hverify
    rw [rootOf_eq (hle.trans hwide)] at hinj
    obtain ⟨htake, hproof⟩ := verifyConsistency_inj hpos hle log.bounded hinj hverify
    refine ⟨htake, ?_⟩
    rw [consistencyProof_eq log hpos hle le_rfl, take_length, hproof]

end Consistency

/-! ## A log of two entries -/

section Sample

theorem nodes_pair (first second : Hash) :
    nodes nodeHash emptyRoot [first, second] = [(first, second)] := by
  have hsplit : splitPoint 2 = 1 := rfl
  rw [nodes_split (by simp), lower, upper]
  simp [hsplit, nodes, root]

theorem treeInputs_pair (first second : Hash) :
    treeInputs [first, second] = {nodeInput (first, second)} := by
  simp [treeInputs, nodes_pair]

theorem treeInputs_single (leaf : Hash) : treeInputs [leaf] = ∅ := by
  simp [treeInputs, nodes]

omit [Sha256] in
theorem sides_pair : LogTree.sides 0 2 = [false] := by
  rw [sides_lower (by decide) (by decide), sides_short (by decide)]
  rfl

omit [Sha256] in
theorem steps_pair : steps 1 2 = [false] := by
  rw [steps_lower (by decide) (by decide) (by decide)]
  exact congrArg (· ++ [false]) (steps_self 1)

theorem inclusionInputs_pair (first second : Hash) :
    inclusionInputs first 0 2 [second] = {nodeInput (first, second)} := by
  simp [inclusionInputs, climbInputs, sides_pair, LogTree.climbPairs, sidePair]

theorem consistencyInputs_pair (first second : Hash) :
    consistencyInputs first 1 2 [second] = {nodeInput (first, second)} := by
  ext input
  simp [consistencyInputs, climbInputs, steps_pair, shared, LogTree.climbPairs,
    sidePair]

def pairLog (first second : Hash) : MerkleLog := ⟨[first, second], by simp [maxEntries]⟩

theorem path_pair (first second : Hash) :
    (pairLog first second).inclusionProof 0 2 = .ok [second] := by
  rw [inclusionProof_eq _ (by simp [pairLog]) (by decide)]
  have hsplit : splitPoint 2 = 1 := rfl
  simp only [pairLog, take_of_length_le (show [first, second].length ≤ 2 from le_rfl)]
  rw [path_lower (by simp) (by simp [hsplit]), lower, upper]
  simp [hsplit, path_short, root]

theorem rootOf_pair (first second : Hash) : rootOf [first, second] = nodeHash first second := by
  rw [rootOf_split (by simp)]
  have hsplit : split 2 = 1 := rfl
  simp [hsplit, rootOf]

theorem verifyConsistency_pair (first second : Hash) :
    verifyConsistency 1 (rootOf [first]) 2 (rootOf [first, second]) [second] = .ok () := by
  rw [rootOf_pair, rootOf, verifyConsistency, rejectIf_neg (by decide), ok_bind, if_neg (by decide)]
  have hclimb : climbOdd 64 (1 - 1) (2 - 1) = (0, 1) := rfl
  have hboth : mergeBoth 64 0 1 [second] first first = .ok (1, [second], first, first) := rfl
  have hnew : mergeNew 64 1 [second] first = .ok ([], nodeHash first second) := rfl
  simp only [hclimb, startNode, gt_iff_lt, lt_self_iff_false, if_false, ok_bind, hboth, hnew]
  exact rejectIf_neg (by simp)

end Sample
end

section Witness

/-- A hash that keeps the first bytes of its input. -/
abbrev truncated : Sha256 := ⟨Block.ofBytes 32⟩

attribute [local instance] truncated

theorem inclusion_complete_sound_two_entries :
    let log := pairLog (leafHash [1]) (leafHash [2])
    ∃ leaf proof root, log.inclusionProof 0 2 = .ok proof ∧ log.rootAt 2 = .ok root ∧
      verifyInclusion leaf 0 2 proof root = .ok () ∧
      Set.InjOn Sha256.digest (treeInputs (log.leaves.take 2) ∪ inclusionInputs leaf 0 2 proof) ∧
      ∀ other, verifyInclusion leaf 0 2 [other] root = .ok () →
        Set.InjOn Sha256.digest (treeInputs (log.leaves.take 2) ∪
          inclusionInputs leaf 0 2 [other]) → other = leafHash [2] := by
  intro log
  obtain ⟨leaf, proof, root, hleaf, hproof, hroot, hverify, -, honly⟩ :=
    inclusion_complete_sound log (show 2 ≤ 2 from le_rfl) (show 0 < 2 by decide)
  obtain rfl : leafHash [1] = leaf := Option.some.inj hleaf
  obtain rfl : [leafHash [2]] = proof := Except.ok.inj ((path_pair _ _).symm.trans hproof)
  refine ⟨_, _, root, hproof, hroot, hverify, ?_, ?_⟩
  · change Set.InjOn Sha256.digest (treeInputs [leafHash [1], leafHash [2]] ∪ _)
    rw [treeInputs_pair, inclusionInputs_pair, Set.union_self]
    exact Set.injOn_singleton _ _
  · intro other hother hinj
    exact singleton_inj.mp (honly _ _ hinj hother).2

theorem consistency_complete_sound_two_entries :
    let log := pairLog (leafHash [1]) (leafHash [2])
    (∃ oldRoot newRoot proof, log.rootAt 1 = .ok oldRoot ∧ log.rootAt 2 = .ok newRoot ∧
      log.consistencyProof 1 2 = .ok proof ∧
      verifyConsistency 1 oldRoot 2 newRoot proof = .ok ()) ∧
    [leafHash [1]] = log.leaves.take 1 ∧ log.consistencyProof 1 2 = .ok [leafHash [2]] := by
  intro log
  refine ⟨consistency_complete_sound.1 log 1 2 le_rfl (by decide) le_rfl,
    consistency_complete_sound.2 [leafHash [1]] log [leafHash [2]] le_rfl (by decide) ?_
      (verifyConsistency_pair _ _)⟩
  change Set.InjOn Sha256.digest (treeInputs [leafHash [1]] ∪ treeInputs [leafHash [1], leafHash [2]] ∪
    consistencyInputs (rootOf [leafHash [1]]) 1 2 [leafHash [2]])
  rw [treeInputs_single, treeInputs_pair, rootOf, consistencyInputs_pair, Set.empty_union,
    Set.union_self]
  exact Set.injOn_singleton _ _

end Witness

end ObjectTransfer.Log
