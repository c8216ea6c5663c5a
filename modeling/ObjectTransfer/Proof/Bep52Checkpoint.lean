import Mathlib.Data.List.GetD
import ObjectTransfer.Proof.Bep52Producers
import ObjectTransfer.ProofStore.TreeCorrect

/-! # SHA-256 proofs from shared subtrees

A checkpoint keeps the piece hashes of an object larger than one piece in a shared tree without
padding. A node of the padded tree is the retained one, merged with zero subtrees up to its width.
-/

namespace ObjectTransfer.Proof.Bep52
open Foundations Streaming ProofStore List

variable [Sha256]

structure ProofCheckpoint where
  tree : ProofTree
  length : ℕ

/-- The root of `width` zero pieces, from the source's table. -/
def zero (width : ℕ) : Digest := (fun value => parent value value)^[trailingZeros width] zeroPiece

/-- Merge a subtree with zero subtrees until it is `width` pieces wide. -/
def padTo (hash : Digest) (covered width : ℕ) : Digest :=
  (List.range' (trailingZeros covered) (trailingZeros width - trailingZeros covered)).foldl
    (fun hash level => parent hash (zero (2 ^ level))) hash

/-- The hash of a subtree padded to `width` pieces. -/
def padded : ProofStore.Node → ℕ → Digest
  | .leaf hash, width => padTo hash (nextPowerOfTwo 1) width
  | .branch hash left right, width =>
    let covered := nextPowerOfTwo (left.count + right.count)
    padTo (if isPowerOfTwo (left.count + right.count) then hash
      else parent left.hash (padded right (covered / 2))) covered width

namespace ProofCheckpoint

def new (length : ℕ) (leaves : List Digest) : Except (Abort Error) ProofCheckpoint := do
  let count := divCeil length pieceSize
  rejectIf (count < 2 ∨ count ≠ leaves.length) (.error .outOfBounds)
  return ⟨.new parent leaves, length⟩

def updated (checkpoint : ProofCheckpoint) (length first : ℕ) (leaves : List Digest) :
    Except (Abort Error) ProofCheckpoint := do
  let count := divCeil length pieceSize
  rejectIf (count < 2) (.error .outOfBounds)
  let tree ← (checkpoint.tree.updated parent first leaves count).mapError
    (Abort.map fun _ => .outOfBounds)
  return ⟨tree, length⟩

def root (checkpoint : ProofCheckpoint) : Except (Abort Error) Digest := do
  let node ← okOr checkpoint.tree.root .panic
  return padded node (nextPowerOfTwo checkpoint.tree.len)

def nodeHash (tree : ProofTree) (start width : ℕ) : Option Digest := do
  let node ← tree.root
  let subtree ← node.subtree start (min width (tree.len - start))
  return padded subtree width

def prove (checkpoint : ProofCheckpoint) (offset length : ℕ) : Except (Abort Error) RangeCover := do
  let geometry ← RangeGeometry.of pieceSize checkpoint.length offset length
  let proof ← okOr (encodeProofBy checkpoint.tree.len geometry.first geometry.stop
    (nodeHash checkpoint.tree)) .panic
  return ⟨geometry.coveredOffset, geometry.coveredEnd - geometry.coveredOffset, proof⟩

/-- Whether a piece is the one kept at `index`. -/
def holds (checkpoint : ProofCheckpoint) (index : ℕ) (bytes : Bytes) : Bool :=
  match checkpoint.tree.subtree index 1 with
  | none => false
  | some expected =>
    match pieceHashesAt (index * pieceSize) bytes checkpoint.length with
    | .ok leaves => decide (leaves = [expected])
    | .error _ => false

structure Keeps (D : Bytes) (checkpoint : ProofCheckpoint) : Prop where
  length : checkpoint.length = D.length
  multi : pieceSize < D.length
  tree : checkpoint.tree.Holds parent (objectHashes D)

end ProofCheckpoint

/-- Padding climbs the left edge of the padded tree. -/
theorem padTo_eq {f : ℕ → Digest} {covered level : ℕ} (hle : covered ≤ level) (hlevel : level < 64)
    (hzero : ∀ j, 2 ^ covered ≤ j → f j = zeroPiece) :
    padTo (perfect parent f covered 0) (2 ^ covered) (2 ^ level) = perfect parent f level 0 := by
  rw [padTo, trailingZeros_two_pow (by omega), trailingZeros_two_pow hlevel]
  induction level, hle using Nat.le_induction with
  | base => rw [Nat.sub_self]; rfl
  | succ level hle ih =>
    have hsibling : perfect parent f level 1 = zero (2 ^ level) := by
      rw [zero, trailingZeros_two_pow (by omega)]
      refine perfect_const parent level fun j hj => hzero j ?_
      have := Nat.pow_le_pow_right (show 0 < 2 by omega) hle
      omega
    rw [Nat.succ_sub hle, range'_concat, foldl_append, ih (by omega), perfect, hsibling,
      one_mul, Nat.add_sub_cancel' hle]
    rfl

theorem padTo_self (hash : Digest) (width : ℕ) : padTo hash width width = hash := by
  simp [padTo]

variable {node : ProofStore.Node} {level : ℕ}

theorem padded_full (hcount : node.count = 2 ^ level) : padded node (2 ^ level) = node.hash := by
  cases node with
  | leaf hash =>
    change 1 = 2 ^ level at hcount
    rw [padded, ← hcount]
    exact padTo_self hash 1
  | branch hash left right =>
    change left.count + right.count = 2 ^ level at hcount
    simp only [padded, hcount, nextPowerOfTwo_two_pow, isPowerOfTwo_iff.mpr ⟨level, rfl⟩, if_true,
      padTo_self]
    rfl

/-- A subtree padded to a level is the left edge of the tree over its leaves and zero pieces. -/
theorem padded_eq {leaves : List Digest} (h : ProofStore.Node.build parent leaves = some node)
    (hle : leaves.length ≤ 2 ^ level) (hlevel : level < 64) :
    padded node (2 ^ level) = perfect parent (leaves.getD · zeroPiece) level 0 := by
  induction leaves, node, h using ProofStore.Node.build_induction generalizing level with
  | single =>
    rw [padded, ← padTo_eq (Nat.zero_le level) hlevel fun j hj => getD_eq_default _ _ hj]
    rfl
  | sides a b left right m ha hb hfit hleft hright ihl ihr =>
    have hpos := length_pos_iff.mpr hb
    have hac := ProofStore.Node.build_count hleft
    have hbc := ProofStore.Node.build_count hright
    rw [length_append, ha] at hle
    have hml : m + 1 ≤ level := by
      by_contra hlt
      have := Nat.pow_le_pow_right (show 0 < 2 by omega) (show level ≤ m by omega)
      omega
    -- The two sides are the two nodes below the root one level above them.
    have hl : left.hash = perfect parent ((a ++ b).getD · zeroPiece) m 0 := by
      rw [← padded_full (hac.trans ha), ihl ha.le (by omega)]
      refine perfect_congr parent m 0 fun j _ hj => ?_
      rw [getD_append]
      omega
    have hr : padded right (2 ^ m) = perfect parent ((a ++ b).getD · zeroPiece) m 1 := by
      have hshift := perfect_shift parent ((a ++ b).getD · zeroPiece) m 1 le_rfl 0
      simp only [Nat.sub_self, pow_zero, mul_one, add_zero] at hshift
      rw [← hshift, ihr hfit (by omega)]
      refine perfect_congr parent m 0 fun j _ _ => ?_
      rw [← ha, getD_append_right _ _ _ _ (Nat.le_add_right _ _), Nat.add_sub_cancel_left]
    have htop : (if isPowerOfTwo (2 ^ m + b.length) then parent left.hash right.hash
        else parent left.hash (padded right (2 ^ m))) =
          perfect parent ((a ++ b).getD · zeroPiece) (m + 1) 0 := by
      rw [perfect, mul_zero, zero_add, ← hl, ← hr]
      split_ifs with hpow
      · obtain ⟨k, hk⟩ := isPowerOfTwo_iff.mp hpow
        have hfull : nextPowerOfTwo (2 ^ m + b.length) = 2 ^ m + b.length := by
          rw [hk, nextPowerOfTwo_two_pow]
        rw [nextPowerOfTwo_sides hpos hfit, pow_succ] at hfull
        rw [padded_full (hbc.trans (by omega))]
      · rfl
    have hzero : ∀ j, 2 ^ (m + 1) ≤ j → (a ++ b).getD j zeroPiece = zeroPiece := by
      intro j hj
      rw [pow_succ] at hj
      exact getD_eq_default _ _ (by rw [length_append]; omega)
    rw [← padTo_eq hml hlevel hzero, ← htop]
    simp only [ProofStore.Node.join, padded, hac, hbc, ha, nextPowerOfTwo_sides hpos hfit,
      pow_succ, Nat.mul_div_cancel _ (show 0 < 2 by omega)]

namespace ProofCheckpoint

section Kept

variable {D : Bytes} {checkpoint : ProofCheckpoint} (h : checkpoint.Keeps D)
include h

theorem Keeps.ne_nil : D ≠ [] := by
  rintro rfl
  exact absurd h.multi (Nat.not_lt_zero _)

theorem Keeps.pieces : 2 ≤ divCeil D.length pieceSize := two_le_divCeil pieceSize_pos h.multi

theorem Keeps.len_eq : checkpoint.tree.len = divCeil D.length pieceSize := by
  rw [h.tree.len_eq, objectHashes_length]

variable (hlen : D.length ≤ isizeMax)
include hlen

theorem Keeps.nodeHash_eq {level i : ℕ} (hlevel : level ≤ Nat.clog 2 (divCeil D.length pieceSize))
    (hi : 2 ^ level * i < divCeil D.length pieceSize) :
    nodeHash checkpoint.tree (2 ^ level * i) (2 ^ level) =
      some (perfect parent (pieceLeaf D) level i) := by
  have hheight : Nat.clog 2 (divCeil D.length pieceSize) ≤ 48 :=
    Nat.clog_le_of_le_pow (unitCount_le hlen)
  have hne : objectHashes D ≠ [] := by
    rw [← length_pos_iff, objectHashes_length]
    omega
  have hdrop : ((objectHashes D).drop (2 ^ level * i)).take (2 ^ level) ≠ [] := by
    have := Nat.two_pow_pos level
    rw [← length_pos_iff, length_take, length_drop, objectHashes_length]
    omega
  obtain ⟨node, hnode⟩ := ProofStore.Node.build_isSome parent hne
  obtain ⟨subtree, hsubtree⟩ := ProofStore.Node.build_isSome parent hdrop
  have haligned := ProofStore.Node.subtree_aligned hnode (by rwa [objectHashes_length])
  rw [objectHashes_length, hsubtree] at haligned
  have hpadded := padded_eq hsubtree (by rw [length_take]; exact min_le_left _ _)
    (by omega)
  have hshift := perfect_shift parent (pieceLeaf D) level i le_rfl 0
  rw [Nat.sub_self, pow_zero, one_mul, add_zero] at hshift
  rw [nodeHash, h.len_eq, h.tree, hnode]
  simp only [Option.bind_eq_bind, Option.bind_some, haligned, hpadded, ← hshift]
  congr 1
  refine perfect_congr parent level 0 fun j _ hj => ?_
  rw [zero_add, mul_one] at hj
  rw [getD_eq_getElem?_getD, getElem?_take_of_lt hj, getElem?_drop, objectHashes, getElem?_map]
  by_cases hin : 2 ^ level * i + j < divCeil D.length pieceSize
  · rw [getElem?_range hin]
    rfl
  · rw [getElem?_eq_none (by simpa using hin), pieceLeaf_zero D _ (Nat.le_of_not_lt hin)]
    rfl

theorem Keeps.root_eq [Blake3] : ∃ value, Bep52.root D = some value ∧ checkpoint.root = .ok value := by
  have hmulti : ¬ D.length ≤ pieceSize := not_le.mpr h.multi
  have hpieces := h.pieces
  have hnode := h.nodeHash_eq hlen (i := 0) le_rfl (by omega)
  refine ⟨_, root_multi hlen hmulti, ?_⟩
  rw [mul_zero, nodeHash, h.len_eq, Nat.sub_zero, min_eq_right (Nat.le_pow_clog (by omega) _),
    ← h.len_eq] at hnode
  obtain ⟨node, hroot, hsub⟩ := Option.bind_eq_some_iff.mp hnode
  have hcount : checkpoint.tree.len = node.count := by rw [ProofTree.len, hroot]; rfl
  rw [hcount, ProofStore.Node.subtree_self] at hsub
  rw [root, hroot, okOr_some, ok_bind, ← h.len_eq, hcount]
  exact congrArg Except.ok (Option.some.inj hsub)

theorem Keeps.prove_eq [Blake3] (offset length : ℕ) :
    checkpoint.prove offset length = (Bep52.prove D offset length).map RangeProof.cover := by
  rw [prove, h.length, h.len_eq]
  refine (proves h.ne_nil hlen).agrees
    (fun first stop => okOr (encodeProofBy _ first stop _) .panic) ?_ offset length
  intro offset length cover
  rw [encodeProofBy_eq h.pieces (cover.units_lt pieceSize_pos) (cover.stop_le pieceSize_pos)
    fun level i hl hi => h.nodeHash_eq hlen hl hi, okOr_some, objectProof,
    if_neg (not_le.mpr h.multi)]

/-- A piece is held exactly where the object has it, unless another one hashes alike. -/
theorem Keeps.holds_iff {index : ℕ} {bytes : Bytes}
    (hinj : index < divCeil D.length pieceSize → pieceHash bytes = pieceLeaf D index →
      bytes = chunkAt pieceSize D index) :
    checkpoint.holds index bytes = true ↔
      index < divCeil D.length pieceSize ∧ bytes = chunkAt pieceSize D index := by
  rw [holds, h.tree.subtree_one, objectHashes, h.length, mul_comm index]
  by_cases hi : index < divCeil D.length pieceSize
  swap
  · simp [hi]
  have hleaf := (pieceHashesAt_eq_ok (le_u64Max_of_le_isizeMax hlen)).trans
    (Cover.leaf_iff (fun _ => pieceHash) pieceSize_pos hi (hinj hi))
  rw [getElem?_map, getElem?_range hi, Option.map_some]
  simp only [hi, true_and, ← hleaf]
  cases pieceHashesAt (pieceSize * index) bytes D.length with
  | error => simp
  | ok =>
    simp only [decide_eq_true_eq, Except.ok.injEq]
    rfl

end Kept

theorem new_keeps {D : Bytes} (hmulti : pieceSize < D.length) :
    ∃ checkpoint, new D.length (objectHashes D) = .ok checkpoint ∧ checkpoint.Keeps D := by
  have hcount := two_le_divCeil pieceSize_pos hmulti
  have hcond : ¬ (divCeil D.length pieceSize < 2 ∨
      divCeil D.length pieceSize ≠ (objectHashes D).length) := by
    rw [objectHashes_length]
    omega
  refine ⟨⟨.new parent (objectHashes D), D.length⟩, ?_, rfl, hmulti, rfl⟩
  rw [new, rejectIf_neg hcond]
  rfl

/-- An edit that fills the pieces it touches takes the checkpoint to the edited object. -/
theorem Keeps.updated_keeps {D : Bytes} {checkpoint : ProofCheckpoint} (h : checkpoint.Keeps D)
    (fill : UInt8) {offset length : ℕ} {bytes : Bytes}
    (hsettles : Settles pieceSize D.length length offset bytes.length)
    (hmulti : pieceSize < length) (hlen : length ≤ isizeMax) :
    ∃ next, checkpoint.updated length (offset / pieceSize) (objectHashes bytes) = .ok next ∧
      next.Keeps (edited fill D offset bytes length) := by
  have hlength := edited_length fill D hsettles.inside
  have htwo := two_le_divCeil pieceSize_pos hmulti
  obtain ⟨tree, hupdated, hholds⟩ := ProofTree.Holds.edited pieceSize_pos h.tree h.ne_nil fill
    hsettles (by omega) (le_u64Max_of_le_isizeMax hlen)
  refine ⟨⟨tree, length⟩, ?_, hlength.symm, by rwa [hlength], ?_⟩
  · have hleaves : checkpoint.tree.updated parent (offset / pieceSize) (objectHashes bytes)
        (divCeil length pieceSize) = .ok tree := hupdated
    rw [updated, rejectIf_neg (by omega), ok_bind, hleaves]
    rfl
  · rw [objectHashes, hlength]
    exact hholds

end ProofCheckpoint

end ObjectTransfer.Proof.Bep52
