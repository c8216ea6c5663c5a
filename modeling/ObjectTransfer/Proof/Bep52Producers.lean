import ObjectTransfer.Proof.Bep52Retained

/-! # All SHA-256 proof producers agree

The padded tree in memory and the unpadded layers in a store hold the same nodes of one perfect
tree, whose leaves past the last piece are zero pieces.
-/

namespace ObjectTransfer.Proof.Bep52
open Foundations Streaming ProofStore List PieceHashes

variable {offset length : ℕ} {index : ℕ} {piece : Bytes} {k : ℕ} {D : Bytes}

section Memory

variable [Sha256]

theorem objectHashes_eq (D : Bytes) : (chunks pieceSize D).map pieceHash = objectHashes D := by
  rw [chunks, map_map]
  rfl

/-- A tree already built proves what the piece hashes do. -/
theorem encodeProofFrom_padded (hashes : List Digest) (first stop : ℕ) :
    encodeProofFrom (paddedPieceTree hashes) hashes.length first stop =
      encodeProof hashes first stop := by
  rw [encodeProof]
  split_ifs with h
  · rw [encodeProofFrom, encodeProofBy, if_pos h]
  · rfl

theorem layersFrom_getLast? (f : ℕ → Digest) (height : ℕ) :
    (layersFrom ((List.range (2 ^ height)).map f)).getLast? =
      some [perfect parent f height 0] := by
  induction height generalizing f with
  | zero =>
    rw [layersFrom, if_neg (by simp)]
    rfl
  | succ height ih =>
    rw [layersFrom, if_pos (Nat.lt_of_succ_le (two_le_range_pow f height)), pairUp_pow, getLast?_cons, ih,
      perfect_pairs]
    rfl

theorem layersFrom_ne_nil (base : List Digest) : layersFrom base ≠ [] := by
  rw [layersFrom]
  split_ifs <;> simp

structure PieceHashes.Keeps (D : Bytes) (pieces : PieceHashes) : Prop where
  hashes : pieces.hashes = objectHashes D
  length : pieces.length = D.length
  layers : pieces.layers = [] ∨ pieces.layers = paddedPieceTree (objectHashes D)

variable {pieces : PieceHashes}

theorem PieceHashes.Keeps.sealLayers (h : pieces.Keeps D) : pieces.sealLayers.Keeps D :=
  ⟨h.hashes, h.length, .inr (by rw [PieceHashes.sealLayers, h.hashes])⟩

/-- A retained hash answers for the piece it was taken from, and for no other one. -/
theorem PieceHashes.Keeps.holds_iff (h : pieces.Keeps D)
    (hinj : index < divCeil D.length pieceSize → pieceHash piece = pieceLeaf D index →
      piece = chunkAt pieceSize D index) :
    pieces.holds index piece = true ↔
      index < divCeil D.length pieceSize ∧ piece = chunkAt pieceSize D index := by
  rw [holds, h.hashes, objectHashes]
  by_cases hi : index < divCeil D.length pieceSize
  swap
  · simp [hi]
  rw [getElem?_map, getElem?_range hi, Option.map_some]
  simp only [hi, true_and, decide_eq_true_eq]
  constructor
  · rintro ⟨-, -, hhash⟩
    exact hinj hi hhash
  · rintro rfl
    have cover := Cover.of_unit pieceSize_pos hi
    refine ⟨ne_nil_of_length_pos cover.nonempty, ?_, rfl⟩
    rw [chunkAt_length]
    exact min_le_left _ _

variable {D : Bytes} (hlen : D.length ≤ isizeMax)
include hlen

variable [Blake3] (hne : D ≠ [])
include hne

theorem PieceHashes.Keeps.proveWith_eq (h : pieces.Keeps D) (offset length : ℕ) :
    proveWith pieces offset length = (prove D offset length).map RangeProof.cover := by
  rw [proveWith, h.length, h.hashes, ← (proves hne hlen).agrees
    (fun first stop => okOr (encodeProof (objectHashes D) first stop) .panic)
    fun offset length cover => by rw [encodeProof_objectHashes hlen cover, okOr_some]]
  rcases h.layers with hlayers | hlayers
  · simp [sealed, hlayers]
  · have hsealed : pieces.sealed = true := by
      simp [sealed, hlayers, paddedPieceTree, layersFrom_ne_nil]
    simp only [hsealed, if_true, hlayers, encodeProofFrom_padded]

theorem PieceHashes.Keeps.treeRoot_sealed (h : pieces.Keeps D) (hsealed : pieces.layers ≠ []) :
    pieces.treeRoot = if pieceSize < D.length then root D else none := by
  have hpos := length_pos_iff.mpr hne
  rw [treeRoot, h.hashes, objectHashes_length]
  by_cases hone : D.length ≤ pieceSize
  · rw [divCeil_eq_one hpos hone, if_pos (by omega), if_neg (by omega)]
  · have hpieces := two_le_divCeil pieceSize_pos (Nat.lt_of_not_le hone)
    have hle : divCeil D.length pieceSize ≤ 2 ^ Nat.clog 2 (divCeil D.length pieceSize) :=
      Nat.le_pow_clog (by omega) _
    rw [if_neg (by omega), if_pos (by omega), root_multi hlen hone,
      h.layers.resolve_left hsealed, paddedPieceTree, objectHashes_length, max_eq_left (by omega),
      nextPowerOfTwo, objectHashes, resize_range (pieceLeaf_zero D) hle, layersFrom_getLast?]
    rfl

omit [Sha256] [Blake3] hlen hne in
theorem PieceHashes.treeRoot_unsealed (hopen : pieces.layers = []) : pieces.treeRoot = none := by
  rw [treeRoot, hopen]
  split_ifs <;> rfl

omit [Blake3] hne in
theorem PieceHashes.pushAll_chunks :
    ∃ pieces, PieceHashes.new.pushAll (chunks pieceSize D) = .ok pieces ∧ pieces.layers = [] ∧
      pieces.Keeps D := by
  have hu64 := le_u64Max_of_le_isizeMax hlen
  obtain ⟨_, hpush, rfl⟩ := foldlM_chunks push .new (l := D)
    (P := fun k pieces => pieces = ⟨(range k).map (pieceLeaf D), min (pieceSize * k) D.length,
      decide (D.length < pieceSize * k), []⟩)
    pieceSize_pos (by simp [new]) (by
      rintro k _ hlt rfl
      obtain ⟨hchunk, hle, hnext, hshort⟩ := chunkAt_next pieceSize_pos hlt
      refine ⟨_, ?_, rfl⟩
      rw [push, rejectIf_neg (by simp [hchunk, hle]), rejectIf_neg (by simp; omega)]
      simp only [ok_bind]
      rw [checkedAdd_of_le (by omega), hnext]
      simp only [okOr_some, ok_bind, hshort, range_succ, map_append, map_singleton]
      rfl)
  exact ⟨_, hpush, rfl, rfl, min_eq_right (le_mul_divCeil pieceSize_pos D.length), .inl rfl⟩

omit [Blake3] hlen hne in
/-- Hashes alone are taken for more than one piece only. -/
theorem PieceHashes.fromPieceHashes_eq (D : Bytes) :
    fromPieceHashes (objectHashes D) D.length =
      if divCeil D.length pieceSize < 2 then .error (.error .outOfBounds)
      else .ok (PieceHashes.sealLayers ⟨objectHashes D, D.length, true, []⟩) := by
  by_cases h : divCeil D.length pieceSize < 2
  · simp only [fromPieceHashes, rejectIf_pos (Or.inl h), if_pos h, error_bind]
  · have hcond : ¬ (divCeil D.length pieceSize < 2 ∨
        (objectHashes D).length ≠ divCeil D.length pieceSize) := by simp [h]
    simp only [fromPieceHashes, rejectIf_neg hcond, if_neg h, ok_bind]
    rfl

omit [Blake3] hlen hne in
/-- A segment is accepted when it covers pieces of the object. -/
theorem pieceHashesAt_eq_ok {bytes : Bytes} (hfit : length ≤ u64Max) {leaves : List Digest} :
    pieceHashesAt offset bytes length = .ok leaves ↔
      Cover pieceSize length offset bytes.length ∧ objectHashes bytes = leaves := by
  simp only [pieceHashesAt, bind_eq_ok, rejectIf_eq_ok, okOr_eq_ok, checkedAdd_eq_some, not_not,
    pure_eq_ok, objectHashes_eq, Cover.iff_segment]
  constructor
  · rintro ⟨-, hne, -, haligned, stop, ⟨-, rfl⟩, -, hin, rfl⟩
    exact ⟨⟨length_pos_iff.mpr hne, haligned, by omega, by omega⟩, rfl⟩
  · rintro ⟨⟨hpos, haligned, hin, hclosed⟩, rfl⟩
    exact ⟨(), length_pos_iff.mp hpos, (), haligned, _, ⟨by omega, rfl⟩, (), by omega, rfl⟩

omit [Blake3] in
theorem pieceHashesAt_eq : pieceHashesAt 0 D D.length = .ok (objectHashes D) :=
  (pieceHashesAt_eq_ok (le_u64Max_of_le_isizeMax hlen)).mpr
    ⟨⟨rfl, length_pos_iff.mpr hne, by omega, .inl (zero_add _)⟩, rfl⟩

end Memory

section Stored

open LawfulNodeStorage

variable [Sha256] {σ : Type} [NodeStorage σ] [LawfulNodeStorage σ] {store : σ}

namespace StoredPieceHashes

variable {storage : σ}

omit [Sha256] in
theorem new_eq (h : contents storage = []) :
    StoredPieceHashes.new storage = .ok ⟨storage, 0, 0, false, none⟩ := by
  rw [StoredPieceHashes.new, isEmpty_eq h, fromStore_ok, ok_bind, rejectIf_neg (by simp), ok_bind]
  rfl

theorem push_eq (stored : StoredPieceHashes σ) (hfailure : stored.failure = none)
    (hpiece : piece ≠ []) (hle : piece.length ≤ pieceSize) (hopen : stored.ended = false)
    (hfit : stored.length + piece.length ≤ u64Max) (hpieces : stored.pieces + 1 ≤ u64Max) :
    ∃ storage, settled (stored.push piece) = .ok ⟨storage, stored.length + piece.length,
        stored.pieces + 1, decide (piece.length < pieceSize), none⟩ ∧
      contents storage = contents stored.storage ++ [pieceHash piece] := by
  obtain ⟨storage, happend, hcontents⟩ := append_eq stored.storage (pieceHash piece)
  refine ⟨storage, ?_, hcontents⟩
  simp only [push, hfailure, checkedAdd_of_le hfit, checkedAdd_of_le hpieces, okOr_some]
  rw [rejectIf_neg (by simp [hpiece, hle, hopen])]
  simp only [ok_bind, pure, Except.pure, happend]
  rfl

/-- The layers of an object, and where they are in the store. -/
abbrev Built (f : ℕ → Digest) (n : ℕ) (storage : σ) (layers : List StoredLayer)
    (last : StoredLayer) : Prop :=
  Leveled (perfect parent f) (fun level => divCeil n (2 ^ level)) (contents storage) layers last

section Layers

variable {f : ℕ → Digest} {n : ℕ} (hzero : ∀ j, n ≤ j → f j = zeroPiece)

include hzero in
/-- One parent is merged from its children, or from the last one and padding. -/
theorem appendParent_eq {layer : StoredLayer} {level : ℕ}
    (hcount : layer.count = divCeil n (2 ^ level))
    (hretains : Retains (contents storage) layer (perfect parent f level))
    (hfit : (contents storage).length ≤ u64Max) (hindex : index < divCeil layer.count 2) :
    appendParent layer (2 ^ level) storage index =
      appendNode storage (perfect parent f (level + 1) index) := by
  rw [lt_divCeil_iff (by omega)] at hindex
  have hlt := (List.getElem?_eq_some_iff.mp (hretains _ hindex)).1
  have hmul : checkedMul index 2 = some (2 * index) := by
    rw [checkedMul, mul_comm, if_pos (by omega)]
  have hleft := readStoredNode_eq hretains hindex hfit
  simp only [appendParent, hmul, okOr_some, ok_bind, hleft]
  by_cases hright : 2 * index + 1 < layer.count
  · rw [if_pos hright, readStoredNode_eq hretains hright hfit]
    rfl
  · have hpad : n ≤ 2 ^ level * (2 * index + 1) := by
      rw [hcount, lt_divCeil_iff (Nat.two_pow_pos _)] at hright
      omega
    rw [if_neg hright, zeroSubtree_eq hzero hpad]
    rfl

variable {layers : List StoredLayer} {last : StoredLayer}

/-- A layer with two nodes or more is not the last one there is room for. -/
theorem Built.length_lt (hn : n ≤ 2 ^ 48) (h : Built f n storage layers last)
    (h2 : 1 < last.count) : layers.length < maxStoredLevels := by
  have hcount := h.last_held.1
  by_contra hge
  have hpow : 2 ^ 48 ≤ 2 ^ (layers.length - 1) :=
    Nat.pow_le_pow_right (by omega) (by unfold maxStoredLevels at hge; omega)
  rw [hcount, lt_divCeil_iff (Nat.two_pow_pos _)] at h2
  omega

include hzero in
theorem appendParents_eq (hn : n ≤ 2 ^ 48) (h : Built f n storage layers last)
    (h2 : 1 < last.count) :
    ∃ storage', (List.range (divCeil last.count 2)).foldlM
        (appendParent last (2 ^ (layers.length - 1))) storage = .ok storage' ∧
      (contents storage').length = (contents storage).length + divCeil last.count 2 ∧
      (contents storage').length ≤ u64Max ∧
      Built f n storage' (layers ++ [⟨(contents storage).length, divCeil last.count 2⟩])
        ⟨(contents storage).length, divCeil last.count 2⟩ := by
  have hpos := h.length_pos
  have hcount := h.last_held.1
  have hwidth : divCeil last.count 2 = divCeil n (2 ^ layers.length) := by
    rw [hcount, divCeil_divCeil (Nat.two_pow_pos _) (by omega), ← Nat.pow_succ,
      show (layers.length - 1).succ = layers.length by omega]
  rw [hwidth]
  refine h.append_layer (h.length_lt hn h2) (by rwa [pow_zero, divCeil_one])
    (by rw [pow_zero, divCeil_one]; exact divCeil_le_self (Nat.two_pow_pos _) n)
    fun current index hindex hretains hfit => ?_
  rw [appendParent_eq hzero hcount hretains hfit (hwidth ▸ hindex),
    show layers.length - 1 + 1 = layers.length by omega]

include hzero in
/-- Building keeps the layers and ends when the last one has a single node. -/
theorem finishLayers_eq (hn : n ≤ 2 ^ 48) (h : Built f n storage layers last)
    (hfits : (contents storage).length ≤ u64Max) (htall : layers.length ≤ Nat.clog 2 n + 1) :
    ∃ storage' layers' last', finishLayers storage layers last = .ok (storage', layers') ∧
      last'.count ≤ 1 ∧ layers'.length ≤ Nat.clog 2 n + 1 ∧
      (contents storage').length ≤ u64Max ∧ Built f n storage' layers' last' := by
  induction hc : last.count using Nat.strong_induction_on generalizing storage layers last with
  | _ count ih =>
    rw [finishLayers]
    by_cases h2 : 1 < last.count
    · have hlayers := h.length_lt hn h2
      have hwidth : layers.length - 1 < 64 := by
        unfold maxStoredLevels at hlayers
        omega
      have hends := h.ends
      have htall' : layers.length < Nat.clog 2 n + 1 := by
        have hpos := h.length_pos
        have hcount := h.last_held.1
        have hlt : 2 ^ (layers.length - 1) < n := by
          rw [hcount, lt_divCeil_iff (Nat.two_pow_pos _)] at h2
          omega
        have := (Nat.lt_clog_iff_pow_lt (by omega)).mpr hlt
        omega
      obtain ⟨storage', hfold, -, hfit, hbuilt⟩ := appendParents_eq hzero hn h h2
      obtain ⟨final, layers', last', hfinish, hlast, hfinal⟩ :=
        ih (divCeil last.count 2) (hc ▸ divCeil_two_lt h2) hbuilt hfit (by simpa using htall') rfl
      refine ⟨final, layers', last', ?_, hlast, hfinal⟩
      rw [hends] at hfinish
      simp only [dif_pos h2, if_pos hwidth, okOr_some, ok_bind,
        checkedAdd_of_le (hends ▸ hfits), len_eq, fromStore_ok, hends,
        rejectIf_neg (not_not.mpr rfl), hfold, rejectIf_neg (not_le.mpr hlayers), hfinish]
    · exact ⟨storage, layers, last, by rw [dif_neg h2], by omega, htall, hfits, h⟩

include hzero in
theorem finish_eq (hn : n ≤ 2 ^ 48) (hpos : 0 < n) (stored : StoredPieceHashes σ)
    (hfailure : stored.failure = none) (hpieces : stored.pieces = n)
    (hcontents : contents stored.storage = (List.range n).map f) :
    ∃ whole : SealedPieceHashes σ, stored.finish = .ok whole ∧ whole.length = stored.length ∧
      whole.pieces = n ∧ ∃ last, last.count ≤ 1 ∧ whole.layers.length ≤ Nat.clog 2 n + 1 ∧
        (contents whole.storage).length ≤ u64Max ∧ Built f n whole.storage whole.layers last := by
  have hlength : (contents stored.storage).length = n := by simp [hcontents]
  have hbase : Built f n stored.storage [⟨0, n⟩] ⟨0, n⟩ := by
    have h := Leveled.base (perfect parent f) fun level => divCeil n (2 ^ level)
    simp only [pow_zero, divCeil_one] at h
    rw [Built, hcontents]
    exact h
  obtain ⟨storage', layers', last, hfinish, hlast, htall, hfit, hbuilt⟩ :=
    finishLayers_eq hzero hn hbase (by rw [hlength]; unfold u64Max; omega) (by simp)
  have hmax : ¬ n > maxStoredPieces := by
    have : 2 ^ 48 ≤ maxStoredPieces := by decide
    omega
  refine ⟨⟨storage', stored.length, n, layers'⟩, ?_, rfl, rfl, last, hlast, htall, hfit, hbuilt⟩
  simp only [finish, hfailure, len_eq, fromStore_ok, ok_bind, hlength, hpieces,
    rejectIf_neg (not_not.mpr (rfl : n = n)), rejectIf_neg hmax, if_neg hpos.ne', hfinish]
  rfl

end Layers

end StoredPieceHashes

structure SealedPieceHashes.Keeps (D : Bytes) (stored : SealedPieceHashes σ) : Prop where
  length : stored.length = D.length
  pieces : stored.pieces = divCeil D.length pieceSize
  built : ∃ last, last.count ≤ 1 ∧
    stored.layers.length ≤ Nat.clog 2 (divCeil D.length pieceSize) + 1 ∧
    (contents stored.storage).length ≤ u64Max ∧
    StoredPieceHashes.Built (pieceLeaf D) (divCeil D.length pieceSize) stored.storage stored.layers
      last

theorem StoredPieceHashes.pushAll_chunks (hlen : D.length ≤ isizeMax) (hne : D ≠ [])
    (hstore : contents store = []) :
    ∃ filled whole, StoredPieceHashes.pushAll ⟨store, 0, 0, false, none⟩ (chunks pieceSize D) =
        .ok filled ∧ filled.finish = .ok whole ∧ whole.Keeps D := by
  have hu64 := le_u64Max_of_le_isizeMax hlen
  have hcount : divCeil D.length pieceSize ≤ 2 ^ 48 := unitCount_le hlen
  have hpos : 0 < divCeil D.length pieceSize :=
    (lt_divCeil_iff pieceSize_pos).mpr (by simpa using length_pos_iff.mpr hne)
  obtain ⟨_, hpush, storage, rfl, hcontents⟩ := foldlM_chunks
    (fun stored piece => settled (push stored piece)) ⟨store, 0, 0, false, none⟩ (l := D)
    (P := fun k stored => ∃ storage : σ,
      stored = ⟨storage, min (pieceSize * k) D.length, k, decide (D.length < pieceSize * k), none⟩ ∧
        contents storage = (range k).map (pieceLeaf D)) pieceSize_pos ⟨store, by simp, hstore⟩ (by
      rintro k _ hlt ⟨before, rfl, hbefore⟩
      obtain ⟨hchunk, hle, hnext, hshort⟩ := chunkAt_next pieceSize_pos hlt
      have hk := (lt_divCeil_iff pieceSize_pos).mpr hlt
      obtain ⟨storage, hpush, hafter⟩ := push_eq ⟨before, min (pieceSize * k) D.length, k,
        decide (D.length < pieceSize * k), none⟩ rfl hchunk hle (by simp; omega)
        (by simp only; omega) (by simp only; unfold u64Max; omega)
      refine ⟨_, hpush, storage, by simp only [hnext, hshort], ?_⟩
      rw [hafter, hbefore, range_succ, map_append]
      rfl)
  obtain ⟨whole, hfinish, hlength, hpieces, hbuilt⟩ := finish_eq (pieceLeaf_zero D)
    hcount hpos ⟨storage, min (pieceSize * divCeil D.length pieceSize) D.length,
      divCeil D.length pieceSize, _, none⟩ rfl rfl hcontents
  exact ⟨_, whole, hpush, hfinish,
    hlength.trans (min_eq_right (le_mul_divCeil pieceSize_pos D.length)), hpieces, hbuilt⟩

namespace SealedPieceHashes

variable {D : Bytes} {stored : SealedPieceHashes σ} (h : stored.Keeps D)
include h

/-- The layers reach up to the root and no further. -/
theorem Keeps.layers_length :
    stored.layers.length = Nat.clog 2 (divCeil D.length pieceSize) + 1 := by
  obtain ⟨last, hlast, htall, -, hbuilt⟩ := h.built
  have hpos := hbuilt.length_pos
  have hcount := hbuilt.last_held.1
  have hle : divCeil D.length pieceSize ≤ 2 ^ (stored.layers.length - 1) := by
    by_contra hlt
    have : 1 < divCeil (divCeil D.length pieceSize) (2 ^ (stored.layers.length - 1)) := by
      rw [lt_divCeil_iff (Nat.two_pow_pos _)]
      omega
    omega
  have := Nat.clog_le_of_le_pow hle
  omega

/-- Every node of the tree that is not padding is in the store. -/
theorem Keeps.read (level index : ℕ) (hlevel : level ≤ Nat.clog 2 (divCeil D.length pieceSize))
    (hindex : 2 ^ level * index < divCeil D.length pieceSize) :
    ∃ layer, stored.layers[level]? = some layer ∧
      readStoredNode stored.storage layer index = .ok (perfect parent (pieceLeaf D) level index) := by
  have hlength := h.layers_length
  obtain ⟨last, -, -, hfit, hbuilt⟩ := h.built
  obtain ⟨layer, hat, hcount, hretains⟩ := hbuilt.held level (by omega)
  refine ⟨layer, hat, readStoredNode_eq hretains ?_ hfit⟩
  rw [hcount, lt_divCeil_iff (Nat.two_pow_pos _)]
  exact hindex

theorem Keeps.read_piece (hindex : index < divCeil D.length pieceSize) :
    readStoredNode stored.storage (stored.layers.headD ⟨0, 0⟩) index = .ok (pieceLeaf D index) := by
  obtain ⟨layer, hlayer, hread⟩ := h.read 0 index (Nat.zero_le _) (by simpa using hindex)
  rw [← head?_eq_getElem?] at hlayer
  rw [headD_eq_head?_getD, hlayer]
  exact hread

/-- Reading the uncovered pieces of a window from the store. -/
theorem Keeps.readWindow_eq (first stop : ℕ) (indices : List ℕ) :
    indices.foldlM (fun output index =>
      if (index < first ∨ index ≥ stop) ∧ index < stored.pieces then do
        let node ← readStoredNode stored.storage (stored.layers.headD ⟨0, 0⟩) index
        pure (output ++ node.toList)
      else pure output) [] =
    .ok (writeAll List.Vector.toList (holes
      (indices.map (windowSlot (divCeil D.length pieceSize) first stop (pieceLeaf D)))
      (indices.map (pieceLeaf D)))) := by
  let hash : ℕ → ℕ → Option Digest := fun index _ => some (pieceLeaf D index)
  have hhash : ∀ index < divCeil D.length pieceSize, hash index 1 = some (pieceLeaf D index) :=
    fun _ _ => rfl
  have hwindow := encodeWindow_eq first stop (pieceLeaf D) hhash indices []
  refine foldlM_ok_of_some (fun output index _ output' hstep => ?_) hwindow
  rw [h.pieces]
  split_ifs at hstep ⊢ with hcond
  · rw [h.read_piece hcond.2, ok_bind]
    exact congrArg Except.ok (Option.some.inj hstep)
  · exact congrArg Except.ok (Option.some.inj hstep)

variable (hlen : D.length ≤ isizeMax)
include hlen

/-- Climbing in the store meets the siblings of the tree. -/
theorem Keeps.encodeStoredUncles_eq (steps : ℕ) {level a : ℕ}
    (hsteps : level + steps = Nat.clog 2 (divCeil D.length pieceSize)) (ha : a < 2 ^ steps)
    (output : Bytes) :
    encodeStoredUncles stored (2 ^ Nat.clog 2 (divCeil D.length pieceSize)) (2 ^ level * a)
        (2 ^ level) level output =
      .ok (output ++ writeAll List.Vector.toList
        (holes (uncleSlots (divCeil D.length pieceSize) level a steps)
          ((siblings parent (pieceLeaf D) level a steps).map Prod.snd))) := by
  have hheight : Nat.clog 2 (divCeil D.length pieceSize) ≤ 48 :=
    Nat.clog_le_of_le_pow (unitCount_le hlen)
  have hpos := Nat.two_pow_pos level
  induction steps generalizing level a output with
  | zero =>
    rw [← hsteps, add_zero, encodeStoredUncles, if_pos rfl]
    simp [uncleSlots, holes]
  | succ steps ih =>
    have hlt : 2 ^ level < 2 ^ Nat.clog 2 (divCeil D.length pieceSize) :=
      Nat.pow_lt_pow_right (by omega) (by omega)
    have hbound : 2 ^ Nat.clog 2 (divCeil D.length pieceSize) ≤ 2 ^ 48 :=
      Nat.pow_le_pow_right (by omega) hheight
    have hsibling : siblingIndex a < 2 ^ (steps + 1) := by
      unfold siblingIndex
      split_ifs <;> omega
    have hsiblingStart : 2 ^ level * siblingIndex a < 2 ^ Nat.clog 2 (divCeil D.length pieceSize) := by
      rw [← hsteps, pow_add]
      exact Nat.mul_lt_mul_of_pos_left hsibling hpos
    have hmul : checkedMul (siblingIndex a) (2 ^ level) = some (2 ^ level * siblingIndex a) := by
      rw [checkedMul, mul_comm, if_pos (by unfold u64Max; omega)]
    have hnext := fun output => @ih (level + 1) (a / 2) (by omega)
      (by rw [pow_succ] at ha; omega) output (Nat.two_pow_pos _)
    have hdouble : 2 ^ level.succ ≤ u64Max := by
      rw [pow_succ]
      unfold u64Max
      omega
    rw [encodeStoredUncles, if_neg (by omega), if_neg (by omega), uncleSlots, siblings, map_cons]
    simp only [Nat.mul_div_cancel_left _ hpos, xor_one, hmul, okOr_some, ok_bind,
      min_siblingStart, ← pow_succ, if_pos hdouble, h.pieces]
    by_cases hreal : 2 ^ level * siblingIndex a < divCeil D.length pieceSize
    · obtain ⟨layer, hlayer, hread⟩ := h.read level _ (by omega) hreal
      simp only [if_pos hreal, hlayer, okOr_some, ok_bind, hread, pure_bind, hnext, holes,
        writeAll_cons, append_assoc]
    · simp only [if_neg hreal, pure_bind, hnext, holes]

theorem Keeps.encodeStoredProof_multi {first stop : ℕ} (hpieces : 2 ≤ divCeil D.length pieceSize)
    (hwin : first < stop) (hstop : stop ≤ divCeil D.length pieceSize) :
    encodeStoredProof stored first stop = .ok (writeAll List.Vector.toList
      (treeHashes (pieceLeaf D) (divCeil D.length pieceSize) first stop)) := by
  have hcount : divCeil D.length pieceSize ≤ 2 ^ 48 := unitCount_le hlen
  have hheight : Nat.clog 2 (divCeil D.length pieceSize) ≤ 48 := Nat.clog_le_of_le_pow hcount
  have hbound : 2 ^ Nat.clog 2 (divCeil D.length pieceSize) ≤ 2 ^ 48 :=
    Nat.pow_le_pow_right (by omega) hheight
  have htree : checkedNextPowerOfTwo (divCeil D.length pieceSize) =
      some (nextPowerOfTwo (divCeil D.length pieceSize)) := by
    rw [checkedNextPowerOfTwo, nextPowerOfTwo, if_pos (by unfold u64Max; omega)]
  obtain ⟨hwindow, hlevel, -⟩ := window_spec hpieces hwin hstop
  have hsteps := windowLevel_add_steps hpieces hwin hstop
  have hindex := windowIndex_lt hpieces hwin hstop
  have hstart := window_start_le (divCeil D.length pieceSize) first stop
  have hfold := h.readWindow_eq first stop (windowPieces (divCeil D.length pieceSize) first stop)
  have huncles := h.encodeStoredUncles_eq hlen _ hsteps hindex
  rw [windowPieces, h.pieces] at hfold
  have hwidth := Nat.pow_le_pow_right (show 0 < 2 by omega) hlevel
  rw [encodeStoredProof, h.pieces, if_neg (by omega), htree]
  simp only [okOr_some, ok_bind, hwindow]
  rw [checkedAdd_of_le (by unfold u64Max; omega), okOr_some, ok_bind, hfold, ok_bind,
    trailingZeros_two_pow (by omega), nextPowerOfTwo, huncles, ← writeAll_append]
  rfl

variable [Blake3] (hne : D ≠ [])
include hne

theorem Keeps.prove_eq (offset length : ℕ) :
    stored.prove offset length = (Bep52.prove D offset length).map RangeProof.cover := by
  rw [SealedPieceHashes.prove, h.length]
  refine (proves hne hlen).agrees _ (fun offset length cover => ?_) offset length
  have hnonempty := cover.nonempty
  have hin := cover.inside
  by_cases hone : D.length ≤ pieceSize
  · rw [encodeStoredProof, h.pieces, divCeil_eq_one (by omega) hone, if_pos le_rfl, objectProof,
      if_pos hone]
  · rw [objectProof, if_neg hone]
    exact h.encodeStoredProof_multi hlen (two_le_divCeil pieceSize_pos (Nat.lt_of_not_le hone))
      (cover.units_lt pieceSize_pos) (cover.stop_le pieceSize_pos)

theorem Keeps.treeRoot_eq :
    stored.treeRoot = .ok (if pieceSize < D.length then root D else none) := by
  have hpos := length_pos_iff.mpr hne
  rw [treeRoot, h.pieces]
  by_cases hone : D.length ≤ pieceSize
  · rw [divCeil_eq_one hpos hone, if_pos (by omega), if_neg (by omega)]
  · have hpieces := two_le_divCeil pieceSize_pos (Nat.lt_of_not_le hone)
    have hlength := h.layers_length
    obtain ⟨layer, hlayer, hread⟩ := h.read (Nat.clog 2 (divCeil D.length pieceSize)) 0 le_rfl
      (by omega)
    have hlast : stored.layers.getLast? = some layer := by
      rw [getLast?_eq_getElem?, hlength, Nat.add_sub_cancel, hlayer]
    rw [if_neg (by omega), if_pos (by omega), root_multi hlen hone, hlast]
    simp only [hread]
    rfl

end SealedPieceHashes

end Stored

/-- Every producer gives the proof made from the bytes, and those that hold a tree know the object's
root when the object has more than one piece. Hashes alone are not taken for a single piece, and
hashes that were not sealed have no tree. -/
theorem piece_producers_agree [Sha256] [Blake3] {σ : Type} [NodeStorage σ] [LawfulNodeStorage σ]
    {D : Bytes} (hne : D ≠ []) (hlen : D.length ≤ isizeMax) {store : σ}
    (hstore : LawfulNodeStorage.contents store = []) :
    ∃ (leaves : List Digest) (fed : PieceHashes) (start filled : StoredPieceHashes σ)
      (stored : SealedPieceHashes σ),
      pieceHashesAt 0 D D.length = .ok leaves ∧
      PieceHashes.new.pushAll (chunks pieceSize D) = .ok fed ∧
      StoredPieceHashes.new store = .ok start ∧ start.pushAll (chunks pieceSize D) = .ok filled ∧
      filled.finish = .ok stored ∧
      (∀ offset length, 0 < length → offset + length ≤ D.length → ∃ proof,
        prove D offset length = .ok proof ∧
        proveWith fed offset length = .ok proof.cover ∧
        proveWith fed.sealLayers offset length = .ok proof.cover ∧
        (∀ rebuilt, fromPieceHashes leaves D.length = .ok rebuilt →
          proveWith rebuilt offset length = .ok proof.cover) ∧
        stored.prove offset length = .ok proof.cover) ∧
      (pieceSize < D.length → ∃ rebuilt value,
        fromPieceHashes leaves D.length = .ok rebuilt ∧ root D = some value ∧
        fed.treeRoot = none ∧ fed.sealLayers.treeRoot = some value ∧
        rebuilt.treeRoot = some value ∧ stored.treeRoot = .ok (some value)) ∧
      (D.length ≤ pieceSize →
        fromPieceHashes leaves D.length = .error (.error .outOfBounds)) := by
  obtain ⟨fed, hfed, hopen, hkeeps⟩ := pushAll_chunks hlen
  obtain ⟨filled, stored, hfilled, hfinish, hstored⟩ :=
    StoredPieceHashes.pushAll_chunks hlen hne hstore
  have hrebuilt : ∀ rebuilt, fromPieceHashes (objectHashes D) D.length = .ok rebuilt →
      rebuilt.Keeps D ∧ rebuilt.layers ≠ [] := by
    intro rebuilt h
    rw [fromPieceHashes_eq] at h
    split_ifs at h
    obtain rfl := Except.ok.inj h
    exact ⟨PieceHashes.Keeps.sealLayers ⟨rfl, rfl, .inl rfl⟩, layersFrom_ne_nil _⟩
  refine ⟨objectHashes D, fed, _, filled, stored, pieceHashesAt_eq hlen hne, hfed,
    StoredPieceHashes.new_eq hstore, hfilled, hfinish, fun offset length hpos hin => ?_,
    fun hmulti => ?_, fun hone => ?_⟩
  · obtain ⟨_, _, -, -, -, hprove⟩ := (proves hne hlen).widens hpos hin
    refine ⟨_, hprove, ?_, ?_, fun rebuilt h => ?_, ?_⟩
    · rw [hkeeps.proveWith_eq hlen hne, hprove]
      rfl
    · rw [hkeeps.sealLayers.proveWith_eq hlen hne, hprove]
      rfl
    · rw [(hrebuilt rebuilt h).1.proveWith_eq hlen hne, hprove]
      rfl
    · rw [hstored.prove_eq hlen hne, hprove]
      rfl
  · have hcount : ¬ divCeil D.length pieceSize < 2 :=
      not_lt.mpr (two_le_divCeil pieceSize_pos hmulti)
    have hok := fromPieceHashes_eq D
    have hroot := root_multi hlen (not_le.mpr hmulti)
    rw [if_neg hcount] at hok
    obtain ⟨hkept, hlayers⟩ := hrebuilt _ hok
    refine ⟨_, _, hok, hroot, treeRoot_unsealed hopen, ?_, ?_, ?_⟩
    · rw [hkeeps.sealLayers.treeRoot_sealed hlen hne (layersFrom_ne_nil _), if_pos hmulti, hroot]
    · rw [hkept.treeRoot_sealed hlen hne hlayers, if_pos hmulti, hroot]
    · rw [hstored.treeRoot_eq hlen hne, if_pos hmulti, hroot]
  · have hcount : divCeil D.length pieceSize < 2 := by
      rw [divCeil_eq_one (length_pos_iff.mpr hne) hone]
      omega
    rw [fromPieceHashes_eq, if_pos hcount]

section Sample

attribute [local instance] sampleSha256 sampleBlake3

theorem piece_producers_agree_two_pieces :
    sampleObject ≠ [] ∧ sampleObject.length ≤ isizeMax ∧
      LawfulNodeStorage.contents (⟨[]⟩ : MemoryNodeStorage) = [] ∧
      ∃ fed, PieceHashes.new.pushAll (chunks pieceSize sampleObject) = .ok fed ∧
        ∃ value, root sampleObject = some value ∧ fed.sealLayers.treeRoot = some value := by
  have hne := sampleObject_ne_nil
  have hlen := sampleObject_length_le
  have hstore : LawfulNodeStorage.contents (⟨[]⟩ : MemoryNodeStorage) = [] := rfl
  refine ⟨hne, hlen, hstore, ?_⟩
  obtain ⟨_, fed, _, _, _, -, hfed, -, -, -, -, hmulti, -⟩ :=
    piece_producers_agree hne hlen hstore
  obtain ⟨_, value, -, hroot, -, htree, -⟩ := hmulti (by rw [sampleObject_length]; omega)
  exact ⟨fed, hfed, value, hroot, htree⟩

/-- Two pieces that were not sealed have no tree root, although the object has a root. -/
theorem unsealed_pieces_without_root :
    pieceSize < sampleObject.length ∧
      ∃ fed value, PieceHashes.new.pushAll (chunks pieceSize sampleObject) = .ok fed ∧
        root sampleObject = some value ∧ fed.treeRoot = none := by
  have hlen := sampleObject_length_le
  have hmulti : pieceSize < sampleObject.length := by
    rw [sampleObject_length]
    omega
  obtain ⟨fed, hfed, hopen, -⟩ := pushAll_chunks hlen
  exact ⟨hmulti, fed, _, hfed, root_multi hlen (not_le.mpr hmulti),
    treeRoot_unsealed hopen⟩

end Sample

end ObjectTransfer.Proof.Bep52
