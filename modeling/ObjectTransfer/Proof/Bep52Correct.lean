import ObjectTransfer.Proof.Bep52Window

/-! # SHA-256 range proofs are exact

A cover verifies against the root of an object exactly when its bytes are the
object's and its proof is the one the object emits. Soundness assumes that SHA-256
does not collide on the inputs hashed for this object and for this proof.
-/

namespace ObjectTransfer.Proof.Bep52
open Foundations Streaming List

section Pieces

variable [Sha256]

/-- The inputs hashed for the leaves of `bytes` and for their tree of the given width. -/
def pieceInputs (width : ℕ) (bytes : Bytes) : Set Bytes :=
  {x | x ∈ chunks sha256LeafSize bytes ∨
    ∃ p ∈ reducePairs parent (resize (leafHashes bytes) width zeroDigest), x = writePair p}

variable {inputs : Set Bytes}

theorem parent_injOn (hinj : Set.InjOn Sha256.digest inputs) :
    Set.InjOn (fun p : Digest × Digest => parent p.1 p.2) {p | writePair p ∈ inputs} := by
  intro p hp q hq h
  have := congrArg readPair (hinj hp hq h)
  rwa [readPair_writePair, readPair_writePair] at this

variable {xs ys : Bytes}

section

variable (hinj : Set.InjOn Sha256.digest inputs)
include hinj

/-- The root of the leaves determines bytes of a known length. -/
theorem reduce_leaves_inj (k : ℕ)
    (hlen : xs.length = ys.length) (hfit : divCeil xs.length sha256LeafSize ≤ 2 ^ k)
    (hx : pieceInputs (2 ^ k) xs ⊆ inputs) (hy : pieceInputs (2 ^ k) ys ⊆ inputs)
    (hx' : resize (leafHashes xs) (2 ^ k) zeroDigest ≠ [])
    (hy' : resize (leafHashes ys) (2 ^ k) zeroDigest ≠ [])
    (h : reduce (resize (leafHashes xs) (2 ^ k) zeroDigest) hx' =
      reduce (resize (leafHashes ys) (2 ^ k) zeroDigest) hy') :
    xs = ys := by
  have hleaves : resize (leafHashes xs) (2 ^ k) zeroDigest =
      resize (leafHashes ys) (2 ^ k) zeroDigest :=
    reduceLevels_inj (parent_injOn hinj) k (resize_length _ _ _) (resize_length _ _ _) hx' hy'
      (fun p hp => hx (.inr ⟨p, hp, rfl⟩)) (fun p hp => hy (.inr ⟨p, hp, rfl⟩)) h
  have hlx : (leafHashes xs).length = divCeil xs.length sha256LeafSize := by simp [leafHashes]
  have hly : (leafHashes ys).length = divCeil xs.length sha256LeafSize := by
    simp [leafHashes, hlen]
  rw [resize, resize, take_of_length_le (by omega), take_of_length_le (by omega),
    hlx, hly] at hleaves
  have hchunks := map_injOn hinj (fun x hc => hx (.inl hc)) (fun y hc => hy (.inl hc))
    (append_cancel_right hleaves)
  have hpos : 0 < sha256LeafSize := by decide
  rw [← chunks_flatten hpos xs, hchunks, chunks_flatten hpos]

theorem pieceHash_inj (hlen : xs.length = ys.length)
    (hfit : xs.length ≤ pieceSize) (hx : pieceInputs 4 xs ⊆ inputs)
    (hy : pieceInputs 4 ys ⊆ inputs) (h : pieceHash xs = pieceHash ys) : xs = ys := by
  refine reduce_leaves_inj hinj 2 hlen ?_ hx hy _ _ h
  by_contra hcon
  rw [not_le, lt_divCeil_iff (by decide)] at hcon
  unfold pieceSize at hfit
  unfold sha256LeafSize at hcon
  omega

theorem singleGroupRoot_inj (hlen : xs.length = ys.length)
    (hx : pieceInputs (nextPowerOfTwo (leafHashes xs).length) xs ⊆ inputs)
    (hy : pieceInputs (nextPowerOfTwo (leafHashes ys).length) ys ⊆ inputs)
    (h : singleGroupRoot xs = singleGroupRoot ys) : xs = ys := by
  have hlx : (leafHashes xs).length = divCeil xs.length sha256LeafSize := by simp [leafHashes]
  have hcount : (leafHashes ys).length = (leafHashes xs).length := by simp [leafHashes, hlen]
  rw [hcount] at hy
  simp only [singleGroupRoot, hcount] at h
  exact reduce_leaves_inj hinj (Nat.clog 2 (leafHashes xs).length) hlen
    (hlx ▸ le_nextPowerOfTwo _) hx hy _ _ h

end

end Pieces

section Object

variable [Sha256]

def objectInputs (D : Bytes) : Set Bytes :=
  {x | if D.length ≤ pieceSize then x ∈ pieceInputs (nextPowerOfTwo (leafHashes D).length) D
    else (∃ i < divCeil D.length pieceSize, x ∈ pieceInputs 4 (chunkAt pieceSize D i)) ∨
      ∃ p ∈ treePairs (pieceLeaf D) (divCeil D.length pieceSize), x = writePair p}

/-- The inputs hashed when a cover of an object of length `objectLen` is verified. -/
def coverInputs (objectLen coveredOffset : ℕ) (data proof : Bytes) : Set Bytes :=
  {x | if objectLen ≤ pieceSize then
      x ∈ pieceInputs (nextPowerOfTwo (leafHashes data).length) data
    else (∃ i < divCeil data.length pieceSize, x ∈ pieceInputs 4 (chunkAt pieceSize data i)) ∨
      ∃ p ∈ presentedPairs (fun i => pieceLeaf data (i - coveredOffset / pieceSize))
        (divCeil objectLen pieceSize) (coveredOffset / pieceSize)
        (divCeil (coveredOffset + data.length) pieceSize) proof, x = writePair p}

/-- No two of the inputs hashed for the object `D` and for a presented cover collide. -/
def CollisionFree (D : Bytes) (coveredOffset : ℕ) (data proof : Bytes) : Prop :=
  Set.InjOn Sha256.digest (objectInputs D ∪ coverInputs D.length coveredOffset data proof)

def objectProof (D : Bytes) (first stop : ℕ) : Bytes :=
  if D.length ≤ pieceSize then []
  else writeAll List.Vector.toList
    (treeHashes (pieceLeaf D) (divCeil D.length pieceSize) first stop)

theorem pieceLeaf_zero (D : Bytes) (j : ℕ) (h : divCeil D.length pieceSize ≤ j) :
    pieceLeaf D j = zeroPiece := by
  have hle := le_mul_divCeil pieceSize_pos D.length
  rw [pieceLeaf_of_le (le_trans hle (Nat.mul_le_mul_left pieceSize h)), pieceHash_nil]

theorem treeHashes_length_le (f : ℕ → Digest) {pieceCount first stop : ℕ} (hpieces : 2 ≤ pieceCount)
    (hwin : first < stop) (hstop : stop ≤ pieceCount) (hcount : pieceCount ≤ 2 ^ 48) :
    (writeAll List.Vector.toList (treeHashes f pieceCount first stop)).length ≤ u64Max := by
  obtain ⟨-, hlevel, -⟩ := window_spec hpieces hwin hstop
  have hsum := windowLevel_add_steps hpieces hwin hstop
  have hheight : Nat.clog 2 pieceCount ≤ 48 := Nat.clog_le_of_le_pow hcount
  have hwidth := Nat.pow_le_pow_right (show 0 < 2 by omega) (le_trans hlevel hheight)
  have hw := holes_length_le (windowSlots f pieceCount first stop)
    ((windowPieces pieceCount first stop).map f)
  have hp := holes_length_le (pathSlots pieceCount first stop)
    ((treePath f pieceCount first stop).map Prod.snd)
  rw [windowSlots_length] at hw
  rw [pathSlots_length] at hp
  rw [writeAll_length (fun d : Digest => d.toList_length), treeHashes, length_append]
  unfold u64Max
  omega

def objectHashes (D : Bytes) : List Digest :=
  (List.range (divCeil D.length pieceSize)).map (pieceLeaf D)

@[simp] theorem objectHashes_length (D : Bytes) :
    (objectHashes D).length = divCeil D.length pieceSize := by
  simp [objectHashes]

theorem encodeProof_objectHashes {D : Bytes} {offset length : ℕ}
    (hlen : D.length ≤ isizeMax) (cover : Cover pieceSize D.length offset length) :
    encodeProof (objectHashes D) (offset / pieceSize) (divCeil (offset + length) pieceSize) =
      some (objectProof D (offset / pieceSize) (divCeil (offset + length) pieceSize)) := by
  have hpos := cover.nonempty
  have hin := cover.inside
  by_cases hone : D.length ≤ pieceSize
  · rw [encodeProof, objectHashes_length, divCeil_eq_one (by omega) hone, if_pos le_rfl, objectProof,
      if_pos hone]
  · have hheight : Nat.clog 2 (divCeil D.length pieceSize) ≤ 48 :=
      Nat.clog_le_of_le_pow (unitCount_le hlen)
    rw [objectProof, if_neg hone]
    exact encodeProof_eq (two_le_divCeil pieceSize_pos (Nat.lt_of_not_le hone))
      (cover.units_lt pieceSize_pos) (cover.stop_le pieceSize_pos) (pieceLeaf_zero D) (by omega)

variable [Blake3] {D : Bytes}

theorem root_single (hne : D ≠ []) (hone : D.length ≤ pieceSize) :
    root D = some (singleGroupRoot D) := by
  rw [root, root_sha256_single hne hone]
  rfl

theorem root_multi (hlen : D.length ≤ isizeMax) (hmulti : ¬ D.length ≤ pieceSize) :
    root D = some (perfect parent (pieceLeaf D) (Nat.clog 2 (divCeil D.length pieceSize)) 0) := by
  rw [root, root_sha256 hlen (Nat.lt_of_not_le hmulti)]
  rfl

theorem pieceLayer_eq (hne : D ≠ []) (hmulti : ¬ D.length ≤ pieceSize) :
    pieceLayer D = some (objectHashes D) := by
  rw [pieceLayer, if_neg hne, if_neg hmulti, chunks, map_map]
  rfl

variable {offset : ℕ} {data : Bytes} (hne : D ≠ []) (hlen : D.length ≤ isizeMax)
include hne hlen

variable {expected : Digest}

section Cover

variable (cover : Cover pieceSize D.length offset data.length)
include cover

theorem encodeProof_object :
    ∃ pieces, pieceLayer D = some pieces ∧
      encodeProof pieces (offset / pieceSize) (divCeil (offset + data.length) pieceSize) =
        some (objectProof D (offset / pieceSize)
          (divCeil (offset + data.length) pieceSize)) := by
  by_cases hone : D.length ≤ pieceSize
  · refine ⟨[singleGroupRoot D], ?_, ?_⟩
    · rw [pieceLayer, if_neg hne, if_pos hone, root_single hne hone]
      rfl
    · rw [objectProof, if_pos hone]
      rfl
  · exact ⟨_, pieceLayer_eq hne hone, encodeProof_objectHashes hlen cover⟩

theorem prove_cover (hslice : slice? D offset (offset + data.length) = some data) :
    prove D offset data.length = .ok
      { coveredOffset := offset
        data := data
        proof := objectProof D (offset / pieceSize)
          (divCeil (offset + data.length) pieceSize) } := by
  obtain ⟨pieces, hlayer, hproof⟩ := encodeProof_object hne hlen cover
  simp only [prove, RangeGeometry.of_eq_of_cover pieceSize_pos (add_unit_le hlen) cover, ok_bind,
    hlayer, hproof, hslice, okOr_some]
  rfl

omit cover in
theorem proves : Proves pieceSize D (prove D) (objectProof D) :=
  ⟨pieceSize_pos, add_unit_le hlen, ⟨_, fun _ _ => rfl⟩,
    fun _ _ cover hslice => prove_cover hne hlen cover hslice⟩

omit [Blake3] hne hlen in
theorem coveredHashes_get {i : ℕ} (h1 : offset / pieceSize ≤ i)
    (h2 : i < divCeil (offset + data.length) pieceSize) :
    ((chunks pieceSize data).map pieceHash)[i - offset / pieceSize]? =
      some (pieceLeaf data (i - offset / pieceSize)) := by
  have hlt : i - offset / pieceSize < divCeil data.length pieceSize := by
    rw [cover.unitCount_eq pieceSize_pos]
    omega
  rw [chunks, map_map, getElem?_map, getElem?_range hlt]
  rfl

omit [Blake3] hne hlen in
theorem coveredHashes_length :
    ((chunks pieceSize data).map pieceHash).length =
      divCeil (offset + data.length) pieceSize - offset / pieceSize := by
  rw [length_map, chunks_length, cover.unitCount_eq pieceSize_pos]

theorem verify_complete (hroot : root D = some expected)
    (hslice : slice? D offset (offset + data.length) = some data) :
    verify expected D.length offset data (objectProof D (offset / pieceSize)
      (divCeil (offset + data.length) pieceSize)) = .ok () := by
  have hfit := le_u64Max_of_le_isizeMax hlen
  have hcheck := (checkCover_eq_ok hfit (_, _)).mpr ⟨cover, rfl⟩
  simp only [verify, verifyHashes, hcheck, ok_bind]
  by_cases hone : D.length ≤ pieceSize
  · obtain ⟨rfl, rfl⟩ := cover.whole_slice hone hslice
    have hcount := divCeil_eq_one (length_pos_iff.mpr hne) hone
    rw [if_pos hone, hroot, objectProof, if_pos hone, zero_add, hcount, Nat.zero_div]
    simp [decodeRoot]
  · have hpieces := two_le_divCeil pieceSize_pos (Nat.lt_of_not_le hone)
    have hwin := cover.units_lt pieceSize_pos
    have hstop := cover.stop_le pieceSize_pos
    rw [root_multi hlen hone, Option.some.injEq] at hroot
    subst hroot
    rw [if_neg hone, objectProof, if_neg hone]
    simp only [pure_bind]
    rw [decodeRoot_complete (pieceLeaf_zero D) hpieces hwin hstop (coveredHashes_length cover)
      (fun i h1 h2 => coveredHashes_get cover h1 h2) (fun i h1 h2 => ?_)
      (treeHashes_length_le _ hpieces hwin hstop (unitCount_le hlen)), ok_bind,
      rejectIf_neg (not_not.mpr rfl)]
    exact congrArg pieceHash (cover.units_of_slice pieceSize_pos hslice h1 h2)

omit [Blake3] hne hlen in
/-- Verifying the object's own bytes and proof hashes nothing that its root does not. -/
theorem coverInputs_subset (hslice : slice? D offset (offset + data.length) = some data) :
    coverInputs D.length offset data (objectProof D (offset / pieceSize)
      (divCeil (offset + data.length) pieceSize)) ⊆ objectInputs D := by
  intro x hx
  by_cases hone : D.length ≤ pieceSize
  · obtain ⟨rfl, rfl⟩ := cover.whole_slice hone hslice
    rw [coverInputs, Set.mem_ofPred_eq, if_pos hone] at hx
    rwa [objectInputs, Set.mem_ofPred_eq, if_pos hone]
  · rw [coverInputs, Set.mem_ofPred_eq, if_neg hone, objectProof, if_neg hone] at hx
    rw [objectInputs, Set.mem_ofPred_eq, if_neg hone]
    rcases hx with ⟨i, hi, hx⟩ | ⟨p, hp, rfl⟩
    · have hstop := cover.stop_le pieceSize_pos
      rw [cover.unitCount_eq pieceSize_pos] at hi
      have hunit := cover.units_of_slice pieceSize_pos hslice
        (i := i + offset / pieceSize) (by omega) (by omega)
      rw [Nat.add_sub_cancel] at hunit
      exact .inl ⟨_, by omega, hunit ▸ hx⟩
    · refine .inr ⟨p, presentedPairs_subset (pieceLeaf_zero D)
        (two_le_divCeil pieceSize_pos (Nat.lt_of_not_le hone)) (cover.units_lt pieceSize_pos)
        (cover.stop_le pieceSize_pos) (fun i h1 h2 => ?_) hp, rfl⟩
      exact congrArg pieceHash (cover.units_of_slice pieceSize_pos hslice h1 h2)

end Cover

/-- Whatever passes is a cover of the object with the object's bytes and the object's proof. -/
theorem verify_sound (hroot : root D = some expected) {proof : Bytes}
    (free : CollisionFree D offset data proof)
    (h : verify expected D.length offset data proof = .ok ()) :
    Cover pieceSize D.length offset data.length ∧
      slice? D offset (offset + data.length) = some data ∧
      proof = objectProof D (offset / pieceSize) (divCeil (offset + data.length) pieceSize) := by
  have hfit := le_u64Max_of_le_isizeMax hlen
  simp only [verify, bind_eq_ok] at h
  obtain ⟨units, hcheck, h⟩ := h
  obtain ⟨cover, rfl⟩ := (checkCover_eq_ok hfit _).mp hcheck
  refine ⟨cover, ?_⟩
  by_cases hone : D.length ≤ pieceSize
  · obtain ⟨rfl, hall⟩ := cover.whole hone
    have hdata : data ≠ [] := by
      rw [← length_pos_iff, hall]
      exact length_pos_iff.mpr hne
    have hcount := divCeil_eq_one (length_pos_iff.mpr hne) hone
    simp only [if_pos hone, root_single hdata (hall ▸ hone), Option.map_some, okOr_some, ok_bind,
      verifyHashes, decodeRoot, hcount, if_true, bind_eq_ok, rejectIf_eq_ok, okOr_eq_ok, not_or,
      not_not] at h
    obtain ⟨actual, ⟨-, ⟨-, -, -, rfl⟩, hactual⟩, rfl⟩ := h
    rw [root_single hne hone] at hroot
    obtain rfl : data = D := by
      refine singleGroupRoot_inj free hall (fun x hx => .inr ?_) (fun x hx => .inl ?_)
        (Option.some.inj (hactual.trans hroot.symm))
      · rw [coverInputs, Set.mem_ofPred_eq, if_pos hone]
        exact hx
      · rw [objectInputs, Set.mem_ofPred_eq, if_pos hone]
        exact hx
    refine ⟨by simp [slice?], ?_⟩
    rw [objectProof, if_pos hone]
  · have hpieces := two_le_divCeil pieceSize_pos (Nat.lt_of_not_le hone)
    have hwin := cover.units_lt pieceSize_pos
    have hstop := cover.stop_le pieceSize_pos
    have hobject : ∀ x, ((∃ i < divCeil D.length pieceSize,
        x ∈ pieceInputs 4 (chunkAt pieceSize D i)) ∨
        ∃ p ∈ treePairs (pieceLeaf D) (divCeil D.length pieceSize), x = writePair p) →
        x ∈ objectInputs D ∪ coverInputs D.length offset data proof := by
      intro x hx
      refine .inl ?_
      rwa [objectInputs, Set.mem_ofPred_eq, if_neg hone]
    have hcover : ∀ x, ((∃ i < divCeil data.length pieceSize,
        x ∈ pieceInputs 4 (chunkAt pieceSize data i)) ∨
        ∃ p ∈ presentedPairs (fun i => pieceLeaf data (i - offset / pieceSize))
          (divCeil D.length pieceSize) (offset / pieceSize)
          (divCeil (offset + data.length) pieceSize) proof, x = writePair p) →
        x ∈ objectInputs D ∪ coverInputs D.length offset data proof := by
      intro x hx
      refine .inr ?_
      rwa [coverInputs, Set.mem_ofPred_eq, if_neg hone]
    simp only [if_neg hone, pure_bind, verifyHashes, bind_eq_ok, rejectIf_eq_ok, not_not] at h
    obtain ⟨actual, hactual, rfl⟩ := h
    rw [root_multi hlen hone, Option.some.injEq] at hroot
    subst hroot
    obtain ⟨hproof, hvalues⟩ := decodeRoot_sound (pieceLeaf_zero D) hpieces hwin hstop
      (coveredHashes_length cover) (fun i h1 h2 => coveredHashes_get cover h1 h2)
      ((parent_injOn free).mono (Set.union_subset
        (fun p hp => hobject _ (.inr ⟨p, hp, rfl⟩)) (fun p hp => hcover _ (.inr ⟨p, hp, rfl⟩))))
      hactual
    refine ⟨cover.slice_of_units pieceSize_pos fun i h1 h2 => ?_, ?_⟩
    · have hi : i - offset / pieceSize < divCeil data.length pieceSize := by
        rw [cover.unitCount_eq pieceSize_pos]
        omega
      exact pieceHash_inj free (cover.unit_length pieceSize_pos h1 h2)
        (by rw [chunkAt_length]; omega) (fun x hx => hcover x (.inl ⟨_, hi, hx⟩))
        (fun x hx => hobject x (.inl ⟨i, by omega, hx⟩)) (hvalues i h1 h2)
    · rw [objectProof, if_neg hone, hproof]

end Object

/-- Range proofs are complete, sound and not malleable. -/
theorem piece_range_proofs_exact [Sha256] [Blake3] {D : Bytes} (hne : D ≠ [])
    (hlen : D.length ≤ isizeMax) :
    ∃ expected, root D = some expected ∧
      (∀ offset length, 0 < length → offset + length ≤ D.length →
        ∃ c, prove D offset length = .ok c ∧
          verify expected D.length c.coveredOffset c.data c.proof = .ok ()) ∧
      (∀ coveredOffset data proof, CollisionFree D coveredOffset data proof →
        verify expected D.length coveredOffset data proof = .ok () →
        slice? D coveredOffset (coveredOffset + data.length) = some data ∧
          ∃ c, prove D coveredOffset data.length = .ok c ∧ c.proof = proof) := by
  obtain ⟨expected, hroot⟩ : ∃ expected, root D = some expected := by
    by_cases hone : D.length ≤ pieceSize
    · exact ⟨_, root_single hne hone⟩
    · exact ⟨_, root_multi hlen hone⟩
  refine ⟨expected, hroot, ?_, ?_⟩
  · intro offset length hpos hin
    obtain ⟨offset', data, cover, hslice, -, hprove⟩ := (proves hne hlen).widens hpos hin
    exact ⟨_, hprove, verify_complete hne hlen cover hroot hslice⟩
  · intro coveredOffset data proof free h
    obtain ⟨cover, hslice, hproof⟩ := verify_sound hne hlen hroot free h
    exact ⟨hslice, _, prove_cover hne hlen cover hslice, hproof.symm⟩

section Sample

/-- A stand-in digest whose value is told by one byte. -/
def mark (k : UInt8) : Digest := Block.ofBytes 32 [k]

theorem mark_inj {a b : UInt8} (h : mark a = mark b) : a = b :=
  Option.some.inj (congrArg (fun d : Digest => d.toList.head?) h)

/-- A stand-in for SHA-256 that keeps the inputs of a small object apart. -/
abbrev sampleSha256 : Sha256 where
  digest x := mark (if x.length = 64 then 3 + 5 * x.headD 0 + 7 * x.getD 32 0
    else if x.length = 1 then 2 else 1)

abbrev sampleBlake3 : Blake3 where
  hash := Block.ofBytes 32
  chainingValue _ := Block.ofBytes 32
  mergeSubtreesNonRoot left _ := left
  mergeSubtreesRoot left _ := left

attribute [local instance] sampleSha256 sampleBlake3

/-- One full piece and one byte. -/
@[irreducible] def sampleObject : Bytes := List.replicate (pieceSize + 1) 7

theorem sampleObject_length : sampleObject.length = pieceSize + 1 := by
  rw [sampleObject, length_replicate]

theorem sampleObject_ne_nil : sampleObject ≠ [] := by
  rw [← length_pos_iff, sampleObject_length]
  exact Nat.succ_pos _

theorem sampleObject_length_le : sampleObject.length ≤ isizeMax := by
  rw [sampleObject_length]
  decide

theorem pieceCount_sample : divCeil sampleObject.length pieceSize = 2 := by
  rw [sampleObject_length]
  decide

theorem firstPiece_sample : chunkAt pieceSize sampleObject 0 = List.replicate pieceSize 7 := by
  rw [chunkAt, sampleObject, mul_zero, drop_zero, take_replicate]
  simp

theorem secondPiece_sample : chunkAt pieceSize sampleObject 1 = [7] := by
  have hmin : min pieceSize 1 = 1 := by decide
  rw [chunkAt, sampleObject, mul_one, drop_replicate, take_replicate, Nat.add_sub_cancel_left, hmin]
  rfl

theorem leaves_firstPiece : chunks sha256LeafSize (List.replicate pieceSize (7 : UInt8)) =
    List.replicate 4 (List.replicate sha256LeafSize 7) := by
  have hcount : divCeil pieceSize sha256LeafSize = 4 := by decide
  rw [eq_replicate_iff]
  refine ⟨by rw [chunks_length, length_replicate, hcount], fun c hc => ?_⟩
  rw [chunks, length_replicate, hcount, mem_map] at hc
  obtain ⟨i, hi, rfl⟩ := hc
  rw [chunkAt, drop_replicate, take_replicate]
  congr 1
  rw [mem_range] at hi
  unfold pieceSize sha256LeafSize
  omega

theorem leaves_secondPiece : chunks sha256LeafSize [(7 : UInt8)] = [[7]] := by
  have hcount : divCeil 1 sha256LeafSize = 1 := by decide
  have hone : [(7 : UInt8)].length ≤ sha256LeafSize := by decide
  rw [chunks, length_singleton, hcount, range_one, map_singleton, chunkAt,
    mul_zero, drop_zero, take_of_length_le hone]

theorem leafHashes_firstPiece :
    leafHashes (List.replicate pieceSize 7) = [mark 1, mark 1, mark 1, mark 1] := by
  have hleaf : Sha256.digest (replicate sha256LeafSize 7) = mark 1 := by
    change mark (if (replicate sha256LeafSize (7 : UInt8)).length = 64 then _ else
      if (replicate sha256LeafSize (7 : UInt8)).length = 1 then 2 else 1) = mark 1
    rw [length_replicate, if_neg (by decide), if_neg (by decide)]
  rw [leafHashes, leaves_firstPiece, map_replicate, hleaf]
  rfl

theorem leafHashes_secondPiece : leafHashes [7] = [mark 2] := by
  rw [leafHashes, leaves_secondPiece]
  rfl

/-- The marks of the pairs merged for the object. -/
def sampleMarks : List (UInt8 × UInt8) := [(1, 1), (15, 15), (2, 0), (0, 0), (13, 3), (183, 89)]

/-- The inputs hashed for the object. -/
def sampleInputs : List Bytes :=
  replicate sha256LeafSize 7 :: [7] :: sampleMarks.map fun p => writePair (mark p.1, mark p.2)

theorem reducePairs_four (a b c d : UInt8) :
    reducePairs parent [mark a, mark b, mark c, mark d] =
      [(mark a, mark b), (mark c, mark d),
        (mark (3 + 5 * a + 7 * b), mark (3 + 5 * c + 7 * d))] := by
  simp [reducePairs, adjacent, pairUp]
  exact ⟨rfl, rfl⟩

theorem reduce_four (a b c d : UInt8) (h : [mark a, mark b, mark c, mark d] ≠ []) :
    reduce [mark a, mark b, mark c, mark d] h =
      mark (3 + 5 * (3 + 5 * a + 7 * b) + 7 * (3 + 5 * c + 7 * d)) := by
  simp [reduce, reduceLevels, adjacent, pairUp]
  rfl

theorem leaves_sample : resize (leafHashes (chunkAt pieceSize sampleObject 0)) 4 zeroDigest =
      [mark 1, mark 1, mark 1, mark 1] ∧
    resize (leafHashes (chunkAt pieceSize sampleObject 1)) 4 zeroDigest =
      [mark 2, mark 0, mark 0, mark 0] := by
  rw [firstPiece_sample, leafHashes_firstPiece, secondPiece_sample, leafHashes_secondPiece]
  exact ⟨rfl, rfl⟩

theorem pieceLeaf_sample :
    pieceLeaf sampleObject 0 = mark 183 ∧ pieceLeaf sampleObject 1 = mark 89 := by
  constructor
  · change pieceHash (chunkAt pieceSize sampleObject 0) = _
    rw [pieceHash, reduce, reduceLevels_congr parent leaves_sample.1]
    exact reduce_four 1 1 1 1 _
  · change pieceHash (chunkAt pieceSize sampleObject 1) = _
    rw [pieceHash, reduce, reduceLevels_congr parent leaves_sample.2]
    exact reduce_four 2 0 0 0 _

theorem objectInputs_sample {x : Bytes} (h : x ∈ objectInputs sampleObject) :
    x ∈ sampleInputs := by
  have hpair (a b : UInt8) (hmark : (a, b) ∈ sampleMarks) :
      writePair (mark a, mark b) ∈ sampleInputs :=
    mem_cons_of_mem _ (mem_cons_of_mem _ (mem_map_of_mem hmark))
  have hmulti : ¬ sampleObject.length ≤ pieceSize := by
    rw [sampleObject_length]
    omega
  rw [objectInputs, Set.mem_ofPred_eq, if_neg hmulti, pieceCount_sample] at h
  rcases h with ⟨i, hi, hleaf | ⟨p, hp, rfl⟩⟩ | ⟨p, hp, rfl⟩
  · interval_cases i
    · rw [firstPiece_sample, leaves_firstPiece] at hleaf
      rw [eq_of_mem_replicate hleaf]
      exact mem_cons_self
    · rw [secondPiece_sample, leaves_secondPiece, mem_singleton] at hleaf
      rw [hleaf]
      exact mem_cons_of_mem _ mem_cons_self
  · interval_cases i
    · rw [leaves_sample.1, reducePairs_four] at hp
      simp only [mem_cons, not_mem_nil, or_false] at hp
      rcases hp with rfl | rfl | rfl
      · exact hpair 1 1 (by decide)
      · exact hpair 1 1 (by decide)
      · exact hpair 15 15 (by decide)
    · rw [leaves_sample.2, reducePairs_four] at hp
      simp only [mem_cons, not_mem_nil, or_false] at hp
      rcases hp with rfl | rfl | rfl
      · exact hpair 2 0 (by decide)
      · exact hpair 0 0 (by decide)
      · exact hpair 13 3 (by decide)
  · obtain ⟨l, i, hl, hi, rfl⟩ := (mem_reducePairs parent _).mp hp
    have hclog : Nat.clog 2 2 = 1 := by decide
    rw [hclog] at hl hi
    obtain rfl : l = 0 := by omega
    obtain rfl : i = 0 := by simpa using hi
    rw [perfect, perfect, mul_zero, zero_add, pieceLeaf_sample.1, pieceLeaf_sample.2]
    exact hpair 183 89 (by decide)

theorem digest_injOn_sample : Set.InjOn Sha256.digest (objectInputs sampleObject) := by
  have hlong : Sha256.digest (replicate sha256LeafSize 7) = mark 1 := by
    have := leafHashes_firstPiece
    rw [leafHashes, leaves_firstPiece, map_replicate] at this
    exact (cons.inj this).1
  have hdigests : sampleInputs.map Sha256.digest = [1, 2, 15, 183, 13, 3, 89, 5].map mark := by
    rw [sampleInputs, map_cons, hlong]
    rfl
  have hapart : (sampleInputs.map Sha256.digest).Nodup := by
    rw [hdigests]
    exact Nodup.map (fun _ _ => mark_inj) (by decide)
  intro x hx y hy hxy
  exact inj_on_of_nodup_map hapart (objectInputs_sample hx) (objectInputs_sample hy) hxy

theorem cover_sample : Cover pieceSize sampleObject.length pieceSize [(7 : UInt8)].length := by
  rw [sampleObject_length]
  exact ⟨Nat.mod_self _, by simp, by simp, .inl rfl⟩

theorem slice_sample :
    slice? sampleObject pieceSize (pieceSize + [(7 : UInt8)].length) = some [7] := by
  rw [slice?_eq (by simp) (by rw [sampleObject_length]; simp), sampleObject]
  simp

theorem piece_range_proofs_exact_two_pieces :
    ∃ expected c, root sampleObject = some expected ∧
      prove sampleObject pieceSize 1 = .ok c ∧
      CollisionFree sampleObject c.coveredOffset c.data c.proof ∧
      verify expected sampleObject.length c.coveredOffset c.data c.proof = .ok () ∧
      slice? sampleObject c.coveredOffset (c.coveredOffset + c.data.length) = some c.data := by
  have hne := sampleObject_ne_nil
  have hlen := sampleObject_length_le
  obtain ⟨expected, hroot, hcomplete, hsound⟩ := piece_range_proofs_exact hne hlen
  have hprove := prove_cover hne hlen cover_sample slice_sample
  have hfree : CollisionFree sampleObject pieceSize [7] _ :=
    digest_injOn_sample.mono (Set.union_subset le_rfl (coverInputs_subset cover_sample slice_sample))
  obtain ⟨c, hc, hverify⟩ := hcomplete pieceSize 1 (by omega) (by rw [sampleObject_length])
  obtain rfl := Except.ok.inj (hprove.symm.trans hc)
  exact ⟨expected, _, hroot, hprove, hfree, hverify, (hsound _ _ _ hfree hverify).1⟩

end Sample

end ObjectTransfer.Proof.Bep52
