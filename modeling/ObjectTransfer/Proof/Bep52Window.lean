import ObjectTransfer.Proof.Bep52Tree

/-! # Exactness of a window in the piece tree

For a window of covered pieces and the path above it, the decoder reaches the root of
the tree exactly from the tree's own pieces and siblings.
-/

namespace ObjectTransfer.Proof.Bep52
open Foundations Streaming List

/-- The level of the window's root, its index there, and the levels above it. -/
def windowLevel (pieceCount first stop : ℕ) : ℕ :=
  Nat.log2 (proofWindow first stop (nextPowerOfTwo pieceCount)).2

def windowIndex (pieceCount first stop : ℕ) : ℕ := first / 2 ^ windowLevel pieceCount first stop

def windowSteps (pieceCount first stop : ℕ) : ℕ :=
  Nat.clog 2 pieceCount - windowLevel pieceCount first stop

def windowPieces (pieceCount first stop : ℕ) : List ℕ :=
  List.range' (2 ^ windowLevel pieceCount first stop * windowIndex pieceCount first stop)
    (2 ^ windowLevel pieceCount first stop)

section Window

variable {pieceCount first stop : ℕ} (hpieces : 2 ≤ pieceCount) (hwin : first < stop)
variable (hstop : stop ≤ pieceCount)
include hpieces hwin hstop

theorem window_spec :
    proofWindow first stop (nextPowerOfTwo pieceCount) =
      (2 ^ windowLevel pieceCount first stop * windowIndex pieceCount first stop,
        2 ^ windowLevel pieceCount first stop) ∧
    windowLevel pieceCount first stop ≤ Nat.clog 2 pieceCount ∧
    stop ≤ 2 ^ windowLevel pieceCount first stop * windowIndex pieceCount first stop +
      2 ^ windowLevel pieceCount first stop := by
  obtain ⟨level, start, hwindow, hle, rfl, hcovers⟩ := proofWindow_eq hpieces hwin hstop
  have hlevel : windowLevel pieceCount first stop = level := by
    rw [windowLevel, hwindow, Nat.log2_two_pow]
  rw [windowIndex, hlevel]
  exact ⟨hwindow, hle, hcovers⟩

theorem windowLevel_add_steps :
    windowLevel pieceCount first stop + windowSteps pieceCount first stop =
      Nat.clog 2 pieceCount := by
  obtain ⟨-, hle, -⟩ := window_spec hpieces hwin hstop
  unfold windowSteps
  omega

omit hpieces hwin hstop in
theorem window_start_le (pieceCount first stop : ℕ) :
    2 ^ windowLevel pieceCount first stop * windowIndex pieceCount first stop ≤ first :=
  Nat.mul_div_le _ _

theorem mem_windowPieces {i : ℕ} (h1 : first ≤ i) (h2 : i < stop) :
    i ∈ windowPieces pieceCount first stop := by
  obtain ⟨-, -, hcovers⟩ := window_spec hpieces hwin hstop
  have := window_start_le pieceCount first stop
  rw [windowPieces, mem_range'_1]
  omega

theorem windowIndex_lt :
    windowIndex pieceCount first stop < 2 ^ windowSteps pieceCount first stop := by
  have hsum := windowLevel_add_steps hpieces hwin hstop
  have hle : pieceCount ≤ 2 ^ Nat.clog 2 pieceCount := Nat.le_pow_clog (by omega) _
  rw [← hsum, pow_add] at hle
  rw [windowIndex, Nat.div_lt_iff_lt_mul (Nat.two_pow_pos _), mul_comm]
  omega

end Window

theorem windowPieces_map {pieceCount first stop : ℕ} (f : ℕ → Digest) :
    (windowPieces pieceCount first stop).map f =
      (List.range (2 ^ windowLevel pieceCount first stop)).map fun j =>
        f (2 ^ windowLevel pieceCount first stop * windowIndex pieceCount first stop + j) := by
  rw [windowPieces, range'_eq_map_range, map_map]
  rfl

theorem proofHashes_writeAll (hashes : List Digest) :
    proofHashes (writeAll List.Vector.toList hashes) = hashes :=
  readAll_writeAll (by omega) (fun d => d.toList_length) (fun d => Block.ofBytes_toList d) hashes

theorem holes_map_length {ι : Type*} (slot : ι → Option Digest) (value : ι → Digest) (l : List ι) :
    (holes (l.map slot) (l.map value)).length = l.countP fun i => (slot i).isNone := by
  induction l with
  | nil => rfl
  | cons i l ih =>
    cases h : slot i <;> simp [h, holes, ih]

variable [Sha256]

/-- What the verifier knows of the window and of the path above it. -/
def windowSlots (covered : ℕ → Digest) (pieceCount first stop : ℕ) : List (Option Digest) :=
  (windowPieces pieceCount first stop).map (windowSlot pieceCount first stop covered)

def pathSlots (pieceCount first stop : ℕ) : List (Option Digest) :=
  uncleSlots pieceCount (windowLevel pieceCount first stop) (windowIndex pieceCount first stop)
    (windowSteps pieceCount first stop)

def pathSides (pieceCount first stop : ℕ) : List Bool :=
  sides (windowIndex pieceCount first stop) (windowSteps pieceCount first stop)

/-- The siblings on the way from the window to the root. -/
def treePath (f : ℕ → Digest) (pieceCount first stop : ℕ) : List (Bool × Digest) :=
  siblings parent f (windowLevel pieceCount first stop) (windowIndex pieceCount first stop)
    (windowSteps pieceCount first stop)

/-- The digests of the proof for a window: the uncovered pieces, then the siblings. -/
def treeHashes (f : ℕ → Digest) (pieceCount first stop : ℕ) : List Digest :=
  holes (windowSlots f pieceCount first stop) ((windowPieces pieceCount first stop).map f) ++
    holes (pathSlots pieceCount first stop) ((treePath f pieceCount first stop).map Prod.snd)

def presentedPairs (covered : ℕ → Digest) (pieceCount first stop : ℕ) (proof : Bytes) :
    Set (Digest × Digest) :=
  {p | ∃ nodes rest,
    fill (windowSlots covered pieceCount first stop) (proofHashes proof) = some (nodes, rest) ∧
    (p ∈ reducePairs parent nodes ∨ ∃ (h : nodes ≠ []) (path last : List Digest),
      fill (pathSlots pieceCount first stop) rest = some (path, last) ∧
      p ∈ climbPairs parent (reduce nodes h) ((pathSides pieceCount first stop).zip path))}

def treePairs (f : ℕ → Digest) (pieceCount : ℕ) : Set (Digest × Digest) :=
  {p | p ∈ reducePairs parent ((List.range (2 ^ Nat.clog 2 pieceCount)).map f)}

variable {f : ℕ → Digest} {pieceCount : ℕ} (hzero : ∀ j, pieceCount ≤ j → f j = zeroPiece)
variable (hpieces : 2 ≤ pieceCount) {first stop : ℕ} (hwin : first < stop)
variable (hstop : stop ≤ pieceCount)

/-- Outside the covered pieces and the padding every piece of a window is a hole. -/
theorem countP_windowSlot (pieceCount first stop : ℕ) (covered : ℕ → Digest) (start count : ℕ) :
    min count (pieceCount - start) ≤
      ((List.range' start count).countP fun i =>
        (windowSlot pieceCount first stop covered i).isNone) +
      (min stop (start + count) - max first start) := by
  induction count generalizing start with
  | zero => omega
  | succ count ih =>
    have := ih (start + 1)
    rw [range'_succ, countP_cons]
    unfold windowSlot at *
    by_cases hcov : first ≤ start ∧ start < stop
    · rw [if_pos hcov]
      omega
    · by_cases hreal : start < pieceCount
      · rw [if_neg hcov, if_pos hreal]
        simp only [Option.isNone_none, if_true]
        omega
      · omega

@[simp] theorem windowSlots_length (covered : ℕ → Digest) :
    (windowSlots covered pieceCount first stop).length =
      2 ^ windowLevel pieceCount first stop := by
  simp [windowSlots, windowPieces]

@[simp] theorem pathSlots_length :
    (pathSlots pieceCount first stop).length = windowSteps pieceCount first stop := by
  simp [pathSlots]

variable {value : ℕ → Digest}

theorem windowSlots_congr (h : ∀ i, first ≤ i → i < stop → value i = f i) :
    windowSlots value pieceCount first stop = windowSlots f pieceCount first stop := by
  refine map_congr_left fun i _ => ?_
  unfold windowSlot
  split_ifs with hcov
  · rw [h i hcov.1 hcov.2]
  · rfl
  · rfl

/-- The pieces of the window that are neither covered nor padding. -/
def suppliedCount (pieceCount first stop : ℕ) : ℕ :=
  min (2 ^ windowLevel pieceCount first stop) (pieceCount -
    2 ^ windowLevel pieceCount first stop * windowIndex pieceCount first stop) - (stop - first)

include hpieces hwin hstop

/-- The digests the verifier expects for the window are in the proof. -/
theorem supplied_le :
    suppliedCount pieceCount first stop ≤ (treeHashes f pieceCount first stop).length := by
  obtain ⟨-, -, hcovers⟩ := window_spec hpieces hwin hstop
  have hstart := window_start_le pieceCount first stop
  have hcount := countP_windowSlot pieceCount first stop f
    (2 ^ windowLevel pieceCount first stop * windowIndex pieceCount first stop)
    (2 ^ windowLevel pieceCount first stop)
  rw [suppliedCount, treeHashes, length_append, windowSlots, holes_map_length, windowPieces]
  omega

theorem encodeProofBy_eq {hash : ℕ → ℕ → Option Digest}
    (hhash : ∀ level i, level ≤ Nat.clog 2 pieceCount → 2 ^ level * i < pieceCount →
      hash (2 ^ level * i) (2 ^ level) = some (perfect parent f level i)) :
    encodeProofBy pieceCount first stop hash =
      some (writeAll List.Vector.toList (treeHashes f pieceCount first stop)) := by
  obtain ⟨hwindow, -, -⟩ := window_spec hpieces hwin hstop
  have hpiece : ∀ index < pieceCount, hash index 1 = some (f index) := by
    intro index hindex
    have := hhash 0 index (Nat.zero_le _) (by simpa using hindex)
    rwa [pow_zero, one_mul] at this
  rw [encodeProofBy, if_neg (by omega)]
  simp only [hwindow]
  rw [encodeWindow_eq first stop f hpiece, Option.bind_eq_bind, Option.bind_some, nil_append,
    nextPowerOfTwo, encodeUncles_eq (fun level i hl hi => hhash level i hl.le hi) _
      (windowLevel_add_steps hpieces hwin hstop), ← writeAll_append]
  rfl

theorem encodeProof_eq (hzero : ∀ j, pieceCount ≤ j → f j = zeroPiece)
    (hheight : Nat.clog 2 pieceCount < 64) :
    encodeProof ((List.range pieceCount).map f) first stop =
      some (writeAll List.Vector.toList (treeHashes f pieceCount first stop)) := by
  have hle : pieceCount ≤ 2 ^ Nat.clog 2 pieceCount := Nat.le_pow_clog (by omega) _
  rw [encodeProof, length_map, length_range, if_neg (by omega), encodeProofFrom,
    paddedPieceTree, length_map, length_range, max_eq_left (by omega),
    nextPowerOfTwo, resize_range hzero hle]
  refine encodeProofBy_eq hpieces hwin hstop fun level i hl hi => ?_
  have hindex : i < 2 ^ (Nat.clog 2 pieceCount - level) := by
    have hlt : 2 ^ level * i < 2 ^ level * 2 ^ (Nat.clog 2 pieceCount - level) := by
      rw [← pow_add, Nat.add_sub_cancel' hl]
      omega
    exact Nat.lt_of_mul_lt_mul_left hlt
  rw [trailingZeros_two_pow (by omega), layersFrom_getElem? f _ hl,
    Nat.mul_div_cancel_left _ (Nat.two_pow_pos _)]
  simp [hindex]

omit [Sha256] in
theorem windowCapacity_eq (proofBytes : ℕ) :
    windowCapacity pieceCount
      (2 ^ windowLevel pieceCount first stop * windowIndex pieceCount first stop)
      (2 ^ windowLevel pieceCount first stop) (stop - first) proofBytes = (do
        rejectIf (suppliedCount pieceCount first stop > proofBytes / 32) (.error .malformedProof)
        return 2 ^ windowLevel pieceCount first stop) := by
  obtain ⟨-, -, hcovers⟩ := window_spec hpieces hwin hstop
  have hstart := window_start_le pieceCount first stop
  rw [suppliedCount, windowCapacity, checkedSub_of_le (by omega), okOr_some, ok_bind,
    checkedSub_of_le (by omega), okOr_some, ok_bind]

/-- What the decoder computes, with the window and the path read as slots. -/
theorem decodeRoot_eq {covered : List Digest} (hlen : covered.length = stop - first)
    (hcovered : ∀ index, first ≤ index → index < stop →
      covered[index - first]? = some (value index)) (proof : Bytes) :
    decodeRoot pieceCount first stop covered proof = do
      rejectIf (suppliedCount pieceCount first stop > proof.length / 32) (.error .malformedProof)
      let nodes ← readSlots proof (32 * 0) (windowSlots value pieceCount first stop)
      if h : nodes.1 = [] then .error .panic
      else do
        let path ← readSlots proof nodes.2 (pathSlots pieceCount first stop)
        rejectIf (path.2 ≠ proof.length) (.error .malformedProof)
        return climb parent (reduce nodes.1 h) ((pathSides pieceCount first stop).zip path.1) := by
  obtain ⟨hwindow, -, -⟩ := window_spec hpieces hwin hstop
  have hsum := windowLevel_add_steps hpieces hwin hstop
  rw [decodeRoot, if_neg (by omega), checkedSub_of_le hwin.le, okOr_some, ok_bind, hlen,
    rejectIf_neg (not_not.mpr rfl), ok_bind]
  simp only [hwindow]
  simp only [windowCapacity_eq hpieces hwin hstop, decodeWindow_eq hcovered, nextPowerOfTwo,
    decodeUncles_eq proof _ hsum, bind_assoc, pure_bind]
  rfl

/-- The window lies in the padded tree, and what is allocated for it is paid for by the covered
pieces and the proof, however many pieces the object claims. -/
theorem window_paid_for {covered : List Digest} (hlen : covered.length = stop - first)
    (proof : Bytes) :
    ∃ start width left supplied,
      proofWindow first stop (nextPowerOfTwo pieceCount) = (start, width) ∧
      start ≤ first ∧ stop ≤ start + width ∧ start + width ≤ nextPowerOfTwo pieceCount ∧
      checkedSub pieceCount start = some left ∧
      checkedSub (min width left) covered.length = some supplied ∧
      (∀ e, windowCapacity pieceCount start width covered.length proof.length = .error e →
        e = .error .malformedProof ∧ decodeRoot pieceCount first stop covered proof = .error e) ∧
      ∀ capacity, windowCapacity pieceCount start width covered.length proof.length = .ok capacity →
        capacity = width ∧ width ≤ max 2 (2 * (covered.length + proof.length / 32)) := by
  obtain ⟨hwindow, -, hcovers⟩ := window_spec hpieces hwin hstop
  have hstart := window_start_le pieceCount first stop
  have hinside := Nat.mul_le_mul_left (2 ^ windowLevel pieceCount first stop)
    (windowIndex_lt hpieces hwin hstop)
  rw [← pow_add, windowLevel_add_steps hpieces hwin hstop, Nat.mul_succ] at hinside
  refine ⟨_, _, _, _, hwindow, hstart, hcovers, hinside, checkedSub_of_le (by omega),
    checkedSub_of_le (by omega), ?_, ?_⟩
  · intro e he
    constructor
    · rw [hlen, windowCapacity_eq hpieces hwin hstop] at he
      obtain ⟨-, rfl⟩ | ⟨_, -, ⟨⟩⟩ := by simpa only [bind_eq_error, rejectIf_eq_error] using he
      rfl
    · rw [decodeRoot, if_neg (by omega), checkedSub_of_le hwin.le, okOr_some, ok_bind,
        rejectIf_neg (not_not.mpr hlen), ok_bind]
      simp only [hwindow, he]
      rfl
  · intro capacity hcapacity
    rw [hlen, windowCapacity_eq hpieces hwin hstop] at hcapacity
    simp only [bind_eq_ok, rejectIf_eq_ok, pure_eq_ok] at hcapacity
    obtain ⟨-, hpaid, rfl⟩ := hcapacity
    unfold suppliedCount at hpaid
    refine ⟨rfl, ?_⟩
    have hhalf := grow_half first stop (max (nextPowerOfTwo (stop - first)) 2)
    rw [← proofWindow_eq_grow hpieces, hwindow] at hhalf
    dsimp only at hhalf
    have hsmall := nextPowerOfTwo_lt (Nat.sub_pos_of_lt hwin)
    -- Either the window has its first width, or more than half of it is in the object.
    obtain ⟨-, hsame | ⟨half, hdouble, hmiddle⟩⟩ := hhalf
    · omega
    · omega

omit [Sha256] hpieces hwin hstop in
/-- An empty proof for two pieces in the middle of the longest object. -/
theorem window_paid_for_longest : ∃ start width,
    proofWindow (2 ^ 47 - 1) (2 ^ 47 + 1) (nextPowerOfTwo (2 ^ 48)) = (start, width) ∧
      ∀ capacity, windowCapacity (2 ^ 48) start width 2 0 = .ok capacity → width ≤ 4 := by
  let _ : Sha256 := ⟨fun _ => zeroDigest⟩
  obtain ⟨start, width, _, _, hwindow, -, -, -, -, -, -, hpaid⟩ := window_paid_for
    (show 2 ≤ 2 ^ 48 by decide) (show 2 ^ 47 - 1 < 2 ^ 47 + 1 by decide) (by decide)
    (show [zeroDigest, zeroDigest].length = _ from rfl) []
  refine ⟨start, width, hwindow, ?_⟩
  intro capacity hcapacity
  exact (hpaid capacity hcapacity).2

omit hpieces hwin hstop in
theorem reduce_window (f : ℕ → Digest) (h : (windowPieces pieceCount first stop).map f ≠ []) :
    reduce ((windowPieces pieceCount first stop).map f) h =
      perfect parent f (windowLevel pieceCount first stop)
        (windowIndex pieceCount first stop) := by
  rw [reduce, reduceLevels_congr parent (windowPieces_map f), reduceLevels_range,
    perfect_shift parent f _ _ le_rfl]
  simp

theorem agrees_window (hzero : ∀ j, pieceCount ≤ j → f j = zeroPiece) {covered : ℕ → Digest} :
    Agrees (windowSlots covered pieceCount first stop)
      ((windowPieces pieceCount first stop).map f) ↔
    ∀ i, first ≤ i → i < stop → covered i = f i := by
  rw [windowSlots, agrees_map]
  constructor
  · intro h i h1 h2
    exact h i (mem_windowPieces hpieces hwin hstop h1 h2) _ (by simp [windowSlot, h1, h2])
  · intro h i _ d hd
    simp only [windowSlot] at hd
    split_ifs at hd with hcov hreal
    · obtain rfl : covered i = d := Option.some.inj hd
      exact h i hcov.1 hcov.2
    · cases hd
    · obtain rfl : zeroPiece = d := Option.some.inj hd
      exact (hzero i (by omega)).symm

omit hpieces hwin hstop in
include hzero in
theorem agrees_siblings (level a steps : ℕ) :
    Agrees (uncleSlots pieceCount level a steps)
      ((siblings parent f level a steps).map Prod.snd) := by
  induction steps generalizing level a with
  | zero => exact .nil
  | succ steps ih =>
    rw [uncleSlots, siblings, map_cons]
    split_ifs with hreal
    · exact .hole (ih _ _)
    · rw [zeroSubtree_eq hzero (not_lt.mp hreal)]
      exact .known (ih _ _)

omit hpieces hwin hstop in
include hzero in
theorem agrees_path (first stop : ℕ) :
    Agrees (pathSlots pieceCount first stop)
      ((treePath f pieceCount first stop).map Prod.snd) :=
  agrees_siblings hzero _ _ _

theorem climb_treePath :
    climb parent (perfect parent f (windowLevel pieceCount first stop)
        (windowIndex pieceCount first stop)) (treePath f pieceCount first stop) =
      perfect parent f (Nat.clog 2 pieceCount) 0 := by
  rw [treePath, climb_siblings, windowLevel_add_steps hpieces hwin hstop,
    Nat.div_eq_of_lt (windowIndex_lt hpieces hwin hstop)]

omit hpieces hwin hstop in
theorem zip_treePath :
    (pathSides pieceCount first stop).zip ((treePath f pieceCount first stop).map Prod.snd) =
      treePath f pieceCount first stop := by
  rw [pathSides, ← siblings_sides parent f (windowLevel pieceCount first stop)]
  exact (zip_of_prod rfl rfl).symm

/-- The merges on the way from the window to the root are merges of the tree. -/
theorem mem_treePairs_path {k i : ℕ} (h1 : windowLevel pieceCount first stop ≤ k)
    (h2 : k < windowLevel pieceCount first stop + windowSteps pieceCount first stop)
    (hi : i = windowIndex pieceCount first stop / 2 ^ (k - windowLevel pieceCount first stop) / 2) :
    (perfect parent f k (2 * i), perfect parent f k (2 * i + 1)) ∈ treePairs f pieceCount := by
  have hsum := windowLevel_add_steps hpieces hwin hstop
  have hindex := windowIndex_lt hpieces hwin hstop
  refine (mem_reducePairs parent f).mpr ⟨k, i, by omega, ?_, rfl⟩
  rw [hi, Nat.div_div_eq_div_mul, ← pow_succ, Nat.div_lt_iff_lt_mul (Nat.two_pow_pos _),
    ← pow_add, show Nat.clog 2 pieceCount - k - 1 + (k - windowLevel pieceCount first stop).succ
      = windowSteps pieceCount first stop by omega]
  exact hindex

include hzero in
/-- The tree's own proof presents only pairs of the tree. -/
theorem presentedPairs_subset (hvalue : ∀ i, first ≤ i → i < stop → value i = f i) :
    presentedPairs value pieceCount first stop
      (writeAll List.Vector.toList (treeHashes f pieceCount first stop)) ⊆
        treePairs f pieceCount := by
  obtain ⟨-, hlevel, -⟩ := window_spec hpieces hwin hstop
  rintro p ⟨nodes, rest, hnodes, hp⟩
  have hwindow := fill_holes ((agrees_window hpieces hwin hstop hzero).mpr fun _ _ _ => rfl)
    (holes (pathSlots pieceCount first stop) ((treePath f pieceCount first stop).map Prod.snd))
  rw [proofHashes_writeAll, windowSlots_congr hvalue] at hnodes
  obtain ⟨rfl, rfl⟩ := Prod.mk.inj (Option.some.inj (hwindow.symm.trans hnodes))
  rcases hp with hp | ⟨hne, path, last, hpath, hp⟩
  · rw [windowPieces_map] at hp
    exact mem_reducePairs_of_shift parent hlevel (windowIndex_lt hpieces hwin hstop) hp
  · have hown := fill_holes (agrees_path hzero first stop) []
    rw [append_nil, hpath] at hown
    obtain ⟨rfl, -⟩ := Prod.mk.inj (Option.some.inj hown)
    rw [reduce_window, zip_treePath] at hp
    obtain ⟨k, i, h1, h2, hi, rfl⟩ := climbPairs_siblings parent hp
    exact mem_treePairs_path hpieces hwin hstop h1 h2 hi

section Exact

variable {covered : List Digest} {value : ℕ → Digest}
variable (hlen : covered.length = stop - first)
variable (hcovered : ∀ index, first ≤ index → index < stop →
  covered[index - first]? = some (value index))
include hzero hlen hcovered

/-- The tree's own proof leads to its root when the presented pieces are the tree's. -/
theorem decodeRoot_complete (hvalue : ∀ i, first ≤ i → i < stop → value i = f i)
    (hfit : (writeAll List.Vector.toList (treeHashes f pieceCount first stop)).length ≤ u64Max) :
    decodeRoot pieceCount first stop covered
      (writeAll List.Vector.toList (treeHashes f pieceCount first stop)) =
        .ok (perfect parent f (Nat.clog 2 pieceCount) 0) := by
  have hhashes := proofHashes_writeAll (treeHashes f pieceCount first stop)
  have hbytes : (writeAll List.Vector.toList (treeHashes f pieceCount first stop)).length =
      32 * (treeHashes f pieceCount first stop).length :=
    writeAll_length (fun d => d.toList_length) _
  have hsupplied := supplied_le (f := f) hpieces hwin hstop
  have hne : (windowPieces pieceCount first stop).map f ≠ [] := by
    rw [windowPieces_map]
    exact range_pow_ne_nil _ _
  have hwindow := fill_holes ((agrees_window hpieces hwin hstop hzero).mpr fun _ _ _ => rfl)
    (holes (pathSlots pieceCount first stop) ((treePath f pieceCount first stop).map Prod.snd))
  have hpath : fill (pathSlots pieceCount first stop) ((treeHashes f pieceCount first stop).drop
      ((treeHashes f pieceCount first stop).length - (holes (pathSlots pieceCount first stop)
        ((treePath f pieceCount first stop).map Prod.snd)).length)) =
      some ((treePath f pieceCount first stop).map Prod.snd, []) := by
    rw [treeHashes, length_append, Nat.add_sub_cancel, drop_left]
    have := fill_holes (agrees_path hzero first stop) []
    rwa [append_nil] at this
  rw [← hhashes] at hpath
  rw [decodeRoot_eq hpieces hwin hstop hlen hcovered, windowSlots_congr hvalue,
    rejectIf_neg (by omega), ok_bind,
    readSlots_of_fill hfit (Nat.zero_le _) (by rw [hhashes, drop_zero]; exact hwindow),
    ok_bind, dif_neg hne, readSlots_of_fill hfit (Nat.sub_le _ _) hpath, ok_bind,
    rejectIf_neg (by rw [hhashes, hbytes]; simp), ok_bind, reduce_window, zip_treePath,
    climb_treePath hpieces hwin hstop]
  rfl

/-- A proof that leads to the root is the tree's own, and the presented pieces are the tree's. -/
theorem decodeRoot_sound {proof : Bytes}
    (hinj : Set.InjOn (fun p : Digest × Digest => parent p.1 p.2)
      (treePairs f pieceCount ∪ presentedPairs value pieceCount first stop proof))
    (h : decodeRoot pieceCount first stop covered proof =
      .ok (perfect parent f (Nat.clog 2 pieceCount) 0)) :
    proof = writeAll List.Vector.toList (treeHashes f pieceCount first stop) ∧
      ∀ i, first ≤ i → i < stop → value i = f i := by
  obtain ⟨-, hlevel, -⟩ := window_spec hpieces hwin hstop
  have hsum := windowLevel_add_steps hpieces hwin hstop
  have hindex := windowIndex_lt hpieces hwin hstop
  simp only [decodeRoot_eq hpieces hwin hstop hlen hcovered, bind_eq_ok, rejectIf_eq_ok] at h
  obtain ⟨-, -, nodes, hnodes, h⟩ := h
  obtain ⟨m₁, hm₁, hfill₁⟩ := fill_of_readSlots hnodes
  rw [drop_zero] at hfill₁
  split_ifs at h with hne
  simp only [bind_eq_ok, rejectIf_eq_ok, pure_eq_ok, not_not] at h
  obtain ⟨path, hpath, -, hend, hclimb⟩ := h
  rw [hm₁] at hpath
  obtain ⟨m₂, hm₂, hfill₂⟩ := fill_of_readSlots hpath
  obtain ⟨hagree₁, hstream₁⟩ := fill_eq_some hfill₁
  obtain ⟨hagree₂, hstream₂⟩ := fill_eq_some hfill₂
  have hlen₁ : nodes.1.length = 2 ^ windowLevel pieceCount first stop := by
    rw [hagree₁.length_eq, windowSlots_length]
  have hlen₂ : path.1.length = (pathSides pieceCount first stop).length := by
    rw [hagree₂.length_eq, pathSlots_length, pathSides, sides_length]
  have hclimbed : ∀ p ∈ climbPairs parent (reduce nodes.1 hne)
      ((pathSides pieceCount first stop).zip path.1), p ∈ treePairs f pieceCount ∪
        presentedPairs value pieceCount first stop proof :=
    fun p hp => .inr ⟨_, _, hfill₁, .inr ⟨hne, _, _, hfill₂, hp⟩⟩
  have hroot : climb parent (reduce nodes.1 hne) ((pathSides pieceCount first stop).zip path.1) =
      perfect parent f (windowLevel pieceCount first stop + windowSteps pieceCount first stop)
        (windowIndex pieceCount first stop / 2 ^ windowSteps pieceCount first stop) := by
    rw [hclimb, hsum, Nat.div_eq_of_lt hindex]
  obtain ⟨htop, hzip⟩ := climb_sound hinj (map_fst_zip hlen₂.ge) hclimbed
    (fun k i hk hk' hi => .inl (mem_treePairs_path hpieces hwin hstop hk hk' hi)) hroot
  have hpathEq : path.1 = (treePath f pieceCount first stop).map Prod.snd := by
    rw [treePath, ← hzip]
    exact (map_snd_zip hlen₂.le).symm
  have hnodesEq : nodes.1 = (windowPieces pieceCount first stop).map f := by
    have hne' : (windowPieces pieceCount first stop).map f ≠ [] := by
      rw [windowPieces_map]
      exact range_pow_ne_nil _ _
    refine reduceLevels_inj hinj _ hlen₁ (by simp [windowPieces]) hne hne'
      (fun p hp => .inr ⟨_, _, hfill₁, .inl hp⟩) (fun p hp => .inl ?_)
      (htop.trans (reduce_window f hne').symm)
    rw [windowPieces_map] at hp
    exact mem_reducePairs_of_shift parent hlevel hindex hp
  rw [hnodesEq, agrees_window hpieces hwin hstop hzero] at hagree₁
  refine ⟨?_, hagree₁⟩
  have hlast : (proofHashes proof).drop m₂ = [] := by
    rw [drop_eq_nil_iff, proofHashes, readAll_length]
    omega
  rw [hstream₂, hlast, append_nil, hnodesEq, hpathEq, windowSlots_congr hagree₁] at hstream₁
  rw [treeHashes, ← hstream₁, proofHashes, writeAll_readAll fun _ => Block.toList_ofBytes]
  exact ⟨m₂, by omega⟩

end Exact

end ObjectTransfer.Proof.Bep52
