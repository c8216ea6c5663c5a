import ObjectTransfer.Foundations.Slots
import ObjectTransfer.Proof.Bep52
import ObjectTransfer.Streaming.PieceTree

/-! # The SHA-256 proof as a filled window and a filled path

Both sides walk the same slots: the window's pieces, then the siblings on the way up.
The encoder writes the values of the slots that are holes, and the decoder fills the
holes from the proof bytes.
-/

namespace ObjectTransfer.Proof.Bep52
open Foundations Streaming List

theorem xor_one (a : ℕ) : a ^^^ 1 = siblingIndex a := by
  have hdiv : (a ^^^ 1) / 2 = a / 2 := by
    rw [Nat.xor_div_two]
    simp
  have hmod : (a ^^^ 1) % 2 = (a + 1) % 2 := by
    have h := Nat.xor_mod_two_pow (a := a) (b := 1) (n := 1)
    rw [h]
    rcases Nat.mod_two_eq_zero_or_one a with h0 | h1
    · rw [h0, Nat.add_mod, h0]
      rfl
    · rw [h1, Nat.add_mod, h1]
      rfl
  unfold siblingIndex
  split_ifs <;> omega

/-- The window is an aligned block of a power of two of pieces inside the tree. -/
structure Window (first stop height level start : ℕ) : Prop where
  le : level ≤ height
  start_eq : start = 2 ^ level * (first / 2 ^ level)
  covers : stop ≤ start + 2 ^ level

theorem grow_eq {first stop height : ℕ} (hstop : stop ≤ 2 ^ height)
    (hwin : first < stop) {level : ℕ} (hlevel : level ≤ height) :
    ∃ level' start, proofWindow.grow first stop (2 ^ level) = (start, 2 ^ level') ∧
      Window first stop height level' start := by
  by_cases hfits : stop ≤ 2 ^ level * (first / 2 ^ level) + 2 ^ level
  · refine ⟨level, _, ?_, hlevel, rfl, hfits⟩
    rw [proofWindow.grow, if_neg (by simp [hfits])]
  · have hlt : level < height := by
      by_contra hge
      obtain rfl : level = height := by omega
      rw [Nat.div_eq_of_lt (by omega)] at hfits
      omega
    obtain ⟨level', start, hgrow, hwindow⟩ := grow_eq hstop hwin (show level + 1 ≤ height by omega)
    refine ⟨level', start, ?_, hwindow⟩
    rw [proofWindow.grow, if_pos ⟨Nat.two_pow_pos _, hfits⟩, ← Nat.pow_succ', hgrow]
termination_by height - level

section Sized
variable {first stop pieceCount : ℕ} (hpieces : 2 ≤ pieceCount)
include hpieces

theorem proofWindow_eq_grow :
    proofWindow first stop (nextPowerOfTwo pieceCount) =
      proofWindow.grow first stop (max (nextPowerOfTwo (stop - first)) 2) := by
  have hle := le_nextPowerOfTwo pieceCount
  rw [proofWindow, if_pos (by omega)]

theorem proofWindow_eq (hwin : first < stop) (hstop : stop ≤ pieceCount) :
    ∃ level start, proofWindow first stop (nextPowerOfTwo pieceCount) = (start, 2 ^ level) ∧
      Window first stop (Nat.clog 2 pieceCount) level start := by
  have hheight : 1 ≤ Nat.clog 2 pieceCount := Nat.clog_pos (by omega) (by omega)
  have hmono : Nat.clog 2 (stop - first) ≤ Nat.clog 2 pieceCount :=
    Nat.clog_mono_right 2 (by omega)
  have hwidth : max (nextPowerOfTwo (stop - first)) 2 = 2 ^ max (Nat.clog 2 (stop - first)) 1 := by
    rw [(pow_right_mono₀ one_le_two).map_max, pow_one, nextPowerOfTwo]
  rw [proofWindow_eq_grow hpieces, hwidth]
  exact grow_eq (hstop.trans (le_nextPowerOfTwo pieceCount)) hwin (by omega)

end Sized

/-- A window that grew straddles its middle. -/
theorem grow_half (first stop width : ℕ) :
    let window := proofWindow.grow first stop width
    window.1 = window.2 * (first / window.2) ∧
      (window.2 = width ∨ ∃ half, window.2 = 2 * half ∧ window.1 + half < stop) := by
  fun_induction proofWindow.grow first stop width with
  | case1 width h ih =>
    obtain ⟨haligned, hsame | hgrown⟩ := ih
    · refine ⟨haligned, .inr ⟨width, hsame, ?_⟩⟩
      rw [haligned, hsame]
      have hhalf : 2 * width * (first / (2 * width)) ≤ width * (first / width) := by
        rw [mul_comm 2 width, mul_assoc, ← Nat.div_div_eq_div_mul]
        exact Nat.mul_le_mul_left _ (Nat.mul_div_le _ _)
      omega
    · exact ⟨haligned, .inr hgrown⟩
  | case2 => exact ⟨rfl, .inl rfl⟩

theorem mul_siblingIndex (level a : ℕ) :
    2 ^ level * siblingIndex a =
      if a % 2 = 1 then 2 ^ level * a - 2 ^ level else 2 ^ level * a + 2 ^ level := by
  unfold siblingIndex
  split_ifs
  · rw [Nat.mul_sub, mul_one]
  · rw [mul_add, mul_one]

theorem min_siblingStart (level a : ℕ) :
    min (2 ^ level * a) (2 ^ level * siblingIndex a) = 2 ^ (level + 1) * (a / 2) := by
  rw [Nat.mul_min_mul_left, min_siblingIndex, pow_succ, mul_assoc]

section Reading

variable {proof : Bytes}

def proofHashes (proof : Bytes) : List Digest := readAll (Block.ofBytes 32) 32 proof

variable {k : ℕ}

theorem readHash_eq_ok {next : Digest × ℕ} (h : readHash proof (32 * k) = .ok next) :
    (proofHashes proof).drop k = next.1 :: (proofHashes proof).drop (k + 1) ∧
      next.2 = 32 * (k + 1) := by
  simp only [readHash, bind_eq_ok, okOr_eq_ok, checkedAdd_eq_some, slice?_eq_some, pure_eq_ok] at h
  obtain ⟨_, ⟨-, rfl⟩, _, ⟨-, hle, rfl⟩, rfl⟩ := h
  exact ⟨(drop_readAll_eq_cons (by decide)).mpr ⟨hle, by simp [chunkAt], rfl⟩, rfl⟩

theorem readHash_of_cons (hproof : proof.length ≤ u64Max) {x : Digest}
    {tail : List Digest} (h : (proofHashes proof).drop k = x :: tail) :
    readHash proof (32 * k) = .ok (x, 32 * (k + 1)) := by
  obtain ⟨hle, rfl, -⟩ := (drop_readAll_eq_cons (by decide)).mp h
  rw [readHash, checkedAdd_of_le (by omega), okOr_some, ok_bind, slice?_eq (by omega) hle]
  simp [chunkAt, Nat.mul_succ]

/-- Take the value of one slot, from the proof where it is a hole. -/
def readSlot (proof : Bytes) (cursor : ℕ) : Option Digest → Except (Abort Error) (Digest × ℕ)
  | some value => return (value, cursor)
  | none => readHash proof cursor

def readSlots (proof : Bytes) (cursor : ℕ) :
    List (Option Digest) → Except (Abort Error) (List Digest × ℕ)
  | [] => return ([], cursor)
  | slot :: slots => do
    let value ← readSlot proof cursor slot
    let rest ← readSlots proof value.2 slots
    return (value.1 :: rest.1, rest.2)

variable {slots : List (Option Digest)}

/-- Slots that were read are filled from the proof's digests. -/
theorem fill_of_readSlots {read : List Digest × ℕ} (h : readSlots proof (32 * k) slots = .ok read) :
    ∃ m, read.2 = 32 * m ∧
      fill slots ((proofHashes proof).drop k) = some (read.1, (proofHashes proof).drop m) := by
  induction slots generalizing k read with
  | nil =>
    obtain rfl := pure_eq_ok.mp h
    exact ⟨k, rfl, rfl⟩
  | cons slot slots ih =>
    simp only [readSlots, bind_eq_ok, pure_eq_ok] at h
    obtain ⟨value, hvalue, rest, hrest, rfl⟩ := h
    cases slot with
    | some =>
      obtain rfl := pure_eq_ok.mp hvalue
      obtain ⟨m, hm, hfill⟩ := ih hrest
      exact ⟨m, hm, by simp [fill, hfill]⟩
    | none =>
      obtain ⟨hdrop, hnext⟩ := readHash_eq_ok hvalue
      rw [hnext] at hrest
      obtain ⟨m, hm, hfill⟩ := ih hrest
      exact ⟨m, hm, by simp [hdrop, fill, hfill]⟩

/-- Slots that the proof's digests fill are read. -/
theorem readSlots_of_fill (hproof : proof.length ≤ u64Max)
    (hk : k ≤ (proofHashes proof).length) {values rest : List Digest}
    (h : fill slots ((proofHashes proof).drop k) = some (values, rest)) :
    readSlots proof (32 * k) slots =
      .ok (values, 32 * ((proofHashes proof).length - rest.length)) := by
  induction slots generalizing k values with
  | nil =>
    obtain ⟨rfl, rfl⟩ := h
    rw [length_drop, Nat.sub_sub_self hk]
    rfl
  | cons slot slots ih =>
    cases slot with
    | some =>
      simp only [fill, Option.map_eq_some_iff, Prod.mk.injEq] at h
      obtain ⟨⟨values', rest'⟩, hfill, rfl, rfl⟩ := h
      rw [readSlots, readSlot, pure_bind, ih hk hfill]
      rfl
    | none =>
      cases hdrop : (proofHashes proof).drop k with
      | nil => simp [hdrop, fill] at h
      | cons =>
        have hread := readHash_of_cons hproof hdrop
        obtain ⟨hcons, -⟩ := readHash_eq_ok hread
        have hk' : k + 1 ≤ (proofHashes proof).length := by
          have := congrArg length hdrop
          rw [length_drop, length_cons] at this
          omega
        rw [hcons] at h
        simp only [fill, Option.map_eq_some_iff, Prod.mk.injEq] at h
        obtain ⟨⟨values', rest'⟩, hfill, rfl, rfl⟩ := h
        rw [readSlots, readSlot, hread, ok_bind, ih hk' hfill]
        rfl

end Reading

variable [Sha256]

theorem pieceHash_nil : pieceHash [] = zeroPiece := by
  have hleaves : resize (leafHashes []) 4 zeroDigest =
      (range (2 ^ 2)).map fun _ => zeroDigest := rfl
  rw [pieceHash, reduce, reduceLevels_congr parent hleaves, reduceLevels_range]
  rfl

theorem zeroSubtree_grow (value : Digest) (level : ℕ) :
    zeroSubtree.grow value (2 ^ level) = (fun v => parent v v)^[level] value := by
  induction level generalizing value with
  | zero =>
    rw [zeroSubtree.grow, if_neg (by simp)]
    rfl
  | succ level ih =>
    have hpos := Nat.two_pow_pos level
    rw [zeroSubtree.grow, if_pos (by rw [pow_succ]; omega), pow_succ,
      Nat.mul_div_cancel _ (by omega), ih, Function.iterate_succ_apply]

section Tree

variable {f : ℕ → Digest} {pieceCount : ℕ} (hzero : ∀ j, pieceCount ≤ j → f j = zeroPiece)
include hzero

theorem zeroSubtree_eq {level i : ℕ} (h : pieceCount ≤ 2 ^ level * i) :
    zeroSubtree (2 ^ level) = perfect parent f level i := by
  rw [zeroSubtree, zeroSubtree_grow, perfect_const parent level fun j hj => hzero j (by omega)]

theorem resize_range {width : ℕ} (h : pieceCount ≤ width) :
    resize ((List.range pieceCount).map f) width zeroPiece = (List.range width).map f := by
  have htail : (range' pieceCount (width - pieceCount)).map f =
      replicate (width - pieceCount) zeroPiece := by
    rw [eq_replicate_iff]
    refine ⟨by simp, fun d hd => ?_⟩
    obtain ⟨j, hj, rfl⟩ := mem_map.mp hd
    exact hzero j (mem_range'_1.mp hj).1
  have hsplit : range width =
      range pieceCount ++ range' pieceCount (width - pieceCount) := by
    have happ : range' 0 pieceCount ++ range' (0 + pieceCount) (width - pieceCount) =
        range' 0 (pieceCount + (width - pieceCount)) := range'_append_1
    rw [zero_add, Nat.add_sub_cancel' h] at happ
    rw [range_eq_range', range_eq_range', happ]
  rw [resize, take_of_length_le (by simpa using h), hsplit, map_append, htail]
  simp

end Tree

theorem layersFrom_getElem? (f : ℕ → Digest) (height : ℕ) {level : ℕ} (h : level ≤ height) :
    (layersFrom ((List.range (2 ^ height)).map f))[level]? =
      some ((List.range (2 ^ (height - level))).map (perfect parent f level)) := by
  induction height generalizing f level with
  | zero =>
    obtain rfl : level = 0 := by omega
    rw [layersFrom, if_neg (by simp)]
    rfl
  | succ height ih =>
    rw [layersFrom, if_pos (Nat.lt_of_succ_le (two_le_range_pow f height))]
    cases level with
    | zero => rfl
    | succ level =>
      rw [getElem?_cons_succ, pairUp_pow, ih _ (by omega), Nat.add_sub_add_right]
      congr 2
      funext i
      exact perfect_pairs parent f level i

/-- The pieces of the window the verifier knows before it reads the proof. -/
def windowSlot (pieceCount first stop : ℕ) (covered : ℕ → Digest) (index : ℕ) : Option Digest :=
  if first ≤ index ∧ index < stop then some (covered index)
  else if index < pieceCount then none
  else some zeroPiece

/-- The siblings it knows on the way up from node `a` at `level`. -/
def uncleSlots (pieceCount level a : ℕ) : ℕ → List (Option Digest)
  | 0 => []
  | steps + 1 =>
    (if 2 ^ level * siblingIndex a < pieceCount then none else some (zeroSubtree (2 ^ level))) ::
      uncleSlots pieceCount (level + 1) (a / 2) steps

@[simp] theorem uncleSlots_length (pieceCount level a steps : ℕ) :
    (uncleSlots pieceCount level a steps).length = steps := by
  induction steps generalizing level a with
  | zero => rfl
  | succ steps ih => rw [uncleSlots, length_cons, ih]

section Encoder

variable {f : ℕ → Digest} {pieceCount : ℕ} {hash : ℕ → ℕ → Option Digest}

theorem encodeWindow_eq (first stop : ℕ) (covered : ℕ → Digest)
    (hhash : ∀ index < pieceCount, hash index 1 = some (f index)) (indices : List ℕ)
    (output : Bytes) :
    indices.foldlM (fun output index =>
      if (index < first ∨ stop ≤ index) ∧ index < pieceCount then
        (hash index 1).map (output ++ ·.toList)
      else some output) output =
    some (output ++ writeAll List.Vector.toList
      (holes (indices.map (windowSlot pieceCount first stop covered)) (indices.map f))) := by
  induction indices generalizing output with
  | nil => simp [holes]
  | cons index indices ih =>
    rw [foldlM_cons, map_cons, map_cons]
    by_cases hcov : first ≤ index ∧ index < stop
    · rw [if_neg (by omega), windowSlot, if_pos hcov, holes]
      exact ih output
    · by_cases hreal : index < pieceCount
      · rw [if_pos (by omega), windowSlot, if_neg hcov, if_pos hreal, holes, hhash index hreal,
          writeAll_cons, ← append_assoc]
        exact ih _
      · rw [if_neg (by omega), windowSlot, if_neg hcov, if_neg hreal, holes]
        exact ih output

theorem encodeUncles_eq {height : ℕ}
    (hhash : ∀ level i, level < height → 2 ^ level * i < pieceCount →
      hash (2 ^ level * i) (2 ^ level) = some (perfect parent f level i))
    (steps : ℕ) {level a : ℕ} (hsteps : level + steps = height) (output : Bytes) :
    encodeUncles pieceCount (2 ^ height) hash (2 ^ level * a) (2 ^ level) output =
      some (output ++ writeAll List.Vector.toList (holes (uncleSlots pieceCount level a steps)
        ((siblings parent f level a steps).map Prod.snd))) := by
  have hpos := Nat.two_pow_pos level
  induction steps generalizing level a output with
  | zero =>
    obtain rfl : level = height := by omega
    rw [encodeUncles, if_pos rfl]
    simp [uncleSlots, holes]
  | succ steps ih =>
    have hlt : 2 ^ level < 2 ^ height := Nat.pow_lt_pow_right (by omega) (by omega)
    have hnext := fun output => @ih (level + 1) (a / 2) (by omega) output (Nat.two_pow_pos _)
    rw [encodeUncles, if_neg (by omega), if_pos ⟨hpos, hlt⟩, uncleSlots, siblings, map_cons]
    simp only [Nat.mul_div_cancel_left _ hpos, xor_one, mul_comm (siblingIndex a),
      min_siblingStart, ← Nat.pow_succ']
    by_cases hreal : 2 ^ level * siblingIndex a < pieceCount
    · simp only [if_pos hreal, hhash level _ (by omega) hreal, Option.map_some, holes,
        Option.bind_eq_bind, Option.bind_some, hnext, writeAll_cons, append_assoc]
    · simp only [if_neg hreal, holes, Option.bind_eq_bind, Option.bind_some, hnext]

end Encoder

section Decoder

theorem decodeWindow_eq {pieceCount first stop : ℕ} {covered : List Digest} {value : ℕ → Digest}
    (hcovered : ∀ index, first ≤ index → index < stop →
      covered[index - first]? = some (value index))
    (proof : Bytes) (cursor index count : ℕ) :
    decodeWindow pieceCount first stop covered proof cursor index count =
      readSlots proof cursor
        ((List.range' index count).map (windowSlot pieceCount first stop value)) := by
  induction count generalizing cursor index with
  | zero => rfl
  | succ count ih =>
    have hnode : decodeNode pieceCount first stop covered proof cursor index =
        readSlot proof cursor (windowSlot pieceCount first stop value index) := by
      unfold decodeNode windowSlot
      split_ifs with hcov hreal
      · rw [hcovered index hcov.1 hcov.2]
        rfl
      · rfl
      · rfl
    rw [range'_succ, map_cons, decodeWindow, readSlots, hnode]
    simp only [ih]

theorem decodeUncles_eq {pieceCount height : ℕ} (proof : Bytes) (steps : ℕ) {level a : ℕ}
    (hsteps : level + steps = height) (value : Digest) (cursor : ℕ) :
    decodeUncles pieceCount (2 ^ height) proof value (2 ^ level * a) (2 ^ level) cursor = do
      let read ← readSlots proof cursor (uncleSlots pieceCount level a steps)
      return (climb parent value ((sides a steps).zip read.1), read.2) := by
  have hpos := Nat.two_pow_pos level
  induction steps generalizing level a value cursor with
  | zero =>
    obtain rfl : level = height := by omega
    rw [decodeUncles, if_neg (by omega)]
    rfl
  | succ steps ih =>
    have hlt : 2 ^ level < 2 ^ height := Nat.pow_lt_pow_right (by omega) (by omega)
    rw [decodeUncles, if_pos hlt, if_pos hpos, Nat.mul_div_cancel_left _ hpos, uncleSlots,
      readSlots, sides]
    simp only [← mul_siblingIndex, min_siblingStart, ← Nat.pow_succ', bind_assoc,
      ih (show level + 1 + steps = height by omega) _ _ (Nat.two_pow_pos _), pure_bind,
      zip_cons_cons, climb, decide_eq_true_eq]
    by_cases hreal : 2 ^ level * siblingIndex a < pieceCount
    · simp only [if_pos hreal, readSlot]
    · simp only [if_neg hreal, readSlot, pure_bind]

end Decoder

end ObjectTransfer.Proof.Bep52
