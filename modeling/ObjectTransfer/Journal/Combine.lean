import ObjectTransfer.Journal.Format

/-! # Checksums of joined bytes

A register step of CRC32C is linear in exclusive or. Passing `n` zero bytes is then a matrix over the
bits, and squaring gets to it in as many steps as `n` has bits.
-/

namespace ObjectTransfer.Journaling
open Foundations List

/-- One matrix on one word: the exclusive or of the columns the word selects. -/
def apply (matrix : List UInt32) (vector : UInt32) : UInt32 :=
  matrix.zipIdx.foldl (fun sum (column, index) =>
    if vector >>> UInt32.ofNat index &&& 1 ≠ 0 then sum ^^^ column else sum) 0

/-- What the matrix does twice. -/
def square (matrix : List UInt32) : List UInt32 := matrix.map (apply matrix)

/-- One zero bit: the polynomial, then the identity. -/
def zeroBit : List UInt32 := 0x82f63b78 :: (List.range 31).map fun i => UInt32.ofNat (2 ^ i)

/-- A pass for each bit of the length, from the matrix for half as many zero bits as the next. -/
def advance : ℕ → List UInt32 → UInt32 → ℕ → UInt32
  | 0, _, advanced, _ => advanced
  | passes + 1, half, advanced, remaining =>
    if remaining = 0 then advanced
    else advance passes (square half)
      (if remaining % 2 ≠ 0 then apply (square half) advanced else advanced) (remaining / 2)

def crc32cCombine (a b : UInt32) (lenB : ℕ) : UInt32 :=
  if lenB = 0 then a else advance 64 (square (square zeroBit)) a lenB ^^^ b

/-- One step of the register. -/
def crcBit (running : UInt32) : UInt32 := running >>> 1 ^^^ (0x82f63b78 &&& (0 - (running &&& 1)))

/-- Linear over the bits. -/
def XorLinear (f : UInt32 → UInt32) : Prop := ∀ x y, f (x ^^^ y) = f x ^^^ f y

/-- The columns of a linear map. -/
def matrixOf (f : UInt32 → UInt32) : List UInt32 :=
  (List.range 32).map fun i => f (UInt32.ofNat (2 ^ i))

section Linear

variable {f : UInt32 → UInt32}

theorem XorLinear.zero (h : XorLinear f) : f 0 = 0 := by
  have := h 0 0
  rwa [UInt32.xor_self, UInt32.xor_self] at this

theorem XorLinear.comp {g : UInt32 → UInt32} (hf : XorLinear f) (hg : XorLinear g) :
    XorLinear (f ∘ g) := fun x y => by
  rw [Function.comp, hg, hf]
  rfl

theorem XorLinear.iterate (h : XorLinear f) (n : ℕ) : XorLinear f^[n] := by
  induction n with
  | zero => exact fun _ _ => rfl
  | succ n ih =>
    exact ih.comp h

theorem selected_iff (v : UInt32) {i : ℕ} (hi : i < 32) :
    v >>> UInt32.ofNat i &&& 1 ≠ 0 ↔ v.toNat.testBit i = true := by
  have hshift : (v >>> UInt32.ofNat i &&& 1).toNat = v.toNat >>> i % 2 := by
    rw [UInt32.toNat_and, UInt32.toNat_shiftRight, UInt32.toNat_ofNat_of_lt' (hi.trans (by decide)),
      Nat.mod_eq_of_lt hi]
    exact Nat.and_one_is_mod _
  rw [ne_eq, ← UInt32.toNat_inj, hshift, Nat.testBit, Nat.one_and_eq_mod_two]
  simp

theorem mod_two_pow_succ_xor (v n : ℕ) : v % 2 ^ (n + 1) =
    if v.testBit n then v % 2 ^ n ^^^ 2 ^ n else v % 2 ^ n := by
  refine Nat.eq_of_testBit_eq fun j => ?_
  rcases lt_trichotomy j n with hlt | rfl | hgt
  · split_ifs <;> simp [Nat.testBit_mod_two_pow, hlt, hlt.ne', hlt.le]
  · split_ifs with hbit <;> simp [Nat.testBit_mod_two_pow, hbit]
  · split_ifs <;> simp [Nat.testBit_mod_two_pow, hgt.ne, hgt.not_ge, hgt.not_gt]

theorem bits_sum (v : UInt32) {n : ℕ} (hn : n ≤ 32) :
    ((List.range n).foldl (fun sum i => if v >>> UInt32.ofNat i &&& 1 ≠ 0 then
      sum ^^^ UInt32.ofNat (2 ^ i) else sum) 0).toNat = v.toNat % 2 ^ n := by
  induction n with
  | zero => simp [Nat.mod_one]
  | succ n ih =>
    have hpow : 2 ^ n < 2 ^ 32 := Nat.pow_lt_pow_right (by omega) (by omega)
    rw [range_succ, foldl_append, mod_two_pow_succ_xor, ← ih (by omega)]
    simp only [foldl_cons, foldl_nil, selected_iff v (show n < 32 by omega)]
    split_ifs
    · rw [UInt32.toNat_xor, UInt32.toNat_ofNat_of_lt' hpow]
    · rfl

theorem apply_matrixOf (h : XorLinear f) (v : UInt32) : apply (matrixOf f) v = f v := by
  have hcolumns : (matrixOf f).zipIdx =
      (range 32).map fun i => (f (UInt32.ofNat (2 ^ i)), i) := by
    refine ext_getElem? fun i => ?_
    simp only [matrixOf, getElem?_zipIdx, getElem?_map, zero_add]
    by_cases hi : i < 32
    · simp [getElem?_range hi]
    · rw [getElem?_eq_none (by simpa using hi)]
      rfl
  have hhom : (range 32).foldl (fun sum i => if v >>> UInt32.ofNat i &&& 1 ≠ 0 then
      sum ^^^ f (UInt32.ofNat (2 ^ i)) else sum) (f 0) =
      f ((range 32).foldl (fun sum i => if v >>> UInt32.ofNat i &&& 1 ≠ 0 then
        sum ^^^ UInt32.ofNat (2 ^ i) else sum) 0) :=
    foldl_hom f fun sum i => by split_ifs <;> simp [h _ _]
  have hall := bits_sum v le_rfl
  rw [Nat.mod_eq_of_lt v.toNat_lt, UInt32.toNat_inj] at hall
  rw [hall, h.zero] at hhom
  exact hhom

theorem square_matrixOf (h : XorLinear f) : square (matrixOf f) = matrixOf (f ∘ f) := by
  exact map_congr_left fun i _ => apply_matrixOf h _

/-- The passes together: as many double steps as the length. -/
theorem advance_eq (h : XorLinear f) {passes n : ℕ} (hn : n < 2 ^ passes) (v : UInt32) :
    advance passes (matrixOf f) v n = (f ∘ f)^[n] v := by
  induction passes generalizing f n v with
  | zero =>
    obtain rfl : n = 0 := by simpa using hn
    rfl
  | succ passes ih =>
    rw [advance]
    split_ifs with hzero hodd
    · rw [hzero]
      rfl
    all_goals
      have htwice := h.comp h
      rw [square_matrixOf h, ih htwice (by rw [pow_succ] at hn; omega)]
      have hpair : ((f ∘ f) ∘ (f ∘ f))^[n / 2] = (f ∘ f)^[2 * (n / 2)] := by
        rw [Function.iterate_mul]
        rfl
    · rw [apply_matrixOf htwice, hpair, ← Function.iterate_succ_apply]
      congr 1
      omega
    · rw [hpair]
      congr 1
      omega

end Linear

theorem low_bit (x : UInt32) : x &&& 1 = 0 ∨ x &&& 1 = 1 := by
  have hmod : (x &&& 1).toNat = x.toNat % 2 := by
    exact Nat.and_one_is_mod _
  rcases Nat.mod_two_eq_zero_or_one x.toNat with h | h
  · exact .inl (UInt32.toNat_inj.mp (by rw [hmod, h]; rfl))
  · exact .inr (UInt32.toNat_inj.mp (by rw [hmod, h]; rfl))

theorem crcBit_linear : XorLinear crcBit := by
  intro x y
  have hmask : (0x82f63b78 : UInt32) &&& (0 - ((x ^^^ y) &&& 1)) =
      (0x82f63b78 &&& (0 - (x &&& 1))) ^^^ (0x82f63b78 &&& (0 - (y &&& 1))) := by
    have hlow : (x ^^^ y) &&& 1 = (x &&& 1) ^^^ (y &&& 1) := by
      refine UInt32.toNat_inj.mp ?_
      simp only [UInt32.toNat_and, UInt32.toNat_xor, Nat.and_xor_distrib_right]
    rw [hlow]
    rcases low_bit x with hx | hx <;> rcases low_bit y with hy | hy <;> rw [hx, hy] <;> decide
  have hshift : (x ^^^ y) >>> 1 = x >>> 1 ^^^ y >>> 1 := by
    refine UInt32.toNat_inj.mp ?_
    simp [UInt32.toNat_xor, UInt32.toNat_shiftRight, Nat.shiftRight_xor_distrib]
  rw [crcBit, hshift, hmask, crcBit, crcBit]
  ac_rfl

theorem zeroBit_eq : zeroBit = matrixOf crcBit := by decide

theorem crcByte_eq (running : UInt32) (byte : UInt8) :
    crcByte running byte = crcBit^[8] (running ^^^ byte.toUInt32) := rfl

/-- What the register held moves on through zero bytes, whatever the bytes are. -/
theorem foldl_crcByte (bytes : Bytes) (r s : UInt32) :
    bytes.foldl crcByte (r ^^^ s) =
      bytes.foldl crcByte r ^^^ (crcBit^[8])^[bytes.length] s := by
  induction bytes generalizing r s with
  | nil => rfl
  | cons byte bytes ih =>
    have hbyte : crcByte (r ^^^ s) byte = crcByte r byte ^^^ crcBit^[8] s := by
      rw [crcByte_eq, crcByte_eq, ← crcBit_linear.iterate 8]
      congr 1
      ac_rfl
    rw [foldl_cons, hbyte, ih]
    rfl

/-- A checksum is extended byte by byte, or joined with that of the bytes that follow. -/
theorem checksum_combines (a b : Bytes) (hb : b.length < 2 ^ 64) :
    crc32cCombine (crc32c a) (crc32c b) b.length = crc32c (a ++ b) ∧
      crc32cUpdate (crc32c a) b = crc32c (a ++ b) := by
  have hupdate : crc32cUpdate (crc32c a) b = crc32c (a ++ b) := by
    simp only [crc32c, crc32cUpdate, UInt32.not_not, foldl_append]
  refine ⟨?_, hupdate⟩
  rw [crc32cCombine]
  split_ifs with hempty
  · rw [length_eq_zero_iff.mp hempty, append_nil]
  have hfour : square (square zeroBit) = matrixOf crcBit^[4] := by
    rw [zeroBit_eq, square_matrixOf crcBit_linear, square_matrixOf (crcBit_linear.comp crcBit_linear)]
    rfl
  have height : crcBit^[4] ∘ crcBit^[4] = crcBit^[8] := (Function.iterate_add crcBit 4 4).symm
  have hstart : (~~~0 : UInt32) ^^^ crc32c a = ~~~(crc32c a) := UInt32.toBitVec_inj.mp (by simp)
  rw [hfour, advance_eq (crcBit_linear.iterate 4) hb, height, ← hupdate, crc32cUpdate, ← hstart,
    foldl_crcByte, ← UInt32.not_xor, UInt32.xor_comm]
  rfl

/-- Two bytes joined to one. -/
theorem checksum_combines_short :
    crc32cCombine (crc32c [0x31]) (crc32c [0x32, 0x33]) 2 = crc32c [0x31, 0x32, 0x33] :=
  (checksum_combines [0x31] [0x32, 0x33] (by decide)).1

end ObjectTransfer.Journaling
