import ObjectTransfer.Foundations.Chunks
import ObjectTransfer.Foundations.CyclicField
import Mathlib.Data.Nat.Bitwise

/-! # GF(2^8) by tables

Addition is exclusive or. Products and inverses are read from a table of powers of the
generator 2 under the polynomial 0x11D and a table of logarithms, both filled by loops.
The multiply-add kernel works on chunks of eight bytes, or on vectors whose lanes are
looked up half a byte at a time.
-/

namespace ObjectTransfer.Fec
open Foundations List

variable {i : ℕ} {n : ℕ} {a : UInt8}

namespace Gf

def polynomial : ℕ := 0x11D

/-- Multiplication by the generator. -/
def double (value : ℕ) : ℕ :=
  let value := value <<< 1
  if value &&& 0x100 ≠ 0 then value ^^^ polynomial else value

/-- The loop that fills both tables with the next `count` powers, and the value after it. -/
def fillPowers : ℕ → ℕ → ℕ → List UInt8 → List UInt8 → List UInt8 × List UInt8 × ℕ
  | 0, _, value, exp, log => (exp, log, value)
  | count + 1, power, value, exp, log =>
    fillPowers count (power + 1) (double value) (exp.set power (UInt8.ofNat (value &&& 0xFF)))
      (log.set value (UInt8.ofNat (power &&& 0xFF)))

/-- The loop that repeats the powers, so that a sum of two logarithms is an index. -/
def repeatPowers : ℕ → ℕ → List UInt8 → List UInt8
  | 0, _, exp => exp
  | count + 1, power, exp =>
    repeatPowers count (power + 1) (exp.set power (exp.getD (power - 255) 0))

def filled : List UInt8 × List UInt8 × ℕ :=
  fillPowers 255 0 1 (List.replicate 512 0) (List.replicate 256 0)

def expTable : List UInt8 := repeatPowers 257 255 filled.1

def logTable : List UInt8 := filled.2.1

def exp (i : ℕ) : UInt8 := expTable.getD i 0

def log (a : UInt8) : ℕ := (logTable.getD a.toNat 0).toNat

def mul (a b : UInt8) : UInt8 := if a = 0 ∨ b = 0 then 0 else exp (log a + log b)

/-- The inverse; zero has none, and asking for it is a panic. -/
def inv (a : UInt8) : Option UInt8 := if a = 0 then none else some (exp (255 - log a))

/-- The table of all products; a row or column of zero stays as it was initialised. -/
def products (coefficient value : UInt8) : UInt8 :=
  if coefficient = 0 ∨ value = 0 then 0 else exp (log coefficient + log value)

/-- The products of the low and of the high half of a byte. -/
def lowNibble (coefficient nibble : UInt8) : UInt8 := products coefficient nibble

def highNibble (coefficient nibble : UInt8) : UInt8 := products coefficient (nibble <<< 4)

section Kernel

/-- Update the front of `out` with the elements of a second list. -/
def zipInto {α β : Type*} (f : α → β → α) : List α → List β → List α
  | a :: out, b :: symbol => f a b :: zipInto f out symbol
  | out, [] => out
  | [], _ => []

def xorInto (g : UInt8 → UInt8) (out symbol : Bytes) : Bytes :=
  zipInto (fun o s => o ^^^ g s) out symbol

def mulAddScalar (out : Bytes) (coefficient : UInt8) (symbol : Bytes) : Bytes :=
  (zipInto (xorInto (products coefficient)) (chunksExact 8 out) (chunksExact 8 symbol)).flatten ++
    xorInto (products coefficient) (remainder 8 out) (remainder 8 symbol)

def mulAddSimd (lanes : ℕ) (out : Bytes) (coefficient : UInt8) (symbol : Bytes) : Bytes :=
  (zipInto (xorInto fun s => lowNibble coefficient (s &&& 0x0f) ^^^ highNibble coefficient (s >>> 4))
      (chunksExact lanes out) (chunksExact lanes symbol)).flatten ++
    mulAddScalar (remainder lanes out) coefficient (remainder lanes symbol)

/-- The bytes per vector of the machine the code runs on, where it has vectors. -/
class Simd where
  lanes : Option ℕ+

/-- `out[i] ^= coefficient * symbol[i]` for every byte. -/
def mulAdd [Simd] (out : Bytes) (coefficient : UInt8) (symbol : Bytes) : Bytes :=
  if coefficient = 0 then out
  else if coefficient = 1 then xorInto id out symbol
  else match Simd.lanes with
    | none => mulAddScalar out coefficient symbol
    | some lanes => mulAddSimd lanes out coefficient symbol

end Kernel

section Powers

theorem double_lt : ∀ value < 256, double value < 256 := by decide +kernel

theorem double_pos : ∀ value < 256, 0 < value → 0 < double value := by decide +kernel

theorem and_bit (v : ℕ) : v &&& 0x100 ≠ 0 ↔ v.testBit 8 = true := by
  rw [show 0x100 = 2 ^ 8 from rfl, Nat.and_two_pow]
  cases v.testBit 8 <;> simp

/-- Reducing by the polynomial is decided by one bit, so doubling is additive. -/
theorem double_xor (a b : ℕ) : double (a ^^^ b) = double a ^^^ double b := by
  simp only [double, and_bit, Nat.shiftLeft_xor_distrib, Nat.testBit_xor]
  cases (a <<< 1).testBit 8 <;> cases (b <<< 1).testBit 8 <;>
    simp only [Bool.xor_false, Bool.xor_true, Bool.not_true, Bool.not_false, Bool.false_eq_true,
      if_true, if_false]
  · rw [Nat.xor_assoc]
  · rw [Nat.xor_assoc, Nat.xor_assoc, Nat.xor_comm (b <<< 1)]
  · rw [Nat.xor_assoc, Nat.xor_comm polynomial, Nat.xor_assoc, Nat.xor_self, Nat.xor_zero]

def power (i : ℕ) : ℕ := double^[i] 1

theorem power_succ (i : ℕ) : power (i + 1) = double (power i) :=
  Function.iterate_succ_apply' double i 1

theorem power_bounds (i : ℕ) : 0 < power i ∧ power i < 256 := by
  induction i with
  | zero => decide
  | succ i ih =>
    rw [power_succ]
    exact ⟨double_pos _ ih.2 ih.1, double_lt _ ih.2⟩

theorem power_255 : power 255 = 1 := by decide +kernel

/-- The generator has order 255: no proper divisor of 255 is a period. -/
theorem minimalPeriod_double : Function.minimalPeriod double 1 = 255 := by
  have hmem : Function.minimalPeriod double 1 ∈ Nat.divisors 255 :=
    Nat.mem_divisors.mpr ⟨Function.IsPeriodicPt.minimalPeriod_dvd power_255, by omega⟩
  have hproper : ∀ n ∈ Nat.divisors 255, power n = 1 → n = 255 := by decide +kernel
  exact hproper _ hmem (Function.isPeriodicPt_minimalPeriod double 1)

theorem power_injOn : Set.InjOn power (Set.Iio 255) := by
  rw [← minimalPeriod_double]
  exact Function.iterate_injOn_Iio_minimalPeriod

/-- The first 255 powers are all non-zero bytes. -/
theorem exists_power {v : ℕ} (h0 : 0 < v) (h1 : v < 256) : ∃ i < 255, power i = v := by
  have hsurj := Finset.surjOn_of_injOn_of_card_le (s := Finset.range 255) (t := Finset.Ico 1 256)
    power (fun i _ => by simpa [Nat.one_le_iff_ne_zero, Nat.pos_iff_ne_zero] using power_bounds i)
    (fun i hi j hj => power_injOn (by simpa using hi) (by simpa using hj)) (by simp)
  obtain ⟨i, hi, rfl⟩ := hsurj (show v ∈ ((Finset.Ico 1 256 : Finset ℕ) : Set ℕ) by
    simpa using ⟨h0, h1⟩)
  exact ⟨i, by simpa using hi, rfl⟩

end Powers

section Tables

theorem and_byte (h : n < 256) : n &&& 0xFF = n := by
  rw [show 0xFF = 2 ^ 8 - 1 from rfl, Nat.and_two_pow_sub_one_eq_mod, Nat.mod_eq_of_lt h]

variable {l : List UInt8}

theorem getD_set_self (h : i < l.length) (v : UInt8) : (l.set i v).getD i 0 = v := by
  simp [getD, h]

theorem getD_set_ne {i j : ℕ} (h : i ≠ j) (v : UInt8) : (l.set i v).getD j 0 = l.getD j 0 := by
  simp [getD, h]

/-- What the filling loop writes from `start` on: the powers, and their exponents at the powers. -/
structure Filled (count start : ℕ) (exp log exp' log' : List UInt8) : Prop where
  length : exp'.length = exp.length
  power_at : ∀ i, start ≤ i → i < start + count → exp'.getD i 0 = UInt8.ofNat (power i)
  before : ∀ i < start, exp'.getD i 0 = exp.getD i 0
  log_at : ∀ i, start ≤ i → i < start + count → log'.getD (power i) 0 = UInt8.ofNat i
  log_other : ∀ v, (∀ i, start ≤ i → i < start + count → power i ≠ v) →
    log'.getD v 0 = log.getD v 0

theorem fillPowers_spec (count start : ℕ) (exp log : List UInt8) (hexp : start + count ≤ exp.length)
    (hlog : log.length = 256) (hstop : start + count ≤ 255) :
    Filled count start exp log (fillPowers count start (power start) exp log).1
      (fillPowers count start (power start) exp log).2.1 := by
  induction count generalizing start exp log with
  | zero =>
    exact ⟨rfl, fun i h1 h2 => by omega, fun i _ => rfl, fun i h1 h2 => by omega, fun v _ => rfl⟩
  | succ count ih =>
    rw [fillPowers, ← power_succ, and_byte (power_bounds start).2,
      and_byte (by omega)]
    have hrest := ih (start + 1) (exp.set start (UInt8.ofNat (power start)))
      (log.set (power start) (UInt8.ofNat start)) (by rw [length_set]; omega)
      (by rw [length_set, hlog]) (by omega)
    refine ⟨by rw [hrest.length, length_set], fun i h1 h2 => ?_, fun i hi => ?_,
      fun i h1 h2 => ?_, fun v hv => ?_⟩
    · rcases Nat.eq_or_lt_of_le h1 with rfl | hlt
      · rw [hrest.before _ (by omega), getD_set_self (by omega)]
      · exact hrest.power_at i (by omega) (by omega)
    · rw [hrest.before i (by omega), getD_set_ne (by omega)]
    · rcases Nat.eq_or_lt_of_le h1 with rfl | hlt
      · rw [hrest.log_other, getD_set_self (by rw [hlog]; exact (power_bounds _).2)]
        intro j hj1 hj2 heq
        have := power_injOn (show j < 255 by omega) (show start < 255 by omega) heq
        omega
      · exact hrest.log_at i (by omega) (by omega)
    · rw [hrest.log_other v fun i h1 h2 => hv i (by omega) (by omega),
        getD_set_ne (hv start le_rfl (by omega))]

theorem power_add_255 (i : ℕ) : power (i + 255) = power i := by
  rw [power, Function.iterate_add_apply]
  exact congrArg _ power_255

theorem repeatPowers_spec (count start : ℕ) (exp : List UInt8) (hstart : 255 ≤ start)
    (hlen : start + count ≤ exp.length) (hexp : ∀ i < start, exp.getD i 0 = UInt8.ofNat (power i)) :
    ∀ i < start + count, (repeatPowers count start exp).getD i 0 = UInt8.ofNat (power i) := by
  induction count generalizing start exp with
  | zero => exact hexp
  | succ count ih =>
    intro i hi
    refine ih (start + 1) _ (by omega) (by rw [length_set]; omega) (fun j hj => ?_) i (by omega)
    rcases Nat.lt_succ_iff_lt_or_eq.mp hj with hlt | rfl
    · rw [getD_set_ne (by omega), hexp j hlt]
    · rw [getD_set_self (by omega), hexp _ (by omega), ← power_add_255 (j - 255),
        Nat.sub_add_cancel hstart]

theorem filled_spec : Filled 255 0 (List.replicate 512 0) (List.replicate 256 0) filled.1
    filled.2.1 := by
  have hspec := fillPowers_spec 255 0 (replicate 512 0) (replicate 256 0)
    (by rw [length_replicate]; omega) length_replicate le_rfl
  exact hspec

theorem exp_eq (h : i < 512) : exp i = UInt8.ofNat (power i) := by
  have hspec := repeatPowers_spec 257 255 filled.1 le_rfl
    (by rw [filled_spec.length, length_replicate])
    (fun j hj => filled_spec.power_at j (Nat.zero_le _) (by omega)) i (by omega)
  exact hspec

theorem log_power (h : i < 255) : log (UInt8.ofNat (power i)) = i := by
  have hlog := filled_spec.log_at i (Nat.zero_le _) (by omega)
  rw [log, logTable, UInt8.toNat_ofNat_of_lt' (power_bounds i).2, hlog,
    UInt8.toNat_ofNat_of_lt' (show i < 256 by omega)]

theorem exists_log (h : a ≠ 0) : log a < 255 ∧ UInt8.ofNat (power (log a)) = a := by
  have hpos : 0 < a.toNat := by
    rw [Nat.pos_iff_ne_zero]
    exact fun h0 => h (UInt8.toNat_inj.mp h0)
  obtain ⟨i, hi, hpow⟩ := exists_power hpos (UInt8.toNat_lt a)
  have ha : UInt8.ofNat (power i) = a := by rw [hpow, UInt8.ofNat_toNat]
  rw [← ha, log_power hi]
  exact ⟨hi, rfl⟩

end Tables

attribute [irreducible] exp log

end Gf

/-- A byte as an element of the field. -/
@[ext] structure Gf256 where
  byte : UInt8
  deriving DecidableEq

namespace Gf256

instance : Add Gf256 := ⟨fun a b => ⟨a.byte ^^^ b.byte⟩⟩

instance : Zero Gf256 := ⟨⟨0⟩⟩

instance : Neg Gf256 := ⟨id⟩

theorem byte_add (a b : Gf256) : (a + b).byte = a.byte ^^^ b.byte := rfl

theorem byte_zero : (0 : Gf256).byte = 0 := rfl

instance : AddCommGroup Gf256 where
  add_assoc a b c := Gf256.ext (UInt8.xor_assoc a.byte b.byte c.byte)
  zero_add a := Gf256.ext UInt8.zero_xor
  add_zero a := Gf256.ext UInt8.xor_zero
  add_comm a b := Gf256.ext (UInt8.xor_comm a.byte b.byte)
  neg_add_cancel a := Gf256.ext UInt8.xor_self
  nsmul := nsmulRec
  zsmul := zsmulRec

theorem sub_eq (a b : Gf256) : a - b = a + b := rfl

/-- Multiplication by the generator as an additive map. -/
def step : Gf256 →+ Gf256 where
  toFun a := ⟨UInt8.ofNat (Gf.double a.byte.toNat)⟩
  map_zero' := rfl
  map_add' a b := by
    ext
    rw [byte_add, byte_add, UInt8.toNat_xor, Gf.double_xor, UInt8.ofNat_xor]

theorem step_iterate (i : ℕ) : step^[i] ⟨1⟩ = ⟨UInt8.ofNat (Gf.power i)⟩ := by
  induction i with
  | zero => rfl
  | succ i ih =>
    rw [Function.iterate_succ_apply', ih, Gf.power_succ]
    change Gf256.mk (UInt8.ofNat (Gf.double (UInt8.ofNat (Gf.power i)).toNat)) = _
    rw [UInt8.toNat_ofNat_of_lt' (Gf.power_bounds i).2]

def generator : CyclicGenerator Gf256 where
  step := step
  one := ⟨1⟩
  order := 255
  log a := Gf.log a.byte
  one_ne_zero := by decide
  power_order := by
    rw [step_iterate, Gf.power_255]
    rfl
  log_lt a h := (Gf.exists_log fun h0 => h (Gf256.ext h0)).1
  power_log a h := by
    rw [step_iterate]
    exact Gf256.ext (Gf.exists_log fun h0 => h (Gf256.ext h0)).2
  log_power i h := by rw [step_iterate, Gf.log_power h]

instance : Field Gf256 := generator.field

theorem generator_power (h : i < 512) : generator.power i = ⟨Gf.exp i⟩ := by
  rw [Gf.exp_eq h]
  exact step_iterate i

end Gf256

namespace Gf

theorem mul_eq (a b : UInt8) : (⟨mul a b⟩ : Gf256) = ⟨a⟩ * ⟨b⟩ := by
  change _ = Gf256.generator.mul ⟨a⟩ ⟨b⟩
  by_cases ha : a = 0
  · subst ha
    rw [show (⟨0⟩ : Gf256) = 0 from rfl, Gf256.generator.zero_mul, mul, if_pos (.inl rfl)]
    rfl
  by_cases hb : b = 0
  · subst hb
    rw [show (⟨0⟩ : Gf256) = 0 from rfl, Gf256.generator.mul_zero, mul, if_pos (.inr rfl)]
    rfl
  have hne : ∀ {c : UInt8}, c ≠ 0 → (⟨c⟩ : Gf256) ≠ 0 := fun hc h => hc (congrArg Gf256.byte h)
  have hla := (exists_log ha).1
  have hlb := (exists_log hb).1
  rw [mul, if_neg (by simp [ha, hb]), CyclicGenerator.mul, if_neg (by simp [hne ha, hne hb]),
    Gf256.generator_power (show Gf256.generator.log ⟨a⟩ + Gf256.generator.log ⟨b⟩ < 512 from by
      change log a + log b < 512
      omega)]
  rfl

theorem inv_eq (h : a ≠ 0) : inv a = some ((⟨a⟩ : Gf256)⁻¹).byte := by
  have hne : (⟨a⟩ : Gf256) ≠ 0 := fun h0 => h (congrArg Gf256.byte h0)
  have hinv : (⟨a⟩ : Gf256)⁻¹ = Gf256.generator.power (255 - log a) := if_neg hne
  rw [inv, if_neg h, hinv, Gf256.generator_power (by omega)]

section Kernel

theorem zipInto_eq_zipWith {α β : Type*} {f : α → β → α} {out : List α} {symbol : List β}
    (h : out.length = symbol.length) : zipInto f out symbol = List.zipWith f out symbol := by
  induction out generalizing symbol with
  | nil => cases symbol <;> rfl
  | cons a out ih =>
    cases symbol with
    | nil => simp at h
    | cons => rw [zipInto, zipWith_cons_cons, ih (by simpa using h)]

theorem zipWith_flatten {α β γ : Type*} (f : α → β → γ) {xs : List (List α)} {ys : List (List β)}
    (hx : ∀ x ∈ xs, x.length = n) (hy : ∀ y ∈ ys, y.length = n) (hlen : xs.length = ys.length) :
    (List.zipWith (List.zipWith f) xs ys).flatten = List.zipWith f xs.flatten ys.flatten := by
  induction xs generalizing ys with
  | nil => simp
  | cons x xs ih =>
    cases ys with
    | nil => simp at hlen
    | cons =>
      rw [forall_mem_cons] at hx hy
      rw [zipWith_cons_cons, flatten_cons, flatten_cons, flatten_cons,
        zipWith_append (by rw [hx.1, hy.1]), ih hx.2 hy.2 (by simpa using hlen)]

variable {out symbol : Bytes}

/-- Working chunk by chunk and then on the remainder is working byte by byte. -/
theorem chunked_eq (g : UInt8 → UInt8) (h : out.length = symbol.length) :
    (zipInto (xorInto g) (chunksExact n out) (chunksExact n symbol)).flatten ++
      List.zipWith (fun o s => o ^^^ g s) (remainder n out) (remainder n symbol) =
    List.zipWith (fun o s => o ^^^ g s) out symbol := by
  have hx : ∀ c ∈ chunksExact n out, c.length = n := fun c hc => length_of_mem_chunksExact hc
  have hy : ∀ c ∈ chunksExact n symbol, c.length = n := fun c hc => length_of_mem_chunksExact hc
  have hcount : (chunksExact n out).length = (chunksExact n symbol).length := by
    rw [chunksExact_length, chunksExact_length, h]
  have hinner : zipWith (xorInto g) (chunksExact n out) (chunksExact n symbol) =
      zipWith (zipWith fun o s => o ^^^ g s) (chunksExact n out)
        (chunksExact n symbol) := by
    refine ext_getElem (by simp) fun i hi hj => ?_
    rw [getElem_zipWith, getElem_zipWith, xorInto, zipInto_eq_zipWith]
    rw [hx _ (getElem_mem _), hy _ (getElem_mem _)]
  rw [zipInto_eq_zipWith hcount, hinner, zipWith_flatten _ hx hy hcount, ← zipWith_append,
    chunksExact_append_remainder, chunksExact_append_remainder]
  have := congrArg length (chunksExact_append_remainder n out)
  have := congrArg length (chunksExact_append_remainder n symbol)
  rw [length_append] at *
  have := remainder_length n out
  have := remainder_length n symbol
  rw [h] at *
  omega

theorem mulAddScalar_eq (h : out.length = symbol.length) (coefficient : UInt8) :
    mulAddScalar out coefficient symbol =
      List.zipWith (fun o s => o ^^^ mul coefficient s) out symbol := by
  have hrem : (remainder 8 out).length = (remainder 8 symbol).length := by
    rw [remainder_length, remainder_length, h]
  rw [mulAddScalar, xorInto, zipInto_eq_zipWith hrem]
  exact chunked_eq (products coefficient) h

theorem split_nibbles (s : UInt8) : (s &&& (0x0f : UInt8)) ^^^ ((s >>> 4) <<< 4) = s := by
  have hall : ∀ n < 256, (UInt8.ofNat n &&& (0x0f : UInt8)) ^^^ ((UInt8.ofNat n >>> 4) <<< 4) =
      UInt8.ofNat n := by decide +kernel
  have := hall s.toNat (UInt8.toNat_lt s)
  rwa [UInt8.ofNat_toNat] at this

theorem mul_xor (c a b : UInt8) : mul c (a ^^^ b) = mul c a ^^^ mul c b := by
  have h : (⟨mul c (a ^^^ b)⟩ : Gf256) = ⟨mul c a ^^^ mul c b⟩ := by
    change _ = (⟨mul c a⟩ : Gf256) + ⟨mul c b⟩
    rw [mul_eq, mul_eq, mul_eq, ← mul_add]
    rfl
  exact congrArg Gf256.byte h

theorem nibbles_eq (c s : UInt8) :
    lowNibble c (s &&& 0x0f) ^^^ highNibble c (s >>> 4) = mul c s := by
  conv_rhs => rw [← split_nibbles s, mul_xor]
  rfl

theorem mulAddSimd_eq (h : out.length = symbol.length) (lanes : ℕ) (coefficient : UInt8) :
    mulAddSimd lanes out coefficient symbol =
      List.zipWith (fun o s => o ^^^ mul coefficient s) out symbol := by
  have hrem : (remainder lanes out).length = (remainder lanes symbol).length := by
    rw [remainder_length, remainder_length, h]
  simp only [mulAddSimd, nibbles_eq, mulAddScalar_eq hrem]
  exact chunked_eq (mul coefficient) h

theorem mul_one_byte (s : UInt8) : mul 1 s = s :=
  congrArg Gf256.byte ((mul_eq 1 s).trans (one_mul (⟨s⟩ : Gf256)))

/-- Whatever path it takes, the kernel adds the multiple of the symbol byte by byte. -/
theorem mulAdd_eq [Simd] (h : out.length = symbol.length) (coefficient : UInt8) :
    mulAdd out coefficient symbol =
      List.zipWith (fun o s => o ^^^ mul coefficient s) out symbol := by
  unfold mulAdd
  split_ifs with h0 h1
  · have hzero : ∀ s, mul 0 s = 0 := fun s => if_pos (.inl rfl)
    simp only [h0, hzero, UInt8.xor_zero]
    refine ext_getElem (by simp [h]) fun i hi hj => ?_
    simp
  · simp only [h1, mul_one_byte]
    exact zipInto_eq_zipWith h
  · cases Simd.lanes with
    | none => exact mulAddScalar_eq h coefficient
    | some lanes => exact mulAddSimd_eq h lanes coefficient

end Kernel

/-- The scalar path and the vector paths of every width leave the same bytes: those of the field's
own sum and product. -/
theorem kernel_paths_agree [Simd] {out symbol : Bytes} (h : out.length = symbol.length)
    (coefficient : UInt8) :
    mulAddScalar out coefficient symbol = mulAdd out coefficient symbol ∧
      (∀ lanes, mulAddSimd lanes out coefficient symbol = mulAdd out coefficient symbol) ∧
      (mulAdd out coefficient symbol).map Gf256.mk =
        zipWith (fun o s => ⟨o⟩ + ⟨coefficient⟩ * ⟨s⟩) out symbol := by
  simp only [mulAddScalar_eq h, mulAddSimd_eq h, mulAdd_eq h, true_and, implies_true, map_zipWith,
    ← mul_eq]
  rfl

/-- Sixteen bytes in a vector and one after it. -/
theorem kernel_paths_agree_vector :
    (@mulAdd ⟨some 16⟩ (replicate 17 1) 3 ((range 17).map UInt8.ofNat)).map Gf256.mk =
      (range 17).map fun n => ⟨1⟩ + ⟨3⟩ * ⟨UInt8.ofNat n⟩ :=
  (@kernel_paths_agree ⟨some 16⟩ (replicate 17 1) ((range 17).map UInt8.ofNat) rfl 3).2.2

end Gf

end ObjectTransfer.Fec
