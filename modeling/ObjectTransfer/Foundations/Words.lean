import Mathlib.Tactic

/-! # Machine words, byte strings and digests

Unsigned 64-bit quantities are natural numbers with the checked and saturating
operations spelled out. Slicing returns nothing where an indexing expression
would be out of bounds.
-/

namespace ObjectTransfer.Foundations
open List

abbrev Bytes := List UInt8

/-- A fixed array of `n` bytes. -/
abbrev Block (n : ℕ) := List.Vector UInt8 n

abbrev Digest := Block 32

def u64Max : ℕ := 2 ^ 64 - 1

/-- No allocation is longer than this many bytes. -/
def isizeMax : ℕ := 2 ^ 63 - 1

def checkedAdd (a b : ℕ) : Option ℕ := if a + b ≤ u64Max then some (a + b) else none

def checkedSub (a b : ℕ) : Option ℕ := if b ≤ a then some (a - b) else none

def checkedMul (a b : ℕ) : Option ℕ := if a * b ≤ u64Max then some (a * b) else none

def saturatingAdd (a b : ℕ) : ℕ := min (a + b) u64Max

/-- `a.saturating_add(b).saturating_add(c)…` over any number of terms. -/
def saturatingSum (terms : List ℕ) : ℕ := terms.foldl saturatingAdd 0

/-- A number that fits a byte. -/
def toU8 (n : ℕ) : Option ℕ := if n < 256 then some n else none

/-- `word & (1 << i) != 0`. -/
def hasBit {w : ℕ} (word : BitVec w) (i : ℕ) : Bool := word &&& 1#w <<< i != 0

/-- `word | 1 << i`. -/
def setBit {w : ℕ} (word : BitVec w) (i : ℕ) : BitVec w := word ||| 1#w <<< i

/-- The quotient rounded up. -/
def divCeil (a b : ℕ) : ℕ := if 0 < a % b then a / b + 1 else a / b

def leadingZeros (n : ℕ) : ℕ := if n = 0 then 64 else 63 - Nat.log2 n

def trailingZeros (n : ℕ) : ℕ := ((List.range 64).find? n.testBit).getD 64

def nextPowerOfTwo (n : ℕ) : ℕ := 2 ^ Nat.clog 2 n

def isPowerOfTwo (n : ℕ) : Bool := nextPowerOfTwo n == n

def checkedNextPowerOfTwo (n : ℕ) : Option ℕ :=
  if nextPowerOfTwo n ≤ u64Max then some (nextPowerOfTwo n) else none

variable {n : ℕ}

theorem le_u64Max_of_le_isizeMax (h : n ≤ isizeMax) : n ≤ u64Max := by
  unfold isizeMax at h
  unfold u64Max
  omega

variable {a b c : ℕ}

@[simp] theorem checkedAdd_eq_some : checkedAdd a b = some c ↔ a + b ≤ u64Max ∧ a + b = c := by
  simp [checkedAdd]

theorem checkedAdd_of_le (h : a + b ≤ u64Max) : checkedAdd a b = some (a + b) := by
  simp [h]

theorem checkedSub_of_le (h : b ≤ a) : checkedSub a b = some (a - b) := if_pos h

@[simp] theorem checkedSub_eq_some : checkedSub a b = some c ↔ b ≤ a ∧ a - b = c := by
  simp [checkedSub]

theorem toU8_of_lt (h : n < 256) : toU8 n = some n := if_pos h

@[simp] theorem checkedMul_eq_some : checkedMul a b = some c ↔ a * b ≤ u64Max ∧ a * b = c := by
  simp [checkedMul]

theorem saturatingAdd_eq (h : a + b ≤ u64Max) : saturatingAdd a b = a + b :=
  min_eq_left h

theorem saturatingSum_eq (terms : List ℕ) : saturatingSum terms = min terms.sum u64Max := by
  induction terms using List.reverseRecOn with
  | nil => rfl
  | append_singleton terms term ih =>
    rw [saturatingSum, foldl_concat, ← saturatingSum, ih, saturatingAdd, sum_append, sum_singleton]
    omega

theorem le_nextPowerOfTwo (n : ℕ) : n ≤ nextPowerOfTwo n := Nat.le_pow_clog (by omega) n

theorem nextPowerOfTwo_pos (n : ℕ) : 0 < nextPowerOfTwo n := Nat.two_pow_pos _

theorem nextPowerOfTwo_lt (h : 0 < n) : nextPowerOfTwo n < 2 * n := by
  unfold nextPowerOfTwo
  cases hk : Nat.clog 2 n with
  | zero => omega
  | succ k =>
    have hlt : 2 ^ k < n := (Nat.lt_clog_iff_pow_lt (by omega)).mp (by omega)
    rw [pow_succ]
    omega

theorem isPowerOfTwo_iff : isPowerOfTwo n = true ↔ ∃ k, n = 2 ^ k := by
  rw [isPowerOfTwo, beq_iff_eq]
  constructor
  · intro h
    exact ⟨_, h.symm⟩
  · rintro ⟨k, rfl⟩
    rw [nextPowerOfTwo, Nat.clog_pow _ _ (by omega)]

@[simp] theorem nextPowerOfTwo_two_pow (k : ℕ) : nextPowerOfTwo (2 ^ k) = 2 ^ k := by
  rw [nextPowerOfTwo, Nat.clog_pow _ _ (by omega)]

variable {m : ℕ} {k : ℕ}

/-- The next power of two after a perfect side and a smaller one. -/
theorem nextPowerOfTwo_sides (hpos : 0 < m) (hle : m ≤ 2 ^ k) :
    nextPowerOfTwo (2 ^ k + m) = 2 ^ (k + 1) := by
  have hlow : k < Nat.clog 2 (2 ^ k + m) := (Nat.lt_clog_iff_pow_lt (by omega)).mpr (by omega)
  have hhigh : Nat.clog 2 (2 ^ k + m) ≤ k + 1 :=
    Nat.clog_le_of_le_pow (by rw [pow_succ]; omega)
  rw [nextPowerOfTwo, show Nat.clog 2 (2 ^ k + m) = k + 1 by omega]

variable {i w : ℕ}

theorem hasBit_eq (hi : i < w) (word : BitVec w) : hasBit word i = word.getLsbD i := by
  have hne : BitVec.twoPow w i ≠ 0#w := by
    intro h
    have := congrArg (BitVec.getLsbD · i) h
    simp [hi] at this
  rw [hasBit, ← BitVec.twoPow_eq, BitVec.and_twoPow]
  split_ifs with hbit
  · simp [hbit, hne]
  · simp [hbit]

theorem hasBit_zero (hi : i < w) : hasBit (0#w) i = false := by
  rw [hasBit_eq hi, BitVec.getLsbD_zero]

theorem hasBit_setBit {j : ℕ} (hi : i < w) (hj : j < w) (word : BitVec w) :
    hasBit (setBit word i) j = (hasBit word j || decide (i = j)) := by
  rw [hasBit_eq hj, hasBit_eq hj, setBit, ← BitVec.twoPow_eq, BitVec.getLsbD_or,
    BitVec.getLsbD_twoPow, decide_eq_true hi, Bool.true_and]

/-- The trailing zeros of a positive word count the factors of two. -/
theorem trailingZeros_spec (h0 : 0 < n) (h : n < 2 ^ 64) :
    trailingZeros n < 64 ∧ n.testBit (trailingZeros n) = true ∧ n % 2 ^ trailingZeros n = 0 := by
  obtain ⟨i, hi⟩ := Nat.exists_testBit_of_ne_zero h0.ne'
  have hi64 : i < 64 := by
    by_contra hge
    have hlt := lt_of_lt_of_le h (Nat.pow_le_pow_right (by omega) (not_lt.mp hge))
    rw [Nat.testBit_lt_two_pow hlt] at hi
    exact Bool.false_ne_true hi
  cases hfind : (range 64).find? n.testBit with
  | none =>
    have := find?_range_eq_none.mp hfind i hi64
    rw [hi] at this
    exact absurd this (by decide)
  | some l =>
    obtain ⟨hbit, hmem, hlow⟩ := find?_range_eq_some.mp hfind
    have hval : trailingZeros n = l := by simp [trailingZeros, hfind]
    rw [hval]
    refine ⟨mem_range.mp hmem, hbit, ?_⟩
    by_contra hne
    obtain ⟨j, hj⟩ := Nat.exists_testBit_of_ne_zero hne
    rw [Nat.testBit_mod_two_pow, Bool.and_eq_true, decide_eq_true_eq] at hj
    have := hlow j hj.1
    rw [hj.2] at this
    exact absurd this (by decide)

theorem trailingZeros_two_pow (h : k < 64) : trailingZeros (2 ^ k) = k := by
  obtain ⟨-, hbit, -⟩ := trailingZeros_spec (Nat.two_pow_pos k) (Nat.pow_lt_pow_right (by omega) h)
  rw [Nat.testBit_two_pow, decide_eq_true_eq] at hbit
  exact hbit.symm

theorem le_mul_divCeil (hn : 0 < n) (m : ℕ) : m ≤ n * divCeil m n := by
  have hdiv := Nat.div_add_mod m n
  have hmod := Nat.mod_lt m hn
  unfold divCeil
  split_ifs
  · rw [Nat.mul_succ]
    omega
  · omega

theorem mul_divCeil_lt (hn : 0 < n) (m : ℕ) : n * divCeil m n < m + n := by
  have hdiv := Nat.div_add_mod m n
  unfold divCeil
  split_ifs
  · rw [Nat.mul_succ]
    omega
  · omega

theorem lt_divCeil_iff (hn : 0 < n) : i < divCeil m n ↔ n * i < m := by
  have hle := le_mul_divCeil hn m
  have hlt := mul_divCeil_lt hn m
  constructor
  · intro h
    have := Nat.mul_le_mul_left n h
    rw [Nat.mul_succ] at this
    omega
  · intro h
    by_contra hcon
    have := Nat.mul_le_mul_left n (not_lt.mp hcon)
    omega

theorem divCeil_mono (hn : 0 < n) (h : a ≤ b) : divCeil a n ≤ divCeil b n := by
  by_contra hlt
  rw [not_le, lt_divCeil_iff hn] at hlt
  have := le_mul_divCeil hn b
  omega

theorem divCeil_eq_one (hpos : 0 < m) (h : m ≤ n) : divCeil m n = 1 := by
  have h0 : 0 < divCeil m n := (lt_divCeil_iff (by omega)).mpr (by omega)
  have h1 : ¬ 1 < divCeil m n := by
    rw [lt_divCeil_iff (by omega)]
    omega
  omega

theorem two_le_divCeil (hn : 0 < n) (h : n < m) : 2 ≤ divCeil m n :=
  (lt_divCeil_iff hn).mpr (by omega)

theorem divCeil_of_dvd (h : m % n = 0) : divCeil m n = m / n := by
  simp [divCeil, h]

theorem divCeil_mul_add (hn : 0 < n) (k m : ℕ) : divCeil (n * k + m) n = k + divCeil m n := by
  unfold divCeil
  rw [Nat.mul_add_mod, Nat.mul_add_div hn]
  split_ifs <;> omega

theorem divCeil_two_lt {count : ℕ} (h : 1 < count) : divCeil count 2 < count := by
  unfold divCeil
  split_ifs <;> omega

theorem divCeil_one (n : ℕ) : divCeil n 1 = n := by simp [divCeil, Nat.mod_one]

theorem divCeil_divCeil (ha : 0 < a) (hb : 0 < b) (n : ℕ) :
    divCeil (divCeil n a) b = divCeil n (a * b) := by
  refine eq_of_forall_lt_iff fun i => ?_
  rw [lt_divCeil_iff hb, lt_divCeil_iff ha, lt_divCeil_iff (Nat.mul_pos ha hb), mul_assoc]

theorem divCeil_le_self (hn : 0 < n) (m : ℕ) : divCeil m n ≤ m := by
  by_contra hlt
  rw [not_le, lt_divCeil_iff hn] at hlt
  have := Nat.le_mul_of_pos_left m hn
  omega

/-- The bytes `bytes[start..stop]`, where that expression does not go out of bounds. -/
def slice? (bytes : Bytes) (start stop : ℕ) : Option Bytes :=
  if start ≤ stop ∧ stop ≤ bytes.length then some ((bytes.drop start).take (stop - start))
  else none

variable {stop : ℕ} {start : ℕ}

theorem slice?_eq {bytes : Bytes} (hs : start ≤ stop) (ht : stop ≤ bytes.length) :
    slice? bytes start stop = some ((bytes.drop start).take (stop - start)) :=
  if_pos ⟨hs, ht⟩

variable {bytes out : Bytes}

theorem slice?_eq_some :
    slice? bytes start stop = some out ↔
      start ≤ stop ∧ stop ≤ bytes.length ∧ (bytes.drop start).take (stop - start) = out := by
  simp [slice?, and_assoc]

theorem slice?_length (h : slice? bytes start stop = some out) : out.length = stop - start := by
  obtain ⟨hs, ht, rfl⟩ := slice?_eq_some.mp h
  rw [length_take, length_drop]
  omega

end ObjectTransfer.Foundations
