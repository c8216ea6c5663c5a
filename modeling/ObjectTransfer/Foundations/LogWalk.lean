import Mathlib.Data.Nat.Size
import ObjectTransfer.Foundations.LogConsistency

/-! # Paths of a left-balanced tree from the bits of an index

The halvings of an index say on which side each of its ancestors stands. Both kinds of path are read
off the bits from the lowest on, where the tree itself is split from the highest.
-/

namespace ObjectTransfer.Foundations
open List

/-- The number of ones in the binary form. -/
def countOnes (n : ℕ) : ℕ := if n = 0 then 0 else n % 2 + countOnes (n / 2)

theorem countOnes_eq (n : ℕ) : countOnes n = n % 2 + countOnes (n / 2) := by
  by_cases h : n = 0
  · rw [h, countOnes, if_pos rfl]
  · conv_lhs => rw [countOnes, if_neg h]

theorem countOnes_two_pow_add {p x : ℕ} (h : x < 2 ^ p) : countOnes (2 ^ p + x) = countOnes x + 1 := by
  induction p generalizing x with
  | zero =>
    obtain rfl : x = 0 := by omega
    simp [countOnes]
  | succ p ih =>
    have hhalf : (2 ^ (p + 1) + x) / 2 = 2 ^ p + x / 2 := by omega
    rw [countOnes_eq, hhalf, ih (by omega), countOnes_eq x]
    omega

def lowBits (n count : ℕ) : List Bool := (List.range count).map n.testBit

theorem lowBits_succ (n count : ℕ) : lowBits n (count + 1) = lowBits n count ++ [n.testBit count] := by
  simp [lowBits, range_succ]

theorem lowBits_cons (n count : ℕ) :
    lowBits n (count + 1) = (n % 2 == 1) :: lowBits (n / 2) count := by
  have hfirst : n.testBit 0 = (n % 2 == 1) := by
    rw [Nat.testBit_zero]
    rfl
  have hrest : n.testBit ∘ Nat.succ = (n / 2).testBit := by
    funext i
    exact Nat.testBit_succ n i
  rw [lowBits, range_succ_eq_map, map_cons, map_map, hfirst, hrest, lowBits]

section TopBit
variable {p x y : ℕ}

theorem testBit_two_pow_add (p : ℕ) (hx : x < 2 ^ p) (j : ℕ) :
    (2 ^ p + x).testBit j = if j < p then x.testBit j else (1 : ℕ).testBit (j - p) := by
  simpa using Nat.testBit_two_pow_mul_add 1 hx j

theorem lowBits_two_pow_add (hx : x < 2 ^ p) {count : ℕ} (hcount : count ≤ p) :
    lowBits (2 ^ p + x) count = lowBits x count := by
  apply map_congr_left
  intro j hj
  rw [testBit_two_pow_add p hx, if_pos (by rw [mem_range] at hj; omega)]

theorem two_pow_add_xor (hx : x < 2 ^ p) (hy : y < 2 ^ p) :
    (2 ^ p + x) ^^^ (2 ^ p + y) = x ^^^ y := by
  apply Nat.eq_of_testBit_eq
  intro j
  rw [Nat.testBit_xor, testBit_two_pow_add p hx, testBit_two_pow_add p hy]
  split
  · rw [Nat.testBit_xor]
  · rw [Bool.xor_self, Nat.testBit_lt_two_pow]
    exact (Nat.xor_lt_two_pow hx hy).trans_le (Nat.pow_le_pow_right (by omega) (by omega))

/-- Numbers on both sides of a power of two differ in that bit and in none above it. -/
theorem size_xor_two_pow_add (hx : x < 2 ^ p) (hy : y < 2 ^ p) :
    Nat.size (x ^^^ (2 ^ p + y)) = p + 1 := by
  have hlt : x ^^^ (2 ^ p + y) < 2 ^ (p + 1) := by
    apply Nat.xor_lt_two_pow <;> omega
  have hbit : (x ^^^ (2 ^ p + y)).testBit p = true := by
    rw [Nat.testBit_xor, testBit_two_pow_add p hy, if_neg (by omega), Nat.testBit_lt_two_pow hx]
    simp
  have hle := Nat.size_le.mpr hlt
  have hge := Nat.lt_size.mpr (Nat.ge_two_pow_of_testBit hbit)
  omega

theorem two_pow_add_shiftRight {e : ℕ} (he : e ≤ p) :
    (2 ^ p + x) >>> e = 2 ^ (p - e) + x >>> e := by
  rw [Nat.shiftRight_eq_div_pow, Nat.shiftRight_eq_div_pow]
  have hsplit : 2 ^ p = 2 ^ e * 2 ^ (p - e) := by rw [← pow_add, Nat.add_sub_cancel' he]
  rw [hsplit, Nat.mul_add_div (Nat.two_pow_pos e)]

end TopBit

namespace LogTree

variable {n : ℕ}

/-- A length of more than one lies above a power of two and not above the next. -/
theorem exists_splitPoint (h : 1 < n) :
    ∃ p, splitPoint n = 2 ^ p ∧ 2 ^ p < n ∧ n ≤ 2 ^ (p + 1) := by
  refine ⟨Nat.log2 (n - 1), rfl, splitPoint_lt h, ?_⟩
  have hle := le_two_mul_splitPoint n
  unfold splitPoint at hle
  omega

theorem sides_two_pow {p index : ℕ} (h : index < 2 ^ p) : sides index (2 ^ p) = lowBits index p := by
  induction p generalizing index with
  | zero => exact sides_short le_rfl
  | succ p ih =>
    have hlong : 1 < 2 ^ (p + 1) := Nat.one_lt_two_pow (by omega)
    have hsplit : splitPoint (2 ^ (p + 1)) = 2 ^ p :=
      splitPoint_eq (by have := Nat.two_pow_pos p; omega) le_rfl
    rw [lowBits_succ]
    by_cases hindex : index < 2 ^ p
    · rw [sides_lower hlong (by rwa [hsplit]), hsplit, ih hindex, Nat.testBit_lt_two_pow hindex]
    · obtain ⟨low, rfl⟩ : ∃ low, index = 2 ^ p + low := ⟨index - 2 ^ p, by omega⟩
      have hlow : low < 2 ^ p := by omega
      have hrest : 2 ^ (p + 1) - 2 ^ p = 2 ^ p := by omega
      rw [sides_upper hlong (by rwa [hsplit]), hsplit, Nat.add_sub_cancel_left, hrest, ih hlow,
        lowBits_two_pow_add hlow le_rfl, testBit_two_pow_add p hlow]
      simp

/-- The sides of a leaf: its low bits up to the highest in which it differs from the last leaf, and
the upper half as often as the higher bits have ones. -/
theorem sides_eq_bits {index : ℕ} (h : index < n) :
    sides index n = lowBits index (Nat.size (index ^^^ (n - 1))) ++
      List.replicate (countOnes (index >>> Nat.size (index ^^^ (n - 1)))) true := by
  induction n using Nat.strong_induction_on generalizing index with
  | _ n ih =>
    by_cases hshort : n ≤ 1
    · obtain rfl : index = 0 := by omega
      obtain rfl : n = 1 := by omega
      rw [sides_short le_rfl]
      simp [lowBits, countOnes]
    · obtain ⟨p, hsplit, hlow, hhigh⟩ := exists_splitPoint (n := n) (by omega)
      obtain ⟨last, hlast⟩ : ∃ last, n - 1 = 2 ^ p + last := ⟨n - 1 - 2 ^ p, by omega⟩
      have hlast' : last < 2 ^ p := by omega
      by_cases hindex : index < 2 ^ p
      · have hzero : index >>> (p + 1) = 0 := by
          rw [Nat.shiftRight_eq_div_pow]
          exact Nat.div_eq_of_lt (by omega)
        rw [sides_lower (by omega) (by rwa [hsplit]), hsplit, sides_two_pow hindex, hlast,
          size_xor_two_pow_add hindex hlast', hzero, lowBits_succ, Nat.testBit_lt_two_pow hindex]
        simp [countOnes]
      · obtain ⟨low, rfl⟩ : ∃ low, index = 2 ^ p + low := ⟨index - 2 ^ p, by omega⟩
        have hlow' : low < 2 ^ p := by omega
        have hrest := @ih (n - 2 ^ p) (by omega) low (by omega)
        have hlastRest : n - 2 ^ p - 1 = last := by omega
        have hsize : Nat.size (low ^^^ last) ≤ p := Nat.size_le.mpr (Nat.xor_lt_two_pow hlow' hlast')
        have hshift : low >>> Nat.size (low ^^^ last) < 2 ^ (p - Nat.size (low ^^^ last)) := by
          rw [Nat.shiftRight_eq_div_pow, Nat.div_lt_iff_lt_mul (Nat.two_pow_pos _), ← pow_add,
            Nat.sub_add_cancel hsize]
          exact hlow'
        rw [hlastRest] at hrest
        rw [sides_upper (by omega) (by rwa [hsplit]), hsplit, Nat.add_sub_cancel_left, hrest, hlast,
          two_pow_add_xor hlow' hlast', lowBits_two_pow_add hlow' hsize, two_pow_add_shiftRight hsize,
          countOnes_two_pow_add hshift, replicate_succ', append_assoc]

/-! ## Consistency walks -/

/-- The steps of a walk from `node` to the root of a level whose last node is `last`. A node that is
last and even has no sibling and goes up alone. -/
def walk (node last : ℕ) : List Bool :=
  if last = 0 then []
  else (if node % 2 = 1 then [true] else if node < last then [false] else []) ++
    walk (node / 2) (last / 2)

/-- Go up while the node is the upper one of its pair. -/
def ascend (node last : ℕ) : ℕ × ℕ :=
  if node % 2 = 1 then ascend (node / 2) (last / 2) else (node, last)
termination_by node
decreasing_by omega

theorem walk_zero (node : ℕ) : walk node 0 = [] := by rw [walk, if_pos rfl]

variable {node last : ℕ}

theorem walk_pos (h : last ≠ 0) : walk node last =
    (if node % 2 = 1 then [true] else if node < last then [false] else []) ++
      walk (node / 2) (last / 2) := by
  rw [walk, if_neg h]

theorem ascend_odd (h : node % 2 = 1) (last : ℕ) :
    ascend node last = ascend (node / 2) (last / 2) := by
  rw [ascend, if_pos h]

theorem ascend_even (h : node % 2 ≠ 1) (last : ℕ) : ascend node last = (node, last) := by
  rw [ascend, if_neg h]

variable {q : ℕ}

/-- Below the last node of every level each step has a sibling. -/
theorem walk_below (hnode : node < 2 ^ q) (hlow : 2 ^ q ≤ last) (hhigh : last < 2 ^ (q + 1)) :
    walk node last = lowBits node q ++ [false] := by
  induction q generalizing node last with
  | zero =>
    obtain rfl : node = 0 := by omega
    obtain rfl : last = 1 := by omega
    rw [walk_pos (by omega), walk_zero]
    rfl
  | succ q ih =>
    rw [walk_pos (by have := Nat.two_pow_pos (q + 1); omega), ih (by omega) (by omega) (by omega),
      lowBits_cons, if_pos (show node < last by omega)]
    by_cases hodd : node % 2 = 1 <;> simp [hodd]

theorem walk_perfect (hnode : node < 2 ^ q) : walk node (2 ^ q - 1) = lowBits node q := by
  induction q generalizing node with
  | zero => rw [pow_zero, Nat.sub_self, walk_zero]; rfl
  | succ q ih =>
    have hhalf : (2 ^ (q + 1) - 1) / 2 = 2 ^ q - 1 := by omega
    rw [walk_pos (by omega), hhalf, ih (by omega), lowBits_cons]
    by_cases hodd : node % 2 = 1
    · simp [hodd]
    · rw [if_neg hodd, if_pos (by omega)]
      simp [hodd]

/-- A walk whose node and last node share their highest bit passes it as an upper node. -/
theorem walk_shared (hle : node ≤ last) (hlast : last < 2 ^ q) :
    walk (2 ^ q + node) (2 ^ q + last) = walk node last ++ [true] := by
  induction q generalizing node last with
  | zero =>
    obtain rfl : last = 0 := by omega
    obtain rfl : node = 0 := by omega
    rw [walk_zero, walk_pos (by omega)]
    exact congrArg _ (walk_zero 0)
  | succ q ih =>
    have hnodeHalf : (2 ^ (q + 1) + node) / 2 = 2 ^ q + node / 2 := by omega
    have hlastHalf : (2 ^ (q + 1) + last) / 2 = 2 ^ q + last / 2 := by omega
    have hparity : (2 ^ (q + 1) + node) % 2 = node % 2 := by omega
    rw [walk_pos (by have := Nat.two_pow_pos (q + 1); omega), hnodeHalf, hlastHalf,
      ih (by omega) (by omega), hparity, ← append_assoc]
    by_cases hzero : last = 0
    · obtain rfl : node = 0 := by omega
      subst hzero
      simp [walk_zero]
    · rw [walk_pos hzero]
      simp

/-- From an even node on, the walk of a tree whose last node is above a power of two is that of the
complete tree below it, and one step more. -/
theorem ascend_below {p : ℕ} (hnode : node < 2 ^ p) (hlow : 2 ^ p ≤ last)
    (hhigh : last < 2 ^ (p + 1)) :
    walk (ascend node last).1 (ascend node last).2 =
      (if node = 2 ^ p - 1 then [] else
        walk (ascend node (2 ^ p - 1)).1 (ascend node (2 ^ p - 1)).2) ++ [false] := by
  induction p generalizing node last with
  | zero =>
    obtain rfl : node = 0 := by omega
    rw [ascend_even (by omega), if_pos (by omega)]
    exact walk_below hnode hlow hhigh
  | succ p ih =>
    have hhalf : (2 ^ (p + 1) - 1) / 2 = 2 ^ p - 1 := by omega
    by_cases hodd : node % 2 = 1
    · rw [ascend_odd hodd, ascend_odd hodd, hhalf, ih (by omega) (by omega) (by omega)]
      congr 1
      by_cases hall : node = 2 ^ (p + 1) - 1
      · rw [if_pos hall, if_pos (by omega)]
      · rw [if_neg hall, if_neg (by omega)]
    · rw [ascend_even hodd, ascend_even hodd, if_neg (by omega), walk_below hnode hlow hhigh,
        walk_perfect hnode]

theorem ascend_shared {p : ℕ} (hlt : node < last) (hlast : last < 2 ^ p) :
    walk (ascend (2 ^ p + node) (2 ^ p + last)).1 (ascend (2 ^ p + node) (2 ^ p + last)).2 =
      walk (ascend node last).1 (ascend node last).2 ++ [true] := by
  induction p generalizing node last with
  | zero => omega
  | succ p ih =>
    have hnodeHalf : (2 ^ (p + 1) + node) / 2 = 2 ^ p + node / 2 := by omega
    have hlastHalf : (2 ^ (p + 1) + last) / 2 = 2 ^ p + last / 2 := by omega
    by_cases hodd : node % 2 = 1
    · rw [ascend_odd (by omega), ascend_odd hodd, hnodeHalf, hlastHalf, ih (by omega) (by omega)]
    · rw [ascend_even (by omega), ascend_even hodd]
      exact walk_shared hlt.le hlast

/-- The steps between two lengths, from the bits of their last positions. -/
theorem steps_eq_walk {m : ℕ} (hpos : 0 < m) (hlt : m < n) :
    steps m n = walk (ascend (m - 1) (n - 1)).1 (ascend (m - 1) (n - 1)).2 := by
  induction n using Nat.strong_induction_on generalizing m with
  | _ n ih =>
    obtain ⟨p, hsplit, hlow, hhigh⟩ := exists_splitPoint (n := n) (by omega)
    by_cases hm : m ≤ 2 ^ p
    · rw [steps_lower (by omega) (by omega) (by rwa [hsplit]), hsplit,
        ascend_below (p := p) (by omega) (by omega) (by omega)]
      congr 1
      by_cases hsame : m = 2 ^ p
      · rw [hsame, steps_self, if_pos rfl]
      · rw [if_neg (by omega), ih (2 ^ p) hlow hpos (by omega)]
    · have hrest := ih (n - 2 ^ p) (by omega) (show 0 < m - 2 ^ p by omega) (by omega)
      have hm' : m - 1 = 2 ^ p + (m - 2 ^ p - 1) := by omega
      have hn' : n - 1 = 2 ^ p + (n - 2 ^ p - 1) := by omega
      rw [steps_upper (by omega) (by omega) (by rwa [hsplit]), hsplit, hm', hn',
        ascend_shared (by omega) (by omega), hrest]

theorem true_mem_walk (h : node ≤ last) : true ∈ walk node last ↔ node ≠ 0 := by
  induction last using Nat.strong_induction_on generalizing node with
  | _ last ih =>
    by_cases hlast : last = 0
    · subst hlast
      rw [walk_zero]
      simp
      omega
    · have hhalf := @ih (last / 2) (by omega) (node / 2) (by omega)
      rw [walk_pos hlast, mem_append, hhalf]
      by_cases hodd : node % 2 = 1
      · simp [hodd]
        omega
      · rw [if_neg hodd]
        constructor
        · rintro (hmem | hne)
          · split at hmem <;> simp at hmem
          · omega
        · intro hne
          exact .inr (by omega)

theorem ascend_le (h : node ≤ last) : (ascend node last).1 ≤ (ascend node last).2 := by
  induction node using Nat.strong_induction_on generalizing last with
  | _ node ih =>
    by_cases hodd : node % 2 = 1
    · rw [ascend_odd hodd]
      exact ih (node / 2) (by omega) (by omega)
    · rw [ascend_even hodd]
      exact h

theorem ascend_last_le (node last : ℕ) : (ascend node last).2 ≤ last := by
  induction node using Nat.strong_induction_on generalizing last with
  | _ node ih =>
    by_cases hodd : node % 2 = 1
    · rw [ascend_odd hodd]
      exact (ih (node / 2) (by omega) (last / 2)).trans (Nat.div_le_self _ _)
    · rw [ascend_even hodd]

end LogTree

end ObjectTransfer.Foundations
