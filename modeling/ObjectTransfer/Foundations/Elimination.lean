import Mathlib.Tactic

/-! # Gauss–Jordan elimination

A matrix is a function of row and column; `m` rows and `w` columns of it count. One step
swaps a pivot row into place, scales it and clears its column in all other rows. It keeps
the vectors that the rows annihilate, and it makes one more column a unit column. A pivot
exists as long as no non-zero vector on the first `m` columns is annihilated, which holds
for Cauchy matrices.
-/

namespace ObjectTransfer.Foundations
open Finset

variable {F : Type*} [Field F]

/-- Every row is orthogonal to `x`. -/
def Annihilates (m w : ℕ) (A : ℕ → ℕ → F) (x : ℕ → F) : Prop :=
  ∀ r < m, ∑ c ∈ Finset.range w, A r c * x c = 0

/-- The first `col` columns are those of the identity. -/
def UnitColumns (m : ℕ) (A : ℕ → ℕ → F) (col : ℕ) : Prop :=
  ∀ r < m, ∀ c < col, A r c = if r = c then 1 else 0

/-- No non-zero vector on the first `m` columns is annihilated. -/
def TrivialKernel (m w : ℕ) (A : ℕ → ℕ → F) : Prop :=
  ∀ x : ℕ → F, (∀ c, m ≤ c → x c = 0) → Annihilates m w A x → ∀ c < m, x c = 0

def swapRows (A : ℕ → ℕ → F) (i j : ℕ) : ℕ → ℕ → F := fun r => A (Equiv.swap i j r)

/-- Row `col` divided by its pivot, and every other row with its entry in that column cleared. -/
def clearColumn (A : ℕ → ℕ → F) (col : ℕ) : ℕ → ℕ → F := fun r c =>
  if r = col then (A col col)⁻¹ * A col c else A r c - A r col * ((A col col)⁻¹ * A col c)

variable {m w col pivot : ℕ} {A A' : ℕ → ℕ → F} {x : ℕ → F}

theorem Annihilates.congr (h : ∀ r < m, ∀ c < w, A r c = A' r c) :
    Annihilates m w A x ↔ Annihilates m w A' x := by
  refine forall₂_congr fun r hr => ?_
  rw [sum_congr rfl fun c hc => by rw [h r hr c (mem_range.mp hc)]]

theorem swap_lt {i j r : ℕ} (hi : i < m) (hj : j < m) (hr : r < m) : Equiv.swap i j r < m := by
  rw [Equiv.swap_apply_def]
  split_ifs
  · exact hj
  · exact hi
  · exact hr

theorem annihilates_swapRows {i j : ℕ} (hi : i < m) (hj : j < m) :
    Annihilates m w (swapRows A i j) x ↔ Annihilates m w A x := by
  constructor
  · intro h r hr
    have := h _ (swap_lt hi hj hr)
    simpa [swapRows] using this
  · intro h r hr
    exact h _ (swap_lt hi hj hr)

theorem annihilates_clearColumn (hcol : col < m) (hpivot : A col col ≠ 0) :
    Annihilates m w (clearColumn A col) x ↔ Annihilates m w A x := by
  have hself : ∑ c ∈ range w, clearColumn A col col c * x c =
      (A col col)⁻¹ * ∑ c ∈ range w, A col c * x c := by
    rw [mul_sum]
    refine sum_congr rfl fun c _ => ?_
    rw [clearColumn, if_pos rfl, mul_assoc]
  have hother : ∀ r, r ≠ col → ∑ c ∈ range w, clearColumn A col r c * x c =
      (∑ c ∈ range w, A r c * x c) -
        A r col * ((A col col)⁻¹ * ∑ c ∈ range w, A col c * x c) := by
    intro r hr
    rw [mul_sum, mul_sum, ← sum_sub_distrib]
    refine sum_congr rfl fun c _ => ?_
    rw [clearColumn, if_neg hr]
    ring
  constructor
  · intro h r hr
    have hzero := h col hcol
    rw [hself, mul_eq_zero, or_iff_right (inv_ne_zero hpivot)] at hzero
    by_cases hrc : r = col
    · rw [hrc, hzero]
    · have := h r hr
      rwa [hother r hrc, hzero, mul_zero, mul_zero, sub_zero] at this
  · intro h r hr
    by_cases hrc : r = col
    · rw [hrc, hself, h col hcol, mul_zero]
    · rw [hother r hrc, h r hr, h col hcol, mul_zero, mul_zero, sub_zero]

theorem unitColumns_swapRows (hunit : UnitColumns m A col) (hge : col ≤ pivot)
    (hlt : pivot < m) : UnitColumns m (swapRows A col pivot) col := by
  intro r hr c hc
  by_cases h1 : r = col
  · subst h1
    rw [swapRows, Equiv.swap_apply_left, hunit _ hlt _ hc, if_neg (by omega), if_neg (by omega)]
  by_cases h2 : r = pivot
  · subst h2
    rw [swapRows, Equiv.swap_apply_right, hunit _ (by omega) _ hc, if_neg (by omega),
      if_neg (by omega)]
  · rw [swapRows, Equiv.swap_apply_of_ne_of_ne h1 h2, hunit _ hr _ hc]

theorem unitColumns_clearColumn (hunit : UnitColumns m A col) (hcol : col < m)
    (hpivot : A col col ≠ 0) : UnitColumns m (clearColumn A col) (col + 1) := by
  intro r hr c hc
  rcases Nat.lt_succ_iff_lt_or_eq.mp hc with hc | rfl
  · have hzero : A col c = 0 := by rw [hunit _ hcol _ hc, if_neg (by omega)]
    by_cases hrc : r = col
    · rw [clearColumn, if_pos hrc, hzero, mul_zero, if_neg (by omega)]
    · rw [clearColumn, if_neg hrc, hzero, mul_zero, mul_zero, sub_zero, hunit _ hr _ hc]
  · by_cases hrc : r = c
    · rw [clearColumn, if_pos hrc, if_pos hrc, inv_mul_cancel₀ hpivot]
    · rw [clearColumn, if_neg hrc, if_neg hrc, inv_mul_cancel₀ hpivot, mul_one, sub_self]

/-- With unit columns before `col` and no non-zero kernel vector there is a pivot for `col`:
otherwise column `col` would be a combination of the unit columns. -/
theorem exists_pivot (hunit : UnitColumns m A col) (hcol : col < m) (hw : m ≤ w)
    (hker : TrivialKernel m w A) : ∃ p, col ≤ p ∧ p < m ∧ A p col ≠ 0 := by
  by_contra hnone
  push Not at hnone
  let x : ℕ → F := fun c => if c < col then - A c col else if c = col then 1 else 0
  have hx : Annihilates m w A x := by
    intro r hr
    have hbelow : ∀ c < col, A r c * x c = if r = c then - A r col else 0 := by
      intro c hc
      rw [hunit r hr c hc]
      by_cases hrc : r = c
      · simp [x, hrc, hc]
      · simp [hrc]
    rw [← sum_subset (range_subset_range.mpr (show col + 1 ≤ w by omega))
      (fun c _ hc => by
        rw [mem_range] at hc
        simp [x, show ¬ c < col by omega, show c ≠ col by omega]),
      sum_range_succ, sum_congr rfl fun c hc => hbelow c (mem_range.mp hc)]
    have hself : A r col * x col = A r col := by simp [x]
    rw [hself, sum_ite_eq]
    split_ifs with hrc
    · exact neg_add_cancel _
    · rw [mem_range] at hrc
      rw [zero_add]
      exact hnone r (by omega) hr
  have hone := hker x (fun c hc => by simp [x, show ¬ c < col by omega, show c ≠ col by omega]) hx
    col hcol
  simp [x] at hone

/-- The state of a sweep: `col` columns are done, and `S` holds the annihilated vectors. -/
structure Sweep (m w : ℕ) (S : Set (ℕ → F)) (A : ℕ → ℕ → F) (col : ℕ) : Prop where
  unit : UnitColumns m A col
  same : ∀ x, Annihilates m w A x ↔ x ∈ S

namespace Sweep

variable {S : Set (ℕ → F)}

theorem start (A : ℕ → ℕ → F) : Sweep m w {x | Annihilates m w A x} A 0 :=
  ⟨fun _ _ _ hc => absurd hc (Nat.not_lt_zero _), fun _ => Iff.rfl⟩

theorem exists_pivot (h : Sweep m w S A col)
    (hker : ∀ x ∈ S, (∀ c, m ≤ c → x c = 0) → ∀ c < m, x c = 0) (hcol : col < m) (hw : m ≤ w) :
    ∃ p, col ≤ p ∧ p < m ∧ A p col ≠ 0 :=
  Foundations.exists_pivot h.unit hcol hw fun x hx hann => hker x ((h.same x).mp hann) hx

/-- One step of the sweep, up to entries that do not count. -/
theorem step (h : Sweep m w S A col) (hge : col ≤ pivot) (hlt : pivot < m)
    (hpivot : A pivot col ≠ 0) (hw : m ≤ w)
    (heq : ∀ r < m, ∀ c < w, A' r c = clearColumn (swapRows A col pivot) col r c) :
    Sweep m w S A' (col + 1) := by
  have hcol : col < m := by omega
  have hswapped : swapRows A col pivot col col ≠ 0 := by
    rwa [swapRows, Equiv.swap_apply_left]
  refine ⟨fun r hr c hc => ?_, fun x => ?_⟩
  · rw [heq r hr c (by omega)]
    exact unitColumns_clearColumn (unitColumns_swapRows h.unit hge hlt) hcol hswapped r hr c hc
  · rw [Annihilates.congr heq, annihilates_clearColumn hcol hswapped,
      annihilates_swapRows hcol hlt, h.same]

end Sweep

/-- Unknowns `x` on the first `m` columns and a minus one at the right-hand side `t`. -/
def unknowns (m : ℕ) (x : ℕ → F) (t : ℕ) : ℕ → F := fun c =>
  if c < m then x c else if c = m + t then -1 else 0

variable {t : ℕ}

theorem sum_unknowns (ht : m + t < w) (row x : ℕ → F) :
    ∑ c ∈ Finset.range w, row c * unknowns m x t c =
      (∑ c ∈ Finset.range m, row c * x c) - row (m + t) := by
  rw [← sum_range_add_sum_Ico _ (show m ≤ w by omega), sub_eq_add_neg]
  congr 1
  · refine sum_congr rfl fun c hc => ?_
    rw [unknowns, if_pos (mem_range.mp hc)]
  · rw [sum_eq_single (m + t)]
    · rw [unknowns, if_neg (by omega), if_pos rfl, mul_neg, mul_one]
    · intro c hc hne
      rw [mem_Ico] at hc
      rw [unknowns, if_neg (by omega), if_neg hne, mul_zero]
    · intro hc
      exact absurd (mem_Ico.mpr ⟨by omega, ht⟩) hc

/-- The right-hand sides are those of the unknowns. -/
theorem annihilates_unknowns (ht : m + t < w) :
    Annihilates m w A (unknowns m x t) ↔
      ∀ r < m, ∑ c ∈ Finset.range m, A r c * x c = A r (m + t) := by
  simp only [Annihilates, sum_unknowns ht, sub_eq_zero]

/-- After the last column the right-hand sides are the unknowns. -/
theorem UnitColumns.solved (hunit : UnitColumns m A m) (ht : m + t < w)
    (h : Annihilates m w A (unknowns m x t)) : ∀ r < m, A r (m + t) = x r := by
  intro r hr
  rw [annihilates_unknowns ht] at h
  rw [← h r hr, sum_eq_single r]
  · rw [hunit r hr r hr, if_pos rfl, one_mul]
  · intro c hc hne
    rw [hunit r hr c (mem_range.mp hc), if_neg (Ne.symm hne), zero_mul]
  · intro hc
    exact absurd (mem_range.mpr hr) hc

section Cauchy

open Polynomial

variable {ι : Type*} [Fintype ι] {x y v : ι → F}

/-- A Cauchy matrix annihilates no non-zero vector: the vector's entries are the coefficients of
a polynomial of too small a degree to vanish at all points `x`. -/
theorem cauchy_kernel (hx : Function.Injective x) (hy : Function.Injective y)
    (hxy : ∀ i j, x i ≠ y j) (h : ∀ i, ∑ j, (x i - y j)⁻¹ * v j = 0) : v = 0 := by
  classical
  let basis : ι → F[X] := fun j => ∏ l ∈ univ.erase j, (X - C (y l))
  let p : F[X] := ∑ j, C (v j) * basis j
  have hevalx : ∀ i, p.eval (x i) = 0 := by
    intro i
    have hterm : ∀ j, (C (v j) * basis j).eval (x i) =
        (∏ l, (x i - y l)) * ((x i - y j)⁻¹ * v j) := by
      intro j
      rw [← mul_prod_erase _ _ (mem_univ j)]
      simp only [basis, eval_mul, eval_C, eval_prod, eval_sub, eval_X]
      field_simp [sub_ne_zero.mpr (hxy i j)]
    simp only [p, eval_finsetSum, hterm]
    rw [← mul_sum, h i, mul_zero]
  have hdegree : ∀ j, (basis j).natDegree = Fintype.card ι - 1 := by
    intro j
    rw [natDegree_prod_of_monic _ _ fun l _ => monic_X_sub_C _]
    simp [card_erase_of_mem]
  have hzero : p = 0 := by
    cases isEmpty_or_nonempty ι with
    | inl => simp [p]
    | inr _ =>
      have hcard : 0 < Fintype.card ι := Fintype.card_pos
      refine eq_zero_of_natDegree_lt_card_of_eval_eq_zero' p (univ.image x) ?_ ?_
      · simpa using hevalx
      · rw [card_image_of_injective _ hx, card_univ]
        refine lt_of_le_of_lt (natDegree_sum_le_of_forall_le _ _ fun j _ => ?_)
          (Nat.sub_lt hcard Nat.one_pos)
        exact le_trans (natDegree_C_mul_le _ _) (hdegree j).le
  funext j
  have heval : p.eval (y j) = v j * ∏ l ∈ univ.erase j, (y j - y l) := by
    simp only [p, eval_finsetSum]
    rw [sum_eq_single j]
    · simp [basis, eval_prod]
    · intro i _ hij
      have hmem : j ∈ univ.erase i := mem_erase.mpr ⟨hij.symm, mem_univ _⟩
      rw [eval_mul, eval_prod, prod_eq_zero hmem (by simp), mul_zero]
    · simp
  rw [hzero, eval_zero] at heval
  refine (mul_eq_zero.mp heval.symm).resolve_right (prod_ne_zero_iff.mpr fun l hl => ?_)
  exact sub_ne_zero.mpr fun hjl => (mem_erase.mp hl).1 (hy hjl).symm

theorem cauchy_det [DecidableEq ι] (hx : Function.Injective x) (hy : Function.Injective y)
    (hxy : ∀ i j, x i ≠ y j) : (Matrix.of fun i j => (x i - y j)⁻¹).det ≠ 0 := by
  intro hdet
  obtain ⟨v, hne, hv⟩ := Matrix.exists_mulVec_eq_zero_iff.mpr hdet
  refine hne (cauchy_kernel hx hy hxy fun i => ?_)
  exact congrFun hv i

end Cauchy

end ObjectTransfer.Foundations
