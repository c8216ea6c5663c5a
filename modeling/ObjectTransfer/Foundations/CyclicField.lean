import Mathlib.Tactic

/-! # Fields from a generator and its logarithm

An additive map whose iterates run through all non-zero elements of a group makes the
group a field: the product of two powers of the generator is the power with the sum of
their exponents, and it distributes because the map is additive. This is how a finite
field is computed with a table of powers and a table of logarithms.
-/

namespace ObjectTransfer.Foundations

/-- A map that runs through the non-zero elements, starting at `one`, and the step at which
each of them is reached. -/
structure CyclicGenerator (A : Type*) [AddCommGroup A] where
  step : A →+ A
  one : A
  order : ℕ
  log : A → ℕ
  one_ne_zero : one ≠ 0
  power_order : step^[order] one = one
  log_lt : ∀ a, a ≠ 0 → log a < order
  power_log : ∀ a, a ≠ 0 → step^[log a] one = a
  log_power : ∀ i, i < order → log (step^[i] one) = i

namespace CyclicGenerator

variable {A : Type*} [AddCommGroup A] (g : CyclicGenerator A)

def power (i : ℕ) : A := g.step^[i] g.one

theorem order_pos : 0 < g.order := lt_of_le_of_lt (Nat.zero_le _) (g.log_lt _ g.one_ne_zero)

theorem power_add (i j : ℕ) : g.power (i + j) = g.step^[i] (g.power j) :=
  Function.iterate_add_apply _ _ _ _

theorem power_mod (i : ℕ) : g.power (i % g.order) = g.power i :=
  Function.IsPeriodicPt.iterate_mod_apply g.power_order i

theorem power_ne_zero (i : ℕ) : g.power i ≠ 0 := by
  intro h
  have hlt := Nat.mod_lt i g.order_pos
  have hone : g.power (g.order - i % g.order + i % g.order) = g.one := by
    rw [Nat.sub_add_cancel hlt.le]
    exact g.power_order
  rw [power_add, g.power_mod, h, iterate_map_zero] at hone
  exact g.one_ne_zero hone.symm

theorem power_log_eq {a : A} (h : a ≠ 0) : g.power (g.log a) = a := g.power_log a h

theorem log_power_eq (i : ℕ) : g.log (g.power i) = i % g.order := by
  rw [← g.power_mod]
  exact g.log_power _ (Nat.mod_lt i g.order_pos)

section Mul

variable [DecidableEq A]

def mul (a b : A) : A := if a = 0 ∨ b = 0 then 0 else g.power (g.log a + g.log b)

def inv (a : A) : A := if a = 0 then 0 else g.power (g.order - g.log a)

/-- Multiplying by a non-zero element is a power of the step, which is additive. -/
theorem mul_eq_step {a : A} (ha : a ≠ 0) (b : A) : g.mul a b = g.step^[g.log a] b := by
  by_cases hb : b = 0
  · rw [mul, if_pos (.inr hb), hb, iterate_map_zero]
  · rw [mul, if_neg (by simp [ha, hb]), power_add, g.power_log_eq hb]

theorem mul_power (i j : ℕ) : g.mul (g.power i) (g.power j) = g.power (i + j) := by
  rw [mul, if_neg (by simp [g.power_ne_zero]), log_power_eq, log_power_eq, ← g.power_mod,
    ← Nat.add_mod, g.power_mod]

theorem mul_comm (a b : A) : g.mul a b = g.mul b a := by
  simp only [mul, or_comm, add_comm]

@[simp] theorem zero_mul (a : A) : g.mul 0 a = 0 := by simp [mul]

@[simp] theorem mul_zero (a : A) : g.mul a 0 = 0 := by simp [mul]

theorem mul_add (a b c : A) : g.mul a (b + c) = g.mul a b + g.mul a c := by
  by_cases ha : a = 0
  · simp [ha]
  · rw [g.mul_eq_step ha, g.mul_eq_step ha, g.mul_eq_step ha, iterate_map_add]

theorem mul_assoc (a b c : A) : g.mul (g.mul a b) c = g.mul a (g.mul b c) := by
  by_cases ha : a = 0
  · simp [ha]
  by_cases hb : b = 0
  · simp [hb]
  by_cases hc : c = 0
  · simp [hc]
  rw [← g.power_log_eq ha, ← g.power_log_eq hb, ← g.power_log_eq hc]
  simp only [mul_power, add_assoc]

theorem one_mul (a : A) : g.mul g.one a = a := by
  by_cases ha : a = 0
  · simp [ha]
  · rw [← g.power_log_eq ha, show g.one = g.power 0 from rfl, mul_power, zero_add]

theorem mul_inv {a : A} (ha : a ≠ 0) : g.mul a (g.inv a) = g.one := by
  have hlt := g.log_lt a ha
  rw [inv, if_neg ha]
  nth_rewrite 1 [← g.power_log_eq ha]
  rw [mul_power, Nat.add_sub_cancel' hlt.le]
  exact g.power_order

/-- The field whose addition is the group's and whose product adds exponents. -/
abbrev field : Field A where
  __ := (inferInstance : AddCommGroup A)
  mul := g.mul
  one := g.one
  left_distrib := g.mul_add
  right_distrib a b c := by
    change g.mul (a + b) c = g.mul a c + g.mul b c
    rw [g.mul_comm, g.mul_add, g.mul_comm c a, g.mul_comm c b]
  zero_mul := g.zero_mul
  mul_zero := g.mul_zero
  mul_assoc := g.mul_assoc
  one_mul := g.one_mul
  mul_one a := by
    change g.mul a g.one = a
    rw [g.mul_comm, g.one_mul]
  mul_comm := g.mul_comm
  inv := g.inv
  exists_pair_ne := ⟨g.one, 0, g.one_ne_zero⟩
  mul_inv_cancel _ ha := g.mul_inv ha
  inv_zero := if_pos rfl
  nnqsmul := _
  qsmul := _

end Mul

end CyclicGenerator

end ObjectTransfer.Foundations
