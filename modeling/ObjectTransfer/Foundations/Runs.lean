import Mathlib.Tactic

/-! # Finite runs of a deterministic step function

A run folds the step over a list of inputs. Invariants are proved one step at a
time and lifted to every run; a run over an append is the run of the suffix from
the state the prefix reaches.
-/

namespace ObjectTransfer.Foundations

variable {σ α : Type*}

/-- The state reached from `s` by the inputs `as`, taken in order. -/
def run (step : σ → α → σ) (s : σ) (as : List α) : σ := as.foldl step s

@[simp] theorem run_nil (step : σ → α → σ) (s : σ) : run step s [] = s := rfl

@[simp] theorem run_cons (step : σ → α → σ) (s : σ) (a : α) (as : List α) :
    run step s (a :: as) = run step (step s a) as := rfl

theorem run_append (step : σ → α → σ) (s : σ) (as bs : List α) :
    run step s (as ++ bs) = run step (run step s as) bs := by
  simp [run, List.foldl_append]

theorem run_concat (step : σ → α → σ) (s : σ) (as : List α) (a : α) :
    run step s (as ++ [a]) = step (run step s as) a := by
  rw [run_append]
  rfl

/-- What one step preserves, every run preserves. -/
theorem run_invariant {step : σ → α → σ} {P : σ → Prop} (hstep : ∀ s a, P s → P (step s a)) {s : σ}
    (hs : P s) (as : List α) : P (run step s as) := by
  induction as generalizing s with
  | nil => exact hs
  | cons a as ih => exact ih (hstep s a hs)

end ObjectTransfer.Foundations
