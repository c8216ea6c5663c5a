import Mathlib.Tactic

/-! # Fallible computations

Early returns of the form `if c { return Err(e) }` and `option.ok_or(e)` become
two primitives of the `Except` monad. Their inversion lemmas peel a chain of
guards apart without unfolding it.
-/

namespace ObjectTransfer.Foundations
open List

universe u v
variable {ε : Type u} {α β : Type v}

/-- Fail with `e` when `c` holds, continue otherwise. -/
def rejectIf (c : Prop) [Decidable c] (e : ε) : Except ε Unit :=
  if c then .error e else .ok ()

/-- The value of an option, or the error standing for its absence. -/
def okOr (o : Option α) (e : ε) : Except ε α :=
  match o with
  | some a => .ok a
  | none => .error e

/-- Why a computation stopped early: an error it reports, or a panic. -/
inductive Abort (ε : Type u) where
  | error (e : ε)
  | panic
  deriving DecidableEq, Repr

/-- Pass an error on under the caller's name for it; a panic stays one. -/
def Abort.map {ε' : Type u} (f : ε → ε') : Abort ε → Abort ε'
  | .error e => .error (f e)
  | .panic => .panic

/-- The state after a call that changes it in place, when the call succeeds. -/
def settled {σ : Type v} (result : σ × Except ε PUnit) : Except ε σ :=
  result.2.map fun _ => result.1

/-- A call that changes its state only when it succeeds. -/
def keeping {σ : Type v} (state : σ) : Except ε (α × σ) → Except ε α × σ
  | .ok (value, next) => (.ok value, next)
  | .error error => (.error error, state)

theorem keeping_cases {σ : Type v} (state : σ) (result : Except ε (α × σ)) :
    (∃ error, result = .error error ∧ keeping state result = (.error error, state)) ∨
      ∃ value next, result = .ok (value, next) ∧ keeping state result = (.ok value, next) := by
  cases result with
  | error error => exact .inl ⟨error, rfl, rfl⟩
  | ok pair => exact .inr ⟨pair.1, pair.2, rfl, rfl⟩

theorem keeping_ok {σ : Type v} {state : σ} {result : Except ε (α × σ)} {a : α}
    (h : (keeping state result).1 = .ok a) : ∃ next, result = .ok (a, next) := by
  cases result with
  | error => cases h
  | ok result =>
    cases h
    exact ⟨result.2, rfl⟩

variable {e : ε} {c : Prop}

theorem rejectIf_pos [Decidable c] (h : c) : rejectIf c e = .error e := by
  simp [rejectIf, h]

theorem rejectIf_neg [Decidable c] (h : ¬ c) : rejectIf c e = .ok () := by
  simp [rejectIf, h]

@[simp] theorem rejectIf_eq_ok [Decidable c] {u : Unit} : rejectIf c e = .ok u ↔ ¬ c := by
  by_cases h : c <;> simp [rejectIf, h]

@[simp] theorem okOr_some (a : α) (e : ε) : okOr (some a) e = .ok a := by
  simp [okOr]

@[simp] theorem okOr_none (e : ε) : okOr (none : Option α) e = .error e := by
  simp [okOr]

variable {a : α} {o : Option α}

@[simp] theorem okOr_eq_ok : okOr o e = .ok a ↔ o = some a := by
  cases o <;> simp [okOr]

@[simp] theorem ok_bind (a : α) (f : α → Except ε β) : (Except.ok a >>= f) = f a :=
  pure_bind a f

@[simp] theorem error_bind (e : ε) (f : α → Except ε β) :
    ((Except.error e : Except ε α) >>= f) = .error e := by
  simp [bind, Except.bind]

theorem some_bind (a : α) (f : α → Option β) : (some a >>= f) = f a := pure_bind a f

variable {x : Except ε α} {b : β} {f : α → Except ε β}

@[simp] theorem bind_eq_ok : (x >>= f) = .ok b ↔ ∃ a, x = .ok a ∧ f a = .ok b := by
  cases x <;> simp

theorem bind_eq_error : (x >>= f) = .error e ↔ x = .error e ∨ ∃ a, x = .ok a ∧ f a = .error e := by
  cases x <;> simp

theorem rejectIf_eq_error [Decidable c] {e' : ε} : rejectIf c e = .error e' ↔ c ∧ e = e' := by
  by_cases h : c <;> simp [rejectIf, h]

theorem okOr_eq_error {e' : ε} : okOr o e = .error e' ↔ o = none ∧ e = e' := by
  cases o <;> simp [okOr]

@[simp] theorem mapError_eq_ok {ε' : Type u} {f : ε → ε'} : x.mapError f = .ok a ↔ x = .ok a := by
  cases x <;> simp [Except.mapError]

@[simp] theorem pure_eq_ok {b : α} : (pure a : Except ε α) = .ok b ↔ a = b := by
  simp [pure, Except.pure]

variable {γ : Type u} {l : List γ} {g : γ → α}

theorem mapM_eq_some {f : γ → Option α}
    (h : ∀ c ∈ l, f c = some (g c)) : l.mapM f = some (l.map g) := by
  induction l with
  | nil => rfl
  | cons c l ih =>
    rw [forall_mem_cons] at h
    rw [mapM_cons, h.1, ih h.2]
    rfl

theorem mapM_eq_ok {f : γ → Except ε α}
    (h : ∀ c ∈ l, f c = .ok (g c)) : l.mapM f = .ok (l.map g) := by
  induction l with
  | nil => rfl
  | cons c l ih =>
    rw [forall_mem_cons] at h
    rw [mapM_cons, h.1, ih h.2]
    rfl

variable {step : β → γ → Except ε β} {b' : β}

/-- A fold whose steps succeed where those of another do reaches the same state. -/
theorem foldlM_ok_of_some {other : β → γ → Option β}
    (h : ∀ b, ∀ c ∈ l, ∀ b', other b c = some b' → step b c = .ok b')
    (hother : l.foldlM other b = some b') : l.foldlM step b = .ok b' := by
  induction l generalizing b with
  | nil => rw [foldlM_nil, Option.some.inj hother]; rfl
  | cons c l ih =>
    obtain ⟨mid, hmid, hrest⟩ := Option.bind_eq_some_iff.mp hother
    rw [foldlM_cons, h b c (by simp) mid hmid, ok_bind]
    exact ih (fun b c hc => h b c (by simp [hc])) hrest

/-- A fold over one state carries over to another that simulates its steps. -/
theorem foldlM_ok_map {ε' : Type u} {β' : Type v} {other : β' → γ → Except ε' β'} (f : β → β')
    (h : ∀ b c b', step b c = .ok b' → other (f b) c = .ok (f b'))
    (hstep : l.foldlM step b = .ok b') : l.foldlM other (f b) = .ok (f b') := by
  induction l generalizing b with
  | nil => rw [foldlM_nil, pure_eq_ok] at hstep; rw [hstep]; rfl
  | cons c l ih =>
    obtain ⟨mid, hmid, hrest⟩ := bind_eq_ok.mp hstep
    rw [foldlM_cons, h b c mid hmid, ok_bind]
    exact ih hrest

theorem forM_eq_ok {f : γ → Except ε PUnit} (h : ∀ c ∈ l, f c = .ok ⟨⟩) : l.forM f = .ok ⟨⟩ := by
  induction l with
  | nil => rfl
  | cons c l ih =>
    rw [forall_mem_cons] at h
    rw [List.forM, h.1, ok_bind, ih h.2]

end ObjectTransfer.Foundations
