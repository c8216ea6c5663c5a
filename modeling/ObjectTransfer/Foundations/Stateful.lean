import Mathlib.Tactic

/-! # Methods that change their state

A method returns a value or an error and changes its state in both cases. What a method can do to
its state is a relation; for a reflexive and transitive one it is enough to look at the single
changes.
-/

namespace ObjectTransfer.Foundations

abbrev Stateful (σ ε α : Type) := ExceptT ε (StateM σ) α

namespace Stateful

variable {σ ε α β : Type}

def call (m : Stateful σ ε α) (s : σ) : Except ε α × σ := m s

/-- A computation that changes nothing. -/
def raise (result : Except ε α) : Stateful σ ε α := fun s => (result, s)

section Steps

variable {m : Stateful σ ε α} {f : α → Stateful σ ε β} {s s' : σ}

theorem bind_call_ok {a : α} (h : m.call s = (.ok a, s')) : (m >>= f).call s = (f a).call s' := by
  change ExceptT.bindCont f (m.call s).1 (m.call s).2 = _
  rw [h]
  rfl

theorem bind_call_error {e : ε} (h : m.call s = (.error e, s')) :
    (m >>= f).call s = (.error e, s') := by
  change ExceptT.bindCont f (m.call s).1 (m.call s).2 = _
  rw [h]
  rfl

@[simp] theorem pure_call (a : α) : (pure a : Stateful σ ε α).call s = (.ok a, s) := rfl

@[simp] theorem get_call : (get : Stateful σ ε σ).call s = (.ok s, s) := rfl

@[simp] theorem modify_call (g : σ → σ) : (modify g : Stateful σ ε PUnit).call s = (.ok ⟨⟩, g s) :=
  rfl

@[simp] theorem raise_call (result : Except ε α) :
    (raise result : Stateful σ ε α).call s = (result, s) := rfl

end Steps

/-- Whatever the outcome, the state moves along the relation. -/
def Within (R : σ → σ → Prop) (m : Stateful σ ε α) : Prop := ∀ s, R s (m.call s).2

namespace Within

variable {R : σ → σ → Prop} {m : Stateful σ ε α} {f : α → Stateful σ ε β}

/-- Two moves one after the other; an error stops after the first. -/
theorem bind_at {P Q : σ → Prop} {s : σ} (hm : P (m.call s).2) (hstop : ∀ s', P s' → Q s')
    (hf : ∀ a s', P s' → Q ((f a).call s').2) : Q ((m >>= f).call s).2 := by
  cases hcall : m.call s with
  | mk result s' =>
    rw [hcall] at hm
    cases result with
    | ok a =>
      rw [bind_call_ok hcall]
      exact hf a s' hm
    | error =>
      rw [bind_call_error hcall]
      exact hstop s' hm

theorem bind_of {S T : σ → σ → Prop} (hm : Within R m) (hf : ∀ a, Within S (f a))
    (hstop : ∀ s s', R s s' → T s s') (hcomp : ∀ s s' s'', R s s' → S s' s'' → T s s'') :
    Within T (m >>= f) :=
  fun s => bind_at (hm s) (hstop s) fun a s' h => hcomp s s' _ h (hf a s')

theorem bind [IsTrans σ R] (hm : Within R m) (hf : ∀ a, Within R (f a)) : Within R (m >>= f) :=
  hm.bind_of hf (fun _ _ h => h) fun _ _ _ h h' => Trans.trans h h'

theorem pure [Std.Refl R] (a : α) : Within R (Pure.pure a : Stateful σ ε α) := fun s => refl s

theorem throw [Std.Refl R] (e : ε) : Within R (MonadExcept.throw e : Stateful σ ε α) :=
  fun s => refl s

theorem raise [Std.Refl R] (result : Except ε α) :
    Within R (Stateful.raise result : Stateful σ ε α) := fun s => refl s

theorem get [Std.Refl R] : Within R (MonadState.get : Stateful σ ε σ) := fun s => refl s

theorem modify {g : σ → σ} (h : ∀ s, R s (g s)) : Within R (modify g : Stateful σ ε PUnit) := h

end Within

/-- What a result says about the state it comes with. -/
def Returns (Q : α → σ → Prop) (m : Stateful σ ε α) : Prop :=
  ∀ s a s', m.call s = (.ok a, s') → Q a s'

namespace Returns

variable {P : α → σ → Prop} {Q : β → σ → Prop} {m : Stateful σ ε α} {f : α → Stateful σ ε β}

theorem bind (hm : Returns P m) (hf : ∀ a s b s', P a s → (f a).call s = (.ok b, s') → Q b s') :
    Returns Q (m >>= f) := by
  intro s b s'' h
  cases hcall : m.call s with
  | mk result s' =>
    cases result with
    | ok a =>
      rw [bind_call_ok hcall] at h
      exact hf a s' b s'' (hm s a s' hcall) h
    | error =>
      rw [bind_call_error hcall] at h
      cases h

/-- What follows says it whatever came before. -/
theorem after (hf : ∀ a, Returns Q (f a)) : Returns Q (m >>= f) :=
  bind (fun _ _ _ _ => trivial) fun a s b s' _ h => hf a s b s' h

theorem get_bind {f : σ → Stateful σ ε β} (hf : ∀ s b s', (f s).call s = (.ok b, s') → Q b s') :
    Returns Q (get >>= f) := fun s b s' h => hf s b s' h

theorem pure {a : α} (h : ∀ s, P a s) : Returns P (Pure.pure a : Stateful σ ε α) := by
  intro s b s' hcall
  cases hcall
  exact h s

theorem throw {e : ε} : Returns P (MonadExcept.throw e : Stateful σ ε α) := by
  intro s b s' hcall
  cases hcall

end Returns

end Stateful

end ObjectTransfer.Foundations
