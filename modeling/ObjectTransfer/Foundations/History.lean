import Mathlib.Tactic

/-! # Histories of events

The events of a run, the latest first. A history is justified when each event had some property of
what came before it at the time it was recorded; what happened since the last mark is the part of
the history up to that mark.
-/

namespace ObjectTransfer.Foundations
open List

variable {ε : Type*} {P : List ε → ε → Prop} {log : List ε} {event : ε}

/-- Every event had the property with respect to what came before it. -/
def Justified (P : List ε → ε → Prop) : List ε → Prop
  | [] => True
  | event :: earlier => P earlier event ∧ Justified P earlier

variable {later earlier : List ε}

theorem Justified.at (h : Justified P (later ++ event :: earlier)) : P earlier event := by
  induction later with
  | nil => exact h.1
  | cons first later ih => exact ih h.2

theorem Justified.before (h : Justified P (later ++ event :: earlier)) : Justified P earlier := by
  induction later with
  | nil => exact h.2
  | cons first later ih => exact ih h.2

theorem Justified.of_mem (h : Justified P log) (hmem : event ∈ log) :
    ∃ earlier, earlier ⊆ log ∧ P earlier event := by
  obtain ⟨later, earlier, rfl⟩ := append_of_mem hmem
  exact ⟨earlier, fun x hx => mem_append_right _ (.tail _ hx), h.at⟩

def since (mark : ε → Bool) (log : List ε) : List ε := log.takeWhile fun event => !mark event

variable {mark : ε → Bool}

theorem since_mark (h : mark event = true) : since mark (event :: log) = [] := by
  rw [since, takeWhile_cons, h]
  rfl

theorem since_cons (h : mark event = false) :
    since mark (event :: log) = event :: since mark log := by
  rw [since, takeWhile_cons, h]
  rfl

theorem mem_of_mem_since (h : event ∈ since mark log) : event ∈ log :=
  (takeWhile_sublist _).subset h

/-- What a selection keeps, a wider one keeps. -/
theorem filterMap_sublist {α β : Type*} {f g : α → Option β} (h : ∀ a b, f a = some b → g a = some b)
    (l : List α) : (l.filterMap f).Sublist (l.filterMap g) := by
  induction l with
  | nil => exact List.Sublist.refl _
  | cons a l ih =>
    cases hf : f a with
    | some b =>
      rw [filterMap_cons_some hf, filterMap_cons_some (h a b hf)]
      exact ih.cons_cons b
    | none =>
      rw [filterMap_cons_none hf, filterMap_cons]
      split
      · exact ih
      · exact ih.cons _

end ObjectTransfer.Foundations
