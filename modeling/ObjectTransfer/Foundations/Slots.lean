import Mathlib.Tactic

/-! # Filling the gaps of a sequence from a stream

A sequence of slots holds values that are already known and holes. Filling takes
the values of the holes from a stream, in order. A stream fills the slots with given
values exactly when it starts with the values of the holes.
-/

namespace ObjectTransfer.Foundations

variable {δ : Type*}

/-- The values of all slots and the rest of the stream. -/
def fill : List (Option δ) → List δ → Option (List δ × List δ)
  | [], stream => some ([], stream)
  | some d :: slots, stream => (fill slots stream).map fun r => (d :: r.1, r.2)
  | none :: slots, x :: stream => (fill slots stream).map fun r => (x :: r.1, r.2)
  | none :: _, [] => none

/-- The values that stand in the holes. -/
def holes : List (Option δ) → List δ → List δ
  | none :: slots, x :: values => x :: holes slots values
  | some _ :: slots, _ :: values => holes slots values
  | _, _ => []

/-- The known slots hold the given values. -/
inductive Agrees : List (Option δ) → List δ → Prop
  | nil : Agrees [] []
  | known {d : δ} {slots values} : Agrees slots values → Agrees (some d :: slots) (d :: values)
  | hole {x : δ} {slots values} : Agrees slots values → Agrees (none :: slots) (x :: values)

variable {slots : List (Option δ)} {values : List δ}

theorem Agrees.length_eq (h : Agrees slots values) : values.length = slots.length := by
  induction h with
  | nil => rfl
  | known _ ih | hole _ ih => simp [ih]

theorem holes_length_le (slots : List (Option δ)) (values : List δ) :
    (holes slots values).length ≤ slots.length := by
  fun_induction holes slots values with
  | case1 slots x values ih => simpa using ih
  | case2 d slots x values ih => simpa using Nat.le_succ_of_le ih
  | case3 => simp

/-- Slots and values computed from the same positions. -/
theorem agrees_map {ι : Type*} {slot : ι → Option δ} {value : ι → δ} {l : List ι} :
    Agrees (l.map slot) (l.map value) ↔ ∀ i ∈ l, ∀ d ∈ slot i, d = value i := by
  induction l with
  | nil => simpa using Agrees.nil
  | cons i l ih =>
    rw [List.map_cons, List.map_cons, List.forall_mem_cons, ← ih]
    cases hslot : slot i with
    | none => exact ⟨fun | .hole h => ⟨by simp, h⟩, fun h => .hole h.2⟩
    | some d =>
      constructor
      · generalize value i = v
        rintro (_ | h | _)
        exact ⟨by simp, h⟩
      · rintro ⟨hd, h⟩
        obtain rfl : d = value i := hd d rfl
        exact .known h

theorem fill_holes (h : Agrees slots values) (rest : List δ) :
    fill slots (holes slots values ++ rest) = some (values, rest) := by
  induction h with
  | nil => simp [fill, holes]
  | known _ ih | hole _ ih => simp [fill, holes, ih]

theorem fill_eq_some {stream rest : List δ} (h : fill slots stream = some (values, rest)) :
    Agrees slots values ∧ stream = holes slots values ++ rest := by
  induction slots generalizing stream values with
  | nil =>
    obtain ⟨rfl, rfl⟩ := h
    exact ⟨.nil, rfl⟩
  | cons slot slots ih =>
    match slot, stream with
    | some d, stream =>
      simp only [fill, Option.map_eq_some_iff, Prod.mk.injEq] at h
      obtain ⟨⟨values', rest'⟩, hfill, rfl, rfl⟩ := h
      obtain ⟨hagree, rfl⟩ := ih hfill
      exact ⟨.known hagree, rfl⟩
    | none, x :: stream =>
      simp only [fill, Option.map_eq_some_iff, Prod.mk.injEq] at h
      obtain ⟨⟨values', rest'⟩, hfill, rfl, rfl⟩ := h
      obtain ⟨hagree, rfl⟩ := ih hfill
      exact ⟨.hole hagree, rfl⟩
    | none, [] => simp [fill] at h

end ObjectTransfer.Foundations
