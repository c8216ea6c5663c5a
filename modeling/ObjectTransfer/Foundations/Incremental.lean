import ObjectTransfer.Foundations.Outcome

/-! # Reading an input that is still arriving

A reader of a growing input either decides or asks for more. It concludes when a decision never
changes with what arrives later, and it is answerable when some continuation makes it decide. Both
pass to a reader that goes on behind what another has read.
-/

namespace ObjectTransfer.Foundations

variable {ι ε α β : Type}

/-- The result asks for more input. -/
def Waits (pending : ε → Prop) (result : Except ε α) : Prop :=
  ∃ error, result = .error error ∧ pending error

def Concludes (pending : ε → Prop) (read : List ι → Except ε α) : Prop :=
  ∀ input more, ¬ Waits pending (read input) → read (input ++ more) = read input

def Answerable (pending : ε → Prop) (read : List ι → Except ε α) : Prop :=
  ∀ input, ∃ more, ¬ Waits pending (read (input ++ more))

variable {pending : ε → Prop}

theorem not_waits_ok (a : α) : ¬ Waits pending (.ok a) := by
  rintro ⟨error, h, -⟩
  cases h

theorem waits_error {error : ε} : Waits pending (.error error : Except ε α) ↔ pending error := by
  constructor
  · rintro ⟨other, h, hpending⟩
    cases h
    exact hpending
  · intro hpending
    exact ⟨error, rfl, hpending⟩

theorem Concludes.waits_of_shorter {read : List ι → Except ε α} (h : Concludes pending read)
    {start input : List ι} (hstart : start <+: input) (hwaits : Waits pending (read input)) :
    Waits pending (read start) := by
  obtain ⟨more, rfl⟩ := hstart
  by_contra hdecided
  rw [h start more hdecided] at hwaits
  exact hdecided hwaits

section Bind

/-- A decision of the first reader stands, and so does what is read after it. -/
theorem Concludes.followed {first : List ι → Except ε α} {next : α → List ι → Except ε β}
    (hfirst : Concludes pending first)
    (hnext : ∀ input a more, first input = .ok a → ¬ Waits pending (next a input) →
      next a (input ++ more) = next a input) :
    Concludes pending fun input => first input >>= (next · input) := by
  intro input more hdecided
  cases hread : first input with
  | error =>
    simp only [hread, error_bind, waits_error] at hdecided
    have hfail : ¬ Waits pending (first input) := by
      rwa [hread, waits_error]
    simp only [hfirst input more hfail, hread, error_bind]
  | ok a =>
    have hok : ¬ Waits pending (first input) := by
      rw [hread]
      exact not_waits_ok a
    simp only [hread, ok_bind] at hdecided
    simp only [hfirst input more hok, hread, ok_bind, hnext input a more hread hdecided]

variable {first : List ι → Except ε α} {next : α → Except ε β}

theorem Concludes.andThen
    (hfirst : Concludes pending first) : Concludes pending fun input => first input >>= next :=
  hfirst.followed fun _ _ _ _ _ => rfl

theorem Answerable.andThen
    (hfirst : Answerable pending first) (hnext : ∀ a, ¬ Waits pending (next a)) :
    Answerable pending fun input => first input >>= next := by
  intro input
  obtain ⟨more, hmore⟩ := hfirst input
  refine ⟨more, ?_⟩
  cases hread : first (input ++ more) with
  | error =>
    simpa only [hread, error_bind, waits_error] using hmore
  | ok a => simpa only [hread, ok_bind] using hnext a

variable {first : List ι → Except ε (α × ℕ)} {next : α × ℕ → List ι → Except ε β}

theorem Concludes.bind (hfirst : Concludes pending first)
    (hwidth : ∀ input a width, first input = .ok (a, width) → width ≤ input.length)
    (hnext : ∀ result, Concludes pending (next result)) :
    Concludes pending fun input => first input >>= fun result => next result (input.drop result.2) := by
  refine hfirst.followed fun input result more hread hdecided => ?_
  rw [List.drop_append_of_le_length (hwidth input result.1 result.2 hread)]
  exact hnext result _ more hdecided

theorem Answerable.bind (hfirst : Answerable pending first) (hsettles : Concludes pending first)
    (hwidth : ∀ input a width, first input = .ok (a, width) → width ≤ input.length)
    (hnext : ∀ result, Answerable pending (next result)) :
    Answerable pending fun input => first input >>= fun result => next result (input.drop result.2) := by
  intro input
  obtain ⟨head, hhead⟩ := hfirst input
  cases hread : first (input ++ head) with
  | error =>
    refine ⟨head, ?_⟩
    simpa only [hread, error_bind, waits_error] using hhead
  | ok result =>
    obtain ⟨tail, htail⟩ := hnext result ((input ++ head).drop result.2)
    refine ⟨head ++ tail, ?_⟩
    have hle := hwidth _ result.1 result.2 hread
    rw [← List.append_assoc]
    simpa only [hsettles _ tail hhead, hread, ok_bind,
      List.drop_append_of_le_length hle] using htail

end Bind

end ObjectTransfer.Foundations
