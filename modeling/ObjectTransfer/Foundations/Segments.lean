import ObjectTransfer.Foundations.Outcome

/-! # Cutting a stream into units

The front of a stream is either refused, still undecided, or begins a unit of a known length that is
kept or dropped. `scan` cuts a stream into its complete units from the left. Reading is `Framed`
when a decision holds for every longer stream and is already made by the unit's own elements; then
cutting a stream in two at a unit boundary cuts the scan in two.
-/

namespace ObjectTransfer.Foundations
open List

structure Front where
  length : ℕ
  kept : Bool
  deriving DecidableEq, Repr

/-- The complete units that are kept, what is left behind the last complete unit, and the fault that
ended the scan there. -/
structure Segments (ι ε : Type) where
  units : List (List ι)
  tail : List ι
  fault : Option ε
  deriving DecidableEq, Repr

variable {ι ε : Type}

def Segments.behind (segments : Segments ι ε) (units : List (List ι)) : Segments ι ε :=
  { segments with units := units ++ segments.units }

@[simp] theorem Segments.behind_nil (segments : Segments ι ε) : segments.behind [] = segments := rfl

@[simp] theorem Segments.behind_behind (segments : Segments ι ε) (units more : List (List ι)) :
    (segments.behind more).behind units = segments.behind (units ++ more) := by
  simp [Segments.behind]

variable (front : List ι → Except ε (Option Front))

def scan (input : List ι) : Segments ι ε :=
  match input with
  | [] => ⟨[], [], none⟩
  | first :: rest =>
    match front (first :: rest) with
    | .error error => ⟨[], first :: rest, some error⟩
    | .ok none => ⟨[], first :: rest, none⟩
    | .ok (some unit) =>
      if 0 < unit.length ∧ unit.length ≤ (first :: rest).length then
        (scan ((first :: rest).drop unit.length)).behind
          (if unit.kept then [(first :: rest).take unit.length] else [])
      else ⟨[], first :: rest, none⟩
termination_by input.length
decreasing_by
  rw [List.length_drop]
  omega

structure Framed : Prop where
  settles : ∀ input more, front input ≠ .ok none → front (input ++ more) = front input
  own : ∀ input unit, front input = .ok (some unit) → front (input.take unit.length) = front input
  pos : ∀ input unit, front input = .ok (some unit) → 0 < unit.length

variable {front} {input : List ι}

@[simp] theorem scan_nil : scan front [] = ⟨[], [], none⟩ := by rw [scan]

theorem scan_of_more (h : front input = .ok none) : scan front input = ⟨[], input, none⟩ := by
  cases input with
  | nil => exact scan_nil
  | cons => rw [scan, h]

variable {error : ε}

theorem scan_of_fault (hne : input ≠ []) (h : front input = .error error) :
    scan front input = ⟨[], input, some error⟩ := by
  cases input with
  | nil => exact absurd rfl hne
  | cons => rw [scan, h]

variable {unit : Front}

theorem scan_of_short (h : front input = .ok (some unit))
    (hshort : input.length < unit.length) : scan front input = ⟨[], input, none⟩ := by
  cases input with
  | nil => exact scan_nil
  | cons =>
    rw [scan, h]
    exact if_neg (by omega)

theorem scan_of_unit (h : front input = .ok (some unit)) (hpos : 0 < unit.length)
    (hle : unit.length ≤ input.length) :
    scan front input = (scan front (input.drop unit.length)).behind
      (if unit.kept then [input.take unit.length] else []) := by
  cases input with
  | nil =>
    rw [length_nil] at hle
    omega
  | cons =>
    rw [scan, h]
    exact if_pos ⟨hpos, hle⟩

namespace Framed
variable (h : Framed front)
include h

/-- A complete unit and whatever follows it. -/
theorem scan_unit_append (hunit : front input = .ok (some unit))
    (hlength : input.length = unit.length) (more : List ι) :
    scan front (input ++ more) = (scan front more).behind (if unit.kept then [input] else []) := by
  have hfront : front (input ++ more) = .ok (some unit) := by
    rw [h.settles input more (by rw [hunit]; simp), hunit]
  rw [scan_of_unit hfront (h.pos _ _ hfront) (by simp [hlength]), drop_left' hlength,
    take_left' hlength]

theorem scan_fault_append (hne : input ≠ []) (hfault : front input = .error error)
    (more : List ι) : scan front (input ++ more) = ⟨[], input ++ more, some error⟩ := by
  apply scan_of_fault (by simp [hne])
  rw [h.settles input more (by rw [hfault]; simp), hfault]

/-- The first unit of the input, with more behind the input. -/
theorem scan_first_append (hunit : front input = .ok (some unit))
    (hle : unit.length ≤ input.length) (more : List ι) :
    scan front (input ++ more) = (scan front (input.drop unit.length ++ more)).behind
      (if unit.kept then [input.take unit.length] else []) := by
  have hown : front (input.take unit.length) = .ok (some unit) := by
    rw [h.own input unit hunit, hunit]
  have hcut := h.scan_unit_append hown (length_take_of_le hle) (input.drop unit.length ++ more)
  rwa [← append_assoc, take_append_drop] at hcut

/-- More input behind what was scanned: without a fault the scan goes on from the tail, and a fault
stays what it is. -/
theorem scan_append (input more : List ι) :
    ((scan front input).fault = none → scan front (input ++ more) =
      (scan front ((scan front input).tail ++ more)).behind (scan front input).units) ∧
    ∀ error, (scan front input).fault = some error →
      (scan front (input ++ more)).units = (scan front input).units ∧
        (scan front (input ++ more)).fault = some error := by
  induction hlength : input.length using Nat.strong_induction_on generalizing input with
  | _ length ih =>
    cases hfront : front input with
    | error =>
      cases input with
      | nil => simp
      | cons =>
        rw [scan_of_fault (cons_ne_nil _ _) hfront, h.scan_fault_append (cons_ne_nil _ _) hfront]
        simp
    | ok found =>
      cases found with
      | none =>
        rw [scan_of_more hfront]
        exact ⟨fun _ => (Segments.behind_nil _).symm, by simp⟩
      | some unit =>
        have hpos := h.pos input unit hfront
        by_cases hle : unit.length ≤ input.length
        · obtain ⟨hrest, hfault⟩ := ih _ (by rw [length_drop]; omega) (input.drop unit.length) rfl
          rw [scan_of_unit hfront hpos hle, h.scan_first_append hfront hle]
          refine ⟨fun hnone => ?_, fun error hsome => ?_⟩
          · rw [hrest hnone, Segments.behind_behind]
            rfl
          · obtain ⟨hunits, hsame⟩ := hfault error hsome
            exact ⟨congrArg (_ ++ ·) hunits, hsame⟩
        · simp [scan_of_short hfront (not_le.mp hle)]

/-- What decides a front has no decision among its proper beginnings unless it is longer than the
unit it begins. -/
theorem length_le_of_dropLast (hunit : front input = .ok (some unit))
    (hmore : front input.dropLast = .ok none) : input.length ≤ unit.length := by
  by_contra hlong
  have hown := h.own input unit hunit
  have htake : input.take unit.length = input.dropLast.take unit.length := by
    rw [dropLast_eq_take, take_take, min_eq_left (by omega)]
  have hsettled := h.settles (input.dropLast.take unit.length) (input.dropLast.drop unit.length)
    (by rw [← htake, hown, hunit]; simp)
  rw [take_append_drop, hmore, ← htake, hown, hunit] at hsettled
  cases hsettled

end Framed

end ObjectTransfer.Foundations
