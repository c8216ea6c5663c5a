import ObjectTransfer.Foundations.Outcome
import ObjectTransfer.Foundations.Words

/-! # Byte parsers

A parser takes bytes off the front of its input or fails. It is exact for a wire form when it
accepts just the forms of the values it admits, whatever follows them; exact parsers read back what
was written, and two inputs never give one value.
-/

namespace ObjectTransfer.Foundations
open List

abbrev Parser (ε α : Type) := StateT Bytes (Except ε) α

namespace Parser

variable {ε ε' α β : Type}

def take (n : ℕ) (error : ε) : Parser ε Bytes := fun input =>
  if n ≤ input.length then .ok (input.take n, input.drop n) else .error error

/-- A check or a conversion that reads nothing. -/
def lift (result : Except ε α) : Parser ε α := fun input => result.map (·, input)

def mapError (f : ε → ε') (p : Parser ε α) : Parser ε' α := fun input => (p input).mapError f

/-- The same item `n` times. -/
def times : ℕ → Parser ε α → Parser ε (List α)
  | 0, _ => pure []
  | n + 1, p => do
    let value ← p
    let values ← times n p
    return value :: values

/-- Nothing follows. -/
def finish (error : ε) : Parser ε Unit := fun input =>
  if input = [] then .ok ((), []) else .error error

def run (p : Parser ε α) (input : Bytes) : Except ε α := (p input).map Prod.fst

/-- The parser accepts the wire forms of the admitted values and nothing else. -/
def Exact (p : Parser ε α) (admitted : α → Prop) (wire : α → Bytes) : Prop :=
  ∀ input value rest, p input = .ok (value, rest) ↔ admitted value ∧ input = wire value ++ rest

variable {r : β × Bytes} {bytes : Bytes}

section Steps

variable {p : Parser ε α} {f : α → Parser ε β} {input rest : Bytes} {a : α} {b : β}

@[simp] theorem bind_eq_ok :
    (p >>= f) input = .ok r ↔ ∃ a rest, p input = .ok (a, rest) ∧ f a rest = .ok r := by
  change (p input >>= fun step => f step.1 step.2) = .ok r ↔ _
  rw [Foundations.bind_eq_ok]
  simp only [Prod.exists]

@[simp] theorem pure_eq_ok {r : α × Bytes} :
    (pure a : Parser ε α) input = .ok r ↔ (a, input) = r := by
  change Except.ok (a, input) = .ok r ↔ _
  rw [Except.ok.injEq]

variable {result : Except ε α}

@[simp] theorem lift_eq_ok : lift result input = .ok (a, rest) ↔ result = .ok a ∧ input = rest := by
  cases result <;> simp [lift, Except.map]

theorem lift_then :
    (lift result >>= f) input = .ok r ↔ ∃ a, result = .ok a ∧ f a input = .ok r := by
  simp only [bind_eq_ok, lift_eq_ok, and_assoc, exists_and_left, exists_eq_left']

@[simp] theorem mapError_eq_ok {g : ε → ε'} {r : α × Bytes} :
    mapError g p input = .ok r ↔ p input = .ok r := Foundations.mapError_eq_ok

theorem take_eq_ok {n : ℕ} {error : ε} :
    take n error input = .ok (bytes, rest) ↔ bytes.length = n ∧ input = bytes ++ rest := by
  rw [take]
  split_ifs with hle
  · rw [Except.ok.injEq, Prod.mk.injEq]
    constructor
    · rintro ⟨rfl, rfl⟩
      exact ⟨by simpa using hle, (take_append_drop n input).symm⟩
    · rintro ⟨rfl, rfl⟩
      exact ⟨take_left, drop_left⟩
  · refine iff_of_false (by simp) ?_
    rintro ⟨rfl, rfl⟩
    rw [length_append] at hle
    omega

@[simp] theorem finish_eq_ok {error : ε} {r : Unit × Bytes} :
    finish error input = .ok r ↔ input = [] ∧ r = ((), []) := by
  rw [finish]
  split_ifs with hempty <;> simp [hempty, eq_comm]

theorem run_eq_ok : run p input = .ok a ↔ ∃ rest, p input = .ok (a, rest) := by
  rw [run]
  cases p input with
  | error => simp [Except.map]
  | ok step =>
    obtain ⟨value, rest⟩ := step
    simp [Except.map]

end Steps

section Exact

variable {p : Parser ε α} {admitted : α → Prop} {wire : α → Bytes} {input : Bytes}

theorem Exact.then_eq_ok (h : Exact p admitted wire) {f : α → Parser ε β} :
    (p >>= f) input = .ok r ↔
      ∃ a rest, admitted a ∧ input = wire a ++ rest ∧ f a rest = .ok r := by
  rw [Parser.bind_eq_ok]
  exact exists_congr fun a => exists_congr fun rest => by rw [h, and_assoc]

/-- A literal is read and forgotten. -/
theorem Exact.skip_eq_ok {p : Parser ε Unit}
    (h : Exact p (fun _ => True) fun _ => bytes) {f : Unit → Parser ε β} :
    (p >>= f) input = .ok r ↔ ∃ rest, input = bytes ++ rest ∧ f () rest = .ok r := by
  simp only [h.then_eq_ok, true_and]
  exact ⟨fun ⟨_, hrest⟩ => hrest, fun hrest => ⟨(), hrest⟩⟩

theorem Exact.mapError (h : Exact p admitted wire) (g : ε → ε') :
    Exact (mapError g p) admitted wire := fun input value rest => by
  rw [mapError_eq_ok, h]

theorem Exact.times (h : Exact p admitted wire) (n : ℕ) :
    Exact (times n p) (fun values => values.length = n ∧ ∀ value ∈ values, admitted value)
      (List.flatMap wire) := by
  induction n with
  | zero =>
    intro input values rest
    rw [Parser.times, pure_eq_ok, Prod.mk.injEq]
    constructor
    · rintro ⟨rfl, rfl⟩
      simp
    · rintro ⟨⟨hlength, -⟩, rfl⟩
      obtain rfl := length_eq_zero_iff.mp hlength
      exact ⟨rfl, rfl⟩
  | succ n ih =>
    intro input values rest
    simp only [Parser.times, bind_eq_ok, pure_eq_ok, Prod.mk.injEq]
    constructor
    · rintro ⟨value, _, hvalue, more, _, hmore, rfl, rfl⟩
      obtain ⟨hadmitted, rfl⟩ := (h _ _ _).mp hvalue
      obtain ⟨⟨rfl, hall⟩, rfl⟩ := (ih _ _ _).mp hmore
      simpa [hadmitted] using hall
    · rintro ⟨⟨hlength, hall⟩, rfl⟩
      obtain ⟨value, more, rfl⟩ := exists_cons_of_length_eq_add_one hlength
      rw [forall_mem_cons] at hall
      refine ⟨value, _, (h _ _ _).mpr ⟨hall.1, ?_⟩, more, rest,
        (ih _ _ _).mpr ⟨⟨by simpa using hlength, hall.2⟩, rfl⟩, rfl, rfl⟩
      rw [flatMap_cons, append_assoc]

end Exact

end Parser

end ObjectTransfer.Foundations
