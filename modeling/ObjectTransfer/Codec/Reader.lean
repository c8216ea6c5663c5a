import ObjectTransfer.Cbor.Exact
import ObjectTransfer.Codec.Wire

/-! # The typed frames' reader

A value past a registered bound is too large, anything else that is not the expected item is
malformed.
-/

namespace ObjectTransfer.Codec
open Foundations

abbrev Reader (α : Type) := Parser Error α

namespace Reader

def structural : Cbor.Error → Error
  | .tooLarge => .tooLarge
  | .truncated | .malformed | .nonCanonical | .wrongType | .notUtf8 | .trailing => .malformed

def uint : Reader UInt64 := Parser.mapError structural Cbor.Reader.uint

def key (expected : ℕ) : Reader Unit :=
  Parser.mapError (fun _ => .malformed) (Cbor.Reader.key expected)

def map (expected : ℕ) : Reader Unit :=
  Parser.mapError (fun _ => .malformed) (Cbor.Reader.map expected)

/-- An array head within a registered maximum. -/
def arrayLen (maximum : ℕ) : Reader ℕ :=
  Parser.mapError (fun _ => .tooLarge) (Cbor.Reader.arrayLen maximum)

def bytes (maximum : ℕ) : Reader Bytes := Parser.mapError structural (Cbor.Reader.bytes maximum)

def text (maximum : ℕ) : Reader String := Parser.mapError structural (Cbor.Reader.text maximum)

/-- A byte string of one length; any other length is malformed. -/
def fixed (n : ℕ) : Reader (Block n) :=
  Parser.mapError (fun | .tooLarge => .malformed | error => structural error)
    (Cbor.Reader.fixedBytes n)

def finish : Reader Unit := Parser.mapError (fun _ => .malformed) Cbor.Reader.finish

/-- The version every session and transfer map starts with. -/
def version : Reader Unit := do
  key 0
  let version ← uint
  Parser.lift (rejectIf (version ≠ 0) .invalidValue)

/-- The value of a payload that ends here, when it is valid. -/
def complete {α : Type} (value : α) (valid : Except Error Unit) : Reader α := do
  finish
  Parser.lift valid
  return value

/-! ## What is read in front of the rest of a payload -/

section Exact

variable {n : ℕ} {input : Bytes} {α : Type} {r : α × Bytes}

theorem uint_exact : Parser.Exact uint (fun _ => True) fun value => Cbor.uint value.toNat :=
  Cbor.Reader.uint_exact.mapError _

theorem uint_then {f : UInt64 → Reader α} : (uint >>= f) input = .ok r ↔
    ∃ value rest, input = Cbor.uint value.toNat ++ rest ∧ f value rest = .ok r := by
  simp only [uint_exact.then_eq_ok, true_and]

variable {f : Unit → Reader α}

section

variable (h : n ≤ u64Max)
include h

theorem key_then : (key n >>= f) input = .ok r ↔
    ∃ rest, input = Cbor.uint n ++ rest ∧ f () rest = .ok r :=
  ((Cbor.Reader.key_exact h).mapError _).skip_eq_ok

theorem map_then : (map n >>= f) input = .ok r ↔
    ∃ rest, input = Cbor.map n ++ rest ∧ f () rest = .ok r :=
  ((Cbor.Reader.map_exact h).mapError _).skip_eq_ok

theorem arrayLen_then {f : ℕ → Reader α} : (arrayLen n >>= f) input = .ok r ↔
    ∃ count rest, count ≤ n ∧ input = Cbor.array count ++ rest ∧ f count rest = .ok r :=
  ((Cbor.Reader.arrayLen_exact h).mapError _).then_eq_ok

theorem bytes_then {f : Bytes → Reader α} : (bytes n >>= f) input = .ok r ↔
    ∃ value rest, value.length ≤ n ∧ input = Cbor.bytes value ++ rest ∧ f value rest = .ok r :=
  ((Cbor.Reader.bytes_exact h).mapError _).then_eq_ok

theorem text_then {f : String → Reader α} : (text n >>= f) input = .ok r ↔
    ∃ value rest, (Cbor.utf8 value).length ≤ n ∧ input = Cbor.text value ++ rest ∧
      f value rest = .ok r :=
  ((Cbor.Reader.text_exact h).mapError _).then_eq_ok

theorem fixed_then {f : Block n → Reader α} : (fixed n >>= f) input = .ok r ↔
    ∃ value rest, input = Cbor.bytes value.toList ++ rest ∧ f value rest = .ok r := by
  simp only [((Cbor.Reader.fixedBytes_exact h).mapError _).then_eq_ok, fixed, true_and]

end

theorem version_exact :
    Parser.Exact version (fun _ => True) fun _ => Cbor.uint 0 ++ Cbor.uint 0 := by
  intro input _ rest
  simp +decide only [version, key_then, uint_then, Parser.lift_eq_ok, rejectIf_eq_ok, not_not,
    true_and]
  constructor
  · rintro ⟨_, rfl, _, _, rfl, rfl, rfl⟩
    rfl
  · rintro rfl
    exact ⟨_, List.append_assoc .., 0, _, rfl, rfl, rfl⟩

theorem version_then : (version >>= f) input = .ok r ↔
    ∃ rest, input = Cbor.uint 0 ++ Cbor.uint 0 ++ rest ∧ f () rest = .ok r :=
  version_exact.skip_eq_ok

theorem times_then {p : Reader UInt64} {wire : UInt64 → Bytes}
    (h : Parser.Exact p (fun _ => True) wire) {f : List UInt64 → Reader α} :
    (Parser.times n p >>= f) input = .ok r ↔
      ∃ values rest, values.length = n ∧ input = values.flatMap wire ++ rest ∧
        f values rest = .ok r := by
  simp only [(h.times n).then_eq_ok, implies_true, and_true]

@[simp] theorem complete_eq_ok {value result : α} {valid : Except Error Unit} {rest : Bytes} :
    complete value valid input = .ok (result, rest) ↔
      valid = .ok () ∧ value = result ∧ input = [] ∧ rest = [] := by
  simp only [complete, finish, Cbor.Reader.finish, Parser.bind_eq_ok, Parser.mapError_eq_ok,
    Parser.finish_eq_ok, Parser.lift_eq_ok, Parser.pure_eq_ok, Prod.mk.injEq]
  constructor
  · rintro ⟨_, _, ⟨rfl, -, rfl⟩, _, _, ⟨hvalid, rfl⟩, rfl, rfl⟩
    exact ⟨hvalid, rfl, rfl, rfl⟩
  · rintro ⟨hvalid, rfl, rfl, rfl⟩
    exact ⟨(), [], ⟨rfl, trivial, rfl⟩, (), [], ⟨hvalid, rfl⟩, rfl, rfl⟩

end Exact

end Reader

end ObjectTransfer.Codec
