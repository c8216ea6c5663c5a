import ObjectTransfer.Cbor.Encode
import ObjectTransfer.Foundations.Blocks
import ObjectTransfer.Foundations.Parser

/-! # Deterministic decoding

Every reader accepts just the shortest form of an item. Lengths are bounded before anything of that
length is taken.
-/

namespace ObjectTransfer.Cbor
open Foundations

inductive Error where
  | truncated
  | malformed
  | nonCanonical
  | wrongType
  | tooLarge
  | trailing
  | notUtf8
  deriving DecidableEq, Repr

abbrev Reader (α : Type) := Parser Error α

namespace Reader

def take (length : ℕ) : Reader Bytes := Parser.take length .truncated

def byte : Reader UInt8 := do
  let bytes ← take 1
  Parser.lift (okOr bytes.head? .truncated)

/-- A big-endian integer of `width` bytes. -/
def fixed (width : ℕ) : Reader ℕ := do
  let bytes ← take width
  return ofBe bytes

/-- The argument that follows a first byte, and the least value this width is the shortest for. -/
def argument (additional : ℕ) : Reader (ℕ × ℕ) :=
  if additional ≤ 23 then pure (additional, 0)
  else if additional = 24 then do return (← fixed 1, 24)
  else if additional = 25 then do return (← fixed 2, 0x100)
  else if additional = 26 then do return (← fixed 4, 0x1_0000)
  else if additional = 27 then do return (← fixed 8, 0x1_0000_0000)
  else Parser.lift (.error .malformed)

/-- One head: its major type and argument. -/
def head : Reader (ℕ × UInt64) := do
  let first ← byte
  let (value, floor) ← argument (first &&& 0x1f).toNat
  Parser.lift (rejectIf (value < floor) .nonCanonical)
  return ((first >>> 5).toNat, .ofNat value)

def typedHead (expected : ℕ) : Reader UInt64 := do
  let (major, value) ← head
  Parser.lift (rejectIf (major ≠ expected) .wrongType)
  return value

def uint : Reader UInt64 := typedHead Major.unsigned

def key (expected : ℕ) : Reader Unit := do
  let value ← uint
  Parser.lift (rejectIf (value.toNat ≠ expected) .wrongType)

def toInt (major : ℕ) (value : UInt64) : Except Error Int64 :=
  if major = Major.unsigned then do
    rejectIf (value.toNat > 2 ^ 63 - 1) .tooLarge
    return .ofNat value.toNat
  else if major = Major.negative then do
    rejectIf (value.toNat > 2 ^ 63 - 1) .tooLarge
    return .ofInt (-1 - value.toNat)
  else .error .wrongType

def int : Reader Int64 := do
  let (major, value) ← head
  Parser.lift (toInt major value)

def length (expected maximum : ℕ) : Reader ℕ := do
  let length ← typedHead expected
  Parser.lift (rejectIf (length.toNat > maximum) .tooLarge)
  return length.toNat

def bytes (maximum : ℕ) : Reader Bytes := do
  let length ← length Major.bytes maximum
  take length

def fixedBytes (n : ℕ) : Reader (Block n) := do
  let length ← length Major.bytes n
  Parser.lift (rejectIf (length ≠ n) .tooLarge)
  let bytes ← take n
  return Block.ofBytes n bytes

def text (maximum : ℕ) : Reader String := do
  let length ← length Major.text maximum
  let bytes ← take length
  Parser.lift (okOr (String.fromUTF8? ⟨bytes.toArray⟩) .notUtf8)

def arrayLen (maximum : ℕ) : Reader ℕ := do
  let length ← typedHead Major.array
  Parser.lift (rejectIf (length.toNat > maximum) .tooLarge)
  return length.toNat

def map (expected : ℕ) : Reader Unit := do
  let length ← typedHead Major.map
  Parser.lift (rejectIf (length.toNat ≠ expected) .wrongType)

def finish : Reader Unit := Parser.finish .trailing

end Reader

end ObjectTransfer.Cbor
