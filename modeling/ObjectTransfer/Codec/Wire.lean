import ObjectTransfer.Cbor.Encode
import ObjectTransfer.Codec.Envelope

/-! # What the typed frames share -/

namespace ObjectTransfer.Codec
open Foundations

def maxObjectLength : ℕ := 2 ^ 63 - 1

def groupBytes : ℕ := 65536

inductive Error where
  | envelope (error : DecodeError)
  | wrongFrameType (frameType : ℕ)
  | malformed
  | invalidValue
  | tooLarge
  | manifest
  | seal
  | receipt
  deriving DecidableEq, Repr

structure ObjectId where
  suite : UInt16
  root : Digest
  length : UInt64
  deriving DecidableEq

def ObjectId.validate (object : ObjectId) : Except Error Unit :=
  rejectIf (¬ (object.suite = 1 ∨ object.suite = 2) ∨ object.length.toNat > maxObjectLength)
    .invalidValue

def cborHeadLen (value : ℕ) : ℕ := Cbor.headLen value

def cborByteStringLen (length : ℕ) : ℕ := saturatingAdd (cborHeadLen length) length

/-- Append a typed payload under its envelope; a payload that cannot be encoded writes nothing. -/
def encodeTyped (frameType : ℕ) (payload : Except Error Bytes) (output : Bytes) :
    Bytes × Except Error Unit :=
  match payload with
  | .error error => (output, .error error)
  | .ok payload =>
    let (output, written) := encodeFrame frameType payload output
    (output, written.mapError .envelope)

/-- `a.checked_add(b).is_none_or(|end| end > limit)`. -/
def endsPast (a b : UInt64) (limit : ℕ) : Bool :=
  match checkedAdd a.toNat b.toNat with
  | none => true
  | some stop => decide (stop > limit)

end ObjectTransfer.Codec
