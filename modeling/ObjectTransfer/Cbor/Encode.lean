import ObjectTransfer.Foundations.BigEndian

/-! # Deterministic encoding

Heads in their shortest form, and the items built from them. Every function returns the bytes it
appends.
-/

namespace ObjectTransfer.Cbor
open Foundations

namespace Major

def unsigned : ℕ := 0
def negative : ℕ := 1
def bytes : ℕ := 2
def text : ℕ := 3
def array : ℕ := 4
def map : ℕ := 5

end Major

def headLen (value : ℕ) : ℕ :=
  if value ≤ 23 then 1
  else if value ≤ 0xff then 2
  else if value ≤ 0xffff then 3
  else if value ≤ 0xffff_ffff then 5
  else 9

def intLen (value : Int64) : ℕ :=
  if value < 0 then headLen (value.toInt.natAbs - 1) else headLen value.toInt.natAbs

/-- The shortest head for a major type and a 64-bit argument. -/
def head (major value : ℕ) : Bytes :=
  let tag := major * 32
  if value ≤ 23 then [UInt8.ofNat (tag + value)]
  else if value ≤ 0xff then UInt8.ofNat (tag + 24) :: beBytes 1 value
  else if value ≤ 0xffff then UInt8.ofNat (tag + 25) :: beBytes 2 value
  else if value ≤ 0xffff_ffff then UInt8.ofNat (tag + 26) :: beBytes 4 value
  else UInt8.ofNat (tag + 27) :: beBytes 8 value

def uint (value : ℕ) : Bytes := head Major.unsigned value

/-- A signed integer; a negative one is stored as the distance below minus one. -/
def int (value : Int64) : Bytes :=
  if value < 0 then head Major.negative (value.toInt.natAbs - 1)
  else head Major.unsigned value.toInt.natAbs

def bytes (value : Bytes) : Bytes := head Major.bytes value.length ++ value

def utf8 (value : String) : Bytes := value.toByteArray.data.toList

def text (value : String) : Bytes := head Major.text (utf8 value).length ++ utf8 value

def array (length : ℕ) : Bytes := head Major.array length

def map (length : ℕ) : Bytes := head Major.map length

end ObjectTransfer.Cbor
