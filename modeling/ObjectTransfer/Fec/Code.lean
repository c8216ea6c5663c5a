import ObjectTransfer.Fec.Gf
import ObjectTransfer.Foundations.Outcome

/-! # The erasure code

A generation has `k` source symbols and up to 16 repair symbols, the products of the
sources with a Cauchy matrix. Decoding moves the known sources to the right-hand side,
one equation per repair symbol, and eliminates in place. A pivot that is not found, an
inverse of zero and an index out of bounds are panics.
-/

namespace ObjectTransfer.Fec
open Foundations

def maxSourceSymbols : ℕ := 64
def maxRepairSymbols : ℕ := 16
def maxSymbolLength : ℕ := 65535
def maxSymbols : ℕ := maxSourceSymbols + maxRepairSymbols

inductive Error where
  | invalidGeometry
  | invalidSymbol
  | insufficientSymbols
  deriving DecidableEq, Repr

/-- The shape of a generation, inside the caps. -/
structure Geometry where
  sourceCount : ℕ
  repairCount : ℕ
  symbolLength : ℕ
  source_pos : 0 < sourceCount
  source_le : sourceCount ≤ maxSourceSymbols
  repair_le : repairCount ≤ maxRepairSymbols
  length_pos : 0 < symbolLength
  length_le : symbolLength ≤ maxSymbolLength
  deriving DecidableEq

namespace Geometry

def new (sourceCount repairCount symbolLength : ℕ) : Except Error Geometry :=
  if h : sourceCount = 0 ∨ sourceCount > maxSourceSymbols ∨ repairCount > maxRepairSymbols ∨
      symbolLength = 0 ∨ symbolLength > maxSymbolLength then .error .invalidGeometry
  else .ok
    { sourceCount, repairCount, symbolLength
      source_pos := by omega
      source_le := by omega
      repair_le := by omega
      length_pos := by omega
      length_le := by omega }

def symbolCount (g : Geometry) : ℕ := g.sourceCount + g.repairCount

/-- A row of the Cauchy generator: `inverse((k + i) XOR j)`. -/
def generatorRow (g : Geometry) (repairIndex : ℕ) : Option (List UInt8) :=
  let x := g.sourceCount + repairIndex
  (List.range g.sourceCount).mapM fun j =>
    if x ^^^ j < 256 then Gf.inv (UInt8.ofNat (x ^^^ j)) else none

def checkSymbol (g : Geometry) (symbol : Bytes) : Except (Abort Error) Unit :=
  rejectIf (symbol.length ≠ g.symbolLength) (.error .invalidSymbol)

end Geometry

variable [Gf.Simd]

def encode (g : Geometry) (source : List Bytes) : Except (Abort Error) (List Bytes) := do
  rejectIf (source.length ≠ g.sourceCount) (.error .invalidSymbol)
  source.forM g.checkSymbol
  (List.range g.repairCount).mapM fun i => do
    let row ← okOr (g.generatorRow i) .panic
    return (row.zip source).foldl (fun out p => Gf.mulAdd out p.1 p.2)
      (List.replicate g.symbolLength 0)

section Elimination

/-- The first row from which column `col` can be cleared. -/
def findPivot (rows : List Bytes) (col : ℕ) : List ℕ → Option ℕ
  | [] => none
  | r :: rest => do
    let row ← rows[r]?
    let value ← row[col]?
    if value ≠ 0 then some r else findPivot rows col rest

def swap (rows : List Bytes) (a b : ℕ) : Option (List Bytes) := do
  let rowA ← rows[a]?
  let rowB ← rows[b]?
  return (rows.set a rowB).set b rowA

def clear (pivotRow : Bytes) (col : ℕ) (row : Bytes) : Option Bytes := do
  let factor ← row[col]?
  return Gf.mulAdd row factor pivotRow

def eliminateColumn (k : ℕ) (rows : List Bytes) (col : ℕ) : Option (List Bytes) := do
  let pivot ← findPivot rows col (List.range' col (k - col))
  let rows ← swap rows col pivot
  let pivotRow ← rows[col]?
  let value ← pivotRow[col]?
  let inv ← Gf.inv value
  let pivotRow := pivotRow.map (Gf.mul inv)
  let before ← (rows.take col).mapM (clear pivotRow col)
  let after ← (rows.drop (col + 1)).mapM (clear pivotRow col)
  return before ++ pivotRow :: after

/-- Reduce the first `k` columns to the identity. -/
def gaussJordan (rows : List Bytes) (k : ℕ) : Option (List Bytes) :=
  (List.range k).foldlM (eliminateColumn k) rows

end Elimination

section Decoding

/-- What is known of each ESI. -/
abbrev Symbols := List (Option Bytes)

def Symbols.get (symbols : Symbols) (esi : ℕ) : Option Bytes := symbols.getD esi none

/-- Enter the received symbols in a table by ESI. -/
def place (g : Geometry) : List (ℕ × Bytes) → Symbols → Except (Abort Error) Symbols
  | [], symbols => return symbols
  | (esi, symbol) :: received, symbols => do
    rejectIf (esi ≥ g.symbolCount ∨ (symbols.get esi).isSome) (.error .invalidSymbol)
    g.checkSymbol symbol
    place g received (symbols.set esi (some symbol))

/-- The equation of one repair symbol for the missing sources. -/
def repairRow (g : Geometry) (symbols : Symbols) (missing : List ℕ) (esi : ℕ) : Option Bytes := do
  let coefficients ← g.generatorRow (esi - g.sourceCount)
  let front ← missing.mapM fun column => coefficients[column]?
  let symbol ← symbols.get esi
  let known := (List.range g.sourceCount).filter fun sourceEsi => (symbols.get sourceEsi).isSome
  let right ← known.foldlM (fun right sourceEsi => do
    let coefficient ← coefficients[sourceEsi]?
    let source ← symbols.get sourceEsi
    return Gf.mulAdd right coefficient source) symbol
  return front ++ right

/-- The bytes from `m` on moved to the front, and the row cut to `length`. -/
def rightSide (m length : ℕ) (row : Bytes) : Bytes :=
  (row.drop m ++ row.drop (row.length - m)).take length

def solveMissing (g : Geometry) (received : List (ℕ × Bytes)) :
    Except (Abort Error) (Symbols × List (ℕ × Bytes)) := do
  let symbols ← place g received (List.replicate maxSymbols none)
  rejectIf (received.length < g.sourceCount) (.error .insufficientSymbols)
  let missing := (List.range g.sourceCount).filter fun esi => (symbols.get esi).isNone
  if missing = [] then return (symbols, [])
  else do
    let m := missing.length
    let repairs := ((List.range' g.sourceCount g.repairCount).filter fun esi =>
      (symbols.get esi).isSome).take m
    let rows ← okOr (repairs.mapM (repairRow g symbols missing)) .panic
    let rows ← okOr (gaussJordan rows m) .panic
    return (symbols, missing.zip (rows.map (rightSide m g.symbolLength)))

/-- The sources in order, the missing ones taken from what was recovered. -/
def assembleSources (symbols : Symbols) : List ℕ → List (ℕ × Bytes) → Option (List Bytes)
  | [], _ => some []
  | esi :: rest, recovered =>
    match symbols.get esi, recovered with
    | some symbol, recovered => (assembleSources symbols rest recovered).map (symbol :: ·)
    | none, (_, symbol) :: recovered => (assembleSources symbols rest recovered).map (symbol :: ·)
    | none, [] => none

def decode (g : Geometry) (received : List (ℕ × Bytes)) : Except (Abort Error) (List Bytes) := do
  let solved ← solveMissing g received
  okOr (assembleSources solved.1 (List.range g.sourceCount) solved.2) .panic

def recoverMissing (g : Geometry) (received : List (ℕ × Bytes)) :
    Except (Abort Error) (List (ℕ × Bytes)) := do
  let solved ← solveMissing g received
  return solved.2

end Decoding

end ObjectTransfer.Fec
