import ObjectTransfer.Foundations.Text
import ObjectTransfer.Log.Merkle

/-! # Witnessed checkpoints

A checkpoint is written as three lines and signed as such. The signatures follow in lines of their
own, and a reader counts those of the witnesses its policy lists. Base64 and the signature scheme are
the third-party ones.
-/

namespace ObjectTransfer.Log
open Foundations Streaming

def ed25519NoteAlgorithm : UInt8 := 0x01

def maxNoteBytes : ℕ := 65536

def maxNameBytes : ℕ := 256

/-- The standard engine of the `base64` crate, with what is assumed of it: what it writes it reads
back, nothing is written for nothing, and no blank or line end is ever written. -/
class Base64 where
  encode : Bytes → List Char
  decode : List Char → Option Bytes
  decode_encode : ∀ bytes, decode (encode bytes) = some bytes
  encode_nil : encode [] = []
  printable : ∀ bytes, ∀ c ∈ encode bytes, ' ' < c

structure Checkpoint where
  origin : List Char
  size : {n : ℕ // n ≤ u64Max}
  root : Hash
  deriving DecidableEq

structure NoteSignature where
  name : List Char
  keyHash : Block 4
  signature : Bytes
  deriving DecidableEq

structure SignedCheckpoint where
  checkpoint : Checkpoint
  signatures : List NoteSignature
  deriving DecidableEq

section Text

variable [Base64]

def Checkpoint.lines (checkpoint : Checkpoint) : List (List Char) :=
  [checkpoint.origin, Nat.toDigits 10 checkpoint.size, Base64.encode checkpoint.root.toList]

def Checkpoint.body (checkpoint : Checkpoint) : Except Error (List Char) := do
  rejectIf (checkpoint.origin = [] ∨ (utf8Bytes checkpoint.origin).length > maxNameBytes) .malformed
  rejectIf ('\n' ∈ checkpoint.origin) .malformed
  pure (['\n'].intercalate checkpoint.lines ++ ['\n'])

/-- The characters with the Unicode property `White_Space`. -/
def isWhitespace (c : Char) : Bool :=
  let n := c.toNat
  decide (9 ≤ n ∧ n ≤ 13 ∨ n = 0x20 ∨ n = 0x85 ∨ n = 0xA0 ∨ n = 0x1680 ∨ 0x2000 ≤ n ∧ n ≤ 0x200A ∨
    n = 0x2028 ∨ n = 0x2029 ∨ n = 0x202F ∨ n = 0x205F ∨ n = 0x3000)

def validNoteName (name : List Char) : Bool :=
  name ≠ [] && (utf8Bytes name).length ≤ maxNameBytes && '+' ∉ name && !name.any isWhitespace

def noteKeyHash [Sha256] (name : List Char) (publicKey : Block 32) : Block 4 :=
  .ofBytes 4 (Sha256.digest
    (utf8Bytes name ++ utf8Bytes ['\n'] ++ [ed25519NoteAlgorithm] ++ publicKey.toList)).toList

def NoteSignature.line (signature : NoteSignature) : List Char :=
  '—' :: ' ' :: (signature.name ++
    ' ' :: Base64.encode (signature.keyHash.toList ++ signature.signature))

namespace SignedCheckpoint

def toNote (signed : SignedCheckpoint) : Except Error (List Char) := do
  let body ← signed.checkpoint.body
  let lines ← signed.signatures.mapM fun signature => do
    rejectIf (!validNoteName signature.name) .malformed
    pure (signature.line ++ ['\n'])
  pure (body ++ '\n' :: lines.flatten)

def parseBody (body : List Char) : Except Error Checkpoint :=
  match body.splitOn '\n' with
  | [origin, size, root] => do
    let size ← okOr (parseUsize size) .malformed
    let root ← okOr (Base64.decode root) .malformed
    if h : root.length = 32 then pure ⟨origin, size, ⟨root, h⟩⟩ else .error .malformed
  | _ => .error .malformed

def parseSignature : List Char → Except Error NoteSignature
  | '—' :: ' ' :: rest => do
    let (name, blob) ← okOr (splitOnce [' '] rest) .malformed
    let blob ← okOr (Base64.decode blob) .malformed
    rejectIf (blob.length < 4) .malformed
    pure ⟨name, .ofBytes 4 blob, blob.drop 4⟩
  | _ => .error .malformed

def parseNote (note : List Char) : Except Error SignedCheckpoint := do
  rejectIf ((utf8Bytes note).length > maxNoteBytes) .malformed
  let (body, signatures) ← okOr (splitOnce ['\n', '\n'] note) .malformed
  let checkpoint ← parseBody body
  let parsed ← (lines signatures).mapM parseSignature
  let rebuilt : SignedCheckpoint := ⟨checkpoint, parsed⟩
  let again ← rebuilt.toNote
  rejectIf (again ≠ note) .malformed
  pure rebuilt

end SignedCheckpoint

end Text

/-- The keys of the `ed25519_dalek` crate. -/
class VerifyingKey (κ : Type*) where
  toBytes : κ → Block 32
  verifyStrict : κ → Bytes → Block 64 → Bool

structure WitnessKey (κ : Type*) where
  name : List Char
  key : κ

section Verify

open VerifyingKey

variable {κ : Type*} [Sha256] [Base64] [VerifyingKey κ]

/-- One witness against one signature. It is counted once per name and per key. -/
def tryWitness (body : List Char) (signature : NoteSignature) (bytes : Block 64)
    (accepted : List (List Char × Block 32)) (witness : WitnessKey κ) :
    List (List Char × Block 32) :=
  if witness.name ≠ signature.name then accepted
  else if noteKeyHash witness.name (toBytes witness.key) ≠ signature.keyHash then accepted
  else
    let publicKey := toBytes witness.key
    if verifyStrict witness.key (utf8Bytes body) bytes &&
        !accepted.any fun (name, seen) => seen = publicKey || name = witness.name then
      accepted ++ [(witness.name, publicKey)]
    else accepted

def trySignature (body : List Char) (witnesses : List (WitnessKey κ))
    (accepted : List (List Char × Block 32)) (signature : NoteSignature) :
    List (List Char × Block 32) :=
  if h : signature.signature.length = 64 then
    witnesses.foldl (tryWitness body signature ⟨signature.signature, h⟩) accepted
  else accepted

def verifyCheckpoint (signed : SignedCheckpoint) (witnesses : List (WitnessKey κ)) (required : ℕ) :
    Except Error (List (List Char)) := do
  let body ← signed.checkpoint.body
  let accepted := signed.signatures.foldl (trySignature body witnesses) []
  rejectIf (accepted.length < required) .unwitnessed
  pure (accepted.map Prod.fst)

end Verify

end ObjectTransfer.Log
