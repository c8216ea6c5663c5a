import ObjectTransfer.Foundations.Words

/-! # The third-party hash functions

The two crates that compute digests are parameters of the development. A BLAKE3
hasher is the bytes it has absorbed together with the input offset it was set to.
-/

namespace ObjectTransfer.Streaming
open Foundations

/-- The functions of the `blake3` crate: the root of a byte string, the chaining value of a
group at an input offset, and the two merges of sibling subtrees. -/
class Blake3 where
  hash : Bytes → Digest
  chainingValue : ℕ → Bytes → Digest
  mergeSubtreesNonRoot : Digest → Digest → Digest
  mergeSubtreesRoot : Digest → Digest → Digest

/-- The digest function of the `sha2` crate. -/
class Sha256 where
  digest : Bytes → Digest

structure Hasher where
  inputOffset : ℕ := 0
  absorbed : Bytes := []

namespace Hasher

def new : Hasher := {}

def setInputOffset (hasher : Hasher) (offset : ℕ) : Hasher := { hasher with inputOffset := offset }

def update (hasher : Hasher) (bytes : Bytes) : Hasher :=
  { hasher with absorbed := hasher.absorbed ++ bytes }

def finalize [Blake3] (hasher : Hasher) : Digest := Blake3.hash hasher.absorbed

def finalizeNonRoot [Blake3] (hasher : Hasher) : Digest :=
  Blake3.chainingValue hasher.inputOffset hasher.absorbed

end Hasher

end ObjectTransfer.Streaming
