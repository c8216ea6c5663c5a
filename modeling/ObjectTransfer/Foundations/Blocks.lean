import ObjectTransfer.Foundations.Chunks

/-! # Byte strings made of fixed-width blocks

A list of digests, or of pairs of digests, written back to back is read again by
cutting the bytes at multiples of the width.
-/

namespace ObjectTransfer.Foundations
open List

/-- The first `n` bytes, filled up with zeros. -/
def Block.ofBytes (n : ℕ) (bytes : Bytes) : Block n :=
  ⟨(bytes ++ List.replicate n 0).take n, by simp⟩

variable {bytes : Bytes} {n : ℕ}

theorem Block.toList_ofBytes (h : bytes.length = n) : (Block.ofBytes n bytes).toList = bytes := by
  subst h
  simp [Block.ofBytes, List.Vector.toList]

@[simp] theorem Block.ofBytes_toList (block : Block n) : Block.ofBytes n block.toList = block :=
  List.Vector.toList_injective (Block.toList_ofBytes block.toList_length)

section Records

variable {ρ : Type*} {n : ℕ} (write : ρ → Bytes) (read : Bytes → ρ)

/-- Records of width `n` written one after another. -/
def writeAll (records : List ρ) : Bytes := (records.map write).flatten

/-- The records of width `n` a byte string holds; a short rest is ignored. -/
def readAll (n : ℕ) (bytes : Bytes) : List ρ := (chunksExact n bytes).map read

@[simp] theorem writeAll_nil : writeAll write [] = [] := rfl

@[simp] theorem writeAll_cons (r : ρ) (records : List ρ) :
    writeAll write (r :: records) = write r ++ writeAll write records := rfl

@[simp] theorem writeAll_append (xs ys : List ρ) :
    writeAll write (xs ++ ys) = writeAll write xs ++ writeAll write ys := by
  simp [writeAll]

variable {write read}

theorem writeAll_length (hwidth : ∀ r, (write r).length = n) (records : List ρ) :
    (writeAll write records).length = n * records.length := by
  induction records with
  | nil => simp
  | cons r records ih =>
    rw [writeAll_cons, length_append, hwidth, ih, length_cons, Nat.mul_succ, add_comm]

theorem readAll_writeAll (hn : 0 < n) (hwidth : ∀ r, (write r).length = n)
    (hread : ∀ r, read (write r) = r) (records : List ρ) :
    readAll read n (writeAll write records) = records := by
  induction records with
  | nil => simp [readAll, chunksExact]
  | cons r records ih =>
    have hlen : n ≤ (write r ++ writeAll write records).length := by
      rw [length_append, hwidth]
      omega
    rw [writeAll_cons, readAll, chunksExact_cons hn hlen, map_cons,
      take_left' (hwidth r), drop_left' (hwidth r), hread]
    exact congrArg _ ih

theorem writeAll_readAll (hwrite : ∀ bytes : Bytes, bytes.length = n → write (read bytes) = bytes)
    (hdvd : n ∣ bytes.length) : writeAll write (readAll read n bytes) = bytes := by
  have hrem : remainder n bytes = [] := by
    rw [← length_eq_zero_iff, remainder_length]
    exact Nat.mod_eq_zero_of_dvd hdvd
  have hid : (chunksExact n bytes).map (write ∘ read) = chunksExact n bytes := by
    conv_rhs => rw [← map_id (chunksExact n bytes)]
    exact map_congr_left fun c hc => hwrite c (length_of_mem_chunksExact hc)
  have hwhole := chunksExact_append_remainder n bytes
  rw [hrem, append_nil] at hwhole
  rw [writeAll, readAll, map_map, hid, hwhole]

@[simp] theorem readAll_length (n : ℕ) (bytes : Bytes) :
    (readAll read n bytes).length = bytes.length / n := by
  simp [readAll]

/-- A record stands after `k` others exactly where the bytes reach to its end. -/
theorem drop_readAll_eq_cons (hn : 0 < n) {k : ℕ} {r : ρ} {tail : List ρ} :
    (readAll read n bytes).drop k = r :: tail ↔ n * k + n ≤ bytes.length ∧
      read (chunkAt n bytes k) = r ∧ (readAll read n bytes).drop (k + 1) = tail := by
  have hk : k < (readAll read n bytes).length ↔ n * k + n ≤ bytes.length := by
    rw [readAll_length, Nat.lt_iff_add_one_le, Nat.le_div_iff_mul_le hn, add_mul, one_mul, mul_comm]
  by_cases hle : n * k + n ≤ bytes.length
  · have hlt := hk.mpr hle
    have hget : (readAll read n bytes)[k] = read (chunkAt n bytes k) := by
      simp [readAll, chunksExact]
    rw [drop_eq_getElem_cons hlt, cons.injEq, hget]
    simp [hle]
  · simp [drop_of_length_le (not_lt.mp (hk.not.mpr hle)), hle]

end Records

/-- Two digests in one 64-byte record. -/
def writePair (pair : Digest × Digest) : Bytes := pair.1.toList ++ pair.2.toList

def readPair (bytes : Bytes) : Digest × Digest :=
  (Block.ofBytes 32 (bytes.take 32), Block.ofBytes 32 (bytes.drop 32))

@[simp] theorem writePair_length (pair : Digest × Digest) : (writePair pair).length = 64 := by
  simp [writePair]

@[simp] theorem readPair_writePair (pair : Digest × Digest) : readPair (writePair pair) = pair := by
  obtain ⟨left, right⟩ := pair
  rw [readPair, writePair, take_left' left.toList_length, drop_left' left.toList_length,
    Block.ofBytes_toList, Block.ofBytes_toList]

theorem writePair_readPair (h : bytes.length = 64) : writePair (readPair bytes) = bytes := by
  rw [readPair, writePair, Block.toList_ofBytes (by simp [h]), Block.toList_ofBytes (by simp [h]),
    take_append_drop]

end ObjectTransfer.Foundations
