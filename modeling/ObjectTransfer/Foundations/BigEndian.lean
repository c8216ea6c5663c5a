import ObjectTransfer.Foundations.Words

/-! # Integers as bytes -/

namespace ObjectTransfer.Foundations
open List

/-- The low `n` bytes of a number, most significant first. -/
def beBytes : ℕ → ℕ → Bytes
  | 0, _ => []
  | n + 1, value => UInt8.ofNat (value / 256 ^ n) :: beBytes n value

/-- The number a byte string spells, most significant byte first. -/
def ofBe (bytes : Bytes) : ℕ := bytes.foldl (fun value byte => value * 256 + byte.toNat) 0

@[simp] theorem beBytes_length (n value : ℕ) : (beBytes n value).length = n := by
  induction n with
  | zero => rfl
  | succ n ih => rw [beBytes, length_cons, ih]

theorem foldl_be_split (bytes : Bytes) (start : ℕ) :
    bytes.foldl (fun value byte => value * 256 + byte.toNat) start =
      start * 256 ^ bytes.length + ofBe bytes := by
  induction bytes generalizing start with
  | nil => simp [ofBe]
  | cons byte bytes ih =>
    have hcons : ofBe (byte :: bytes) = byte.toNat * 256 ^ bytes.length + ofBe bytes := by
      rw [ofBe, foldl_cons, ih]
      ring
    rw [foldl_cons, ih, hcons, length_cons, pow_succ]
    ring

theorem ofBe_cons (byte : UInt8) (bytes : Bytes) :
    ofBe (byte :: bytes) = byte.toNat * 256 ^ bytes.length + ofBe bytes := by
  rw [ofBe, foldl_cons, foldl_be_split]
  ring

theorem ofBe_beBytes_mod (n value : ℕ) : ofBe (beBytes n value) = value % 256 ^ n := by
  induction n with
  | zero => rw [pow_zero, Nat.mod_one]; rfl
  | succ n ih =>
    rw [beBytes, ofBe_cons, ih, beBytes_length, pow_succ, Nat.mod_mul, UInt8.toNat_ofNat']
    ring

theorem ofBe_beBytes {n value : ℕ} (h : value < 256 ^ n) : ofBe (beBytes n value) = value := by
  rw [ofBe_beBytes_mod, Nat.mod_eq_of_lt h]

theorem ofBe_lt (bytes : Bytes) : ofBe bytes < 256 ^ bytes.length := by
  induction bytes with
  | nil => simp [ofBe]
  | cons byte bytes =>
    have hbyte : byte.toNat ≤ 255 := Nat.le_of_lt_succ byte.toNat_lt
    have hmul := Nat.mul_le_mul_right (256 ^ bytes.length) hbyte
    rw [ofBe_cons, length_cons, pow_succ]
    omega

theorem beBytes_ofBe (bytes : Bytes) : beBytes bytes.length (ofBe bytes) = bytes := by
  suffices h : ∀ high, beBytes bytes.length (high * 256 ^ bytes.length + ofBe bytes) = bytes by
    simpa using h 0
  induction bytes with
  | nil => intro high; rfl
  | cons byte bytes ih =>
    intro high
    have hlow := ofBe_lt bytes
    have hpos : 0 < 256 ^ bytes.length := Nat.pow_pos (by omega)
    have hsplit : high * 256 ^ (bytes.length + 1) + ofBe (byte :: bytes) =
        (high * 256 + byte.toNat) * 256 ^ bytes.length + ofBe bytes := by
      rw [ofBe_cons, pow_succ]
      ring
    have hdiv : ((high * 256 + byte.toNat) * 256 ^ bytes.length + ofBe bytes) /
        256 ^ bytes.length = high * 256 + byte.toNat := by
      rw [mul_comm, Nat.mul_add_div hpos, Nat.div_eq_of_lt hlow, add_zero]
    rw [length_cons, hsplit, beBytes, ih, hdiv]
    congr 1
    apply UInt8.toNat_inj.mp
    rw [UInt8.toNat_ofNat']
    have := byte.toNat_lt
    omega

/-- The low `n` bytes of a number, least significant first. -/
def leBytes (n value : ℕ) : Bytes := (beBytes n value).reverse

def ofLe (bytes : Bytes) : ℕ := ofBe bytes.reverse

@[simp] theorem leBytes_length (n value : ℕ) : (leBytes n value).length = n := by
  rw [leBytes, length_reverse, beBytes_length]

theorem ofLe_leBytes {n value : ℕ} (h : value < 256 ^ n) : ofLe (leBytes n value) = value := by
  rw [ofLe, leBytes, reverse_reverse, ofBe_beBytes h]

end ObjectTransfer.Foundations
