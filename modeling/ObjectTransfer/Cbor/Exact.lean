import ObjectTransfer.Cbor.Reader

/-! # One form for every item

Each reader is exact for the writer of the same item: it reads back what was written, and it accepts
nothing else.
-/

namespace ObjectTransfer.Cbor
open Foundations List Parser

section Heads

/-- The low five bits of the first byte. -/
def additional (value : ℕ) : ℕ :=
  if value ≤ 23 then value
  else if value ≤ 0xff then 24
  else if value ≤ 0xffff then 25
  else if value ≤ 0xffff_ffff then 26
  else 27

/-- The bytes of a head after its first one. -/
def argumentBytes (value : ℕ) : Bytes :=
  if value ≤ 23 then []
  else if value ≤ 0xff then beBytes 1 value
  else if value ≤ 0xffff then beBytes 2 value
  else if value ≤ 0xffff_ffff then beBytes 4 value
  else beBytes 8 value

theorem head_eq (major value : ℕ) :
    head major value = UInt8.ofNat (major * 32 + additional value) :: argumentBytes value := by
  unfold head additional argumentBytes
  split_ifs <;> rfl

theorem additional_lt (value : ℕ) : additional value < 32 := by
  unfold additional
  split_ifs <;> omega

/-- The wide arguments: the low bits, the width and the least value of each. -/
def wideRows : List (ℕ × ℕ × ℕ) :=
  [(24, 1, 24), (25, 2, 0x100), (26, 4, 0x1_0000), (27, 8, 0x1_0000_0000)]

theorem wideRow_bytes {low width floor value : ℕ} (hrow : (low, width, floor) ∈ wideRows)
    (hfloor : floor ≤ value) (hlt : value < 256 ^ width) :
    value ≤ u64Max ∧ additional value = low ∧ argumentBytes value = beBytes width value := by
  simp only [wideRows, mem_cons, not_mem_nil, or_false, Prod.mk.injEq] at hrow
  unfold additional argumentBytes u64Max
  rcases hrow with ⟨rfl, rfl, rfl⟩ | ⟨rfl, rfl, rfl⟩ | ⟨rfl, rfl, rfl⟩ | ⟨rfl, rfl, rfl⟩ <;>
    refine ⟨by omega, ?_, ?_⟩ <;> split_ifs <;> first | rfl | omega

theorem exists_wideRow {value : ℕ} (hwide : 23 < value) (hmax : value ≤ u64Max) :
    ∃ low width floor, (low, width, floor) ∈ wideRows ∧ floor ≤ value ∧ value < 256 ^ width := by
  unfold u64Max at hmax
  by_cases h1 : value ≤ 0xff
  · exact ⟨24, 1, 24, by simp [wideRows], by omega, by omega⟩
  by_cases h2 : value ≤ 0xffff
  · exact ⟨25, 2, 0x100, by simp [wideRows], by omega, by omega⟩
  by_cases h4 : value ≤ 0xffff_ffff
  · exact ⟨26, 4, 0x1_0000, by simp [wideRows], by omega, by omega⟩
  · exact ⟨27, 8, 0x1_0000_0000, by simp [wideRows], by omega, by omega⟩

theorem head_length (major value : ℕ) : (head major value).length = headLen value := by
  unfold head headLen
  split_ifs <;> simp

theorem int_length (value : Int64) : (int value).length = intLen value := by
  unfold int intLen
  split_ifs <;> apply head_length

theorem int_ofNat {n : ℕ} (h : n < 2 ^ 63) : int (.ofNat n) = head Major.unsigned n := by
  have hvalue : (Int64.ofNat n).toInt = n := Int64.toInt_ofNat_of_lt h
  rw [int, if_neg (by simp [Int64.lt_iff_toInt_lt, hvalue]), hvalue, Int.natAbs_natCast]

theorem int_ofInt {n : ℕ} (h : n < 2 ^ 63) : int (.ofInt (-1 - n)) = head Major.negative n := by
  have hvalue : (Int64.ofInt (-1 - n)).toInt = -1 - n :=
    Int64.toInt_ofInt_of_le (by omega) (by omega)
  rw [int, if_pos (by rw [Int64.lt_iff_toInt_lt, hvalue, Int64.toInt_zero]; omega), hvalue]
  congr 1
  omega

/-- A 64-bit integer is a natural number or what lies that far below minus one. -/
theorem int64_cases (value : Int64) :
    ∃ n < 2 ^ 63, value = .ofNat n ∨ value = .ofInt (-1 - (n : ℕ)) := by
  have hlt := value.toInt_lt
  have hle := value.le_toInt
  simp only [← Int64.toInt_inj]
  by_cases h : 0 ≤ value.toInt
  · refine ⟨value.toInt.toNat, by omega, .inl ?_⟩
    rw [Int64.toInt_ofNat_of_lt (by omega), Int.toNat_of_nonneg h]
  · refine ⟨(-1 - value.toInt).toNat, by omega, .inr ?_⟩
    rw [Int64.toInt_ofInt_of_le (by omega) (by omega)]
    omega

end Heads

namespace Reader

variable {input rest : Bytes}

theorem byte_eq_ok {value : UInt8} : byte input = .ok (value, rest) ↔ input = value :: rest := by
  simp only [byte, take, Parser.bind_eq_ok, take_eq_ok, lift_eq_ok, okOr_eq_ok]
  constructor
  · rintro ⟨bytes, _, ⟨hone, rfl⟩, hhead, rfl⟩
    obtain ⟨first, rfl⟩ := length_eq_one_iff.mp hone
    obtain rfl := Option.some.inj hhead
    rfl
  · rintro rfl
    exact ⟨[value], rest, ⟨rfl, rfl⟩, rfl, rfl⟩

theorem fixed_eq_ok {width value : ℕ} : fixed width input = .ok (value, rest) ↔
    value < 256 ^ width ∧ input = beBytes width value ++ rest := by
  simp only [fixed, take, Parser.bind_eq_ok, take_eq_ok, Parser.pure_eq_ok, Prod.mk.injEq]
  constructor
  · rintro ⟨bytes, _, ⟨rfl, rfl⟩, rfl, rfl⟩
    exact ⟨ofBe_lt bytes, by rw [beBytes_ofBe]⟩
  · rintro ⟨hlt, rfl⟩
    exact ⟨_, rest, ⟨beBytes_length _ _, rfl⟩, ofBe_beBytes hlt, rfl⟩

theorem argument_narrow {low : ℕ} (h : low ≤ 23) : argument low = pure (low, 0) := if_pos h

theorem argument_wide {low width floor : ℕ} (hrow : (low, width, floor) ∈ wideRows) :
    argument low = do return (← fixed width, floor) := by
  simp only [wideRows, mem_cons, not_mem_nil, or_false, Prod.mk.injEq] at hrow
  rcases hrow with ⟨rfl, rfl, rfl⟩ | ⟨rfl, rfl, rfl⟩ | ⟨rfl, rfl, rfl⟩ | ⟨rfl, rfl, rfl⟩ <;> rfl

theorem argument_eq_ok {low value : ℕ} :
    (∃ floor, argument low input = .ok ((value, floor), rest) ∧ floor ≤ value) ↔
      value ≤ u64Max ∧ low = additional value ∧ input = argumentBytes value ++ rest := by
  have hnarrow (h : value ≤ 23) : additional value = value ∧ argumentBytes value = [] :=
    ⟨if_pos h, if_pos h⟩
  constructor
  · rintro ⟨floor, h, hfloor⟩
    by_cases hlow : low ≤ 23
    · rw [argument_narrow hlow, Parser.pure_eq_ok] at h
      obtain ⟨⟨rfl, rfl⟩, rfl⟩ := by simpa only [Prod.mk.injEq] using h
      rw [(hnarrow hlow).1, (hnarrow hlow).2]
      exact ⟨hlow.trans (by decide), rfl, rfl⟩
    · by_cases hhigh : low ≤ 27
      · obtain ⟨width, floor', hrow⟩ : ∃ width floor, (low, width, floor) ∈ wideRows := by
          obtain rfl | rfl | rfl | rfl : low = 24 ∨ low = 25 ∨ low = 26 ∨ low = 27 := by omega
          all_goals simp [wideRows]
        simp only [argument_wide hrow, Parser.bind_eq_ok, fixed_eq_ok, Parser.pure_eq_ok,
          Prod.mk.injEq] at h
        obtain ⟨value', _, ⟨hlt, rfl⟩, ⟨rfl, rfl⟩, rfl⟩ := h
        obtain ⟨hmax, hadditional, hbytes⟩ := wideRow_bytes hrow hfloor hlt
        exact ⟨hmax, hadditional.symm, by rw [hbytes]⟩
      · rw [argument, if_neg hlow, if_neg (by omega), if_neg (by omega), if_neg (by omega),
          if_neg (by omega), lift_eq_ok] at h
        cases h.1
  · rintro ⟨hmax, rfl, rfl⟩
    by_cases h : value ≤ 23
    · refine ⟨0, ?_, Nat.zero_le _⟩
      rw [(hnarrow h).1, (hnarrow h).2, argument_narrow h]
      rfl
    · obtain ⟨low, width, floor, hrow, hfloor, hlt⟩ := exists_wideRow (Nat.lt_of_not_le h) hmax
      obtain ⟨-, hadditional, hbytes⟩ := wideRow_bytes hrow hfloor hlt
      refine ⟨floor, ?_, hfloor⟩
      rw [hadditional, hbytes, argument_wide hrow]
      simp only [Parser.bind_eq_ok, fixed_eq_ok, Parser.pure_eq_ok]
      exact ⟨value, rest, ⟨hlt, rfl⟩, rfl⟩

theorem low_bits (byte : UInt8) : (byte &&& 0x1f).toNat = byte.toNat % 32 := by
  exact Nat.and_two_pow_sub_one_eq_mod byte.toNat 5

theorem high_bits (byte : UInt8) : (byte >>> 5).toNat = byte.toNat / 32 := by
  exact Nat.shiftRight_eq_div_pow _ _

theorem head_eq_ok {major : ℕ} {value : UInt64} : head input = .ok ((major, value), rest) ↔
    major < 8 ∧ input = Cbor.head major value.toNat ++ rest := by
  simp only [head, Parser.bind_eq_ok, byte_eq_ok, lift_eq_ok, rejectIf_eq_ok,
    Parser.pure_eq_ok, Prod.mk.injEq, not_lt, low_bits, high_bits, head_eq]
  constructor
  · rintro ⟨first, _, rfl, ⟨wide, floor⟩, _, hargument, -, _, ⟨hfloor, rfl⟩, ⟨rfl, rfl⟩, rfl⟩
    obtain ⟨hmax, hlow, rfl⟩ := argument_eq_ok.mp ⟨floor, hargument, hfloor⟩
    have hvalue : (UInt64.ofNat wide).toNat = wide := by
      apply UInt64.toNat_ofNat_of_lt'
      unfold u64Max at hmax
      change wide < 2 ^ 64
      omega
    have hfirst := first.toNat_lt
    refine ⟨by omega, ?_⟩
    rw [hvalue, ← hlow, Nat.div_add_mod', UInt8.ofNat_toNat, cons_append]
  · rintro ⟨hmajor, rfl⟩
    have hlow := additional_lt value.toNat
    have hfirst : (UInt8.ofNat (major * 32 + additional value.toNat)).toNat =
        major * 32 + additional value.toNat := by
      apply UInt8.toNat_ofNat_of_lt'
      change _ < 256
      omega
    have hmax : value.toNat ≤ u64Max := Nat.le_pred_of_lt value.toNat_lt
    obtain ⟨floor, hargument, hfloor⟩ : ∃ floor, argument (additional value.toNat)
        (argumentBytes value.toNat ++ rest) = .ok ((value.toNat, floor), rest) ∧ floor ≤ value.toNat :=
      argument_eq_ok.mpr ⟨hmax, rfl, rfl⟩
    refine ⟨_, _, rfl, (value.toNat, floor), rest, ?_, (), rest, ⟨hfloor, rfl⟩, ⟨?_, ?_⟩, rfl⟩
    · rwa [hfirst, Nat.mul_add_mod', Nat.mod_eq_of_lt hlow]
    · omega
    · exact UInt64.ofNat_toNat

theorem toInt_eq_ok {major : ℕ} {argument : UInt64} {value : Int64} :
    toInt major argument = .ok value ↔ argument.toNat < 2 ^ 63 ∧
      (major = Major.unsigned ∧ value = .ofNat argument.toNat ∨
        major = Major.negative ∧ value = .ofInt (-1 - argument.toNat)) := by
  have hsmall : argument.toNat < 2 ^ 63 ↔ ¬ argument.toNat > 2 ^ 63 - 1 := by omega
  have hne : Major.negative ≠ Major.unsigned := by decide
  unfold toInt
  split_ifs
  · simp only [Foundations.bind_eq_ok, rejectIf_eq_ok, Foundations.pure_eq_ok]
    grind
  · simp only [Foundations.bind_eq_ok, rejectIf_eq_ok, Foundations.pure_eq_ok]
    grind
  · grind

theorem int_eq_ok {value : Int64} :
    int input = .ok (value, rest) ↔ input = Cbor.int value ++ rest := by
  simp only [int, Parser.bind_eq_ok, lift_eq_ok, toInt_eq_ok]
  constructor
  · rintro ⟨_, _, hhead, ⟨hsmall, ⟨hmajor, rfl⟩ | ⟨hmajor, rfl⟩⟩, rfl⟩
    · rw [int_ofNat hsmall, ← hmajor, (head_eq_ok.mp hhead).2]
    · rw [int_ofInt hsmall, ← hmajor, (head_eq_ok.mp hhead).2]
  · rintro rfl
    obtain ⟨n, hn, hvalue⟩ := int64_cases value
    obtain ⟨argument, rfl⟩ : ∃ argument : UInt64, argument.toNat = n :=
      ⟨.ofNat n, UInt64.toNat_ofNat_of_lt' (hn.trans (by decide))⟩
    rcases hvalue with rfl | rfl
    · rw [int_ofNat hn]
      exact ⟨_, rest, head_eq_ok.mpr ⟨by decide, rfl⟩, ⟨hn, .inl ⟨rfl, rfl⟩⟩, rfl⟩
    · rw [int_ofInt hn]
      exact ⟨_, rest, head_eq_ok.mpr ⟨by decide, rfl⟩, ⟨hn, .inr ⟨rfl, rfl⟩⟩, rfl⟩

/-! ## Items -/

section Items
variable {maximum expected : ℕ}

theorem typedHead_eq_ok {value : UInt64} : typedHead expected input = .ok (value, rest) ↔
    expected < 8 ∧ input = Cbor.head expected value.toNat ++ rest := by
  simp only [typedHead, Parser.bind_eq_ok, lift_eq_ok, rejectIf_eq_ok, not_not,
    Parser.pure_eq_ok, Prod.mk.injEq]
  constructor
  · rintro ⟨⟨major, value⟩, _, hhead, _, _, ⟨rfl, rfl⟩, rfl, rfl⟩
    exact head_eq_ok.mp hhead
  · intro h
    exact ⟨(expected, value), rest, head_eq_ok.mpr h, (), rest, ⟨rfl, rfl⟩, rfl, rfl⟩

theorem uint_exact : Parser.Exact uint (fun _ => True) fun value => Cbor.uint value.toNat := by
  intro input value rest
  rw [uint, typedHead_eq_ok]
  exact and_congr_left fun _ => ⟨fun _ => trivial, fun _ => by decide⟩

theorem typedHead_checked (hmajor : expected < 8) {value : ℕ} (hmax : value ≤ u64Max) :
    (∃ head : UInt64, typedHead expected input = .ok (head, rest) ∧ head.toNat = value) ↔
      input = Cbor.head expected value ++ rest := by
  constructor
  · rintro ⟨head, hhead, rfl⟩
    exact (typedHead_eq_ok.mp hhead).2
  · rintro rfl
    have htoNat : (UInt64.ofNat value).toNat = value :=
      UInt64.toNat_ofNat_of_lt' (Nat.lt_succ_of_le hmax)
    refine ⟨.ofNat value, typedHead_eq_ok.mpr ⟨hmajor, ?_⟩, htoNat⟩
    rw [htoNat]

theorem key_exact (hmax : expected ≤ u64Max) :
    Parser.Exact (key expected) (fun _ => True) fun _ => Cbor.uint expected := by
  intro input _ rest
  rw [true_and, Cbor.uint, ← typedHead_checked (by decide) hmax]
  simp only [key, uint, Parser.bind_eq_ok, lift_eq_ok, rejectIf_eq_ok, not_not]
  constructor
  · rintro ⟨head, _, hhead, hvalue, rfl⟩
    exact ⟨head, hhead, hvalue⟩
  · rintro ⟨head, hhead, hvalue⟩
    exact ⟨head, rest, hhead, hvalue, rfl⟩

theorem map_exact (hmax : expected ≤ u64Max) :
    Parser.Exact (map expected) (fun _ => True) fun _ => Cbor.map expected := by
  intro input _ rest
  rw [true_and, Cbor.map, ← typedHead_checked (by decide) hmax]
  simp only [map, Parser.bind_eq_ok, lift_eq_ok, rejectIf_eq_ok, not_not]
  constructor
  · rintro ⟨head, _, hhead, hvalue, rfl⟩
    exact ⟨head, hhead, hvalue⟩
  · rintro ⟨head, hhead, hvalue⟩
    exact ⟨head, rest, hhead, hvalue, rfl⟩

theorem length_exact (hmajor : expected < 8) (hmax : maximum ≤ u64Max) :
    Parser.Exact (length expected maximum) (· ≤ maximum) (Cbor.head expected) := by
  intro input value rest
  simp only [length, Parser.bind_eq_ok, lift_eq_ok, rejectIf_eq_ok, Parser.pure_eq_ok,
    Prod.mk.injEq, not_lt]
  constructor
  · rintro ⟨head, _, hhead, _, _, ⟨hle, rfl⟩, rfl, rfl⟩
    exact ⟨hle, (typedHead_eq_ok.mp hhead).2⟩
  · rintro ⟨hle, hinput⟩
    obtain ⟨head, hhead, rfl⟩ := (typedHead_checked hmajor (hle.trans hmax)).mpr hinput
    exact ⟨head, rest, hhead, (), rest, ⟨hle, rfl⟩, rfl, rfl⟩

theorem arrayLen_exact (hmax : maximum ≤ u64Max) :
    Parser.Exact (arrayLen maximum) (· ≤ maximum) Cbor.array := length_exact (by decide) hmax

theorem bytes_exact (hmax : maximum ≤ u64Max) :
    Parser.Exact (bytes maximum) (fun value => value.length ≤ maximum) Cbor.bytes := by
  intro input value rest
  simp only [bytes, take, Parser.bind_eq_ok, take_eq_ok,
    length_exact (by decide : Major.bytes < 8) hmax _ _ _]
  constructor
  · rintro ⟨_, _, ⟨hle, rfl⟩, rfl, rfl⟩
    exact ⟨hle, by rw [Cbor.bytes, append_assoc]⟩
  · rintro ⟨hle, rfl⟩
    exact ⟨value.length, value ++ rest, ⟨hle, by rw [Cbor.bytes, append_assoc]⟩, rfl, rfl⟩

theorem fixedBytes_exact {n : ℕ} (hmax : n ≤ u64Max) :
    Parser.Exact (fixedBytes n) (fun _ => True) fun value => Cbor.bytes value.toList := by
  intro input value rest
  simp only [fixedBytes, take, Parser.bind_eq_ok, take_eq_ok, lift_eq_ok,
    rejectIf_eq_ok, not_not, Parser.pure_eq_ok, Prod.mk.injEq, true_and,
    length_exact (by decide : Major.bytes < 8) hmax _ _ _]
  constructor
  · rintro ⟨_, _, ⟨-, rfl⟩, _, _, ⟨rfl, rfl⟩, bytes, _, ⟨rfl, rfl⟩, rfl, rfl⟩
    rw [Cbor.bytes, Block.toList_ofBytes rfl, append_assoc]
  · rintro rfl
    refine ⟨n, value.toList ++ rest, ⟨le_rfl, ?_⟩, (), _, ⟨rfl, rfl⟩, value.toList, rest,
      ⟨value.toList_length, rfl⟩, Block.ofBytes_toList value, rfl⟩
    rw [Cbor.bytes, value.toList_length, append_assoc]

theorem fromUTF8?_eq_some {bytes : Bytes} {value : String} :
    String.fromUTF8? ⟨bytes.toArray⟩ = some value ↔ utf8 value = bytes := by
  rw [String.fromUTF8?, Option.dite_none_right_eq_some]
  constructor
  · rintro ⟨hvalid, hvalue⟩
    rw [← Option.some.inj hvalue]
    rfl
  · rintro rfl
    exact ⟨value.isValidUTF8, rfl⟩

theorem text_exact (hmax : maximum ≤ u64Max) :
    Parser.Exact (text maximum) (fun value => (utf8 value).length ≤ maximum) Cbor.text := by
  intro input value rest
  simp only [text, take, Parser.bind_eq_ok, take_eq_ok, lift_eq_ok, okOr_eq_ok,
    fromUTF8?_eq_some, length_exact (by decide : Major.text < 8) hmax _ _ _]
  constructor
  · rintro ⟨_, _, ⟨hle, rfl⟩, _, _, ⟨rfl, rfl⟩, rfl, rfl⟩
    exact ⟨hle, by rw [Cbor.text, append_assoc]⟩
  · rintro ⟨hle, rfl⟩
    exact ⟨_, utf8 value ++ rest, ⟨hle, by rw [Cbor.text, append_assoc]⟩, _, rest, ⟨rfl, rfl⟩,
      rfl, rfl⟩

end Items

end Reader

/-- Heads and integers have one form each, which the readers take off any input that starts with
it and off no other. -/
theorem heads_and_ints_exact :
    (∀ major (value : UInt64), (head major value.toNat).length = headLen value.toNat) ∧
    (∀ input major (value : UInt64) rest, Reader.head input = .ok ((major, value), rest) ↔
      major < 8 ∧ input = head major value.toNat ++ rest) ∧
    (∀ value, (int value).length = intLen value) ∧
    ∀ input value rest, Reader.int input = .ok (value, rest) ↔ input = int value ++ rest := by
  refine ⟨fun major value => head_length major value.toNat, ?_, int_length, ?_⟩
  · intro input major value rest
    exact Reader.head_eq_ok
  · intro input value rest
    exact Reader.int_eq_ok

end ObjectTransfer.Cbor
