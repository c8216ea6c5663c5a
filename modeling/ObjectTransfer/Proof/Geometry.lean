import ObjectTransfer.Foundations.Chunks
import ObjectTransfer.ProofStore.Storage

/-! # The covered range of a proof

A range request is widened to whole units of the object; a presented cover must
start on a unit and end on one or at the object's end. Both proof suites use the
same rules with a unit of 64 KiB.
-/

namespace ObjectTransfer.Proof
open Foundations ProofStore List

inductive Error where
  | emptyRange
  | outOfBounds
  | lengthOverflow
  | malformedProof
  | hashMismatch
  | storage (error : StoreError)
  deriving DecidableEq, Repr

structure RangeProof where
  coveredOffset : ℕ
  data : Bytes
  proof : Bytes
  deriving DecidableEq, Repr

structure RangeGeometry where
  coveredOffset : ℕ
  coveredEnd : ℕ
  first : ℕ
  stop : ℕ
  deriving DecidableEq, Repr

/-- The units a request touches. -/
def RangeGeometry.of (unit objectLen offset length : ℕ) : Except (Abort Error) RangeGeometry := do
  rejectIf (length = 0) (.error .emptyRange)
  let requestEnd ← okOr (checkedAdd offset length) (.error .lengthOverflow)
  rejectIf (requestEnd > objectLen) (.error .outOfBounds)
  let coveredOffset := offset / unit * unit
  let padded ← okOr (checkedMul (divCeil requestEnd unit) unit) (.error .lengthOverflow)
  let coveredEnd := min padded objectLen
  return { coveredOffset, coveredEnd, first := coveredOffset / unit, stop := divCeil coveredEnd unit }

/-- The units a presented cover claims, where it is aligned and inside the object. -/
def checkCover (unit objectLen coveredOffset dataLen : ℕ) : Except (Abort Error) (ℕ × ℕ) := do
  rejectIf (coveredOffset % unit ≠ 0 ∨ dataLen = 0) (.error .outOfBounds)
  let coveredEnd ← okOr (checkedAdd coveredOffset dataLen) (.error .lengthOverflow)
  rejectIf (coveredEnd > objectLen ∨ coveredEnd < objectLen ∧ coveredEnd % unit ≠ 0)
    (.error .outOfBounds)
  return (coveredOffset / unit, divCeil coveredEnd unit)

theorem add_unit_le {length : ℕ} (h : length ≤ isizeMax) : length + 65536 ≤ u64Max := by
  unfold isizeMax at h
  unfold u64Max
  omega

theorem unitCount_le {length : ℕ} (h : length ≤ isizeMax) : divCeil length 65536 ≤ 2 ^ 48 := by
  by_contra hcon
  rw [not_le, lt_divCeil_iff (by omega)] at hcon
  unfold isizeMax at h
  omega

/-- A range of whole units, or one that ends with the object. -/
structure Cover (unit objectLen offset length : ℕ) : Prop where
  aligned : offset % unit = 0
  nonempty : 0 < length
  inside : offset + length ≤ objectLen
  closed : offset + length = objectLen ∨ (offset + length) % unit = 0

variable {unit objectLen offset length : ℕ}

theorem checkCover_eq_ok (hobj : objectLen ≤ u64Max) (units : ℕ × ℕ) :
    checkCover unit objectLen offset length = .ok units ↔
      Cover unit objectLen offset length ∧
        units = (offset / unit, divCeil (offset + length) unit) := by
  simp only [checkCover, bind_eq_ok, rejectIf_eq_ok, okOr_eq_ok, checkedAdd_eq_some, pure_eq_ok]
  constructor
  · rintro ⟨-, halign, _, ⟨-, rfl⟩, -, hin, rfl⟩
    refine ⟨⟨by omega, by omega, by omega, by omega⟩, rfl⟩
  · rintro ⟨hc, rfl⟩
    have := hc.aligned
    have := hc.nonempty
    have := hc.inside
    have := hc.closed
    exact ⟨(), by omega, _, ⟨by omega, rfl⟩, (), by omega, rfl⟩

namespace Cover

theorem offset_eq (cover : Cover unit objectLen offset length) :
    offset = unit * (offset / unit) :=
  (Nat.mul_div_cancel' (Nat.dvd_of_mod_eq_zero cover.aligned)).symm

theorem mul_sub (cover : Cover unit objectLen offset length) (i : ℕ) :
    unit * (i - offset / unit) = unit * i - offset := by
  rw [Nat.mul_sub, ← cover.offset_eq]

/-- The rule for a presented segment, which looks at the segment's own length. -/
theorem iff_segment : Cover unit objectLen offset length ↔ 0 < length ∧ offset % unit = 0 ∧
    offset + length ≤ objectLen ∧ (offset + length = objectLen ∨ length % unit = 0) := by
  have hmod (haligned : offset % unit = 0) : (offset + length) % unit = length % unit := by
    rw [Nat.add_mod, haligned, zero_add, Nat.mod_mod]
  constructor
  · rintro ⟨haligned, hpos, hin, hclosed⟩
    exact ⟨hpos, haligned, hin, hmod haligned ▸ hclosed⟩
  · rintro ⟨hpos, haligned, hin, hclosed⟩
    exact ⟨haligned, hpos, hin, (hmod haligned).symm ▸ hclosed⟩

theorem whole (hone : objectLen ≤ unit) (cover : Cover unit objectLen offset length) :
    offset = 0 ∧ length = objectLen := by
  have halign := cover.aligned
  have hpos := cover.nonempty
  have hin := cover.inside
  have hoff : offset = 0 := by
    by_contra hne
    have := Nat.le_of_dvd (Nat.pos_of_ne_zero hne) (Nat.dvd_of_mod_eq_zero halign)
    omega
  subst hoff
  refine ⟨rfl, ?_⟩
  rcases cover.closed with hend | hmod
  · omega
  · have := Nat.le_of_dvd (by omega) (Nat.dvd_of_mod_eq_zero hmod)
    omega

variable (hunit : 0 < unit) (cover : Cover unit objectLen offset length)
include hunit cover

theorem min_eq : min (unit * divCeil (offset + length) unit) objectLen = offset + length := by
  have hle := le_mul_divCeil hunit (offset + length)
  have hin := cover.inside
  rcases cover.closed with h | h
  · omega
  · rw [divCeil_of_dvd h, Nat.mul_div_cancel' (Nat.dvd_of_mod_eq_zero h)]
    omega

/-- The units of a cover are those of the object that meet it. -/
theorem units_lt : offset / unit < divCeil (offset + length) unit := by
  have hle := le_mul_divCeil hunit (offset + length)
  have hpos := cover.nonempty
  have hoff := cover.offset_eq
  by_contra hcon
  have := Nat.mul_le_mul_left unit (not_lt.mp hcon)
  omega

theorem unitCount_eq : divCeil length unit = divCeil (offset + length) unit - offset / unit := by
  have hoff := cover.offset_eq
  have hadd := divCeil_mul_add hunit (offset / unit) length
  rw [← hoff] at hadd
  omega

theorem stop_le : divCeil (offset + length) unit ≤ divCeil objectLen unit := by
  have hlt := mul_divCeil_lt hunit (offset + length)
  have hle := le_mul_divCeil hunit objectLen
  have hin := cover.inside
  by_contra hcon
  have := Nat.mul_le_mul_left unit (not_le.mp hcon)
  rw [Nat.mul_succ] at this
  omega

end Cover

variable {i : ℕ}

/-- A unit that meets a cover is inside it, up to the end of the object. -/
theorem Cover.unit_end (hunit : 0 < unit) (cover : Cover unit objectLen offset length)
    (h1 : offset / unit ≤ i) (h2 : i < divCeil (offset + length) unit) : offset ≤ unit * i ∧
      min unit (offset + length - unit * i) = min unit (objectLen - unit * i) := by
  have hge := Nat.mul_le_mul_left unit h1
  rw [← cover.offset_eq] at hge
  rw [lt_divCeil_iff hunit] at h2
  refine ⟨hge, ?_⟩
  rcases cover.closed with hend | hmod
  · rw [hend]
  · obtain ⟨k, hk⟩ := Nat.dvd_of_mod_eq_zero hmod
    have hik : unit * (i + 1) ≤ unit * k :=
      Nat.mul_le_mul_left _ (Nat.lt_of_mul_lt_mul_left (hk ▸ h2))
    have hin := cover.inside
    rw [Nat.mul_succ] at hik
    omega

variable {D : Bytes}

theorem Cover.of_unit (hunit : 0 < unit) (hi : i < divCeil D.length unit) :
    Cover unit D.length (unit * i) (chunkAt unit D i).length := by
  rw [lt_divCeil_iff hunit] at hi
  rw [chunkAt_length]
  refine ⟨Nat.mul_mod_right _ _, by omega, by omega, ?_⟩
  rcases Nat.le_total unit (D.length - unit * i) with h | h
  · rw [min_eq_left h, ← Nat.mul_succ]
    exact .inr (Nat.mul_mod_right _ _)
  · rw [min_eq_right h]
    exact .inl (by omega)

/-- A segment at a unit whose only leaf is the unit's is the unit, unless another one hashes alike. -/
theorem Cover.leaf_iff {β : Type*} (hash : ℕ → Bytes → β) (hunit : 0 < unit)
    (hi : i < divCeil D.length unit) {bytes : Bytes}
    (hinj : hash (unit * i) bytes = hash (unit * i) (chunkAt unit D i) → bytes = chunkAt unit D i) :
    Cover unit D.length (unit * i) bytes.length ∧ (List.range (divCeil bytes.length unit)).map (fun k =>
      hash (unit * i + unit * k) (chunkAt unit bytes k)) = [hash (unit * i) (chunkAt unit D i)] ↔
      bytes = chunkAt unit D i := by
  have hone (hcount : divCeil bytes.length unit = 1) : (List.range (divCeil bytes.length unit)).map
      (fun k => hash (unit * i + unit * k) (chunkAt unit bytes k)) = [hash (unit * i) bytes] := by
    have hle := le_mul_divCeil hunit bytes.length
    rw [hcount, mul_one] at hle
    simp [hcount, chunkAt, List.take_of_length_le hle]
  constructor
  · rintro ⟨-, hleaves⟩
    rw [hone (by simpa using congrArg List.length hleaves), List.cons.injEq] at hleaves
    exact hinj hleaves.1
  · rintro rfl
    have cover := Cover.of_unit hunit hi
    exact ⟨cover, hone (divCeil_eq_one cover.nonempty (chunkAt_length.trans_le (min_le_left _ _)))⟩

namespace Cover

section Bytes

theorem whole_slice {D data : Bytes} (hone : D.length ≤ unit)
    (cover : Cover unit D.length offset data.length)
    (hslice : slice? D offset (offset + data.length) = some data) : offset = 0 ∧ D = data := by
  obtain ⟨rfl, hall⟩ := cover.whole hone
  obtain ⟨-, -, hdata⟩ := slice?_eq_some.mp hslice
  refine ⟨rfl, ?_⟩
  rw [← hdata]
  simp [hall]

variable {D data : Bytes} (hunit : 0 < unit) (cover : Cover unit D.length offset data.length)
include hunit cover

theorem unit_length (h1 : offset / unit ≤ i) (h2 : i < divCeil (offset + data.length) unit) :
    (chunkAt unit data (i - offset / unit)).length = (chunkAt unit D i).length := by
  obtain ⟨hge, hend⟩ := cover.unit_end hunit h1 h2
  rw [chunkAt_length, chunkAt_length, cover.mul_sub]
  omega

theorem slice_of_units (h : ∀ i, offset / unit ≤ i →
      i < divCeil (offset + data.length) unit →
      chunkAt unit data (i - offset / unit) = chunkAt unit D i) :
    slice? D offset (offset + data.length) = some data := by
  have hoff := cover.offset_eq
  have hin := cover.inside
  have hle := le_mul_divCeil hunit (offset + data.length)
  have hmap : (range (divCeil (offset + data.length) unit - offset / unit)).map
      (chunkAt unit data) =
      (range (divCeil (offset + data.length) unit - offset / unit)).map
        (chunkAt unit (D.drop offset)) := by
    refine map_congr_left fun j hj => ?_
    have := h (offset / unit + j) (by omega) (by rw [mem_range] at hj; omega)
    rw [Nat.add_sub_cancel_left] at this
    rw [this, chunkAt, chunkAt, drop_drop, mul_add, ← hoff]
  have hflat := congrArg flatten hmap
  rw [flatten_map_chunkAt, flatten_map_chunkAt, Nat.mul_sub, ← hoff,
    take_of_length_le (by omega)] at hflat
  rw [slice?_eq (by omega) hin, Nat.add_sub_cancel_left]
  conv_rhs => rw [hflat]
  have hlen := congrArg length hflat
  rw [length_take, length_drop] at hlen
  rw [Option.some.injEq, take_eq_take_iff, length_drop]
  omega

theorem units_of_slice (h : slice? D offset (offset + data.length) = some data)
    (h1 : offset / unit ≤ i) (h2 : i < divCeil (offset + data.length) unit) :
    chunkAt unit data (i - offset / unit) = chunkAt unit D i := by
  obtain ⟨hge, hend⟩ := cover.unit_end hunit h1 h2
  obtain ⟨-, -, hdata⟩ := slice?_eq_some.mp h
  rw [chunkAt, chunkAt, cover.mul_sub]
  conv_lhs => rw [← hdata]
  rw [drop_take, drop_drop, take_take, show offset + (unit * i - offset) =
    unit * i by omega, take_eq_take_iff, length_drop]
  omega

end Bytes

end Cover

/-- Presented bytes are a covered slice of the object exactly when each of their units is the
object's. -/
theorem Cover.iff_units {D data : Bytes} (hunit : 0 < unit) (hne : data ≠ []) {first : ℕ} :
    (∀ k < divCeil data.length unit, first + k < divCeil D.length unit ∧
        chunkAt unit data k = chunkAt unit D (first + k)) ↔
      Cover unit D.length (unit * first) data.length ∧
        slice? D (unit * first) (unit * first + data.length) = some data := by
  have hpos := length_pos_iff.mpr hne
  have hfirst : unit * first / unit = first := Nat.mul_div_cancel_left _ hunit
  have hstop := divCeil_mul_add hunit first data.length
  constructor
  · intro h
    have hcount : 0 < divCeil data.length unit := (lt_divCeil_iff hunit).mpr (by simpa using hpos)
    obtain ⟨last, hlast⟩ : ∃ last, divCeil data.length unit = last + 1 :=
      ⟨_, (Nat.succ_pred_eq_of_pos hcount).symm⟩
    obtain ⟨hin, hunits⟩ := h last (by omega)
    have habove := le_mul_divCeil hunit data.length
    rw [hlast, Nat.mul_succ] at habove
    rw [lt_divCeil_iff hunit] at hin
    -- The last unit of the data is as long as the object's there.
    have hlength := congrArg length hunits
    rw [chunkAt_length, chunkAt_length] at hlength
    rw [mul_add] at hin hlength
    have cover : Cover unit D.length (unit * first) data.length := by
      refine ⟨Nat.mul_mod_right _ _, hpos, by omega, ?_⟩
      rcases Nat.le_total unit (D.length - (unit * first + unit * last)) with hfull | hshort
      · refine .inr ?_
        rw [show unit * first + data.length = unit * (first + last + 1) by
          rw [Nat.mul_succ, mul_add]; omega]
        exact Nat.mul_mod_right _ _
      · exact .inl (by omega)
    refine ⟨cover, cover.slice_of_units hunit fun i h1 h2 => ?_⟩
    rw [hfirst] at h1 ⊢
    have := (h (i - first) (by omega)).2
    rwa [Nat.add_sub_cancel' h1] at this
  · rintro ⟨cover, hslice⟩ k hk
    have hwithin := cover.stop_le hunit
    have hunits := cover.units_of_slice hunit hslice (i := first + k) (by omega) (by omega)
    rw [hfirst, Nat.add_sub_cancel_left] at hunits
    exact ⟨by omega, hunits⟩

namespace RangeGeometry

theorem of_ok {geometry : RangeGeometry}
    (h : RangeGeometry.of unit objectLen offset length = .ok geometry) :
    0 < length ∧ offset + length ≤ objectLen := by
  simp only [RangeGeometry.of, bind_eq_ok, rejectIf_eq_ok, okOr_eq_ok, checkedAdd_eq_some] at h
  obtain ⟨-, hpos, _, ⟨-, rfl⟩, -, hin, -⟩ := h
  omega

theorem of_empty (unit offset length : ℕ) :
    ∃ error, RangeGeometry.of unit 0 offset length = .error error := by
  cases h : RangeGeometry.of unit 0 offset length with
  | error e => exact ⟨e, rfl⟩
  | ok =>
    have := of_ok h
    omega

variable (hunit : 0 < unit) (hfit : objectLen + unit ≤ u64Max)
include hunit hfit

theorem of_eq (hpos : 0 < length) (hin : offset + length ≤ objectLen) :
    RangeGeometry.of unit objectLen offset length = .ok
      { coveredOffset := unit * (offset / unit)
        coveredEnd := min (unit * divCeil (offset + length) unit) objectLen
        first := offset / unit
        stop := divCeil (min (unit * divCeil (offset + length) unit) objectLen) unit } := by
  have hlt := mul_divCeil_lt hunit (offset + length)
  have hmul : checkedMul (divCeil (offset + length) unit) unit =
      some (unit * divCeil (offset + length) unit) := by
    rw [checkedMul, mul_comm, if_pos (by omega)]
  simp only [RangeGeometry.of, rejectIf_neg (show ¬ length = 0 by omega),
    checkedAdd_of_le (show offset + length ≤ u64Max by omega),
    rejectIf_neg (show ¬ offset + length > objectLen by omega), hmul, ok_bind, okOr_some,
    mul_comm (offset / unit), Nat.mul_div_cancel_left _ hunit]
  rfl

theorem of_eq_of_cover (cover : Cover unit objectLen offset length) :
    RangeGeometry.of unit objectLen offset length = .ok
      { coveredOffset := offset, coveredEnd := offset + length, first := offset / unit,
        stop := divCeil (offset + length) unit } := by
  rw [of_eq hunit hfit cover.nonempty cover.inside, cover.min_eq hunit, ← cover.offset_eq]

omit hfit in
/-- Asking for a range is asking for the cover it is widened to. -/
theorem of_widen (hfit : D.length + unit ≤ u64Max) (hpos : 0 < length)
    (hin : offset + length ≤ D.length) :
    ∃ (offset' : ℕ) (data : Bytes), Cover unit D.length offset' data.length ∧
      slice? D offset' (offset' + data.length) = some data ∧
      RangeGeometry.of unit D.length offset length =
        RangeGeometry.of unit D.length offset' data.length := by
  have hle := le_mul_divCeil hunit (offset + length)
  have hlow := Nat.mul_div_le offset unit
  obtain ⟨data, hslice⟩ : ∃ data, slice? D (unit * (offset / unit))
      (min (unit * divCeil (offset + length) unit) D.length) = some data :=
    ⟨_, slice?_eq (by omega) (Nat.min_le_right _ _)⟩
  have hend : unit * (offset / unit) + data.length =
      min (unit * divCeil (offset + length) unit) D.length := by
    rw [slice?_length hslice]
    omega
  have cover : Cover unit D.length (unit * (offset / unit)) data.length := by
    refine ⟨by simp, by omega, by omega, ?_⟩
    rw [hend]
    rcases Nat.le_total (unit * divCeil (offset + length) unit) D.length with h | h
    · exact .inr (by rw [min_eq_left h, Nat.mul_mod_right])
    · exact .inl (min_eq_right h)
  refine ⟨_, data, cover, by rw [hend, hslice], ?_⟩
  rw [of_eq_of_cover hunit hfit cover, of_eq hunit hfit hpos hin, hend,
    Nat.mul_div_cancel_left _ hunit]

end RangeGeometry

/-- A prover that sees a request by its geometry alone, and answers a cover with the object's bytes
in it and the proof bytes for its units. -/
structure Proves (unit : ℕ) (D : Bytes) (prove : ℕ → ℕ → Except (Abort Error) RangeProof)
    (proof : ℕ → ℕ → Bytes) : Prop where
  unit_pos : 0 < unit
  fits : D.length + unit ≤ u64Max
  reads : ∃ rest, ∀ offset length,
    prove offset length = RangeGeometry.of unit D.length offset length >>= rest
  covers : ∀ offset (data : Bytes), Cover unit D.length offset data.length →
    slice? D offset (offset + data.length) = some data → prove offset data.length =
      .ok ⟨offset, data, proof (offset / unit) (divCeil (offset + data.length) unit)⟩

/-- A request inside the object is answered by the cover it is widened to. -/
theorem Proves.widens {prove : ℕ → ℕ → Except (Abort Error) RangeProof} {proof : ℕ → ℕ → Bytes}
    (h : Proves unit D prove proof) (hpos : 0 < length) (hin : offset + length ≤ D.length) :
    ∃ (offset' : ℕ) (data : Bytes), Cover unit D.length offset' data.length ∧
      slice? D offset' (offset' + data.length) = some data ∧
      RangeGeometry.of unit D.length offset length =
        RangeGeometry.of unit D.length offset' data.length ∧
      prove offset length =
        .ok ⟨offset', data, proof (offset' / unit) (divCeil (offset' + data.length) unit)⟩ := by
  obtain ⟨offset', data, cover, hslice, hof⟩ := RangeGeometry.of_widen h.unit_pos h.fits hpos hin
  obtain ⟨rest, hreads⟩ := h.reads
  refine ⟨offset', data, cover, hslice, hof, ?_⟩
  rw [hreads, hof, ← hreads, h.covers offset' data cover hslice]

end ObjectTransfer.Proof
