import ObjectTransfer.Foundations.Chunks
import ObjectTransfer.Foundations.Splice

/-! # Edits of a list kept in units

A list is cut short or made longer, and a part of it is written over. When the part fills every unit
it touches and the change of length touches no other one, each unit of the result is either a unit of
the part or a unit of the list before, so that what is kept per unit needs no other work.
-/

namespace ObjectTransfer.Foundations
open List

/-- `l` cut short or filled up to `length`, with `part` written at `start`. -/
def edited {α : Type*} (fill : α) (l : List α) (start : ℕ) (part : List α) (length : ℕ) : List α :=
  splice ((l ++ List.replicate (length - l.length) fill).take length) start part

/-- An edit of `count` elements at `start` that leaves every unit it does not fill as it was. -/
structure Settles (unit previous length start count : ℕ) : Prop where
  aligned : start % unit = 0
  inside : start + count ≤ length
  whole : count % unit = 0 ∨ start + count = length
  grown : previous < length → start ≤ previous ∧ start + count = length
  cut : length < previous → length % unit = 0 ∨ start + count = length

section Elements

variable {α : Type*} {fill : α} {l part : List α} {start length : ℕ}

theorem edited_length (fill : α) (l : List α) (h : start + part.length ≤ length) :
    (edited fill l start part length).length = length := by
  have hlen : ((l ++ replicate (length - l.length) fill).take length).length = length := by
    rw [length_take, length_append, length_replicate]
    omega
  rw [edited, splice_length (by rw [hlen]; exact h), hlen]

theorem getElem?_edited (h : start + part.length ≤ length) {i : ℕ} (hi : i < length)
    (hold : ¬ (start ≤ i ∧ i < start + part.length) → i < l.length) :
    (edited fill l start part length)[i]? =
      if start ≤ i ∧ i < start + part.length then part[i - start]? else l[i]? := by
  have hlen : ((l ++ replicate (length - l.length) fill).take length).length = length := by
    rw [length_take, length_append, length_replicate]
    omega
  rw [edited, getElem?_splice (by omega)]
  split_ifs with hin
  · rfl
  · rw [getElem?_take_of_lt hi, getElem?_append_left (hold hin)]

end Elements

namespace Settles

variable {unit previous length start count : ℕ}
variable (h : Settles unit previous length start count)
include h

theorem start_eq : unit * (start / unit) = start := by
  have := Nat.div_add_mod start unit
  have := h.aligned
  omega

theorem start_le : start ≤ previous := by
  have := h.inside
  rcases lt_or_ge previous length with hgrow | hless
  · exact (h.grown hgrow).1
  · omega

/-- A unit the part does not touch is as long as it was. -/
theorem outside (hunit : 0 < unit) {j : ℕ} (hj : unit * j < length)
    (hout : j < start / unit ∨ start / unit + divCeil count unit ≤ j) {i : ℕ}
    (hlow : unit * j ≤ i) (hhigh : i < unit * j + unit) :
    (i < length ↔ i < previous) ∧ ¬ (start ≤ i ∧ i < start + count) := by
  have hstart := h.start_eq
  have hinside := h.inside
  rcases hout with hout | hout
  · have hbelow : unit * j + unit ≤ start := by
      rw [← hstart, ← Nat.mul_succ]
      exact Nat.mul_le_mul_left _ hout
    have := h.start_le
    omega
  · have habove : start + count ≤ unit * j := by
      have hcount := le_mul_divCeil hunit count
      have := Nat.mul_le_mul_left unit hout
      rw [mul_add, hstart] at this
      omega
    have hless : length ≤ previous := by
      by_contra hgrow
      have := (h.grown (Nat.lt_of_not_le hgrow)).2
      omega
    refine ⟨?_, by omega⟩
    rcases lt_or_ge length previous with hcut | hsame
    · have hmod : length % unit = 0 := (h.cut hcut).resolve_right (by omega)
      obtain ⟨m, rfl⟩ := Nat.dvd_of_mod_eq_zero hmod
      have hm : j < m := Nat.lt_of_mul_lt_mul_left hj
      have : unit * j + unit ≤ unit * m := by
        exact Nat.mul_le_mul_left _ hm
      omega
    · rw [Nat.le_antisymm hless hsame]

end Settles

section Units

variable {α δ : Type*} (fill : α) {l part : List α} {unit start length : ℕ} (hunit : 0 < unit)
variable (h : Settles unit l.length length start part.length)
include hunit h

theorem chunkAt_edited {j : ℕ} (hj : unit * j < length) :
    chunkAt unit (edited fill l start part length) j =
      if start / unit ≤ j ∧ j < start / unit + divCeil part.length unit then
        chunkAt unit part (j - start / unit)
      else chunkAt unit l j := by
  have hstart := h.start_eq
  have hinside := h.inside
  have hlen := edited_length fill l h.inside
  refine ext_getElem? fun k => ?_
  by_cases hk : k < unit
  swap
  · rw [getElem?_eq_none, getElem?_eq_none]
    · split_ifs <;> rw [chunkAt_length] <;> omega
    · rw [chunkAt_length]
      omega
  have hsides : ∀ {m : List α} {i : ℕ}, (chunkAt unit m i)[k]? = m[unit * i + k]? := by
    intro m i
    rw [chunkAt, getElem?_take_of_lt hk, getElem?_drop]
  split_ifs with hin
  · rw [hsides, hsides]
    have hindex : unit * j + k - start = unit * (j - start / unit) + k := by
      have := Nat.mul_le_mul_left unit hin.1
      rw [Nat.mul_sub, hstart]
      omega
    have hpart : unit * (j - start / unit) < part.length := by
      rw [← lt_divCeil_iff hunit]
      omega
    have hge : start ≤ unit * j := by
      rw [← hstart]
      exact Nat.mul_le_mul_left unit hin.1
    by_cases hfill : unit * j + k < start + part.length
    · rw [getElem?_edited h.inside (by omega) (fun hno => absurd ⟨by omega, hfill⟩ hno),
        if_pos ⟨by omega, hfill⟩, hindex]
    · -- The part stops inside this unit, which is then the last one.
      have hlast : start + part.length = length := by
        refine h.whole.resolve_left fun hmod => ?_
        obtain ⟨m, hm⟩ := Nat.dvd_of_mod_eq_zero hmod
        rw [hm] at hpart
        have := Nat.mul_le_mul_left unit (Nat.lt_of_mul_lt_mul_left hpart)
        rw [Nat.mul_succ] at this
        omega
      rw [getElem?_eq_none (by omega), getElem?_eq_none (by omega)]
  · have hout : j < start / unit ∨ start / unit + divCeil part.length unit ≤ j := by omega
    obtain ⟨hiff, hno⟩ := h.outside hunit hj hout (Nat.le_add_right (unit * j) k) (by omega)
    rw [hsides, hsides]
    by_cases hold : unit * j + k < l.length
    · rw [getElem?_edited h.inside (hiff.mpr hold) (fun _ => hold), if_neg hno]
    · rw [getElem?_eq_none (by omega), getElem?_eq_none (by omega)]

/-- What is kept per unit is written over where the part was. -/
theorem map_chunkAt_edited (leaf : ℕ → List α → δ) :
    (List.range (divCeil length unit)).map
        (fun j => leaf j (chunkAt unit (edited fill l start part length) j)) =
      splice (((List.range (divCeil l.length unit)).map fun j => leaf j (chunkAt unit l j)).take
          (divCeil length unit)) (start / unit)
        ((List.range (divCeil part.length unit)).map fun k =>
          leaf (start / unit + k) (chunkAt unit part k)) := by
  have hstart := h.start_eq
  have hinside := h.inside
  have hfirst : start / unit ≤ (((range (divCeil l.length unit)).map
      fun j => leaf j (chunkAt unit l j)).take (divCeil length unit)).length := by
    have hle : ∀ {m}, start ≤ m → start / unit ≤ divCeil m unit := fun hm =>
      Nat.div_le_of_le_mul (le_trans hm (le_mul_divCeil hunit _))
    rw [length_take, length_map, length_range]
    exact le_min (hle (by omega)) (hle h.start_le)
  have hstop : start / unit + divCeil part.length unit ≤ divCeil length unit := by
    rw [← divCeil_mul_add hunit, hstart]
    exact divCeil_mono hunit hinside
  refine ext_getElem? fun i => ?_
  rw [getElem?_splice hfirst, length_map, length_range]
  by_cases hi : i < divCeil length unit
  · have hj := (lt_divCeil_iff hunit).mp hi
    rw [getElem?_map, getElem?_range hi, Option.map_some, chunkAt_edited fill hunit h hj]
    split_ifs with hin
    · rw [getElem?_map, getElem?_range (by omega), Option.map_some, Nat.add_sub_cancel' hin.1]
    · obtain ⟨hiff, -⟩ := h.outside hunit hj (by omega) le_rfl (by omega)
      rw [getElem?_take_of_lt hi, getElem?_map,
        getElem?_range ((lt_divCeil_iff hunit).mpr (hiff.mp hj)), Option.map_some]
  · rw [if_neg (by omega), getElem?_eq_none (by simpa using hi), getElem?_eq_none]
    rw [length_take]
    omega

end Units

end ObjectTransfer.Foundations
