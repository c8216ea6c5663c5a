import Mathlib.Tactic

/-! # Replacing a part of a list -/

namespace ObjectTransfer.Foundations
open List

variable {α : Type*}

/-- Write `part` over the elements from `start` on. -/
def splice (l : List α) (start : ℕ) (part : List α) : List α :=
  l.take start ++ part ++ l.drop (start + part.length)

@[simp] theorem splice_nil (l : List α) (start : ℕ) : splice l start [] = l := by
  simp [splice]

@[simp] theorem nil_splice (start : ℕ) (part : List α) : splice [] start part = part := by
  simp [splice]

variable {l part : List α} {start : ℕ}

theorem splice_length (h : start + part.length ≤ l.length) :
    (splice l start part).length = l.length := by
  simp only [splice, length_append, length_take, length_drop]
  omega

theorem splice_append (a b : List α) (start : ℕ) (part : List α) :
    splice (a ++ b) start part =
      splice a start (part.take (min (a.length - start) part.length)) ++
        splice b (start - a.length) (part.drop (min (a.length - start) part.length)) := by
  rcases Nat.le_total start a.length with hs | hs
  · rcases Nat.le_total part.length (a.length - start) with hp | hp
    · rw [min_eq_right hp, take_length, drop_length, splice_nil, splice, splice,
        take_append_of_le_length hs, drop_append_of_le_length (by omega),
        append_assoc, append_assoc, append_assoc]
    · have hlen : (part.take (a.length - start)).length = a.length - start := by
        rw [length_take, min_eq_left hp]
      rw [min_eq_left hp, splice, splice, splice, hlen, Nat.sub_eq_zero_of_le hs, take_zero,
        take_append_of_le_length hs, Nat.add_sub_cancel' hs, drop_length,
        append_nil, nil_append, length_drop, drop_append,
        drop_of_length_le (by omega), nil_append,
        show start + part.length - a.length = 0 + (part.length - (a.length - start)) by omega]
      simp only [append_assoc]
      rw [← append_assoc (part.take _) (part.drop _), take_append_drop]
  · rw [Nat.sub_eq_zero_of_le hs, Nat.zero_min, take_zero, drop_zero, splice_nil, splice,
      splice, take_append, take_of_length_le hs, drop_append,
      drop_of_length_le (by omega), nil_append,
      show start + part.length - a.length = start - a.length + part.length by omega]
    simp only [append_assoc]

theorem getElem?_splice (h : start ≤ l.length) (i : ℕ) :
    (splice l start part)[i]? =
      if start ≤ i ∧ i < start + part.length then part[i - start]? else l[i]? := by
  have htake : (l.take start).length = start := by
    rw [length_take]
    omega
  rw [splice, append_assoc]
  split_ifs with hi
  · rw [getElem?_append_right (by omega), htake, getElem?_append_left (by omega)]
  · by_cases hlt : i < start
    · rw [getElem?_append_left (by omega), getElem?_take_of_lt hlt]
    · rw [getElem?_append_right (by omega), htake, getElem?_append_right (by omega), getElem?_drop]
      congr 1
      omega

end ObjectTransfer.Foundations
