import ObjectTransfer.Foundations.Chunks

/-! # Buffers of equal cells

A buffer that holds `k` cells of width `n` back to back, described by the function that
gives each cell. Reading one cell is a slice, writing one is a copy into the buffer.
-/

namespace ObjectTransfer.Foundations
open List

/-- `dest[start..stop].copy_from_slice(src)`, where neither the range is out of bounds nor the
lengths differ. -/
def copyInto (dest : Bytes) (start stop : ℕ) (src : Bytes) : Option Bytes :=
  if start ≤ stop ∧ stop ≤ dest.length ∧ src.length = stop - start then
    some (dest.take start ++ src ++ dest.drop stop)
  else none

/-- The cells `f 0`, …, `f (k - 1)` back to back. -/
def cells (k : ℕ) (f : ℕ → Bytes) : Bytes := ((List.range k).map f).flatten

variable {k n : ℕ} {f g : ℕ → Bytes}

theorem cells_congr (h : ∀ j < k, f j = g j) : cells k f = cells k g := by
  rw [cells, cells, map_congr_left fun j hj => h j (mem_range.mp hj)]

theorem cells_length (hf : ∀ j < k, (f j).length = n) : (cells k f).length = k * n := by
  induction k with
  | zero => simp [cells]
  | succ k ih =>
    have hk := ih fun j hj => hf j (by omega)
    unfold cells at hk ⊢
    rw [range_succ, map_append, flatten_append, length_append, hk]
    simp [hf k (by omega), Nat.succ_mul]

variable {i : ℕ}

theorem cells_split (hi : i < k) (f : ℕ → Bytes) :
    cells k f = cells i f ++ f i ++ cells (k - (i + 1)) fun j => f (i + 1 + j) := by
  obtain ⟨r, rfl⟩ := Nat.exists_eq_add_of_lt hi
  rw [show i + r + 1 = i + 1 + r from by omega, Nat.add_sub_cancel_left]
  simp [cells, range_add, range_succ, Function.comp_def]

theorem slice?_cells (hf : ∀ j < k, (f j).length = n) (hi : i < k) :
    slice? (cells k f) (i * n) (i * n + n) = some (f i) := by
  have hbefore : (cells i f).length = i * n := cells_length fun j hj => hf j (by omega)
  have hcell := hf i hi
  rw [cells_split hi f, slice?_eq (by omega) (by simp only [length_append]; omega),
    append_assoc, ← hbefore, drop_left, Nat.add_sub_cancel_left, ← hcell, take_left]

theorem copyInto_cells (hf : ∀ j < k, (f j).length = n) (hi : i < k) {cell : Bytes}
    (hcell : cell.length = n) :
    copyInto (cells k f) (i * n) (i * n + n) cell = some (cells k (Function.update f i cell)) := by
  have hbefore : (cells i f).length = i * n := cells_length fun j hj => hf j (by omega)
  have hold := hf i hi
  have hfront : cells i (Function.update f i cell) = cells i f :=
    cells_congr fun j hj => Function.update_of_ne (by omega) _ _
  have hback : (cells (k - (i + 1)) fun j => Function.update f i cell (i + 1 + j)) =
      cells (k - (i + 1)) fun j => f (i + 1 + j) :=
    cells_congr fun j _ => Function.update_of_ne (by omega) _ _
  rw [cells_split hi f, cells_split hi (Function.update f i cell), hfront, hback,
    Function.update_self, copyInto, if_pos (by simp only [length_append]; omega)]
  congr 3
  · rw [append_assoc, ← hbefore, take_left]
  · rw [drop_left' (by simp [hbefore, hold])]

end ObjectTransfer.Foundations
