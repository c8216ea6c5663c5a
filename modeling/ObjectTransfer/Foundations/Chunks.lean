import ObjectTransfer.Foundations.Words

/-! # Lists cut into chunks

Chunk `i` of width `n` starts at `n * i`. The exact chunks are those of full
width and leave a remainder; the chunks of a list include the short last one.
-/

namespace ObjectTransfer.Foundations
open List

variable {α : Type*}

/-- The elements from `n * i` on, at most `n` of them. -/
def chunkAt (n : ℕ) (l : List α) (i : ℕ) : List α := (l.drop (n * i)).take n

def chunksExact (n : ℕ) (l : List α) : List (List α) :=
  (List.range (l.length / n)).map (chunkAt n l)

/-- What the exact chunks leave over. -/
def remainder (n : ℕ) (l : List α) : List α := l.drop (n * (l.length / n))

def chunks (n : ℕ) (l : List α) : List (List α) :=
  (List.range (divCeil l.length n)).map (chunkAt n l)

variable {l : List α}

theorem chunkAt_length {n i : ℕ} : (chunkAt n l i).length = min n (l.length - n * i) := by
  simp [chunkAt]

/-- Chunk `k` continues where the ones before it stop, and only the last one is short. -/
theorem chunkAt_next {n k : ℕ} (hn : 0 < n) (hk : n * k < l.length) :
    chunkAt n l k ≠ [] ∧ (chunkAt n l k).length ≤ n ∧
      min (n * k) l.length + (chunkAt n l k).length = min (n * (k + 1)) l.length ∧
      ((chunkAt n l k).length < n ↔ l.length < n * (k + 1)) := by
  have hlen : (chunkAt n l k).length = min n (l.length - n * k) := chunkAt_length
  rw [Nat.mul_succ]
  refine ⟨length_pos_iff.mp (by omega), by omega, by omega, by omega⟩

@[simp] theorem chunksExact_length (n : ℕ) (l : List α) :
    (chunksExact n l).length = l.length / n := by
  simp [chunksExact]

@[simp] theorem chunks_length (n : ℕ) (l : List α) :
    (chunks n l).length = divCeil l.length n := by
  simp [chunks]

theorem remainder_length (n : ℕ) (l : List α) : (remainder n l).length = l.length % n := by
  have := Nat.div_add_mod l.length n
  rw [remainder, length_drop]
  omega

variable {n : ℕ}

theorem remainder_length_lt (hn : 0 < n) (l : List α) : (remainder n l).length < n := by
  rw [remainder_length]
  exact Nat.mod_lt _ hn

private theorem mul_succ_le {n i k m : ℕ} (hi : i < k) (h : n * k ≤ m) : n * i + n ≤ m := by
  exact le_trans (Nat.mul_le_mul_left n hi) h

theorem length_of_mem_chunksExact {l c : List α} (h : c ∈ chunksExact n l) : c.length = n := by
  obtain ⟨i, hi, rfl⟩ := mem_map.mp h
  have hle := mul_succ_le (mem_range.mp hi) (Nat.mul_div_le l.length n)
  rw [chunkAt_length]
  omega

theorem flatten_map_chunkAt (n : ℕ) (l : List α) (k : ℕ) :
    ((List.range k).map (chunkAt n l)).flatten = l.take (n * k) := by
  induction k with
  | zero => simp
  | succ k ih =>
    rw [range_succ, map_append, flatten_append, ih, Nat.mul_succ, take_add]
    simp [chunkAt]

theorem chunksExact_flatten (n : ℕ) (l : List α) :
    (chunksExact n l).flatten = l.take (n * (l.length / n)) :=
  flatten_map_chunkAt n l _

theorem chunksExact_append_remainder (n : ℕ) (l : List α) :
    (chunksExact n l).flatten ++ remainder n l = l := by
  rw [chunksExact_flatten, remainder, take_append_drop]

theorem chunks_flatten (hn : 0 < n) (l : List α) : (chunks n l).flatten = l := by
  rw [chunks, flatten_map_chunkAt, take_of_length_le (le_mul_divCeil hn _)]

/-- Chunks of an append whose first part is a whole number of chunks. -/
theorem chunkAt_append_right {a : List α} {k : ℕ} (ha : a.length = n * k)
    (b : List α) (i : ℕ) : chunkAt n (a ++ b) (k + i) = chunkAt n b i := by
  rw [chunkAt, chunkAt, mul_add, ← ha, drop_length_add_append]

theorem chunkAt_append_left {a : List α} {k : ℕ} (ha : n * k ≤ a.length)
    (b : List α) {i : ℕ} (hi : i < k) : chunkAt n (a ++ b) i = chunkAt n a i := by
  have hle := mul_succ_le hi ha
  rw [chunkAt, chunkAt, drop_append_of_le_length (by omega), take_append_of_le_length]
  rw [length_drop]
  omega

section Append

variable {n : ℕ} (a b : List α)

private theorem split_append :
    a ++ b = (chunksExact n a).flatten ++ (remainder n a ++ b) := by
  rw [← append_assoc, chunksExact_append_remainder]

private theorem chunksExact_flatten_length :
    (chunksExact n a).flatten.length = n * (a.length / n) := by
  rw [chunksExact_flatten, length_take]
  exact min_eq_left (Nat.mul_div_le _ _)

variable (hn : 0 < n)
include hn

private theorem length_append_div :
    (a ++ b).length / n = a.length / n + (remainder n a ++ b).length / n := by
  have hdiv := Nat.div_add_mod a.length n
  rw [length_append, length_append, remainder_length]
  conv_lhs => rw [← hdiv, add_assoc, Nat.mul_add_div hn]

/-- Cutting an append is cutting its first part, then what that leaves over with the rest. -/
theorem chunksExact_append :
    chunksExact n (a ++ b) = chunksExact n a ++ chunksExact n (remainder n a ++ b) := by
  rw [chunksExact, length_append_div a b hn, range_add, map_append, map_map]
  congr 1
  · refine map_congr_left fun i hi => ?_
    exact chunkAt_append_left (Nat.mul_div_le _ _) b (mem_range.mp hi)
  · refine map_congr_left fun i _ => ?_
    rw [Function.comp_apply, split_append a b,
      chunkAt_append_right (chunksExact_flatten_length a)]

theorem remainder_append : remainder n (a ++ b) = remainder n (remainder n a ++ b) := by
  rw [remainder, length_append_div a b hn, mul_add, split_append a b,
    ← chunksExact_flatten_length a, drop_length_add_append]
  rfl

end Append

section Cons

variable {n : ℕ} (hn : 0 < n) {l : List α} (h : n ≤ l.length)
include hn h

private theorem div_eq_succ : l.length / n = (l.drop n).length / n + 1 := by
  rw [length_drop, ← Nat.add_div_right _ hn, Nat.sub_add_cancel h]

theorem chunksExact_cons : chunksExact n l = l.take n :: chunksExact n (l.drop n) := by
  rw [chunksExact, div_eq_succ hn h, range_succ_eq_map, map_cons, map_map, chunksExact]
  congr 1
  refine map_congr_left fun i _ => ?_
  simp [chunkAt, drop_drop, mul_add, add_comm]

theorem remainder_drop : remainder n (l.drop n) = remainder n l := by
  rw [remainder, remainder, drop_drop, div_eq_succ hn h, Nat.mul_succ, add_comm]

end Cons

theorem chunksExact_of_lt (h : l.length < n) : chunksExact n l = [] := by
  simp [chunksExact, Nat.div_eq_of_lt h]

theorem remainder_of_lt (h : l.length < n) : remainder n l = l := by
  simp [remainder, Nat.div_eq_of_lt h]

theorem chunks_zipIdx_all {p : List α × ℕ → Bool} :
    (chunks n l).zipIdx.all p = true ↔ ∀ k < divCeil l.length n, p (chunkAt n l k, k) = true := by
  simp only [all_eq_true, Prod.forall, mk_mem_zipIdx_iff_getElem?, chunks,
    getElem?_map, Option.map_eq_some_iff, List.getElem?_eq_some_iff, length_range]
  constructor
  · intro h k hk
    exact h _ k ⟨k, ⟨hk, getElem_range _⟩, rfl⟩
  · rintro h chunk k ⟨i, ⟨hk, rfl⟩, rfl⟩
    rw [getElem_range]
    exact h k hk

theorem chunks_of_le (hne : l ≠ []) (h : l.length ≤ n) : chunks n l = [l] := by
  rw [chunks, divCeil_eq_one (length_pos_iff.mpr hne) h]
  simp [chunkAt, take_of_length_le h]

/-- What each chunk in turn keeps holds after the last one. -/
theorem foldlM_chunks {β ε : Type*} (next : β → List α → Except ε β) (start : β) {P : ℕ → β → Prop}
    (hn : 0 < n) (hstart : P 0 start) (hnext : ∀ k state, n * k < l.length → P k state →
      ∃ state', next state (chunkAt n l k) = .ok state' ∧ P (k + 1) state') :
    ∃ state, (chunks n l).foldlM next start = .ok state ∧ P (divCeil l.length n) state := by
  suffices h : ∀ k ≤ divCeil l.length n, ∃ state,
      ((List.range k).map (chunkAt n l)).foldlM next start = .ok state ∧ P k state from h _ le_rfl
  intro k hk
  induction k with
  | zero => exact ⟨start, rfl, hstart⟩
  | succ k ih =>
    obtain ⟨before, hbefore, hheld⟩ := ih (by omega)
    obtain ⟨state, hstate, hheld⟩ := hnext k before ((lt_divCeil_iff hn).mp hk) hheld
    refine ⟨state, ?_, hheld⟩
    rw [range_succ, map_append, foldlM_append, hbefore, map_singleton]
    change (next before (chunkAt n l k) >>= pure) = _
    rw [hstate]
    rfl

theorem chunks_eq (hn : 0 < n) (l : List α) :
    chunks n l = chunksExact n l ++ if remainder n l = [] then [] else [remainder n l] := by
  have hrem : remainder n l = [] ↔ l.length % n = 0 := by
    rw [← length_eq_zero_iff, remainder_length]
  by_cases h : l.length % n = 0
  · simp [hrem.mpr h, chunks, chunksExact, divCeil, h]
  · have hlast : chunkAt n l (l.length / n) = remainder n l := by
      rw [chunkAt, remainder, take_of_length_le]
      exact (remainder_length_lt hn l).le
    simp [mt hrem.mp h, chunks, chunksExact, divCeil, Nat.pos_of_ne_zero h, range_succ, hlast]

end ObjectTransfer.Foundations
