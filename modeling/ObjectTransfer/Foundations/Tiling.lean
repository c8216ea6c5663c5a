import ObjectTransfer.Foundations.Spans
import ObjectTransfer.Foundations.Words

/-! # Spans laid end to end

Spans each of which starts where the one before ends meet every position between the first start
and the last end exactly once. That does not depend on the order the spans are listed in.
-/

namespace ObjectTransfer.Foundations
open List

def Span.meets (p : ℕ) (s : Span) : Bool := decide (s.1 ≤ p ∧ p < s.1 + s.2)

/-- Every position of the interval is met once, and no other one is. -/
def Tiles (spans : List Span) (start length : ℕ) : Prop :=
  ∀ p, spans.countP (Span.meets p) = if start ≤ p ∧ p < start + length then 1 else 0

/-- Each span starts where the one before ends. -/
def EndToEnd : ℕ → List Span → Prop
  | _, [] => True
  | start, s :: spans => s.1 = start ∧ EndToEnd (start + s.2) spans

variable {spans : List Span} {start : ℕ}

theorem endToEnd_concat {s : Span} :
    EndToEnd start (spans ++ [s]) ↔
      EndToEnd start spans ∧ s.1 = start + (spans.map Prod.snd).sum := by
  induction spans generalizing start with
  | nil => simp [EndToEnd]
  | cons t spans ih =>
    rw [cons_append, EndToEnd, EndToEnd, ih, map_cons, sum_cons, and_assoc, add_assoc]

theorem Tiles.perm {spans spans' : List Span} {start length : ℕ} (h : Tiles spans start length)
    (hperm : spans'.Perm spans) : Tiles spans' start length := by
  intro p
  rw [hperm.countP_eq, h p]

theorem EndToEnd.tiles (h : EndToEnd start spans) : Tiles spans start (spans.map Prod.snd).sum := by
  induction spans generalizing start with
  | nil =>
    intro p
    simp
  | cons s spans ih =>
    intro p
    obtain ⟨rfl, hrest⟩ := h
    rw [countP_cons, ih hrest p, map_cons, sum_cons]
    simp only [Span.meets, decide_eq_true_eq]
    split_ifs <;> omega

/-- An interval cut into pieces of one size, the last of which may be short. -/
def cutEvery (size start length : ℕ) : List Span :=
  (List.range (divCeil length size)).map fun i => (start + i * size, min size (length - i * size))

section CutEvery

variable {size : ℕ} (hsize : 0 < size) (start length : ℕ)
include hsize

/-- The first pieces lie end to end and cover what comes before the next. -/
theorem endToEnd_range {n : ℕ} (hn : n ≤ divCeil length size) :
    EndToEnd start ((range n).map fun i => (start + i * size, min size (length - i * size))) ∧
      (((range n).map fun i => (start + i * size, min size (length - i * size))).map
        Prod.snd).sum = min (n * size) length := by
  induction n with
  | zero => simp [EndToEnd]
  | succ n ih =>
    obtain ⟨hends, hsum⟩ := ih (by omega)
    have hlt := (lt_divCeil_iff hsize).mp hn
    rw [mul_comm] at hlt
    rw [range_succ, map_append, map_singleton, endToEnd_concat, map_append, sum_append, hsum]
    refine ⟨⟨hends, by rw [min_eq_left hlt.le]⟩, ?_⟩
    simp only [map_singleton, sum_singleton, Nat.succ_mul]
    omega

theorem cutEvery_endToEnd : EndToEnd start (cutEvery size start length) :=
  (endToEnd_range hsize start length le_rfl).1

theorem cutEvery_tiles : Tiles (cutEvery size start length) start length := by
  obtain ⟨hends, hsum⟩ := endToEnd_range hsize start length le_rfl
  rw [mul_comm, min_eq_right (le_mul_divCeil hsize length)] at hsum
  have htiles := hends.tiles
  rwa [hsum] at htiles

theorem cutEvery_pos : ∀ s ∈ cutEvery size start length, 0 < s.2 := by
  intro s hs
  obtain ⟨i, hi, rfl⟩ := mem_map.mp hs
  have hlt := (lt_divCeil_iff hsize).mp (mem_range.mp hi)
  rw [mul_comm] at hlt
  exact lt_min hsize (Nat.sub_pos_of_lt hlt)

end CutEvery

end ObjectTransfer.Foundations
