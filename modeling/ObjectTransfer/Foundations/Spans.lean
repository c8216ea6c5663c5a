import Mathlib.Tactic
import Mathlib.Data.Set.Basic
import Mathlib.Data.List.TakeWhile

/-! # Lists of spans

A span is a start and a length. A list of spans stands for the set of numbers inside them; it is
apart when no span is empty and each ends before the next one starts, so that no two could be
joined into one.
-/

namespace ObjectTransfer.Foundations
open List

abbrev Span := ℕ × ℕ

/-- The numbers inside some span. -/
def spanned (spans : List Span) : Set ℕ := {u | ∃ s ∈ spans, s.1 ≤ u ∧ u < s.1 + s.2}

/-- Spans in order with room between them. -/
structure Apart (spans : List Span) : Prop where
  positive : ∀ s ∈ spans, 0 < s.2
  spaced : spans.Pairwise fun a b => a.1 + a.2 < b.1

section Spans

variable {spans front back : List Span} {s : Span} {u : ℕ}

theorem mem_spanned : u ∈ spanned spans ↔ ∃ s ∈ spans, s.1 ≤ u ∧ u < s.1 + s.2 := Iff.rfl

@[simp] theorem spanned_nil : spanned [] = ∅ := by
  ext u
  simp [mem_spanned]

theorem spanned_append : spanned (front ++ back) = spanned front ∪ spanned back := by
  ext u
  simp only [mem_spanned, Set.mem_union, mem_append]
  constructor
  · rintro ⟨s, hs | hs, hu⟩
    · exact .inl ⟨s, hs, hu⟩
    · exact .inr ⟨s, hs, hu⟩
  · rintro (⟨s, hs, hu⟩ | ⟨s, hs, hu⟩)
    · exact ⟨s, .inl hs, hu⟩
    · exact ⟨s, .inr hs, hu⟩

theorem spanned_singleton : spanned [s] = Set.Ico s.1 (s.1 + s.2) := by
  ext u
  simp [mem_spanned]

theorem spanned_cons : spanned (s :: spans) = Set.Ico s.1 (s.1 + s.2) ∪ spanned spans := by
  rw [← singleton_append, spanned_append, spanned_singleton]

theorem Apart.nil : Apart [] := ⟨by simp, List.Pairwise.nil⟩

theorem Apart.singleton (h : 0 < s.2) : Apart [s] := ⟨by simpa using h, pairwise_singleton _ _⟩

theorem apart_append : Apart (front ++ back) ↔ Apart front ∧ Apart back ∧
    ∀ a ∈ front, ∀ b ∈ back, a.1 + a.2 < b.1 := by
  constructor
  · rintro ⟨hpositive, hspaced⟩
    rw [pairwise_append] at hspaced
    exact ⟨⟨fun s hs => hpositive s (mem_append_left _ hs), hspaced.1⟩,
      ⟨fun s hs => hpositive s (mem_append_right _ hs), hspaced.2.1⟩, hspaced.2.2⟩
  · rintro ⟨hfront, hback, hbetween⟩
    refine ⟨fun s hs => ?_, pairwise_append.mpr ⟨hfront.spaced, hback.spaced, hbetween⟩⟩
    exact (mem_append.mp hs).elim (hfront.positive s) (hback.positive s)

theorem apart_cons : Apart (s :: spans) ↔ 0 < s.2 ∧ Apart spans ∧ ∀ b ∈ spans, s.1 + s.2 < b.1 := by
  rw [← singleton_append, apart_append]
  constructor
  · rintro ⟨hs, hspans, hbetween⟩
    exact ⟨hs.positive s (mem_singleton_self s), hspans, hbetween s (mem_singleton_self s)⟩
  · rintro ⟨hs, hspans, hbetween⟩
    exact ⟨.singleton hs, hspans, by simpa using hbetween⟩

/-- Every span of a list apart, but the last, ends before the last starts. -/
theorem Apart.of_concat (h : Apart (front ++ [s])) :
    Apart front ∧ 0 < s.2 ∧ ∀ a ∈ front, a.1 + a.2 < s.1 := by
  obtain ⟨hfront, hs, hbetween⟩ := apart_append.mp h
  exact ⟨hfront, hs.positive s (mem_singleton_self s), fun a ha =>
    hbetween a ha s (mem_singleton_self s)⟩

/-- A list apart, cut where its starts stop being small. -/
theorem Apart.dropWhile_start (h : Apart spans) {small : ℕ → Bool}
    (hsmall : ∀ a b, a ≤ b → small b → small a) :
    ∀ s ∈ spans.dropWhile fun s => small s.1, small s.1 = false := by
  induction spans with
  | nil => simp
  | cons s spans ih =>
    obtain ⟨-, hspans, hbetween⟩ := apart_cons.mp h
    by_cases hs : small s.1 = true
    · rw [dropWhile_cons, if_pos hs]
      exact ih hspans
    · rw [dropWhile_cons, if_neg hs]
      intro t ht
      rcases mem_cons.mp ht with rfl | ht
      · simpa using hs
      · have hle := hbetween t ht
        by_contra htrue
        exact hs (hsmall s.1 t.1 (by omega) (by simpa using htrue))

/-- Of the spans that start at or before a number only the last can hold it. -/
theorem mem_spanned_concat (h : Apart (front ++ [s])) (hu : s.1 ≤ u) :
    u ∈ spanned (front ++ [s]) ↔ u < s.1 + s.2 := by
  obtain ⟨-, -, hbefore⟩ := h.of_concat
  rw [spanned_append, spanned_singleton, Set.mem_union, Set.mem_Ico]
  constructor
  · rintro (⟨a, ha, -, hlt⟩ | ⟨-, hlt⟩)
    · have := hbefore a ha
      omega
    · exact hlt
  · exact fun hlt => .inr ⟨hu, hlt⟩

theorem not_mem_spanned_of_lt (h : ∀ s ∈ spans, u < s.1) : u ∉ spanned spans := by
  rintro ⟨s, hs, hle, -⟩
  have := h s hs
  omega

/-- What comes first in a list apart is the least number in it and the end of its run. -/
theorem Apart.head_le (h : Apart (s :: spans)) (hu : u ∈ spanned (s :: spans)) : s.1 ≤ u := by
  obtain ⟨-, -, hbetween⟩ := apart_cons.mp h
  obtain ⟨t, ht, hle, -⟩ := hu
  rcases mem_cons.mp ht with rfl | ht
  · exact hle
  · have := hbetween t ht
    omega

theorem Apart.mem_tail (h : Apart (s :: spans)) :
    u ∈ spanned spans ↔ u ∈ spanned (s :: spans) ∧ s.1 + s.2 ≤ u := by
  obtain ⟨-, -, hbetween⟩ := apart_cons.mp h
  rw [spanned_cons, Set.mem_union, Set.mem_Ico]
  constructor
  · rintro ⟨t, ht, hle, hlt⟩
    have := hbetween t ht
    exact ⟨.inr ⟨t, ht, hle, hlt⟩, by omega⟩
  · rintro ⟨hin | hin, hge⟩
    · omega
    · exact hin

theorem Apart.eq_of_spanned (hfront : Apart front) (hback : Apart back)
    (h : spanned front = spanned back) : front = back := by
  have hmem {s : Span} {spans : List Span} (hs : Apart (s :: spans)) : s.1 ∈ spanned (s :: spans) := by
    have := hs.positive s (mem_cons_self ..)
    exact ⟨s, mem_cons_self .., le_rfl, by omega⟩
  have hend {s t : Span} {spans others : List Span} (hs : Apart (s :: spans)) (ht : Apart (t :: others))
      (hspans : spanned (s :: spans) = spanned (t :: others)) (hstart : s.1 = t.1) : t.2 ≤ s.2 := by
    by_contra hlt
    have hin : s.1 + s.2 ∈ spanned spans := by
      rw [hs.mem_tail, hspans]
      exact ⟨⟨t, mem_cons_self .., by omega, by omega⟩, le_rfl⟩
    obtain ⟨r, hr, hle, -⟩ := hin
    have := (apart_cons.mp hs).2.2 r hr
    omega
  induction front generalizing back with
  | nil =>
    cases back with
    | nil => rfl
    | cons t =>
      rw [spanned_nil] at h
      exact absurd (h ▸ hmem hback) (Set.notMem_empty _)
  | cons s spans ih =>
    cases back with
    | nil =>
      rw [spanned_nil] at h
      exact absurd (h ▸ hmem hfront) (Set.notMem_empty _)
    | cons t others =>
      have hstart : s.1 = t.1 :=
        le_antisymm (hfront.head_le (h ▸ hmem hback)) (hback.head_le (h ▸ hmem hfront))
      have hlength : s.2 = t.2 :=
        le_antisymm (hend hback hfront h.symm hstart.symm) (hend hfront hback h hstart)
      have hrest : spanned spans = spanned others := by
        ext u
        rw [hfront.mem_tail, hback.mem_tail, h, hstart, hlength]
      rw [Prod.ext hstart hlength, ih (apart_cons.mp hfront).2.1 (apart_cons.mp hback).2.1 hrest]

end Spans

end ObjectTransfer.Foundations
