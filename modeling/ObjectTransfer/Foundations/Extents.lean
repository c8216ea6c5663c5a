import ObjectTransfer.Foundations.OrderedMap

/-! # Disjoint extents

A set of natural numbers kept as an ordered map from the start of each extent to its
exclusive end. When the extents are disjoint, the nearest entry on each side of a position
decides whether a range lies in the set or meets it; when they are not even adjacent, a range
beside them is added by merging it with the one that ends and the one that starts at its
bounds.
-/

namespace ObjectTransfer.Foundations
open OrderedMap

/-- The numbers in some range `[start, end)`. -/
def cover (ranges : List (ℕ × ℕ)) : Finset ℕ :=
  ranges.toFinset.biUnion fun p => Finset.Ico p.1 p.2

@[simp] theorem mem_cover {ranges : List (ℕ × ℕ)} {x : ℕ} :
    x ∈ cover ranges ↔ ∃ p ∈ ranges, p.1 ≤ x ∧ x < p.2 := by
  simp only [cover, Finset.mem_biUnion, List.mem_toFinset, Finset.mem_Ico]

theorem cover_cons (p : ℕ × ℕ) (l : List (ℕ × ℕ)) :
    cover (p :: l) = Finset.Ico p.1 p.2 ∪ cover l := by
  ext x
  simp

variable {p : ℕ × ℕ}

theorem Ico_subset_cover {l : List (ℕ × ℕ)} (h : p ∈ l) : Finset.Ico p.1 p.2 ⊆ cover l :=
  fun _ hx => mem_cover.mpr ⟨p, h, Finset.mem_Ico.mp hx⟩

theorem cover_mono {l l' : List (ℕ × ℕ)} (h : l ⊆ l') : cover l ⊆ cover l' := by
  intro x hx
  obtain ⟨p, hp, hpx⟩ := mem_cover.mp hx
  exact mem_cover.mpr ⟨p, h hp, hpx⟩

theorem cover_subset_range {l : List (ℕ × ℕ)} {n : ℕ} (h : ∀ p ∈ l, p.2 ≤ n) :
    cover l ⊆ Finset.range n := by
  intro x hx
  obtain ⟨p, hp, -, hlt⟩ := mem_cover.mp hx
  exact Finset.mem_range.mpr (hlt.trans_le (h p hp))

/-- Non-empty extents, each at least `gap` after the one before it. -/
structure Spaced (gap : ℕ) (m : OrderedMap ℕ ℕ) : Prop where
  nonempty : ∀ p ∈ m.entries, p.1 < p.2
  apart : ∀ p ∈ m.entries, ∀ q ∈ m.entries, p.1 < q.1 → p.2 + gap ≤ q.1

namespace Spaced

variable {gap : ℕ} {m : OrderedMap ℕ ℕ} (h : Spaced gap m)

theorem empty (gap : ℕ) : Spaced gap .empty := ⟨by simp [OrderedMap.empty], by simp [OrderedMap.empty]⟩

include h

theorem eq_of_mem {q : ℕ × ℕ} (hp : p ∈ m.entries) (hq : q ∈ m.entries) {x : ℕ}
    (hpx : p.1 ≤ x ∧ x < p.2) (hqx : q.1 ≤ x ∧ x < q.2) : p = q := by
  rcases lt_trichotomy p.1 q.1 with hlt | heq | hgt
  · have := h.apart p hp q hq hlt
    omega
  · exact eq_of_fst_eq hp hq heq
  · have := h.apart q hq p hp hgt
    omega

variable {o : ℕ}

/-- The last of the extents that start low enough is the one that holds a position. -/
theorem getLast?_holds {c : ℕ × ℕ → Bool} (hc : ∀ p, c p = true → p.1 ≤ o) :
    (∃ q, (m.entries.filter c).getLast? = some q ∧ o < q.2) ↔
      ∃ p ∈ m.entries, c p = true ∧ o < p.2 := by
  constructor
  · rintro ⟨q, hq, hlt⟩
    obtain ⟨hmem, hcq, -⟩ := OrderedMap.getLast?_filter hq
    exact ⟨q, hmem, hcq, hlt⟩
  · rintro ⟨p, hp, hcp, hlt⟩
    cases hq : (m.entries.filter c).getLast? with
    | none =>
      rw [List.getLast?_eq_none_iff, List.filter_eq_nil_iff] at hq
      exact absurd hcp (hq p hp)
    | some q =>
      obtain ⟨hmem, hcq, hmax⟩ := OrderedMap.getLast?_filter hq
      refine ⟨q, rfl, ?_⟩
      rcases (hmax p hp hcp).lt_or_eq with hpq | hpq
      · have := h.apart p hp q hmem hpq
        have := hc q hcq
        omega
      · rwa [← eq_of_fst_eq hp hmem hpq]

theorem floor?_holds :
    (∃ q, m.floor? o = some q ∧ o < q.2) ↔ ∃ p ∈ m.entries, p.1 ≤ o ∧ o < p.2 := by
  have hlast := h.getLast?_holds (o := o) (c := fun p => decide (p.1 ≤ o)) (by simp)
  simp only [decide_eq_true_eq] at hlast
  exact hlast

variable {e : ℕ}

/-- The last extent that starts at or before a range is the one that contains it. -/
theorem floor?_contains (hoe : o < e) :
    (∃ q, m.floor? o = some q ∧ e ≤ q.2) ↔ ∃ p ∈ m.entries, p.1 ≤ o ∧ e ≤ p.2 := by
  constructor
  · rintro ⟨q, hq, hle⟩
    obtain ⟨hmem, hqo, -⟩ := OrderedMap.floor?_eq_some hq
    exact ⟨q, hmem, hqo, hle⟩
  · rintro ⟨p, hp, hpo, hle⟩
    obtain ⟨q, hq, hlt⟩ := h.floor?_holds.mpr ⟨p, hp, hpo, by omega⟩
    obtain ⟨hmem, hqo, -⟩ := OrderedMap.floor?_eq_some hq
    obtain rfl := h.eq_of_mem hp hmem ⟨hpo, by omega⟩ ⟨hqo, hlt⟩
    exact ⟨p, hq, hle⟩

theorem below?_holds :
    (∃ q, m.below? o = some q ∧ o < q.2) ↔ ∃ p ∈ m.entries, p.1 < o ∧ o < p.2 := by
  have hlast := h.getLast?_holds (o := o) (c := fun p => decide (p.1 < o)) (by simp; omega)
  simp only [decide_eq_true_eq] at hlast
  exact hlast

omit h in
theorem ceil?_before :
    (∃ q, m.ceil? o = some q ∧ q.1 < e) ↔ ∃ p ∈ m.entries, o ≤ p.1 ∧ p.1 < e := by
  constructor
  · rintro ⟨q, hq, hlt⟩
    obtain ⟨hmem, hle, -⟩ := OrderedMap.ceil?_eq_some hq
    exact ⟨q, hmem, hle, hlt⟩
  · rintro ⟨p, hp, hle, hlt⟩
    cases hq : m.ceil? o with
    | none =>
      have := OrderedMap.ceil?_eq_none hq p hp
      omega
    | some q =>
      obtain ⟨-, -, hmin⟩ := OrderedMap.ceil?_eq_some hq
      exact ⟨q, rfl, lt_of_le_of_lt (hmin p hp hle) hlt⟩

/-- A range that meets the set starts inside an extent or reaches the start of one. -/
theorem meets_iff (hoe : o < e) : ¬ Disjoint (Finset.Ico o e) (cover m.entries) ↔
    (∃ p ∈ m.entries, p.1 ≤ o ∧ o < p.2) ∨ ∃ p ∈ m.entries, o ≤ p.1 ∧ p.1 < e := by
  rw [Finset.not_disjoint_iff]
  constructor
  · rintro ⟨x, hx, hcover⟩
    obtain ⟨p, hp, hpx⟩ := mem_cover.mp hcover
    rw [Finset.mem_Ico] at hx
    rcases Nat.le_total p.1 o with hle | hle
    · exact .inl ⟨p, hp, hle, by omega⟩
    · exact .inr ⟨p, hp, hle, by omega⟩
  · rintro (⟨p, hp, hle, hlt⟩ | ⟨p, hp, hle, hlt⟩)
    · exact ⟨o, Finset.mem_Ico.mpr ⟨le_rfl, hoe⟩, mem_cover.mpr ⟨p, hp, hle, hlt⟩⟩
    · exact ⟨p.1, Finset.mem_Ico.mpr ⟨hle, hlt⟩, mem_cover.mpr ⟨p, hp, le_rfl, h.nonempty p hp⟩⟩

theorem beside (hoe : o < e) (hdisjoint : Disjoint (Finset.Ico o e) (cover m.entries))
    (hp : p ∈ m.entries) : p.2 ≤ o ∨ e ≤ p.1 := by
  by_contra hcon
  refine absurd hdisjoint ((h.meets_iff hoe).mpr ?_)
  rcases Nat.le_total p.1 o with hle | hle
  · exact .inl ⟨p, hp, hle, by omega⟩
  · exact .inr ⟨p, hp, hle, by omega⟩

end Spaced

variable {m : OrderedMap ℕ ℕ} {o e : ℕ}

/-- A range contained in separated extents lies in one of them. -/
theorem Spaced.subset_iff (h : Spaced 1 m) (hoe : o < e) :
    Finset.Ico o e ⊆ cover m.entries ↔ ∃ p ∈ m.entries, p.1 ≤ o ∧ e ≤ p.2 := by
  constructor
  · intro hsub
    obtain ⟨p, hp, hle, hlt⟩ := mem_cover.mp (hsub (Finset.mem_Ico.mpr ⟨le_rfl, hoe⟩))
    refine ⟨p, hp, hle, ?_⟩
    by_contra hcon
    obtain ⟨q, hq, hqle, hqlt⟩ :=
      mem_cover.mp (hsub (Finset.mem_Ico.mpr (show o ≤ p.2 ∧ p.2 < e by omega)))
    rcases lt_trichotomy p.1 q.1 with hpq | hpq | hpq
    · have := h.apart p hp q hq hpq
      omega
    · obtain rfl := eq_of_fst_eq hp hq hpq
      omega
    · have := h.apart q hq p hp hpq
      omega
  · rintro ⟨p, hp, hle, hge⟩ x hx
    rw [Finset.mem_Ico] at hx
    exact mem_cover.mpr ⟨p, hp, by omega, by omega⟩

theorem Spaced.insert {gap : ℕ} (h : Spaced gap m) (hoe : o < e)
    (hbeside : ∀ p ∈ m.entries, p.2 + gap ≤ o ∨ e + gap ≤ p.1) :
    Spaced gap (m.insert o e) ∧
      ∀ p, p ∈ (m.insert o e).entries ↔ p = (o, e) ∨ p ∈ m.entries := by
  have hmem : ∀ p, p ∈ (m.insert o e).entries ↔ p = (o, e) ∨ p ∈ m.entries := by
    intro p
    rw [mem_insert]
    refine or_congr_right (and_iff_left_of_imp fun hp heq => ?_)
    have := hbeside p hp
    have := h.nonempty p hp
    omega
  refine ⟨⟨fun p hp => ?_, fun p hp q hq hpq => ?_⟩, hmem⟩
  · rcases (hmem p).mp hp with rfl | hp
    · exact hoe
    · exact h.nonempty p hp
  · rcases (hmem p).mp hp with rfl | hp <;> rcases (hmem q).mp hq with rfl | hq
    · exact absurd hpq (lt_irrefl _)
    · have := hbeside q hq
      have := h.nonempty q hq
      omega
    · have := hbeside p hp
      omega
    · exact h.apart p hp q hq hpq

theorem Spaced.erase {gap : ℕ} (h : Spaced gap m) (hp : p ∈ m.entries) :
    Spaced gap (m.erase p.1) ∧
      Disjoint (Finset.Ico p.1 p.2) (cover (m.erase p.1).entries) ∧
      ∀ q, q ∈ (m.erase p.1).entries ↔ q ∈ m.entries ∧ q ≠ p := by
  have hmem : ∀ q, q ∈ (m.erase p.1).entries ↔ q ∈ m.entries ∧ q ≠ p := by
    intro q
    rw [mem_erase]
    refine and_congr_right fun hq => not_congr ⟨eq_of_fst_eq hq hp, ?_⟩
    rintro rfl
    rfl
  refine ⟨⟨fun q hq => h.nonempty q ((hmem q).mp hq).1, fun q hq r hr =>
    h.apart q ((hmem q).mp hq).1 r ((hmem r).mp hr).1⟩, ?_, hmem⟩
  rw [Finset.disjoint_left]
  intro x hx hcover
  obtain ⟨q, hq, hqx⟩ := mem_cover.mp hcover
  obtain ⟨hq, hne⟩ := (hmem q).mp hq
  exact hne (h.eq_of_mem hq hp hqx (Finset.mem_Ico.mp hx))

section Coalesce

/-- Add `[o, e)`, merging it with the extent that ends at `o` and the one that starts at `e`. -/
def coalesce (m : OrderedMap ℕ ℕ) (o e : ℕ) : OrderedMap ℕ ℕ :=
  let front := match m.below? o with
    | some p => if p.2 = o then (p.1, m.erase p.1) else (o, m)
    | none => (o, m)
  match front.2.get? e with
  | some stop => (front.2.erase e).insert front.1 stop
  | none => front.2.insert front.1 e

variable {m : OrderedMap ℕ ℕ} {o e : ℕ}

/-- What `coalesce` makes of a range beside the extents: one extent in the place of those
it touches. -/
structure Coalesced (m m' : OrderedMap ℕ ℕ) (o e start stop : ℕ) : Prop where
  entries : ∀ p, p ∈ m'.entries ↔ p = (start, stop) ∨ p ∈ m.entries ∧ p.2 ≠ o ∧ p.1 ≠ e
  front : start = o ∧ (∀ p ∈ m.entries, p.2 ≠ o) ∨ (start, o) ∈ m.entries
  back : stop = e ∧ (∀ p ∈ m.entries, p.1 ≠ e) ∨ (e, stop) ∈ m.entries

theorem take_front (h : Spaced 1 m) : ∃ start m₁,
    (match m.below? o with
      | some p => if p.2 = o then (p.1, m.erase p.1) else (o, m)
      | none => (o, m)) = (start, m₁) ∧
    (∀ p, p ∈ m₁.entries ↔ p ∈ m.entries ∧ p.2 ≠ o) ∧
    (start = o ∧ (∀ p ∈ m.entries, p.2 ≠ o) ∨ (start, o) ∈ m.entries) := by
  cases hbelow : m.below? o with
  | none =>
    have hends : ∀ p ∈ m.entries, p.2 ≠ o := by
      intro p hp
      have := OrderedMap.below?_eq_none hbelow p hp
      have := h.nonempty p hp
      omega
    exact ⟨o, m, rfl, fun p => ⟨fun hp => ⟨hp, hends p hp⟩, And.left⟩, .inl ⟨rfl, hends⟩⟩
  | some q =>
    obtain ⟨hq, hlt, hmax⟩ := OrderedMap.below?_eq_some hbelow
    have hends : ∀ p ∈ m.entries, p.2 = o → p = q := by
      intro p hp hpo
      have hne := h.nonempty p hp
      rcases (hmax p hp (by omega)).lt_or_eq with hpq | hpq
      · have := h.apart p hp q hq hpq
        omega
      · exact eq_of_fst_eq hp hq hpq
    by_cases hqo : q.2 = o
    · refine ⟨q.1, m.erase q.1, by simp [hqo], fun p => ?_, .inr (hqo ▸ hq)⟩
      rw [mem_erase]
      refine and_congr_right fun hp => not_congr ⟨fun hpq => ?_, fun hpo => ?_⟩
      · rw [eq_of_fst_eq hp hq hpq, hqo]
      · rw [hends p hp hpo]
    · have hnone : ∀ p ∈ m.entries, p.2 ≠ o := fun p hp hpo => hqo (hends p hp hpo ▸ hpo)
      exact ⟨o, m, by simp [hqo], fun p => ⟨fun hp => ⟨hp, hnone p hp⟩, And.left⟩,
        .inl ⟨rfl, hnone⟩⟩

theorem coalesce_spec (h : Spaced 1 m) (hoe : o < e)
    (hdisjoint : Disjoint (Finset.Ico o e) (cover m.entries)) :
    ∃ start stop, Coalesced m (coalesce m o e) o e start stop := by
  obtain ⟨start, m₁, hfront, hm₁, hstart⟩ := take_front (o := o) h
  have hfree : ∀ p ∈ m₁.entries, p.1 ≠ start := by
    intro p hp heq
    obtain ⟨hpm, hpo⟩ := (hm₁ p).mp hp
    rcases hstart with ⟨rfl, -⟩ | hmem
    · have := h.nonempty p hpm
      have := h.beside hoe hdisjoint hpm
      omega
    · exact hpo (congrArg Prod.snd (eq_of_fst_eq hpm hmem heq))
  cases hback : m₁.get? e with
  | none =>
    have hnone : ∀ p ∈ m.entries, p.1 ≠ e := by
      intro p hp hpe
      refine OrderedMap.get?_eq_none.mp hback p ((hm₁ p).mpr ⟨hp, ?_⟩) hpe
      have := h.nonempty p hp
      omega
    refine ⟨start, e, fun p => ?_, hstart, .inl ⟨rfl, hnone⟩⟩
    simp only [coalesce, hfront, hback, mem_insert]
    refine or_congr_right ⟨fun hp => ?_, fun hp => ?_⟩
    · exact ⟨((hm₁ p).mp hp.1).1, ((hm₁ p).mp hp.1).2, hnone p ((hm₁ p).mp hp.1).1⟩
    · have hp₁ := (hm₁ p).mpr ⟨hp.1, hp.2.1⟩
      exact ⟨hp₁, hfree p hp₁⟩
  | some stop =>
    have hstop := ((hm₁ _).mp (OrderedMap.get?_eq_some.mp hback)).1
    refine ⟨start, stop, fun p => ?_, hstart, .inr hstop⟩
    simp only [coalesce, hfront, hback, mem_insert, mem_erase]
    refine or_congr_right ⟨fun hp => ?_, fun hp => ?_⟩
    · exact ⟨((hm₁ p).mp hp.1.1).1, ((hm₁ p).mp hp.1.1).2, hp.1.2⟩
    · have hp₁ := (hm₁ p).mpr ⟨hp.1, hp.2.1⟩
      exact ⟨⟨hp₁, hp.2.2⟩, hfree p hp₁⟩

variable {m' : OrderedMap ℕ ℕ} {start stop : ℕ}

namespace Coalesced

variable (hc : Coalesced m m' o e start stop) (h : Spaced 1 m) (hoe : o < e)
include hc h hoe

theorem bounds : start ≤ o ∧ e ≤ stop := by
  constructor
  · rcases hc.front with ⟨rfl, -⟩ | hmem
    · exact le_rfl
    · exact (h.nonempty _ hmem).le
  · rcases hc.back with ⟨rfl, -⟩ | hmem
    · exact le_rfl
    · exact (h.nonempty _ hmem).le

variable (hdisjoint : Disjoint (Finset.Ico o e) (cover m.entries))
include hdisjoint

/-- An extent that is left lies strictly beside the merged one. -/
theorem apart (hp : p ∈ m.entries) (hpo : p.2 ≠ o) (hpe : p.1 ≠ e) :
    p.2 + 1 ≤ start ∨ stop + 1 ≤ p.1 := by
  have hne := h.nonempty p hp
  rcases h.beside hoe hdisjoint hp with hbefore | hafter
  · left
    rcases hc.front with ⟨rfl, -⟩ | hmem
    · omega
    · rcases lt_trichotomy p.1 start with hlt | heq | hgt
      · exact h.apart p hp _ hmem hlt
      · exact absurd (congrArg Prod.snd (eq_of_fst_eq hp hmem heq)) hpo
      · have := h.apart _ hmem p hp hgt
        omega
  · right
    rcases hc.back with ⟨rfl, -⟩ | hmem
    · omega
    · exact h.apart _ hmem p hp (by simp only; omega)

theorem spaced : Spaced 1 m' := by
  obtain ⟨hstart, hstop⟩ := hc.bounds h hoe
  refine ⟨fun p hp => ?_, fun p hp q hq hpq => ?_⟩
  · rcases (hc.entries p).mp hp with rfl | ⟨hp, -⟩
    · omega
    · exact h.nonempty p hp
  · rcases (hc.entries p).mp hp with rfl | ⟨hp, hpo, hpe⟩ <;>
      rcases (hc.entries q).mp hq with rfl | ⟨hq, hqo, hqe⟩
    · exact absurd hpq (lt_irrefl _)
    · have := hc.apart h hoe hdisjoint hq hqo hqe
      have := h.nonempty q hq
      omega
    · have := hc.apart h hoe hdisjoint hp hpo hpe
      omega
    · exact h.apart p hp q hq hpq

theorem cover_eq : cover m'.entries = Finset.Ico o e ∪ cover m.entries := by
  obtain ⟨hstart, hstop⟩ := hc.bounds h hoe
  ext x
  simp only [mem_cover, Finset.mem_union, Finset.mem_Ico]
  constructor
  · rintro ⟨p, hp, hpx⟩
    rcases (hc.entries p).mp hp with rfl | ⟨hp, -⟩
    · by_cases hbefore : x < o
      · rcases hc.front with ⟨rfl, -⟩ | hmem
        · omega
        · exact .inr ⟨_, hmem, hpx.1, hbefore⟩
      · by_cases hafter : e ≤ x
        · rcases hc.back with ⟨rfl, -⟩ | hmem
          · omega
          · exact .inr ⟨_, hmem, hafter, hpx.2⟩
        · exact .inl (by omega)
    · exact .inr ⟨p, hp, hpx⟩
  · rintro (hx | ⟨p, hp, hpx⟩)
    · exact ⟨(start, stop), (hc.entries _).mpr (.inl rfl), by simp only; omega⟩
    · by_cases hpo : p.2 = o
      · refine ⟨(start, stop), (hc.entries _).mpr (.inl rfl), ?_⟩
        rcases hc.front with ⟨rfl, hends⟩ | hmem
        · exact absurd hpo (hends p hp)
        · have hne := h.nonempty _ hmem
          obtain rfl := h.eq_of_mem hp hmem (x := o - 1) (by omega) (by simp only at hne ⊢; omega)
          omega
      · by_cases hpe : p.1 = e
        · refine ⟨(start, stop), (hc.entries _).mpr (.inl rfl), ?_⟩
          rcases hc.back with ⟨rfl, hstarts⟩ | hmem
          · exact absurd hpe (hstarts p hp)
          · obtain rfl := eq_of_fst_eq hp hmem hpe
            omega
        · exact ⟨p, (hc.entries p).mpr (.inr ⟨hp, hpo, hpe⟩), hpx⟩

end Coalesced

end Coalesce

end ObjectTransfer.Foundations
