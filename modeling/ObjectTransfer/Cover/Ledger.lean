import ObjectTransfer.Cover.Model
import ObjectTransfer.Foundations.Runs

/-! # Every byte counted once

A coverage together with what its callers did: the ranges they committed and the
reservations they still hold. In every state that checks, commits, reservations and releases
lead to, the extents are the committed ranges, the byte count is their size, and the answer to
a range says how it lies to them.
-/

namespace ObjectTransfer.Cover
open Foundations List
open Finset (mem_Ico subset_union_right union_subset)

/-- A coverage, the reservations it issued that were not handed back, and the ranges committed
to it. -/
structure System where
  coverage : Coverage
  outstanding : List Reservation
  committed : List (ℕ × ℕ)

/-- What a caller can do: check a range and commit or drop the booking, reserve a range, and
hand a reservation back. -/
inductive Act where
  | check (offset bytes : ℕ) (keep : Bool)
  | reserve (offset bytes : ℕ)
  | commit (reservation : Reservation)
  | release (reservation : Reservation)

namespace System

/-- One call. A reservation can only be handed back by a caller that holds it. -/
def step (s : System) : Act → System
  | .check offset bytes keep =>
    match s.coverage.check offset bytes with
    | .ok (.new booking) =>
      if keep then
        { s with
          coverage := s.coverage.commit booking
          committed := (offset, offset + bytes) :: s.committed }
      else s
    | _ => s
  | .reserve offset bytes =>
    match s.coverage.reserve offset bytes with
    | .ok (coverage, .new reservation) =>
      { s with coverage, outstanding := reservation :: s.outstanding }
    | .ok (coverage, .replay) => { s with coverage }
    | .error _ => s
  | .commit reservation =>
    if reservation ∈ s.outstanding then
      { coverage := s.coverage.commitReservation reservation
        outstanding := s.outstanding.erase reservation
        committed := (reservation.coveredOffset, reservation.coveredEnd) :: s.committed }
    else s
  | .release reservation =>
    if reservation ∈ s.outstanding then
      { s with
        coverage := s.coverage.releaseReservation reservation
        outstanding := s.outstanding.erase reservation }
    else s

/-- A fresh coverage, or one rebuilt from runs. -/
inductive Initial : System → Prop where
  | new : Initial ⟨.new, [], []⟩
  | forObject (objectLen : ℕ) : Initial ⟨.forObject objectLen, [], []⟩
  | fromRuns (objectLen : ℕ) (runs : List (ℕ × ℕ)) (coverage : Coverage)
      (built : Coverage.fromRuns objectLen runs = .ok coverage) :
      Initial ⟨coverage, [], runs.map fun p => (p.1, p.1 + p.2)⟩

end System

def Reservation.range (r : Reservation) : ℕ × ℕ := (r.coveredOffset, r.coveredEnd)

/-- The bookkeeping agrees with what was committed and reserved. -/
structure Ledger (s : System) : Prop where
  extents : Spaced 1 s.coverage.extents
  reserved : Spaced 0 s.coverage.reserved
  apart : Disjoint (cover s.coverage.extents.entries) (cover s.coverage.reserved.entries)
  bounded : cover s.coverage.extents.entries ∪ cover s.coverage.reserved.entries ⊆
    Finset.range u64Max
  committed : cover s.coverage.extents.entries = cover s.committed
  bytes : s.coverage.bytes = (cover s.coverage.extents.entries).card
  outstanding : ∀ p, p ∈ s.coverage.reserved.entries ↔ p ∈ s.outstanding.map Reservation.range
  nodup : s.outstanding.Nodup

section Check

variable {coverage : Coverage} {o n : ℕ}

theorem any_eq_true {α : Type*} {x : Option α} {p : α → Prop} [DecidablePred p] :
    (x.any fun a => decide (p a)) = true ↔ ∃ a, x = some a ∧ p a := by
  cases x <;> simp

theorem overlaps_iff {map : OrderedMap ℕ ℕ} (h : Spaced 0 map) {e : ℕ} (hoe : o < e) :
    overlaps map o e = true ↔ ¬ Disjoint (Finset.Ico o e) (cover map.entries) := by
  rw [overlaps, Bool.or_eq_true, any_eq_true, any_eq_true, h.below?_holds, Spaced.ceil?_before,
    h.meets_iff hoe]
  constructor
  · rintro (⟨p, hp, hlt, h2⟩ | h2)
    · exact .inl ⟨p, hp, hlt.le, h2⟩
    · exact .inr h2
  · rintro (⟨p, hp, hle, h2⟩ | h2)
    · rcases hle.lt_or_eq with hlt | heq
      · exact .inl ⟨p, hp, hlt, h2⟩
      · exact .inr ⟨p, hp, heq.ge, by omega⟩
    · exact .inr h2

/-- The four ways a range can lie to the extents and the reservations, with the answer to each. -/
theorem check_cases (hextents : Spaced 1 coverage.extents) (hreserved : Spaced 0 coverage.reserved)
    (hn : 0 < n) (hend : o + n ≤ u64Max) :
    (Finset.Ico o (o + n) ⊆ cover coverage.extents.entries ∧
      coverage.check o n = .ok .replay) ∨
    (¬ Finset.Ico o (o + n) ⊆ cover coverage.extents.entries ∧
      ¬ Disjoint (Finset.Ico o (o + n)) (cover coverage.extents.entries) ∧
      coverage.check o n = .error .partialOverlap) ∨
    (Disjoint (Finset.Ico o (o + n)) (cover coverage.extents.entries) ∧
      ¬ Disjoint (Finset.Ico o (o + n)) (cover coverage.reserved.entries) ∧
      coverage.check o n = .error .reservedOverlap) ∨
    (Disjoint (Finset.Ico o (o + n)) (cover coverage.extents.entries) ∧
      Disjoint (Finset.Ico o (o + n)) (cover coverage.reserved.entries) ∧
      (coverage.check o n = .error .lengthExceeded ∧ u64Max < coverage.bytes + n ∨
        coverage.check o n = .error .fragmentsExhausted ∨
        coverage.check o n = .ok (.new ⟨o, o + n, coverage.bytes + n⟩))) := by
  have hoe : o < o + n := by omega
  have hreplay : ((coverage.extents.floor? o).any fun p => decide (p.2 ≥ o + n)) = true ↔
      Finset.Ico o (o + n) ⊆ cover coverage.extents.entries := by
    rw [any_eq_true, hextents.subset_iff hoe]
    exact hextents.floor?_contains hoe
  have hpart : (((coverage.extents.floor? o).any fun p => decide (p.2 > o)) = true ∨
      ((coverage.extents.ceil? o).any fun p => decide (p.1 < o + n)) = true) ↔
      ¬ Disjoint (Finset.Ico o (o + n)) (cover coverage.extents.entries) := by
    rw [any_eq_true, any_eq_true, hextents.meets_iff hoe, Spaced.ceil?_before]
    exact or_congr_left hextents.floor?_holds
  rw [Coverage.check, rejectIf_neg hn.ne', ok_bind, checkedAdd_of_le hend, okOr_some, ok_bind]
  by_cases h1 : Finset.Ico o (o + n) ⊆ cover coverage.extents.entries
  · simp only [if_pos (hreplay.mpr h1)]
    exact .inl ⟨h1, rfl⟩
  simp only [if_neg (mt hreplay.mp h1)]
  right
  by_cases h2 : Disjoint (Finset.Ico o (o + n)) (cover coverage.extents.entries)
  swap
  · rw [rejectIf_pos (hpart.mpr h2), error_bind]
    exact .inl ⟨h1, h2, rfl⟩
  rw [rejectIf_neg (fun hcon => hpart.mp hcon h2), ok_bind]
  right
  by_cases h3 : Disjoint (Finset.Ico o (o + n)) (cover coverage.reserved.entries)
  swap
  · rw [rejectIf_pos ((overlaps_iff hreserved hoe).mpr h3), error_bind]
    exact .inl ⟨h2, h3, rfl⟩
  rw [rejectIf_neg (fun hcon => (overlaps_iff hreserved hoe).mp hcon h3), ok_bind]
  refine .inr ⟨h2, h3, ?_⟩
  by_cases h4 : coverage.bytes + n ≤ u64Max
  swap
  · rw [checkedAdd, if_neg h4, okOr_none, error_bind]
    exact .inl ⟨rfl, by omega⟩
  rw [checkedAdd_of_le h4, okOr_some, ok_bind]
  right
  by_cases h5 : ((!(coverage.extents.floor? o).any fun p => decide (p.2 = o)) = true ∧
      (!(coverage.extents.ceil? o).any fun p => decide (p.1 = o + n)) = true ∧
      coverage.extents.size + coverage.reserved.size ≥ coverage.limit)
  · rw [rejectIf_pos h5, error_bind]
    exact .inl rfl
  · rw [rejectIf_neg h5, ok_bind]
    exact .inr rfl

end Check

section Steps

variable {s : System} {o n e : ℕ}

theorem Ico_subset_range (h : e ≤ u64Max) : Finset.Ico o e ⊆ Finset.range u64Max := by
  intro x hx
  rw [mem_Ico] at hx
  exact Finset.mem_range.mpr (by omega)

variable {r : Reservation}

section

variable (h : Ledger s)
include h

theorem Ledger.check_new {booking : Booking}
    (hcheck : s.coverage.check o n = .ok (.new booking)) :
    0 < n ∧ o + n ≤ u64Max ∧
      Disjoint (Finset.Ico o (o + n)) (cover s.coverage.extents.entries) ∧
      Disjoint (Finset.Ico o (o + n)) (cover s.coverage.reserved.entries) ∧
      booking = ⟨o, o + n, s.coverage.bytes + n⟩ := by
  have hguards := hcheck
  rw [Coverage.check, bind_eq_ok] at hguards
  obtain ⟨_, hn, hguards⟩ := hguards
  rw [bind_eq_ok] at hguards
  obtain ⟨coveredEnd, hend, -⟩ := hguards
  rw [rejectIf_eq_ok] at hn
  rw [okOr_eq_ok, checkedAdd_eq_some] at hend
  have hpos : 0 < n := Nat.pos_of_ne_zero hn
  have hcases := check_cases h.extents h.reserved hpos hend.1
  rw [hcheck] at hcases
  simp only [reduceCtorEq, and_false, false_or, Except.ok.injEq, Check.new.injEq, false_and]
    at hcases
  exact ⟨hpos, hend.1, hcases⟩

theorem Ledger.coalesce (hoe : o < e) (hend : e ≤ u64Max)
    (hdisjoint : Disjoint (Finset.Ico o e) (cover s.coverage.extents.entries)) :
    Spaced 1 (coalesce s.coverage.extents o e) ∧
      cover (Foundations.coalesce s.coverage.extents o e).entries ⊆ Finset.range u64Max ∧
      cover (Foundations.coalesce s.coverage.extents o e).entries =
        cover ((o, e) :: s.committed) ∧
      s.coverage.bytes + (e - o) =
        (cover (Foundations.coalesce s.coverage.extents o e).entries).card ∧
      ∀ other ⊆ cover s.coverage.reserved.entries, Disjoint (Finset.Ico o e) other →
        Disjoint (cover (Foundations.coalesce s.coverage.extents o e).entries) other := by
  obtain ⟨start, stop, hcoalesced⟩ := coalesce_spec h.extents hoe hdisjoint
  have hcover := hcoalesced.cover_eq h.extents hoe hdisjoint
  refine ⟨hcoalesced.spaced h.extents hoe hdisjoint, ?_, ?_, ?_, fun other hsub hother => ?_⟩
  · rw [hcover]
    exact union_subset (Ico_subset_range hend) (Finset.subset_union_left.trans h.bounded)
  · rw [hcover, cover_cons, h.committed]
  · rw [hcover, Finset.card_union_of_disjoint hdisjoint, Nat.card_Ico, h.bytes, add_comm]
  · rw [hcover]
    exact Finset.disjoint_union_left.mpr ⟨hother, h.apart.mono_right hsub⟩

section Free

variable (hn : 0 < n) (hend : o + n ≤ u64Max)
variable (hextents : Disjoint (Finset.Ico o (o + n)) (cover s.coverage.extents.entries))
variable (hreserved : Disjoint (Finset.Ico o (o + n)) (cover s.coverage.reserved.entries))
include hn hend hextents hreserved

theorem Ledger.commit :
    Ledger { s with
      coverage := s.coverage.commit ⟨o, o + n, s.coverage.bytes + n⟩
      committed := (o, o + n) :: s.committed } := by
  have hoe : o < o + n := by omega
  obtain ⟨hspaced, hbounded, hcommitted, hbytes, hapart⟩ := h.coalesce hoe hend hextents
  refine ⟨hspaced, h.reserved, hapart _ subset_rfl hreserved, ?_, hcommitted, ?_, h.outstanding,
    h.nodup⟩
  · exact union_subset hbounded (subset_union_right.trans h.bounded)
  · rw [Nat.add_sub_cancel_left] at hbytes
    exact hbytes

theorem Ledger.reserve :
    Ledger { s with
      coverage := { s.coverage with reserved := s.coverage.reserved.insert o (o + n) }
      outstanding := ⟨o, o + n⟩ :: s.outstanding } := by
  have hoe : o < o + n := by omega
  obtain ⟨hspaced, hmem⟩ := h.reserved.insert hoe fun p hp =>
    h.reserved.beside hoe hreserved hp
  have hcover : cover (s.coverage.reserved.insert o (o + n)).entries =
      Finset.Ico o (o + n) ∪ cover s.coverage.reserved.entries := by
    rw [← cover_cons (o, o + n)]
    ext x
    simp only [mem_cover, hmem, mem_cons]
  refine ⟨h.extents, hspaced, ?_, ?_, h.committed, h.bytes, fun p => ?_, ?_⟩
  · rw [hcover]
    exact Finset.disjoint_union_right.mpr ⟨hextents.symm, h.apart⟩
  · rw [hcover]
    exact union_subset (Finset.subset_union_left.trans h.bounded) (union_subset
      (Ico_subset_range hend) (subset_union_right.trans h.bounded))
  · rw [hmem, h.outstanding, map_cons, mem_cons]
    rfl
  · refine nodup_cons.mpr ⟨fun hheld => ?_, h.nodup⟩
    have := (h.outstanding (o, o + n)).mpr (mem_map_of_mem hheld)
    exact Finset.disjoint_left.mp hreserved (mem_Ico.mpr ⟨le_rfl, hoe⟩)
      (Ico_subset_cover this (mem_Ico.mpr ⟨le_rfl, hoe⟩))

end Free

theorem Ledger.giveBack (hr : r ∈ s.outstanding) :
    r.range ∈ s.coverage.reserved.entries ∧
      Spaced 0 (s.coverage.reserved.erase r.coveredOffset) ∧
      Disjoint (Finset.Ico r.coveredOffset r.coveredEnd)
        (cover (s.coverage.reserved.erase r.coveredOffset).entries) ∧
      cover (s.coverage.reserved.erase r.coveredOffset).entries ⊆
        cover s.coverage.reserved.entries ∧
      (∀ p, p ∈ (s.coverage.reserved.erase r.coveredOffset).entries ↔
        p ∈ (s.outstanding.erase r).map Reservation.range) ∧ (s.outstanding.erase r).Nodup := by
  have hmem := (h.outstanding r.range).mpr (mem_map_of_mem hr)
  obtain ⟨hspaced, hdisjoint, hleft⟩ := h.reserved.erase hmem
  refine ⟨hmem, hspaced, hdisjoint, cover_mono fun p hp => ((hleft p).mp hp).1, fun p => ?_,
    h.nodup.erase r⟩
  refine (hleft p).trans ?_
  rw [h.outstanding, mem_map, mem_map]
  constructor
  · rintro ⟨⟨q, hq, rfl⟩, hne⟩
    refine ⟨q, (h.nodup.mem_erase_iff).mpr ⟨?_, hq⟩, rfl⟩
    rintro rfl
    exact hne rfl
  · rintro ⟨q, hq, rfl⟩
    obtain ⟨hne, hq⟩ := h.nodup.mem_erase_iff.mp hq
    refine ⟨⟨q, hq, rfl⟩, fun heq => hne ?_⟩
    cases q
    cases r
    simpa [Reservation.range] using heq

theorem Ledger.commitReservation (hr : r ∈ s.outstanding) :
    Ledger
      { coverage := s.coverage.commitReservation r
        outstanding := s.outstanding.erase r
        committed := (r.coveredOffset, r.coveredEnd) :: s.committed } := by
  obtain ⟨hmem, hspaced, hdisjoint, hsub, hmap, hnodup⟩ := h.giveBack hr
  have hoe : r.coveredOffset < r.coveredEnd := h.reserved.nonempty _ hmem
  have hrange := Ico_subset_cover hmem
  have hend : r.coveredEnd ≤ u64Max := by
    have hlast : r.coveredEnd - 1 ∈ Finset.range u64Max :=
      (subset_union_right.trans h.bounded)
        (hrange (mem_Ico.mpr (show r.coveredOffset ≤ _ ∧ _ < r.coveredEnd by omega)))
    rw [Finset.mem_range] at hlast
    omega
  have hextents : Disjoint (Finset.Ico r.coveredOffset r.coveredEnd)
      (cover s.coverage.extents.entries) := (h.apart.mono_right hrange).symm
  obtain ⟨hextended, hbounded, hcommitted, hbytes, hapart⟩ := h.coalesce hoe hend hextents
  refine ⟨hextended, hspaced, hapart _ hsub hdisjoint, ?_, hcommitted, ?_, hmap, hnodup⟩
  · exact union_subset hbounded (hsub.trans (subset_union_right.trans h.bounded))
  · have hcard := Finset.card_le_card hbounded
    rw [← hbytes, Finset.card_range] at hcard
    exact (saturatingAdd_eq hcard).trans hbytes

theorem Ledger.releaseReservation (hr : r ∈ s.outstanding) :
    Ledger { s with
      coverage := s.coverage.releaseReservation r
      outstanding := s.outstanding.erase r } := by
  obtain ⟨-, hspaced, -, hsub, hmap, hnodup⟩ := h.giveBack hr
  exact ⟨h.extents, hspaced, h.apart.mono_right hsub,
    (Finset.union_subset_union_right hsub).trans h.bounded, h.committed, h.bytes, hmap, hnodup⟩

end

end Steps

section Start

/-- What the loop over persisted runs has built from the runs `entered`. -/
structure Entered (entered : List (ℕ × ℕ)) (previousEnd : Option ℕ) (bytes : ℕ)
    (extents : OrderedMap ℕ ℕ) : Prop where
  spaced : Spaced 1 extents
  before : ∀ p ∈ extents.entries, ∃ previous, previousEnd = some previous ∧ p.2 ≤ previous
  covered : cover extents.entries = cover entered
  bytes : bytes = (cover extents.entries).card
  bounded : cover extents.entries ⊆ Finset.range u64Max

theorem Entered.nil : Entered [] none 0 .empty :=
  ⟨Spaced.empty 1, by simp [OrderedMap.empty], rfl, rfl, by simp [OrderedMap.empty, cover]⟩

variable {extents : OrderedMap ℕ ℕ} {previousEnd : Option ℕ}

theorem Entered.cons {entered : List (ℕ × ℕ)} {bytes offset length : ℕ}
    (h : Entered entered previousEnd bytes extents)
    (hlength : 0 < length) (hend : offset + length ≤ u64Max)
    (hafter : ∀ previous, previousEnd = some previous → previous < offset) :
    Entered ((offset, offset + length) :: entered) (some (offset + length)) (bytes + length)
      (extents.insert offset (offset + length)) := by
  have hoe : offset < offset + length := by omega
  have hlow : ∀ p ∈ extents.entries, p.2 < offset := by
    intro p hp
    obtain ⟨previous, hprevious, hle⟩ := h.before p hp
    exact lt_of_le_of_lt hle (hafter previous hprevious)
  obtain ⟨hspaced, hmem⟩ := h.spaced.insert hoe fun p hp => .inl (hlow p hp)
  have hcover : cover (extents.insert offset (offset + length)).entries =
      Finset.Ico offset (offset + length) ∪ cover extents.entries := by
    rw [← cover_cons (offset, offset + length)]
    ext x
    simp only [mem_cover, hmem, mem_cons]
  have hdisjoint : Disjoint (Finset.Ico offset (offset + length)) (cover extents.entries) := by
    rw [Finset.disjoint_left]
    intro x hx hcovered
    obtain ⟨p, hp, hpx⟩ := mem_cover.mp hcovered
    have := hlow p hp
    rw [mem_Ico] at hx
    omega
  refine ⟨hspaced, fun p hp => ⟨_, rfl, ?_⟩, ?_, ?_, ?_⟩
  · rcases (hmem p).mp hp with rfl | hp
    · exact le_rfl
    · have := hlow p hp
      omega
  · rw [hcover, cover_cons, h.covered]
  · rw [hcover, Finset.card_union_of_disjoint hdisjoint, Nat.card_Ico, h.bytes]
    omega
  · rw [hcover]
    exact union_subset (Ico_subset_range hend) h.bounded

theorem enterRuns_entered {objectLen limit : ℕ} {runs entered : List (ℕ × ℕ)} {index bytes : ℕ}
    {built : OrderedMap ℕ ℕ × ℕ} (h : Entered entered previousEnd bytes extents)
    (hbuilt : Coverage.enterRuns objectLen limit runs index previousEnd bytes extents =
      .ok built) :
    ∃ lastEnd all, Entered all lastEnd built.2 built.1 ∧
      cover all = cover (runs.map fun p => (p.1, p.1 + p.2)) ∪ cover entered := by
  induction runs generalizing entered index bytes previousEnd extents with
  | nil =>
    obtain rfl := Except.ok.inj hbuilt
    exact ⟨previousEnd, entered, h, by simp [cover]⟩
  | cons run runs ih =>
    obtain ⟨offset, length⟩ := run
    simp only [Coverage.enterRuns, bind_eq_ok, rejectIf_eq_ok, okOr_eq_ok, checkedAdd_eq_some]
      at hbuilt
    obtain ⟨-, -, -, hlength, stop, ⟨hend, rfl⟩, -, -, -, hafter, total, ⟨-, rfl⟩, hbuilt⟩ := hbuilt
    have hnext : Entered ((offset, offset + length) :: entered) (some (offset + length))
        (bytes + length) (extents.insert offset (offset + length)) := by
      refine h.cons (Nat.pos_of_ne_zero hlength) hend fun previous hprevious => ?_
      rw [hprevious] at hafter
      simpa using hafter
    obtain ⟨lastEnd, all, hentered, hcover⟩ := ih hnext hbuilt
    refine ⟨lastEnd, all, hentered, ?_⟩
    rw [hcover, map_cons, cover_cons, cover_cons, Finset.union_left_comm, Finset.union_assoc]

theorem Ledger.fresh {coverage : Coverage} {ranges : List (ℕ × ℕ)} {lastEnd : Option ℕ}
    {all : List (ℕ × ℕ)} (h : Entered all lastEnd coverage.bytes coverage.extents)
    (hreserved : coverage.reserved = .empty) (hcover : cover all = cover ranges) :
    Ledger ⟨coverage, [], ranges⟩ := by
  have hnone : cover coverage.reserved.entries = ∅ := by rw [hreserved]; rfl
  refine ⟨h.spaced, by rw [hreserved]; exact Spaced.empty 0, by simp [hnone], ?_, ?_, h.bytes,
    fun p => ?_, nodup_nil⟩
  · simpa [hnone] using h.bounded
  · rw [h.covered, hcover]
  · simp [hreserved, OrderedMap.empty]

theorem System.Initial.ledger {s : System} (h : s.Initial) : Ledger s := by
  cases h with
  | new | forObject => exact .fresh .nil rfl rfl
  | fromRuns objectLen runs coverage built =>
    rw [Coverage.fromRuns, bind_eq_ok] at built
    obtain ⟨pieces, hpieces, hcoverage⟩ := built
    obtain rfl := Except.ok.inj hcoverage
    obtain ⟨lastEnd, all, hentered, hcover⟩ := enterRuns_entered .nil hpieces
    exact .fresh hentered rfl (by simpa [cover] using hcover)

end Start

theorem Ledger.step {s : System} (h : Ledger s) (act : Act) : Ledger (s.step act) := by
  cases act with
  | check offset bytes keep =>
    cases hcheck : s.coverage.check offset bytes with
    | error => simpa [System.step, hcheck] using h
    | ok answer =>
      cases answer with
      | replay => simpa [System.step, hcheck] using h
      | new =>
        obtain ⟨hn, hend, hextents, hreserved, rfl⟩ := h.check_new hcheck
        cases keep with
        | false => simpa [System.step, hcheck] using h
        | true => simpa [System.step, hcheck] using h.commit hn hend hextents hreserved
  | reserve offset bytes =>
    cases hcheck : s.coverage.check offset bytes with
    | error => simpa [System.step, Coverage.reserve, hcheck] using h
    | ok answer =>
      cases answer with
      | replay => simpa [System.step, Coverage.reserve, hcheck, pure, Except.pure] using h
      | new =>
        obtain ⟨hn, hend, hextents, hreserved, rfl⟩ := h.check_new hcheck
        simpa [System.step, Coverage.reserve, hcheck, pure, Except.pure] using
          h.reserve hn hend hextents hreserved
  | commit reservation =>
    by_cases hheld : reservation ∈ s.outstanding
    · simpa [System.step, hheld] using h.commitReservation hheld
    · simpa [System.step, hheld] using h
  | release reservation =>
    by_cases hheld : reservation ∈ s.outstanding
    · simpa [System.step, hheld] using h.releaseReservation hheld
    · simpa [System.step, hheld] using h

section Answers

variable {s : System} {o n : ℕ}

/-- The answer to a range follows from where it lies: `replayed` says that it was found
accepted, `refused` with which error it was refused. -/
structure Answers (s : System) (o n : ℕ) (replayed : Prop) (refused : Error → Prop) : Prop where
  replay : replayed ↔ Finset.Ico o (o + n) ⊆ cover s.committed
  partialOverlap : refused .partialOverlap ↔
    ¬ Disjoint (Finset.Ico o (o + n)) (cover s.committed) ∧
      ¬ Finset.Ico o (o + n) ⊆ cover s.committed
  reservedOverlap : refused .reservedOverlap ↔
    Disjoint (Finset.Ico o (o + n)) (cover s.committed) ∧
      ¬ Disjoint (Finset.Ico o (o + n)) (cover (s.outstanding.map Reservation.range))

theorem Ledger.check_answers (h : Ledger s) (hn : 0 < n) (hend : o + n ≤ u64Max) :
    Answers s o n (s.coverage.check o n = .ok .replay) fun e => s.coverage.check o n = .error e := by
  have hmeets : Disjoint (Finset.Ico o (o + n)) (cover s.committed) →
      ¬ Finset.Ico o (o + n) ⊆ cover s.committed := by
    intro hdisjoint hsub
    have hmem : o ∈ Finset.Ico o (o + n) := mem_Ico.mpr (by omega)
    exact Finset.disjoint_left.mp hdisjoint hmem (hsub hmem)
  have hreserved : cover s.coverage.reserved.entries =
      cover (s.outstanding.map Reservation.range) := by
    ext x
    simp only [mem_cover, h.outstanding]
  have hcases := check_cases h.extents h.reserved hn hend
  rw [h.committed, hreserved] at hcases
  rcases hcases with ⟨h1, heq⟩ | ⟨h1, h2, heq⟩ | ⟨h1, h2, heq⟩ | ⟨h1, h2, ⟨heq, -⟩ | heq | heq⟩
  · have hmeet := fun hdisjoint => hmeets hdisjoint h1
    exact ⟨by simp [heq, h1], by simp [heq, h1], ⟨by simp [heq], fun hd => absurd hd.1 hmeet⟩⟩
  · exact ⟨by simp [heq, h1], by simp [heq, h1, h2], by simp [heq, h2]⟩
  all_goals exact ⟨by simp [heq, hmeets h1], by simp [heq, h1], by simp [heq, h1, h2]⟩

theorem Answers.reserve
    (h : Answers s o n (s.coverage.check o n = .ok .replay) fun e => s.coverage.check o n = .error e) :
    Answers s o n (∃ coverage, s.coverage.reserve o n = .ok (coverage, .replay))
      fun e => s.coverage.reserve o n = .error e := by
  have hreplay : (∃ coverage, s.coverage.reserve o n = .ok (coverage, .replay)) ↔
      s.coverage.check o n = .ok .replay := by
    cases hcheck : s.coverage.check o n with
    | error => simp [Coverage.reserve, hcheck]
    | ok answer => cases answer <;> simp [Coverage.reserve, hcheck, pure, Except.pure]
  have herror : ∀ e, s.coverage.reserve o n = .error e ↔ s.coverage.check o n = .error e := by
    intro e
    cases hcheck : s.coverage.check o n with
    | error => simp [Coverage.reserve, hcheck]
    | ok answer => cases answer <;> simp [Coverage.reserve, hcheck, pure, Except.pure]
  exact ⟨hreplay.trans h.replay, (herror _).trans h.partialOverlap,
    (herror _).trans h.reservedOverlap⟩

theorem Ledger.outstanding_disjoint (h : Ledger s) : s.outstanding.Pairwise fun r r' =>
    Disjoint (Finset.Ico r.coveredOffset r.coveredEnd)
      (Finset.Ico r'.coveredOffset r'.coveredEnd) := by
  refine h.nodup.imp_of_mem fun {r r'} hr hr' hne => ?_
  rw [Finset.disjoint_left]
  intro x hx hx'
  have hentry := h.reserved.eq_of_mem ((h.outstanding _).mpr (mem_map_of_mem hr))
    ((h.outstanding _).mpr (mem_map_of_mem hr')) (mem_Ico.mp hx) (mem_Ico.mp hx')
  cases r
  cases r'
  exact hne (by simpa [Reservation.range] using hentry)

end Answers

/-- Coverage counts every committed byte once, in every state that its callers can bring about,
and says of every range whether it is committed, overlaps what is committed, or overlaps a
reservation. -/
theorem bytes_counted_once {s₀ : System} (hinitial : s₀.Initial) (acts : List Act) :
    let s := run System.step s₀ acts
    (∀ p ∈ s.coverage.extents.entries, p.1 < p.2) ∧
    (∀ p ∈ s.coverage.extents.entries, ∀ q ∈ s.coverage.extents.entries, p ≠ q →
      p.2 < q.1 ∨ q.2 < p.1) ∧
    cover s.coverage.extents.entries = cover s.committed ∧
    s.coverage.coveredBytes = (cover s.committed).card ∧
    (∀ p, p ∈ s.coverage.reserved.entries ↔ p ∈ s.outstanding.map Reservation.range) ∧
    (s.outstanding.Pairwise fun r r' => Disjoint (Finset.Ico r.coveredOffset r.coveredEnd)
      (Finset.Ico r'.coveredOffset r'.coveredEnd)) ∧
    (∀ r ∈ s.outstanding, Disjoint (Finset.Ico r.coveredOffset r.coveredEnd)
      (cover s.coverage.extents.entries)) ∧
    ∀ o n, 0 < n → o + n ≤ u64Max →
      Answers s o n (s.coverage.check o n = .ok .replay)
        (fun e => s.coverage.check o n = .error e) ∧
      Answers s o n (∃ coverage, s.coverage.reserve o n = .ok (coverage, .replay))
        fun e => s.coverage.reserve o n = .error e := by
  intro s
  have h : Ledger s := run_invariant (fun _ act h => h.step act) hinitial.ledger acts
  refine ⟨h.extents.nonempty, fun p hp q hq hne => ?_, h.committed, ?_, h.outstanding,
    h.outstanding_disjoint, fun r hr => ?_, fun o n hn hend => ?_⟩
  · rcases lt_trichotomy p.1 q.1 with hlt | heq | hgt
    · exact .inl (h.extents.apart p hp q hq hlt)
    · exact absurd (OrderedMap.eq_of_fst_eq hp hq heq) hne
    · exact .inr (h.extents.apart q hq p hp hgt)
  · rw [Coverage.coveredBytes, h.bytes, h.committed]
  · have hentry := (h.outstanding _).mpr (mem_map_of_mem hr)
    exact (h.apart.mono_right (Ico_subset_cover hentry)).symm
  · have hcheck := h.check_answers hn hend
    exact ⟨hcheck, hcheck.reserve⟩

/-- Two ranges committed around one that is reserved. -/
theorem bytes_counted_once_around_reservation :
    let s := run System.step ⟨.new, [], []⟩ [.check 0 4 true, .reserve 4 4, .check 8 4 true]
    s.coverage.coveredBytes = 8 ∧ s.coverage.check 2 4 = .error .partialOverlap ∧
      s.coverage.check 4 2 = .error .reservedOverlap ∧ s.coverage.check 9 3 = .ok .replay := by
  obtain ⟨-, -, -, hbytes, -, -, -, hanswers⟩ := bytes_counted_once System.Initial.new
    [.check 0 4 true, .reserve 4 4, .check 8 4 true]
  exact ⟨hbytes.trans (by decide), (hanswers 2 4 (by decide) (by decide)).1.partialOverlap.mpr
    (by decide), (hanswers 4 2 (by decide) (by decide)).1.reservedOverlap.mpr (by decide),
    (hanswers 9 3 (by decide) (by decide)).1.replay.mpr (by decide)⟩

end ObjectTransfer.Cover
