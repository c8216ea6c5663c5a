import ObjectTransfer.Foundations.Spans
import ObjectTransfer.Foundations.Outcome
import ObjectTransfer.Foundations.Words
import Mathlib.Data.List.Sort

/-! # Run-length unit sets

A set of unit indices as runs of a start and a length, in order, non-empty and never adjacent.
Additions saturate at `u64::MAX`; no run ends past it.
-/

namespace ObjectTransfer.Resume
open Foundations List Option
open Set (mem_Ico mem_union mem_sdiff union_assoc empty_union)

def maxUnit : ℕ := u64Max - 1

/-- One past the last unit of a run. -/
def endOf (run : Span) : ℕ := saturatingAdd run.1 run.2

/-- Append a run to runs in order, joined to the last one when it touches it. -/
def pushRun (runs : List Span) (start length : ℕ) : List Span :=
  let stop := saturatingAdd start length
  match runs.getLast? with
  | some last =>
    if start ≤ endOf last then runs.dropLast ++ [(last.1, max stop (endOf last) - last.1)]
    else runs ++ [(start, length)]
  | none => runs ++ [(start, length)]

structure Canonical (runs : List Span) : Prop extends Apart runs where
  bounded : ∀ run ∈ runs, run.1 + run.2 ≤ u64Max

/-- The run a unit lies in: the one that starts there, or else the one before it. -/
def runIndex (runs : List Span) (unit : ℕ) : Option ℕ :=
  let index := (runs.takeWhile fun run => decide (run.1 < unit)).length
  if runs[index]?.any fun run => decide (run.1 = unit) then some index
  else if index = 0 then none
  else do
    let run ← runs[index - 1]?
    if unit - run.1 < run.2 then some (index - 1) else none

/-- Add one unit, growing a run or joining two. -/
def insertRun (runs : List Span) (unit : ℕ) : List Span :=
  if unit > maxUnit then runs
  else
    let before := runs.takeWhile fun run => decide (run.1 ≤ unit)
    let after := runs.dropWhile fun run => decide (run.1 ≤ unit)
    let next := after.head?.filter fun run => decide (run.1 = saturatingAdd unit 1)
    match before.getLast? with
    | none =>
      match next with
      | some (_, length) => (unit, saturatingAdd length 1) :: after.tail
      | none => (unit, 1) :: after
    | some previous =>
      if unit < endOf previous then runs
      else if endOf previous = unit then
        match next with
        | some (_, length) =>
          before.dropLast ++
            (previous.1, saturatingAdd (saturatingAdd previous.2 1) length) :: after.tail
        | none => before.dropLast ++ (previous.1, saturatingAdd previous.2 1) :: after
      else
        match next with
        | some (_, length) => before ++ (unit, saturatingAdd length 1) :: after.tail
        | none => before ++ (unit, 1) :: after

/-- Both lists in order of their starts, pushed run by run. -/
def unionRuns (left right : List Span) : List Span :=
  if right = [] then left
  else if left = [] then right
  else (left.merge right fun a b => decide (a.1 ≤ b.1)).foldl
    (fun merged run => pushRun merged run.1 run.2) []

/-- One run against the others, from `cursor` on: where the cursor ends, the others not passed, and
the runs with what was uncovered. -/
def cutRun (stop : ℕ) : ℕ → List Span → List Span → ℕ × List Span × List Span
  | cursor, [], runs => (cursor, [], runs)
  | cursor, other :: others, runs =>
    if endOf other ≤ cursor then cutRun stop cursor others runs
    else if other.1 ≥ stop then (cursor, other :: others, runs)
    else
      let runs := if other.1 > cursor then pushRun runs cursor (other.1 - cursor) else runs
      let cursor := max cursor (endOf other)
      if cursor ≥ stop then (cursor, other :: others, runs)
      else cutRun stop cursor others runs

/-- One run of this set: the others left, and the runs found. -/
def differenceStep (state : List Span × List Span) (run : Span) : List Span × List Span :=
  let cut := cutRun (endOf run) run.1 state.1 state.2
  (cut.2.1, if endOf run > cut.1 then pushRun cut.2.2 cut.1 (endOf run - cut.1) else cut.2.2)

/-- The runs of `mine` that `others` leave, in one pass over both. -/
def differenceRuns (mine others : List Span) : List Span :=
  (mine.foldl differenceStep (others, [])).2

def gapUnits (total : ℕ) (gap : ℕ × ℕ) : List ℕ :=
  List.range' (min gap.1 total) (min gap.2 total - min gap.1 total)

/-- The units below `total` in no run: before the first run, between runs, after the last. -/
def missingUnits (runs : List Span) (total : ℕ) : List ℕ :=
  let leading := (0, (runs.head?.map Prod.fst).getD total)
  let between := (runs.zip runs.tail).map fun p => (endOf p.1, p.2.1)
  let trailing := (runs.getLast?.map fun run => (endOf run, total)).getD (total, total)
  (leading :: between ++ [trailing]).flatMap (gapUnits total)

inductive RunError where
  | emptyRun
  | endOverflow
  | tooManyRuns
  deriving DecidableEq, Repr

def checkRuns (maxInputRuns : ℕ) : List Span → ℕ → Except RunError Unit
  | [], _ => .ok ()
  | run :: runs, count =>
    if count = maxInputRuns then .error .tooManyRuns
    else if run.2 = 0 then .error .emptyRun
    else if checkedAdd run.1 run.2 = none then .error .endOverflow
    else checkRuns maxInputRuns runs (count + 1)

/-- Order of start and length, as pairs are sorted. -/
def runLe (a b : Span) : Bool := decide (a.1 < b.1 ∨ a.1 = b.1 ∧ a.2 ≤ b.2)

def normaliseRuns (runs : List Span) : List Span :=
  (runs.mergeSort runLe).foldl (fun merged run => pushRun merged run.1 run.2) []

variable {run : Span}

section Push

variable {runs : List Span} {start length : ℕ}

theorem endOf_eq (h : run.1 + run.2 ≤ u64Max) : endOf run = run.1 + run.2 :=
  saturatingAdd_eq h

theorem Canonical.nil : Canonical [] := ⟨.nil, by simp⟩

theorem canonical_iff : Canonical runs ↔ Apart runs ∧ ∀ run ∈ runs, run.1 + run.2 ≤ u64Max :=
  ⟨fun h => ⟨h.toApart, h.bounded⟩, fun h => ⟨h.1, h.2⟩⟩

theorem canonical_append {front back : List Span} : Canonical (front ++ back) ↔
    Canonical front ∧ Canonical back ∧ ∀ a ∈ front, ∀ b ∈ back, a.1 + a.2 < b.1 := by
  simp only [canonical_iff, apart_append, forall_mem_append]
  tauto

theorem canonical_singleton : Canonical [run] ↔ 0 < run.2 ∧ run.1 + run.2 ≤ u64Max := by
  simp [canonical_iff, apart_cons, Apart.nil]

theorem canonical_concat {front : List Span} : Canonical (front ++ [run]) ↔
    Canonical front ∧ 0 < run.2 ∧ run.1 + run.2 ≤ u64Max ∧ ∀ a ∈ front, a.1 + a.2 < run.1 := by
  simp only [canonical_append, canonical_singleton, mem_singleton, forall_eq, and_assoc]

theorem canonical_cons : Canonical (run :: runs) ↔
    0 < run.2 ∧ run.1 + run.2 ≤ u64Max ∧ Canonical runs ∧ ∀ b ∈ runs, run.1 + run.2 < b.1 := by
  rw [← singleton_append, canonical_append, canonical_singleton]
  simp only [mem_singleton, forall_eq, and_assoc]

/-- The last run is grown when the pushed one touches it. -/
theorem pushRun_concat (front : List Span) (hrun : run.1 + run.2 ≤ u64Max)
    (hend : start + length ≤ u64Max) : pushRun (front ++ [run]) start length =
      if start ≤ run.1 + run.2 then
        front ++ [(run.1, max (start + length) (run.1 + run.2) - run.1)]
      else front ++ [run] ++ [(start, length)] := by
  simp [pushRun, endOf_eq hrun, saturatingAdd_eq hend]

/-- A run that starts no earlier than any before it is added to the set. -/
theorem pushRun_spec (h : Canonical runs) (hstart : ∀ run ∈ runs, run.1 ≤ start)
    (hlength : 0 < length) (hend : start + length ≤ u64Max) :
    Canonical (pushRun runs start length) ∧
      spanned (pushRun runs start length) = spanned runs ∪ Set.Ico start (start + length) ∧
      ∀ run ∈ pushRun runs start length, run.1 ≤ start := by
  rcases eq_nil_or_concat runs with rfl | ⟨front, last, rfl⟩
  · refine ⟨canonical_concat.mpr ⟨.nil, hlength, hend, by simp⟩, ?_, by simp [pushRun]⟩
    simp [pushRun, spanned_singleton]
  · rw [concat_eq_append] at *
    obtain ⟨hfront, hpos, hlast, hbefore⟩ := canonical_concat.mp h
    have hle := hstart last (by simp)
    rw [pushRun_concat front hlast hend]
    split_ifs with htouch
    · refine ⟨canonical_concat.mpr ⟨hfront, by simp only; omega, by simp only; omega, hbefore⟩, ?_,
        forall_mem_append.mpr ⟨(forall_mem_append.mp hstart).1, by simpa using hle⟩⟩
      rw [spanned_append, spanned_append, spanned_singleton, spanned_singleton, union_assoc]
      congr 1
      ext u
      simp only [mem_union, mem_Ico]
      omega
    · have hapart : ∀ run ∈ front ++ [last], run.1 + run.2 < start := by
        refine forall_mem_append.mpr ⟨fun run hrun => ?_, by simpa using htouch⟩
        have := hbefore run hrun
        omega
      refine ⟨canonical_concat.mpr ⟨h, hlength, hend, hapart⟩, ?_,
        forall_mem_append.mpr ⟨hstart, by simp⟩⟩
      rw [spanned_append, spanned_singleton]

theorem foldl_pushRun (pushed : List Span) (hsorted : pushed.Pairwise fun a b => a.1 ≤ b.1)
    (hpushed : ∀ run ∈ pushed, 0 < run.2 ∧ run.1 + run.2 ≤ u64Max) (h : Canonical runs)
    (hruns : ∀ run ∈ runs, ∀ next ∈ pushed, run.1 ≤ next.1) :
    Canonical (pushed.foldl (fun merged run => pushRun merged run.1 run.2) runs) ∧
      spanned (pushed.foldl (fun merged run => pushRun merged run.1 run.2) runs) =
        spanned runs ∪ spanned pushed := by
  induction pushed generalizing runs with
  | nil => simpa using h
  | cons run pushed ih =>
    rw [pairwise_cons] at hsorted
    rw [forall_mem_cons] at hpushed
    obtain ⟨hcanonical, hspanned, hstarts⟩ := pushRun_spec h
      (fun other hother => hruns other hother run (mem_cons_self ..)) hpushed.1.1 hpushed.1.2
    obtain ⟨hrest, hrestSpanned⟩ := ih hsorted.2 hpushed.2 hcanonical fun other hother next hnext =>
      (hstarts other hother).trans (hsorted.1 next hnext)
    refine ⟨hrest, ?_⟩
    rw [foldl_cons, hrestSpanned, hspanned, spanned_cons, union_assoc]

end Push

section Operations

variable {runs left right : List Span} {unit : ℕ}

theorem Canonical.starts_sorted (h : Canonical runs) : runs.Pairwise fun a b => a.1 ≤ b.1 :=
  h.spaced.imp fun hab => by omega

theorem spanned_congr (h : ∀ run, run ∈ left ↔ run ∈ right) : spanned left = spanned right := by
  ext u
  simp only [mem_spanned, h]

theorem unionRuns_spec (hleft : Canonical left) (hright : Canonical right) :
    Canonical (unionRuns left right) ∧
      spanned (unionRuns left right) = spanned left ∪ spanned right := by
  unfold unionRuns
  split_ifs with hr hl
  · subst hr
    simpa using hleft
  · subst hl
    simpa using hright
  · have hmem : ∀ run, run ∈ left.merge right (fun a b => decide (a.1 ≤ b.1)) ↔
        run ∈ left ++ right := fun run => by rw [mem_merge, mem_append]
    have hsorted : (left.merge right fun a b => decide (a.1 ≤ b.1)).Pairwise fun a b => a.1 ≤ b.1 := by
      refine (pairwise_merge ?_ ?_ left right ?_ ?_).imp (by simp)
      · intro a b c hab hbc
        simp only [decide_eq_true_eq] at *
        omega
      · intro a b
        simp only [Bool.or_eq_true, decide_eq_true_eq]
        omega
      · simpa using hleft.starts_sorted
      · simpa using hright.starts_sorted
    have hpushed : ∀ run ∈ left.merge right (fun a b => decide (a.1 ≤ b.1)),
        0 < run.2 ∧ run.1 + run.2 ≤ u64Max := by
      intro run hrun
      rcases mem_append.mp ((hmem run).mp hrun) with hrun | hrun
      · exact ⟨hleft.positive run hrun, hleft.bounded run hrun⟩
      · exact ⟨hright.positive run hrun, hright.bounded run hrun⟩
    obtain ⟨hcanonical, hspanned⟩ := foldl_pushRun _ hsorted hpushed .nil (by simp)
    refine ⟨hcanonical, ?_⟩
    rw [hspanned, spanned_nil, empty_union, spanned_congr hmem, spanned_append]

theorem normaliseRuns_spec (h : ∀ run ∈ runs, 0 < run.2 ∧ run.1 + run.2 ≤ u64Max) :
    Canonical (normaliseRuns runs) ∧ spanned (normaliseRuns runs) = spanned runs := by
  have hmem : ∀ run, run ∈ runs.mergeSort runLe ↔ run ∈ runs := fun run => mem_mergeSort
  have hsorted : (runs.mergeSort runLe).Pairwise fun a b => a.1 ≤ b.1 := by
    refine (pairwise_mergeSort ?_ ?_ runs).imp ?_
    · intro a b c hab hbc
      simp only [runLe, decide_eq_true_eq] at *
      omega
    · intro a b
      simp only [runLe, Bool.or_eq_true, decide_eq_true_eq]
      omega
    · intro a b hab
      simp only [runLe, decide_eq_true_eq] at hab
      omega
  obtain ⟨hcanonical, hspanned⟩ := foldl_pushRun _ hsorted
    (fun run hrun => h run ((hmem run).mp hrun)) .nil (by simp)
  refine ⟨hcanonical, ?_⟩
  rw [normaliseRuns, hspanned, spanned_nil, empty_union, spanned_congr hmem]

theorem checkRuns_eq_ok {maxInputRuns count : ℕ} (hcount : count ≤ maxInputRuns) :
    checkRuns maxInputRuns runs count = .ok () ↔ count + runs.length ≤ maxInputRuns ∧
      ∀ run ∈ runs, 0 < run.2 ∧ run.1 + run.2 ≤ u64Max := by
  induction runs generalizing count with
  | nil => simpa [checkRuns] using hcount
  | cons run runs ih =>
    rw [forall_mem_cons, length_cons]
    unfold checkRuns
    split_ifs with hmany hempty hover
    · simp [hmany]
    · simp [hempty]
    · have hlong : ¬ run.1 + run.2 ≤ u64Max := fun hle => by simp [checkedAdd, hle] at hover
      simp [hlong]
    · have hshort : run.1 + run.2 ≤ u64Max := by
        by_contra hlong
        exact hover (by rw [checkedAdd, if_neg hlong])
      rw [ih (by omega)]
      simp only [Nat.pos_of_ne_zero hempty, hshort, true_and]
      rw [Nat.add_right_comm, Nat.add_assoc]

/-- Runs cut where their starts stop being small. -/
theorem Canonical.split (h : Canonical runs) (small : ℕ → Bool)
    (hsmall : ∀ a b, a ≤ b → small b → small a) :
    ∃ before after, runs.takeWhile (fun run => small run.1) = before ∧
      runs.dropWhile (fun run => small run.1) = after ∧ runs = before ++ after ∧
      (∀ run ∈ before, small run.1 = true) ∧ ∀ run ∈ after, small run.1 = false :=
  ⟨_, _, rfl, rfl, takeWhile_append_dropWhile.symm, fun _ => mem_takeWhile_imp,
    h.dropWhile_start hsmall⟩

theorem runIndex_isSome (h : Canonical runs) :
    (runIndex runs unit).isSome ↔ unit ∈ spanned runs := by
  obtain ⟨before, after, htake, -, rfl, hbefore, hafter⟩ :=
    h.split (fun start => decide (start < unit)) (by simp; omega)
  obtain ⟨hapartBefore, hapartAfter, -⟩ := apart_append.mp h.toApart
  unfold runIndex
  rw [htake]
  by_cases hstart : ((before ++ after)[before.length]?.any fun run => decide (run.1 = unit)) = true
  · simp only [hstart, if_true, isSome_some, true_iff]
    obtain ⟨run, hrun, heq⟩ := any_eq_true _ _ |>.mp hstart
    have hmem : run ∈ before ++ after := mem_of_getElem? hrun
    have hpos := h.positive run hmem
    simp only [decide_eq_true_eq] at heq
    exact ⟨run, hmem, by omega, by omega⟩
  simp only [hstart, if_false, Bool.false_eq_true]
  have hlate : ∀ run ∈ after, unit < run.1 := by
    intro run hrun
    have hge := hafter run hrun
    simp only [decide_eq_false_iff_not, not_lt] at hge
    refine lt_of_le_of_ne hge fun heq => ?_
    cases after with
    | nil => simp at hrun
    | cons first =>
      have hfirst := hafter first (mem_cons_self ..)
      simp only [decide_eq_false_iff_not, not_lt] at hfirst
      rcases mem_cons.mp hrun with rfl | hrun
      · simp [heq] at hstart
      · have := (apart_cons.mp hapartAfter).2.2 run hrun
        omega
  have hafterOut := not_mem_spanned_of_lt hlate
  rcases eq_nil_or_concat before with rfl | ⟨front, last, rfl⟩
  · simpa using hafterOut
  · rw [concat_eq_append] at *
    have hle := hbefore last (by simp)
    simp only [decide_eq_true_eq] at hle
    have hlast : (front ++ [last] ++ after)[(front ++ [last]).length - 1]? = some last := by
      simp
    rw [spanned_append, mem_union, mem_spanned_concat hapartBefore hle.le, hlast, some_bind,
      if_neg (by simp)]
    by_cases hin : unit - last.1 < last.2
    · simp only [if_pos hin, isSome_some, true_iff]
      exact .inl (by omega)
    · simp only [if_neg hin, isSome_none, Bool.false_eq_true, false_iff, not_or]
      exact ⟨by omega, hafterOut⟩

/-- Runs apart from what they are pushed on stay as they are. -/
theorem foldl_pushRun_apart (front : List Span) {after : List Span} (h : Canonical (run :: after)) :
    after.foldl (fun merged run => pushRun merged run.1 run.2) (front ++ [run]) =
      front ++ run :: after := by
  induction after generalizing front run with
  | nil => rfl
  | cons next after ih =>
    obtain ⟨-, hend, hafter, hgap⟩ := canonical_cons.mp h
    have hapart := hgap next (mem_cons_self ..)
    rw [foldl_cons, pushRun_concat front hend (hafter.bounded next (mem_cons_self ..)),
      if_neg (by omega), ih (front ++ [run]) hafter, append_assoc, singleton_append]

/-- A unit is inserted by pushing it between the runs that start by it and those after it. -/
theorem insertRun_eq {before after : List Span} (h : Canonical (before ++ after))
    (htake : (before ++ after).takeWhile (fun run => decide (run.1 ≤ unit)) = before)
    (hdrop : (before ++ after).dropWhile (fun run => decide (run.1 ≤ unit)) = after)
    (hearly : ∀ run ∈ before, run.1 ≤ unit) (hlate : ∀ run ∈ after, unit < run.1)
    (hmax : unit + 1 ≤ u64Max) : insertRun (before ++ after) unit =
      after.foldl (fun merged run => pushRun merged run.1 run.2) (pushRun before unit 1) := by
  obtain ⟨hfront, hback, -⟩ := canonical_append.mp h
  -- a run up to the unit takes in the next one when that starts right after the unit
  have hgrow (front : List Span) {start length : ℕ} (hlength : 0 < length)
      (hstop : start + length = unit + 1) :
      after.foldl (fun merged run => pushRun merged run.1 run.2) (front ++ [(start, length)]) =
        match after.head?.filter fun run => decide (run.1 = unit + 1) with
        | some next => front ++ (start, length + next.2) :: after.tail
        | none => front ++ (start, length) :: after := by
    cases after with
    | nil => rfl
    | cons next after =>
      obtain ⟨-, hend, hafter, hgap⟩ := canonical_cons.mp hback
      have hnext := hlate next (mem_cons_self ..)
      by_cases htouch : next.1 = unit + 1
      · have hlong : start + (length + next.2) = next.1 + next.2 := by omega
        have hjoined : max (next.1 + next.2) (start + length) - start = length + next.2 := by omega
        simp only [head?_cons, filter_some, htouch, decide_true, if_true, tail_cons,
          foldl_cons]
        rw [← htouch, pushRun_concat front (hstop.trans_le hmax) hend,
          if_pos (htouch.trans hstop.symm).le]
        simp only [hjoined]
        exact foldl_pushRun_apart front (canonical_cons.mpr ⟨Nat.add_pos_left hlength _,
          hlong.trans_le hend, hafter, fun b hb => hlong.trans_lt (hgap b hb)⟩)
      · simp only [head?_cons, filter_some, htouch, decide_false, if_false, Bool.false_eq_true]
        refine foldl_pushRun_apart front (canonical_cons.mpr ⟨hlength, hstop.trans_le hmax, hback,
          forall_mem_cons.mpr ⟨hstop.trans_lt (by omega), fun b hb => hstop.trans_lt ?_⟩⟩)
        have := hgap b hb
        omega
  have hroom : ∀ next ∈ after.head?.filter fun run => decide (run.1 = unit + 1),
      unit + 1 + next.2 ≤ u64Max := by
    intro next hnext
    obtain ⟨hhead, hstart⟩ := filter_eq_some_iff.mp hnext
    rw [← of_decide_eq_true hstart]
    exact hback.bounded next (mem_of_head? hhead)
  have hunit : ¬ unit > maxUnit := by
    unfold maxUnit u64Max at *
    omega
  simp only [insertRun, if_neg hunit, htake, hdrop, saturatingAdd_eq hmax]
  rcases eq_nil_or_concat before with rfl | ⟨front, previous, rfl⟩
  · rw [show pushRun [] unit 1 = [] ++ [(unit, 1)] from rfl, hgrow [] Nat.one_pos rfl]
    cases hnext : after.head?.filter fun run => decide (run.1 = unit + 1) with
    | none => rfl
    | some next =>
      have := hroom next hnext
      simp only [saturatingAdd_eq (show next.2 + 1 ≤ u64Max by omega), add_comm 1, nil_append,
        getLast?_nil]
  · rw [concat_eq_append] at *
    obtain ⟨-, hpos, hend, -⟩ := canonical_concat.mp hfront
    rw [pushRun_concat front hend hmax]
    simp only [getLast?_append, getLast?_singleton, some_or, endOf_eq hend, dropLast_concat]
    rcases lt_trichotomy unit (previous.1 + previous.2) with hinside | hjoin | happart
    · rw [append_assoc, singleton_append] at h ⊢
      rw [if_pos hinside, if_pos hinside.le, max_eq_right hinside, Nat.add_sub_cancel_left]
      exact (foldl_pushRun_apart front (canonical_append.mp h).2.1).symm
    · have hlength : max (unit + 1) (previous.1 + previous.2) - previous.1 = previous.2 + 1 := by omega
      rw [if_neg (by omega), if_pos hjoin.symm, if_pos hjoin.le, hlength,
        hgrow front (Nat.succ_pos _) (by omega)]
      cases hnext : after.head?.filter fun run => decide (run.1 = unit + 1) with
      | none => simp only [saturatingAdd_eq (show previous.2 + 1 ≤ u64Max by omega)]
      | some next =>
        have := hroom next hnext
        simp only [saturatingAdd_eq (show previous.2 + 1 ≤ u64Max by omega),
          saturatingAdd_eq (show previous.2 + 1 + next.2 ≤ u64Max by omega)]
    · rw [if_neg (by omega), if_neg (by omega), if_neg (by omega),
        hgrow (front ++ [previous]) Nat.one_pos rfl]
      cases hnext : after.head?.filter fun run => decide (run.1 = unit + 1) with
      | none => rfl
      | some next =>
        have := hroom next hnext
        simp only [saturatingAdd_eq (show next.2 + 1 ≤ u64Max by omega), add_comm 1]

theorem insertRun_spec (h : Canonical runs) (hunit : unit ≤ maxUnit) :
    Canonical (insertRun runs unit) ∧ spanned (insertRun runs unit) = insert unit (spanned runs) := by
  obtain ⟨before, after, htake, hdrop, rfl, hbefore, hafter⟩ :=
    h.split (fun start => decide (start ≤ unit)) (by simp; omega)
  simp only [decide_eq_true_eq] at hbefore
  simp only [decide_eq_false_iff_not, not_le] at hafter
  obtain ⟨hfront, hback, -⟩ := canonical_append.mp h
  have hmax : unit + 1 ≤ u64Max := by
    unfold maxUnit u64Max at *
    omega
  obtain ⟨hpushed, hspanned, hstarts⟩ := pushRun_spec hfront hbefore Nat.one_pos hmax
  obtain ⟨hcanonical, hunion⟩ := foldl_pushRun after hback.starts_sorted
    (fun run hrun => ⟨hback.positive run hrun, hback.bounded run hrun⟩) hpushed
    fun run hrun next hnext => (hstarts run hrun).trans (hafter next hnext).le
  rw [insertRun_eq h htake hdrop hbefore hafter hmax]
  have hone : Set.Ico unit (unit + 1) = {unit} := by
    ext u
    simp only [mem_Ico, Set.mem_singleton_iff]
    omega
  refine ⟨hcanonical, ?_⟩
  rw [hunion, hspanned, hone, spanned_append, Set.union_right_comm, Set.union_singleton]

end Operations

section Difference

variable {mine others runs : List Span} {cursor stop : ℕ}

theorem Canonical.later (h : Canonical (run :: runs)) {u : ℕ} (hu : u ∈ spanned runs) :
    run.1 + run.2 < u := by
  obtain ⟨-, -, -, hbetween⟩ := canonical_cons.mp h
  obtain ⟨other, hother, hle, -⟩ := hu
  exact (hbetween other hother).trans_le hle

theorem pushGap_spec (hruns : Canonical runs) (hstarts : ∀ run ∈ runs, run.1 ≤ cursor) {upto : ℕ}
    (hupto : upto ≤ u64Max) :
    Canonical (if upto > cursor then pushRun runs cursor (upto - cursor) else runs) ∧
      spanned (if upto > cursor then pushRun runs cursor (upto - cursor) else runs) =
        spanned runs ∪ Set.Ico cursor upto ∧
      ∀ run ∈ if upto > cursor then pushRun runs cursor (upto - cursor) else runs,
        run.1 ≤ cursor := by
  split_ifs with hgap
  · have hpush := pushRun_spec hruns hstarts (show 0 < upto - cursor by omega) (by omega)
    rwa [show cursor + (upto - cursor) = upto by omega] at hpush
  · refine ⟨hruns, ?_, hstarts⟩
    rw [Set.Ico_eq_empty (by omega), Set.union_empty]

/-- One pass over the others moves the cursor on and keeps what they leave open behind it. -/
theorem cutRun_spec (hothers : Canonical others) (hruns : Canonical runs)
    (hstarts : ∀ run ∈ runs, run.1 ≤ cursor) (hcursor : cursor < stop) :
    ∃ cursor' passed rest runs', cutRun stop cursor others runs = (cursor', rest, runs') ∧
      others = passed ++ rest ∧ (∀ other ∈ passed, other.1 + other.2 < stop) ∧
      Canonical runs' ∧ (∀ run ∈ runs', run.1 ≤ cursor' ∧ run.1 < stop) ∧
      spanned runs' ∪ Set.Ico cursor' stop =
        spanned runs ∪ (Set.Ico cursor stop \ spanned others) := by
  induction others generalizing cursor runs with
  | nil =>
    refine ⟨cursor, [], [], runs, rfl, rfl, by simp, hruns, fun run hrun => ?_, by simp⟩
    have := hstarts run hrun
    omega
  | cons other others ih =>
    obtain ⟨hpos, hend, hrest, -⟩ := canonical_cons.mp hothers
    have hlater : ∀ u, u ∈ spanned others → other.1 + other.2 < u := fun u => hothers.later
    unfold cutRun
    rw [endOf_eq hend]
    by_cases hpast : other.1 + other.2 ≤ cursor
    · rw [if_pos hpast]
      obtain ⟨cursor', passed, rest, runs', heq, hsplit, hpassed, hruns', hstarts', hspanned⟩ :=
        ih hrest hruns hstarts hcursor
      refine ⟨cursor', other :: passed, rest, runs', heq, by rw [hsplit, cons_append],
        forall_mem_cons.mpr ⟨by omega, hpassed⟩, hruns', hstarts', ?_⟩
      rw [hspanned, spanned_cons]
      congr 1
      ext u
      simp only [mem_sdiff, mem_Ico, mem_union, not_or]
      exact and_congr_right fun hu => ⟨fun hout => ⟨by omega, hout⟩, And.right⟩
    rw [if_neg hpast]
    by_cases hbeyond : other.1 ≥ stop
    · rw [if_pos hbeyond]
      refine ⟨cursor, [], other :: others, runs, rfl, rfl, by simp, hruns, fun run hrun => ?_, ?_⟩
      · have := hstarts run hrun
        omega
      · congr 1
        ext u
        simp only [mem_sdiff, mem_Ico, spanned_cons, mem_union]
        refine ⟨fun hu => ⟨hu, ?_⟩, And.left⟩
        rintro (hin | hin)
        · omega
        · have := hlater u hin
          omega
    rw [if_neg hbeyond]
    obtain ⟨hruns', hspanned, hstarts'⟩ := pushGap_spec hruns hstarts (show other.1 ≤ u64Max by omega)
    generalize (if other.1 > cursor then pushRun runs cursor (other.1 - cursor) else runs) = runs' at *
    simp only [show max cursor (other.1 + other.2) = other.1 + other.2 by omega]
    by_cases hclosed : other.1 + other.2 ≥ stop
    · rw [if_pos hclosed]
      refine ⟨_, [], other :: others, _, rfl, rfl, by simp, hruns', fun run hrun => ?_, ?_⟩
      · have := hstarts' run hrun
        omega
      · have hempty : Set.Ico (other.1 + other.2) stop = ∅ := Set.Ico_eq_empty (by omega)
        rw [hspanned, hempty, Set.union_empty]
        congr 1
        ext u
        simp only [mem_sdiff, mem_Ico, spanned_cons, mem_union, not_or]
        constructor
        · intro hu
          refine ⟨by omega, by omega, fun hin => ?_⟩
          have := hlater u hin
          omega
        · omega
    · rw [if_neg hclosed]
      have hstarts'' : ∀ run ∈ runs', run.1 ≤ other.1 + other.2 := fun run hrun =>
        (hstarts' run hrun).trans (by omega)
      obtain ⟨cursor'', passed, rest, runs'', heq, hsplit, hpassed, hruns'', hstarts'', hfinal⟩ :=
        ih hrest hruns' hstarts'' (by omega)
      refine ⟨cursor'', other :: passed, rest, runs'', heq, by rw [hsplit, cons_append],
        forall_mem_cons.mpr ⟨by omega, hpassed⟩, hruns'', hstarts'', ?_⟩
      rw [hfinal, hspanned, union_assoc]
      congr 1
      ext u
      simp only [mem_sdiff, mem_Ico, spanned_cons, mem_union, not_or]
      constructor
      · rintro (hu | ⟨hu, hout⟩)
        · refine ⟨by omega, by omega, fun hin => ?_⟩
          have := hlater u hin
          omega
        · exact ⟨by omega, by omega, hout⟩
      · rintro ⟨hu, hmiss, hout⟩
        by_cases hlow : u < other.1
        · exact .inl (by omega)
        · exact .inr ⟨by omega, hout⟩

/-- What was passed ends before the next run starts, so the rest decides alone. -/
theorem foldl_differenceStep {rest : List Span} (passed : List Span) (hmine : Canonical mine)
    (hruns : Canonical runs) (hrest : Canonical rest)
    (hpassed : ∀ other ∈ passed, ∀ run ∈ mine, other.1 + other.2 ≤ run.1)
    (hstarts : ∀ done ∈ runs, ∀ run ∈ mine, done.1 ≤ run.1) :
    Canonical (mine.foldl differenceStep (rest, runs)).2 ∧
      spanned (mine.foldl differenceStep (rest, runs)).2 =
        spanned runs ∪ (spanned mine \ spanned (passed ++ rest)) := by
  induction mine generalizing rest runs passed with
  | nil => exact ⟨hruns, by simp⟩
  | cons run mine ih =>
    obtain ⟨hpos, hend, hmine', hbetween⟩ := canonical_cons.mp hmine
    obtain ⟨cursor, passed', rest', runs', heq, hsplit, hpassed', hruns', hstarts', hspanned⟩ :=
      cutRun_spec hrest hruns (fun done hdone => hstarts done hdone run (mem_cons_self ..))
        (show run.1 < run.1 + run.2 by omega)
    obtain ⟨hpush, hpushSpanned, hpushStarts⟩ :=
      pushGap_spec hruns' (fun done hdone => (hstarts' done hdone).1) hend
    have hpassed'' : ∀ other ∈ passed ++ passed', ∀ next ∈ mine, other.1 + other.2 ≤ next.1 := by
      intro other hother next hnext
      have hgap := hbetween next hnext
      rcases mem_append.mp hother with hother | hother
      · exact hpassed other hother next (mem_cons_of_mem _ hnext)
      · have := hpassed' other hother
        omega
    have hstarts'' : ∀ done ∈ (if run.1 + run.2 > cursor then
        pushRun runs' cursor (run.1 + run.2 - cursor) else runs'), ∀ next ∈ mine,
        done.1 ≤ next.1 := by
      intro done hdone next hnext
      have hgap := hbetween next hnext
      have hle := hpushStarts done hdone
      split_ifs at hdone with hopen
      · omega
      · have := (hstarts' done hdone).2
        omega
    have hrest' : Canonical rest' := (canonical_append.mp (hsplit ▸ hrest)).2.1
    obtain ⟨hfinal, hfinalSpanned⟩ := ih (passed ++ passed') hmine' hpush hrest' hpassed'' hstarts''
    have hstep : differenceStep (rest, runs) run = (rest', if run.1 + run.2 > cursor then
        pushRun runs' cursor (run.1 + run.2 - cursor) else runs') := by
      simp only [differenceStep, endOf_eq hend, heq]
    have hsame : Set.Ico run.1 (run.1 + run.2) \ spanned rest =
        Set.Ico run.1 (run.1 + run.2) \ spanned (passed ++ rest) := by
      ext u
      simp only [mem_sdiff, mem_Ico, spanned_append, mem_union, not_or]
      refine and_congr_right fun hu => ⟨fun hout => ⟨?_, hout⟩, And.right⟩
      rintro ⟨other, hother, -, hlt⟩
      have := hpassed other hother run (mem_cons_self ..)
      omega
    rw [foldl_cons, hstep]
    refine ⟨hfinal, ?_⟩
    rw [hfinalSpanned, hpushSpanned, hspanned, union_assoc, hsame, append_assoc, ← hsplit,
      spanned_cons, Set.union_sdiff_distrib]

theorem differenceRuns_spec (hmine : Canonical mine) (hothers : Canonical others) :
    Canonical (differenceRuns mine others) ∧
      spanned (differenceRuns mine others) = spanned mine \ spanned others := by
  have hfold := foldl_differenceStep [] hmine .nil hothers (by simp) (by simp)
  rwa [spanned_nil, empty_union, nil_append] at hfold

end Difference

section Missing

variable {runs : List Span} {cursor total : ℕ}

/-- The units from a cursor on that lie in no run. -/
def missingFrom (total : ℕ) : List Span → ℕ → List ℕ
  | [], cursor => gapUnits total (cursor, total)
  | run :: runs, cursor => gapUnits total (cursor, run.1) ++ missingFrom total runs (endOf run)

theorem missingFrom_eq (run : Span) (runs : List Span) (cursor total : ℕ) :
    ((cursor, run.1) :: ((run :: runs).zip runs).map (fun p => (endOf p.1, p.2.1)) ++
      [(((run :: runs).getLast?.map fun run => (endOf run, total)).getD (total, total))]).flatMap
        (gapUnits total) = missingFrom total (run :: runs) cursor := by
  induction runs generalizing run cursor with
  | nil => simp [missingFrom]
  | cons next runs ih =>
    rw [missingFrom, ← ih next (endOf run)]
    simp

theorem missingUnits_eq : missingUnits runs total = missingFrom total runs 0 := by
  cases runs with
  | nil => simp [missingUnits, missingFrom, gapUnits]
  | cons run runs => exact missingFrom_eq run runs 0 total

theorem mem_gapUnits {gap : ℕ × ℕ} {u : ℕ} :
    u ∈ gapUnits total gap ↔ gap.1 ≤ u ∧ u < gap.2 ∧ u < total := by
  rw [gapUnits, mem_range'_1]
  omega

theorem missingFrom_spec (total : ℕ) (h : Canonical runs) (hcursor : ∀ run ∈ runs, cursor ≤ run.1) :
    (missingFrom total runs cursor).Pairwise (· < ·) ∧
      ∀ u, u ∈ missingFrom total runs cursor ↔ cursor ≤ u ∧ u < total ∧ u ∉ spanned runs := by
  induction runs generalizing cursor with
  | nil =>
    refine ⟨pairwise_lt_range', fun u => ?_⟩
    rw [missingFrom, mem_gapUnits, spanned_nil]
    simp
  | cons run runs ih =>
    obtain ⟨hpos, hend, hruns, hbetween⟩ := canonical_cons.mp h
    have hstart := hcursor run (mem_cons_self ..)
    obtain ⟨hsorted, hmem⟩ := ih hruns fun next hnext => (endOf_eq hend).le.trans (hbetween next hnext).le
    rw [missingFrom]
    rw [endOf_eq hend] at hmem ⊢
    rw [endOf_eq hend] at hsorted
    refine ⟨pairwise_append.mpr ⟨pairwise_lt_range', hsorted, fun a ha b hb => ?_⟩, fun u => ?_⟩
    · have hlow := (mem_gapUnits.mp ha).2.1
      have hhigh := ((hmem b).mp hb).1
      omega
    · rw [mem_append, mem_gapUnits, hmem u, spanned_cons, mem_union, mem_Ico, not_or]
      constructor
      · rintro (⟨h1, h2, h3⟩ | ⟨h1, h2, h3⟩)
        · exact ⟨h1, h3, by omega, fun hin => absurd (h.later hin) (by omega)⟩
        · exact ⟨by omega, h2, by omega, h3⟩
      · rintro ⟨h1, h2, h3, h4⟩
        by_cases hlow : u < run.1
        · exact .inl ⟨h1, hlow, h2⟩
        · exact .inr ⟨by omega, h2, h4⟩

end Missing

structure UnitRanges where
  runs : List Span
  canonical : Canonical runs
  deriving DecidableEq

namespace UnitRanges

def new : UnitRanges := ⟨[], .nil⟩

def isEmpty (set : UnitRanges) : Bool := set.runs.isEmpty

def count (set : UnitRanges) : ℕ := set.runs.foldl (fun total run => saturatingAdd total run.2) 0

def max (set : UnitRanges) : Option ℕ := do
  let run ← set.runs.getLast?
  return saturatingAdd run.1 run.2 - 1

def units (set : UnitRanges) : List ℕ := set.runs.flatMap fun run =>
  List.range' run.1 (endOf run - run.1)

def contains (set : UnitRanges) (unit : ℕ) : Bool := (runIndex set.runs unit).isSome

def insert (set : UnitRanges) (unit : ℕ) : UnitRanges where
  runs := insertRun set.runs unit
  canonical := by
    by_cases hunit : unit ≤ maxUnit
    · exact (insertRun_spec set.canonical hunit).1
    · rw [insertRun, if_pos (Nat.not_le.mp hunit)]
      exact set.canonical

def extendUnits (set : UnitRanges) (units : List ℕ) : UnitRanges := units.foldl insert set

def union (set other : UnitRanges) : UnitRanges :=
  ⟨unionRuns set.runs other.runs, (unionRuns_spec set.canonical other.canonical).1⟩

def difference (set other : UnitRanges) : UnitRanges :=
  ⟨differenceRuns set.runs other.runs, (differenceRuns_spec set.canonical other.canonical).1⟩

def missing (set : UnitRanges) (totalUnits : ℕ) : List ℕ := missingUnits set.runs totalUnits

def fromRunsBounded (runs : List Span) (maxInputRuns : ℕ) : Except RunError UnitRanges :=
  match h : checkRuns maxInputRuns runs 0 with
  | .error e => .error e
  | .ok () => .ok ⟨normaliseRuns runs, (normaliseRuns_spec ((checkRuns_eq_ok (Nat.zero_le _)).mp h).2).1⟩

def toSet (set : UnitRanges) : Set ℕ := spanned set.runs

variable (set other : UnitRanges)

@[simp] theorem toSet_new : new.toSet = ∅ := spanned_nil

variable {unit : ℕ}

theorem contains_iff : set.contains unit = true ↔ unit ∈ set.toSet :=
  runIndex_isSome set.canonical

/-- A unit past the highest one is ignored. -/
theorem toSet_insert : (set.insert unit).toSet = set.toSet ∪ {u | u = unit ∧ u ≤ maxUnit} := by
  by_cases hunit : unit ≤ maxUnit
  · refine (insertRun_spec set.canonical hunit).2.trans ?_
    ext u
    simp only [Set.mem_insert_iff, mem_union, Set.mem_ofPred_eq, toSet]
    grind
  · have hsame : (set.insert unit).toSet = set.toSet := by
      change spanned (insertRun set.runs unit) = _
      rw [insertRun, if_pos (not_le.mp hunit), toSet]
    ext u
    grind

theorem toSet_extendUnits {units : List ℕ} :
    (set.extendUnits units).toSet = set.toSet ∪ {u | u ∈ units ∧ u ≤ maxUnit} := by
  induction units generalizing set with
  | nil => simp [extendUnits]
  | cons unit units ih =>
    rw [extendUnits, foldl_cons, ← extendUnits, ih (set.insert unit), toSet_insert]
    ext u
    simp only [mem_union, Set.mem_ofPred_eq, mem_cons]
    tauto

theorem toSet_union : (set.union other).toSet = set.toSet ∪ other.toSet :=
  (unionRuns_spec set.canonical other.canonical).2

theorem toSet_difference : (set.difference other).toSet = set.toSet \ other.toSet :=
  (differenceRuns_spec set.canonical other.canonical).2

theorem isEmpty_iff : set.isEmpty = true ↔ set.toSet = ∅ := by
  rw [isEmpty, List.isEmpty_iff]
  constructor
  · intro hnil
    rw [toSet, hnil, spanned_nil]
  · intro hempty
    cases hruns : set.runs with
    | nil => rfl
    | cons run =>
      have hpos := set.canonical.positive run (hruns ▸ mem_cons_self ..)
      have hmem : run.1 ∈ set.toSet := ⟨run, hruns ▸ mem_cons_self .., le_rfl, by omega⟩
      rw [hempty] at hmem
      exact hmem.elim

theorem mem_units : unit ∈ set.units ↔ unit ∈ set.toSet := by
  rw [units, mem_flatMap, toSet, mem_spanned]
  refine exists_congr fun run => and_congr_right fun hrun => ?_
  rw [mem_range'_1, endOf_eq (set.canonical.bounded run hrun)]
  omega

theorem max_eq_some : set.max = some unit ↔ IsGreatest set.toSet unit := by
  rcases eq_nil_or_concat set.runs with hnil | ⟨front, last, hruns⟩
  · simp [max, hnil, toSet, IsGreatest]
  · rw [concat_eq_append] at hruns
    obtain ⟨-, hpos, hend, hgap⟩ := canonical_concat.mp (hruns ▸ set.canonical)
    have hmax : set.max = some (last.1 + last.2 - 1) := by
      simp [max, hruns, saturatingAdd_eq hend]
    have hgreatest : IsGreatest set.toSet (last.1 + last.2 - 1) := by
      refine ⟨⟨last, by simp [hruns], by omega, by omega⟩, ?_⟩
      rintro u ⟨run, hrun, hle, hu⟩
      rw [hruns, mem_append, mem_singleton] at hrun
      rcases hrun with hrun | rfl
      · have := hgap run hrun
        omega
      · omega
    rw [hmax, Option.some.injEq]
    constructor
    · rintro rfl
      exact hgreatest
    · exact hgreatest.unique

theorem max_spec {total : ℕ} :
    (set.max.any fun unit => decide (unit ≥ total)) = false ↔ set.toSet ⊆ Set.Iio total := by
  cases hmax : set.max with
  | none =>
    have hempty : set.toSet = ∅ := by
      rw [max, bind_eq_bind, bind_eq_none_iff] at hmax
      rw [← isEmpty_iff, isEmpty, List.isEmpty_iff, ← getLast?_eq_none_iff]
      exact eq_none_iff_forall_ne_some.mpr fun run hrun => by simpa using hmax run hrun
    simp [hempty]
  | some unit =>
    obtain ⟨hmem, hupper⟩ := set.max_eq_some.mp hmax
    simp only [any_some, decide_eq_false_iff_not, ge_iff_le, not_le]
    exact ⟨fun hlt u hu => (hupper hu).trans_lt hlt, fun hsub => hsub hmem⟩

theorem missing_spec (totalUnits : ℕ) : (set.missing totalUnits).Pairwise (· < ·) ∧
    ∀ unit, unit ∈ set.missing totalUnits ↔ unit < totalUnits ∧ unit ∉ set.toSet := by
  rw [missing, missingUnits_eq]
  obtain ⟨hsorted, hmem⟩ := missingFrom_spec totalUnits set.canonical fun _ _ => Nat.zero_le _
  exact ⟨hsorted, fun unit => by simp [hmem unit, toSet]⟩

theorem units_sorted : set.units.Pairwise (· < ·) := by
  refine pairwise_flatMap.mpr ⟨fun run _ => pairwise_lt_range', ?_⟩
  refine set.canonical.spaced.imp_of_mem fun {a b} ha _ hab u hu v hv => ?_
  rw [mem_range'_1, endOf_eq (set.canonical.bounded a ha)] at hu
  rw [mem_range'_1] at hv
  omega

variable {runs : List Span}

/-- The units of runs that end by a bound are no more than it, so their count does not saturate. -/
theorem foldl_count (h : Canonical runs) {bound : ℕ} (hbound : bound ≤ u64Max)
    (hends : ∀ run ∈ runs, run.1 + run.2 ≤ bound) :
    runs.foldl (fun total run => saturatingAdd total run.2) 0 =
        (runs.flatMap fun run => List.range' run.1 (endOf run - run.1)).length ∧
      (runs.flatMap fun run => List.range' run.1 (endOf run - run.1)).length ≤ bound := by
  induction runs using List.reverseRecOn generalizing bound with
  | nil => simp
  | append_singleton front last ih =>
    obtain ⟨hfront, -, hend, hgap⟩ := canonical_concat.mp h
    have hlast := hends last (by simp)
    obtain ⟨heq, hle⟩ := ih hfront (show last.1 ≤ u64Max by omega) fun run hrun => (hgap run hrun).le
    rw [foldl_concat, heq, flatMap_append, length_append, flatMap_singleton, length_range',
      endOf_eq hend, Nat.add_sub_cancel_left]
    exact ⟨saturatingAdd_eq (by omega), by omega⟩

theorem count_eq : set.count = set.toSet.ncard := by
  have hset : set.toSet = ↑set.units.toFinset := by
    ext u
    simp [mem_units]
  rw [hset, Set.ncard_coe_finset, toFinset_card_of_nodup (set.units_sorted.imp ne_of_lt)]
  exact (foldl_count set.canonical le_rfl set.canonical.bounded).1

theorem eq_iff_toSet_eq : set = other ↔ set.toSet = other.toSet := by
  constructor
  · rintro rfl
    rfl
  · intro h
    have hruns := set.canonical.toApart.eq_of_spanned other.canonical.toApart h
    cases set
    cases other
    simpa using hruns

variable {maxInputRuns : ℕ}

theorem fromRunsBounded_eq_ok {set : UnitRanges}
    (h : fromRunsBounded runs maxInputRuns = .ok set) : set.toSet = spanned runs := by
  unfold fromRunsBounded at h
  split at h
  · cases h
  · next hcheck =>
    cases h
    exact (normaliseRuns_spec ((checkRuns_eq_ok (Nat.zero_le _)).mp hcheck).2).2

theorem fromRunsBounded_fails :
    (∃ error, fromRunsBounded runs maxInputRuns = .error error) ↔ maxInputRuns < runs.length ∨
      ∃ run ∈ runs, run.2 = 0 ∨ u64Max < run.1 + run.2 := by
  have hfails : (∃ error, fromRunsBounded runs maxInputRuns = .error error) ↔
      checkRuns maxInputRuns runs 0 ≠ .ok () := by
    unfold fromRunsBounded
    split <;> simp_all
  rw [hfails, Ne, checkRuns_eq_ok (Nat.zero_le _), not_and_or, Nat.zero_add, not_le]
  simp only [not_forall, not_and_or, Nat.not_lt, Nat.le_zero, not_le, exists_prop]

/-- The sets that the operations build, with the mathematical sets they stand for. -/
inductive Built : UnitRanges → Set ℕ → Prop where
  | new : Built .new ∅
  | insert {set : UnitRanges} {units : Set ℕ} (unit : ℕ) : Built set units →
      Built (set.insert unit) (units ∪ {u | u = unit ∧ u ≤ maxUnit})
  | extendUnits {set : UnitRanges} {units : Set ℕ} (added : List ℕ) : Built set units →
      Built (set.extendUnits added) (units ∪ {u | u ∈ added ∧ u ≤ maxUnit})
  | union {set other : UnitRanges} {units others : Set ℕ} : Built set units → Built other others →
      Built (set.union other) (units ∪ others)
  | difference {set other : UnitRanges} {units others : Set ℕ} : Built set units →
      Built other others → Built (set.difference other) (units \ others)
  | fromRuns {set : UnitRanges} {runs : List Span} {maxInputRuns : ℕ} :
      fromRunsBounded runs maxInputRuns = .ok set →
      Built set {u | ∃ run ∈ runs, run.1 ≤ u ∧ u < run.1 + run.2}

theorem Built.toSet_eq {set : UnitRanges} {units : Set ℕ} (h : Built set units) : set.toSet = units := by
  induction h with
  | new => exact toSet_new
  | insert unit _ ih => rw [toSet_insert, ih]
  | extendUnits added _ ih => rw [toSet_extendUnits, ih]
  | union _ _ ih ih' => rw [toSet_union, ih, ih']
  | difference _ _ ih ih' => rw [toSet_difference, ih, ih']
  | fromRuns hruns => exact fromRunsBounded_eq_ok hruns

/-- Run lists refine finite sets: every query answers for the set that was built, and equal sets
have one run list. -/
theorem units_refine_sets {set other : UnitRanges} {units others : Set ℕ} (h : Built set units)
    (h' : Built other others) :
    (∀ unit, set.contains unit = true ↔ unit ∈ units) ∧ set.count = units.ncard ∧ units.Finite ∧
    (∀ unit, set.max = some unit ↔ IsGreatest units unit) ∧
    (set.units.Pairwise (· < ·) ∧ ∀ unit, unit ∈ set.units ↔ unit ∈ units) ∧
    (∀ total, (set.missing total).Pairwise (· < ·) ∧
      ∀ unit, unit ∈ set.missing total ↔ unit < total ∧ unit ∉ units) ∧
    (∀ run ∈ set.runs, 0 < run.2) ∧ (set.runs.Pairwise fun a b => a.1 + a.2 < b.1) ∧
    (set = other ↔ units = others) ∧
    ∀ runs maxInputRuns, (∃ error, fromRunsBounded runs maxInputRuns = .error error) ↔
      maxInputRuns < runs.length ∨ ∃ run ∈ runs, run.2 = 0 ∨ u64Max < run.1 + run.2 := by
  obtain rfl := h.toSet_eq
  obtain rfl := h'.toSet_eq
  refine ⟨fun _ => set.contains_iff, set.count_eq, ?_, fun _ => set.max_eq_some,
    ⟨set.units_sorted, fun _ => set.mem_units⟩, set.missing_spec, set.canonical.positive,
    set.canonical.spaced, set.eq_iff_toSet_eq other, fun _ _ => fromRunsBounded_fails⟩
  apply set.units.toFinset.finite_toSet.subset
  intro u hu
  simpa [mem_units] using hu

/-- Two ways to the units 3, 4 and 5. -/
theorem units_refine_sets_two_ways :
    ((new.insert 5).insert 3).insert 4 = new.extendUnits [4, 3, 5, 4] ∧
      (((new.insert 5).insert 3).insert 4).runs = [(3, 3)] := by
  have h := Built.insert 4 (.insert 3 (.insert 5 .new))
  have h' := Built.extendUnits [4, 3, 5, 4] .new
  refine ⟨(units_refine_sets h h').2.2.2.2.2.2.2.2.1.mpr ?_, rfl⟩
  have hmax : 5 ≤ maxUnit := by decide
  ext u
  simp only [mem_union, Set.mem_ofPred_eq, mem_cons, not_mem_nil, or_false]
  grind

end UnitRanges

end ObjectTransfer.Resume
