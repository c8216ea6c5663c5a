import ObjectTransfer.Foundations.Runs
import ObjectTransfer.Resume.Tracker

/-! # Resume bookkeeping over whole runs

Units are begun and completed, plans are prepared and committed late, out of order or not at all,
and the host may make more durable than a plan proposed. No completed unit is ever lost or started
again, and at most a window of completed units is not checkpointed.
-/

namespace ObjectTransfer.Resume
open Foundations List ResumeState UnitRanges

/-- A plan not committed yet, and whether no plan was committed since it was prepared. -/
structure Held where
  plan : CheckpointPlan
  fresh : Bool

/-- A state with the plans made of it and the units whose completion it accepted, the latest
first. -/
structure Tracked where
  state : ResumeState
  plans : List Held
  finished : List ℕ

inductive Act where
  | begin (unit : ℕ)
  | complete (unit : ℕ)
  | prepare
  | commit (index : ℕ) (durable : UnitRanges)

/-- One call. An error leaves the state as it is; a plan is used up by its commit. -/
def Tracked.step (tracked : Tracked) : Act → Tracked
  | .begin unit =>
    match tracked.state.beginUnit unit with
    | .ok (state, _) => { tracked with state }
    | .error _ => tracked
  | .complete unit =>
    match tracked.state.completeUnit unit with
    | .ok (state, _) => ⟨state, tracked.plans, unit :: tracked.finished⟩
    | .error _ => tracked
  | .prepare => { tracked with plans := tracked.plans ++ [⟨tracked.state.prepareCheckpoint, true⟩] }
  | .commit index durable =>
    match tracked.plans[index]? with
    | none => tracked
    | some held =>
      let plans := tracked.plans.eraseIdx index
      match tracked.state.commitCheckpoint held.plan durable with
      | .ok state => ⟨state, plans.map fun other => { other with fresh := false }, tracked.finished⟩
      | .error _ => { tracked with plans }

def Act.isCommit : Act → Bool
  | .commit _ _ => true
  | _ => false

/-- Units that will not be sent again. -/
def ResumeState.settled (state : ResumeState) : Set ℕ :=
  {u | u ∈ state.completedSinceCheckpoint} ∪ state.checkpointed.toSet

/-- The three sets of units, and the window. -/
structure Sound (state : ResumeState) : Prop where
  active : ∀ u ∈ state.active, u < state.totalUnits.toNat ∧ u ∉ state.completedSinceCheckpoint ∧
    u ∉ state.checkpointed.toSet
  completed : ∀ u ∈ state.completedSinceCheckpoint, u < state.totalUnits.toNat ∧
    u ∉ state.checkpointed.toSet
  checkpointed : state.checkpointed.toSet ⊆ Set.Iio state.totalUnits.toNat
  window : state.completedSinceCheckpoint.card ≤ state.checkpointWindow

/-- What a plan knows of the state it will be committed to. -/
structure Planned (state : ResumeState) (held : Held) : Prop where
  identity : held.plan.identity = state.identity
  total : held.plan.totalUnits = state.totalUnits
  generation : held.plan.generation ≤ state.checkpointGeneration
  fresh : held.fresh = true ↔ held.plan.generation = state.checkpointGeneration
  baseline : held.fresh = true → held.plan.baseline = state.checkpointed
  pending : held.fresh = true → ∀ u ∈ held.plan.pending.toSet, u ∈ state.completedSinceCheckpoint
  proposal : held.plan.checkpointed.toSet = held.plan.baseline.toSet ∪ held.plan.pending.toSet

variable {totalUnits : UInt64}

section Calls

variable {state state' : ResumeState} {unit : ℕ} {answer : Bool}

theorem le_maxUnit (h : unit < state.totalUnits.toNat) : unit ≤ maxUnit := by
  have hlt := state.totalUnits.toNat_lt
  unfold maxUnit u64Max
  omega

theorem beginUnit_ok (h : state.beginUnit unit = .ok (state', answer)) :
    (unit ∈ state.settled ∧ state' = state ∧ answer = false) ∨
    (unit < state.totalUnits.toNat ∧ unit ∉ state.settled ∧ unit ∉ state.active ∧
      state' = { state with active := insert unit state.active } ∧ answer = true) := by
  simp only [beginUnit, validateUnit, bind_eq_ok, rejectIf_eq_ok,
    exists_const] at h
  obtain ⟨hunit, h⟩ := h
  split_ifs at h with hsettled
  · obtain ⟨rfl, rfl⟩ := Prod.mk.inj (Except.ok.inj h)
    rw [contains_iff] at hsettled
    exact .inl ⟨hsettled.symm, rfl, rfl⟩
  · simp only [bind_eq_ok, rejectIf_eq_ok, exists_const] at h
    obtain ⟨hactive, h⟩ := h
    obtain ⟨rfl, rfl⟩ := Prod.mk.inj (Except.ok.inj h)
    rw [contains_iff] at hsettled
    exact .inr ⟨by omega, fun hin => hsettled hin.symm, hactive, rfl, rfl⟩

theorem completeUnit_ok (h : state.completeUnit unit = .ok (state', answer)) :
    unit < state.totalUnits.toNat ∧ unit ∈ state.active ∧
      state.completedSinceCheckpoint.card < state.checkpointWindow ∧
      state' = { state with
        active := state.active.erase unit
        completedSinceCheckpoint := insert unit state.completedSinceCheckpoint } := by
  simp only [completeUnit, validateUnit, bind_eq_ok, rejectIf_eq_ok,
    exists_const, not_not] at h
  obtain ⟨hunit, hactive, hwindow, h⟩ := h
  obtain ⟨rfl, -⟩ := Prod.mk.inj (Except.ok.inj h)
  exact ⟨by omega, hactive, by omega, rfl⟩

variable {durable : UnitRanges}

theorem validateDurable_ok {u : Unit} :
    validateDurable totalUnits durable = .ok u ↔ durable.toSet ⊆ Set.Iio totalUnits.toNat := by
  rw [validateDurable, rejectIf_eq_ok, Bool.not_eq_true]
  exact durable.max_spec

theorem difference_isEmpty {proposal durable : UnitRanges} :
    (proposal.difference durable).isEmpty = true ↔ proposal.toSet ⊆ durable.toSet := by
  rw [UnitRanges.isEmpty_iff, toSet_difference, Set.sdiff_eq_empty]

theorem commitCheckpoint_ok {plan : CheckpointPlan} :
    state.commitCheckpoint plan durable = .ok state' ↔
      state.stale plan = false ∧ durable.toSet ⊆ Set.Iio state.totalUnits.toNat ∧
      plan.checkpointed.toSet ⊆ durable.toSet ∧ state.checkpointGeneration < u64Max ∧
      state' = { state with
        completedSinceCheckpoint :=
          state.completedSinceCheckpoint.filter fun unit => ¬ durable.contains unit
        active := state.active.filter fun unit => ¬ durable.contains unit
        checkpointed := durable
        checkpointGeneration := state.checkpointGeneration + 1 } := by
  simp only [commitCheckpoint, bind_eq_ok, rejectIf_eq_ok, validateDurable_ok,
    okOr_eq_ok, checkedAdd_eq_some, exists_const, not_not, difference_isEmpty, Bool.not_eq_true]
  constructor
  · rintro ⟨hstale, hdurable, hproposal, _, ⟨hroom, rfl⟩, h⟩
    exact ⟨hstale, hdurable, hproposal, hroom, (Except.ok.inj h).symm⟩
  · rintro ⟨hstale, hdurable, hproposal, hroom, rfl⟩
    exact ⟨hstale, hdurable, hproposal, _, ⟨hroom, rfl⟩, rfl⟩

end Calls

inductive Step (tracked : Tracked) : Act → Tracked → Prop where
  | idle (act : Act) : Step tracked act tracked
  | begun (unit : ℕ) (inside : unit < tracked.state.totalUnits.toNat)
      (unsettled : unit ∉ tracked.state.settled) :
      Step tracked (.begin unit)
        { tracked with state := { tracked.state with active := insert unit tracked.state.active } }
  | completed (unit : ℕ) (active : unit ∈ tracked.state.active)
      (room : tracked.state.completedSinceCheckpoint.card < tracked.state.checkpointWindow) :
      Step tracked (.complete unit)
        ⟨{ tracked.state with
            active := tracked.state.active.erase unit
            completedSinceCheckpoint := insert unit tracked.state.completedSinceCheckpoint },
          tracked.plans, unit :: tracked.finished⟩
  | prepared :
      Step tracked .prepare
        { tracked with plans := tracked.plans ++ [⟨tracked.state.prepareCheckpoint, true⟩] }
  | rejected (index : ℕ) (durable : UnitRanges) :
      Step tracked (.commit index durable)
        { tracked with plans := tracked.plans.eraseIdx index }
  | committed (index : ℕ) (durable : UnitRanges) (held : Held)
      (found : tracked.plans[index]? = some held)
      (current : tracked.state.stale held.plan = false)
      (inside : durable.toSet ⊆ Set.Iio tracked.state.totalUnits.toNat)
      (covered : held.plan.checkpointed.toSet ⊆ durable.toSet) :
      Step tracked (.commit index durable)
        ⟨{ tracked.state with
            completedSinceCheckpoint :=
              tracked.state.completedSinceCheckpoint.filter fun unit => ¬ durable.contains unit
            active := tracked.state.active.filter fun unit => ¬ durable.contains unit
            checkpointed := durable
            checkpointGeneration := tracked.state.checkpointGeneration + 1 },
          (tracked.plans.eraseIdx index).map fun other => { other with fresh := false },
          tracked.finished⟩

theorem step_cases (tracked : Tracked) (act : Act) : Step tracked act (tracked.step act) := by
  cases act with
  | begin unit =>
    cases hbegin : tracked.state.beginUnit unit with
    | error =>
      simp only [Tracked.step, hbegin]
      exact .idle _
    | ok =>
      simp only [Tracked.step, hbegin]
      rcases beginUnit_ok hbegin with ⟨-, hsame, -⟩ | ⟨hunit, hnew, -, hnext, -⟩
      · rw [hsame]
        exact .idle _
      · rw [hnext]
        exact .begun unit hunit hnew
  | complete unit =>
    cases hcomplete : tracked.state.completeUnit unit with
    | error =>
      simp only [Tracked.step, hcomplete]
      exact .idle _
    | ok =>
      simp only [Tracked.step, hcomplete]
      obtain ⟨-, hactive, hroom, hnext⟩ := completeUnit_ok hcomplete
      rw [hnext]
      exact .completed unit hactive hroom
  | prepare => exact .prepared
  | commit index durable =>
    cases hindex : tracked.plans[index]? with
    | none =>
      simp only [Tracked.step, hindex]
      exact .idle _
    | some held =>
      cases hcommit : tracked.state.commitCheckpoint held.plan durable with
      | error =>
        simp only [Tracked.step, hindex, hcommit]
        exact .rejected index durable
      | ok =>
        simp only [Tracked.step, hindex, hcommit]
        obtain ⟨hcurrent, hinside, hcovered, -, rfl⟩ := commitCheckpoint_ok.mp hcommit
        exact .committed index durable held hindex hcurrent hinside hcovered

section Plans

variable {state : ResumeState} {held : Held}

theorem Sound.pending_eq (h : Sound state) : state.prepareCheckpoint.pending.toSet =
    {u | u ∈ state.completedSinceCheckpoint} := by
  rw [prepareCheckpoint]
  rw [toSet_extendUnits]
  ext u
  simpa using fun hu => le_maxUnit (h.completed u hu).1

theorem Planned.prepare (h : Sound state) : Planned state ⟨state.prepareCheckpoint, true⟩ := by
  refine ⟨rfl, rfl, le_rfl, by simp [prepareCheckpoint], fun _ => rfl, fun _ u hu => ?_,
    toSet_union _ _⟩
  rw [h.pending_eq] at hu
  exact hu

theorem Planned.stale_iff (h : Planned state held) :
    state.stale held.plan = false ↔ held.fresh = true := by
  simp only [stale, Bool.or_eq_false_iff, decide_eq_false_iff_not, ne_eq, not_not,
    any_eq_false, decide_eq_true_eq]
  constructor
  · rintro ⟨⟨⟨⟨-, hgeneration⟩, -⟩, -⟩, -⟩
    exact h.fresh.mpr hgeneration
  · intro hfresh
    exact ⟨⟨⟨⟨h.identity, h.fresh.mp hfresh⟩, h.total⟩, h.baseline hfresh⟩, fun u hu =>
      h.pending hfresh u ((mem_units _).mp hu)⟩

end Plans

structure Kept (tracked : Tracked) (commits : ℕ) : Prop where
  sound : Sound tracked.state
  planned : ∀ held ∈ tracked.plans, Planned tracked.state held
  generation : tracked.state.checkpointGeneration ≤ commits
  accepted : ∀ u ∈ tracked.state.completedSinceCheckpoint, u ∈ tracked.finished
  settled : ∀ u ∈ tracked.finished, u ∈ tracked.state.settled

section Runs

variable {tracked tracked' : Tracked} {act : Act} {commits : ℕ}

/-- The units stay disjoint and in range, and the window holds. -/
theorem Step.sound (hstep : Step tracked act tracked') (h : Sound tracked.state) :
    Sound tracked'.state := by
  cases hstep with
  | idle | prepared | rejected => exact h
  | begun unit inside unsettled =>
    refine ⟨fun u hu => ?_, h.completed, h.checkpointed, h.window⟩
    rcases Finset.mem_insert.mp hu with rfl | hu
    · exact ⟨inside, fun hin => unsettled (.inl hin), fun hin => unsettled (.inr hin)⟩
    · exact h.active u hu
  | completed unit active room =>
    refine ⟨fun u hu => ?_, fun u hu => ?_, h.checkpointed, ?_⟩
    · obtain ⟨hne, hu⟩ := Finset.mem_erase.mp hu
      obtain ⟨h1, h2, h3⟩ := h.active u hu
      exact ⟨h1, by simp [hne, h2], h3⟩
    · rcases Finset.mem_insert.mp hu with rfl | hu
      · exact ⟨(h.active u active).1, (h.active u active).2.2⟩
      · exact h.completed u hu
    · exact (Finset.card_insert_le _ _).trans room
  | committed index durable held found current inside =>
    refine ⟨fun u hu => ?_, fun u hu => ?_, inside, ?_⟩
    · obtain ⟨hu, hout⟩ := Finset.mem_filter.mp hu
      rw [contains_iff] at hout
      obtain ⟨h1, h2, -⟩ := h.active u hu
      exact ⟨h1, fun hin => h2 (Finset.mem_filter.mp hin).1, hout⟩
    · obtain ⟨hu, hout⟩ := Finset.mem_filter.mp hu
      rw [contains_iff] at hout
      exact ⟨(h.completed u hu).1, hout⟩
    · exact (Finset.card_filter_le _ _).trans h.window

/-- Units begun or completed after a plan was made leave it as good as it was; a commit makes every
other plan stale. -/
theorem Step.planned (hstep : Step tracked act tracked') (hsound : Sound tracked.state)
    (h : ∀ held ∈ tracked.plans, Planned tracked.state held) :
    ∀ held ∈ tracked'.plans, Planned tracked'.state held := by
  intro held hheld
  cases hstep with
  | idle => exact h held hheld
  | begun =>
    have hplan := h held hheld
    exact ⟨hplan.identity, hplan.total, hplan.generation, hplan.fresh, hplan.baseline, hplan.pending,
      hplan.proposal⟩
  | completed =>
    have hplan := h held hheld
    exact ⟨hplan.identity, hplan.total, hplan.generation, hplan.fresh, hplan.baseline,
      fun hfresh u hu => Finset.mem_insert_of_mem (hplan.pending hfresh u hu), hplan.proposal⟩
  | prepared =>
    rcases mem_append.mp hheld with hheld | hheld
    · exact h held hheld
    · obtain rfl := mem_singleton.mp hheld
      exact .prepare hsound
  | rejected => exact h held (mem_of_mem_eraseIdx hheld)
  | committed =>
    obtain ⟨old, hold, rfl⟩ := mem_map.mp hheld
    have hplan := h old (mem_of_mem_eraseIdx hold)
    have hle := hplan.generation
    refine ⟨hplan.identity, hplan.total, hle.trans (Nat.le_succ _), ?_, by simp, by simp,
      hplan.proposal⟩
    simp only [Bool.false_eq_true, false_iff]
    omega

theorem Kept.step_grows (h : Kept tracked commits) (act : Act) :
    tracked.state.settled ⊆ (tracked.step act).state.settled ∧
      tracked.state.checkpointed.toSet ⊆ (tracked.step act).state.checkpointed.toSet ∧
      (tracked.step act).state.totalUnits = tracked.state.totalUnits ∧
      (tracked.step act).state.checkpointWindow = tracked.state.checkpointWindow := by
  have hstep := step_cases tracked act
  generalize tracked.step act = tracked' at hstep
  cases hstep with
  | idle | begun | prepared | rejected => exact ⟨le_rfl, le_rfl, rfl, rfl⟩
  | completed =>
    exact ⟨Set.union_subset_union_left _ fun u hu => Finset.mem_insert_of_mem hu, le_rfl, rfl, rfl⟩
  | committed index durable held found current inside covered =>
    have hplan := h.planned held (mem_of_getElem? found)
    have hgrows : tracked.state.checkpointed.toSet ⊆ durable.toSet := by
      rw [← hplan.baseline (hplan.stale_iff.mp current)]
      exact (Set.subset_union_left.trans hplan.proposal.ge).trans covered
    refine ⟨?_, hgrows, rfl, rfl⟩
    rintro u (hu | hu)
    · by_cases hin : u ∈ durable.toSet
      · exact .inr hin
      · rw [← contains_iff] at hin
        exact .inl (Finset.mem_filter.mpr ⟨hu, hin⟩)
    · exact .inr (hgrows hu)

theorem Kept.step (h : Kept tracked commits) (act : Act) :
    Kept (tracked.step act) (commits + if act.isCommit then 1 else 0) := by
  have hstep := step_cases tracked act
  have hgrows := (h.step_grows act).1
  have hsound := hstep.sound h.sound
  have hplanned := hstep.planned h.sound h.planned
  have hle := h.generation
  have hsettled := fun u hu => hgrows (h.settled u hu)
  generalize tracked.step act = tracked' at *
  cases hstep with
  | idle | rejected =>
    exact ⟨hsound, hplanned, hle.trans (Nat.le_add_right _ _), h.accepted, hsettled⟩
  | begun | prepared => exact ⟨hsound, hplanned, hle, h.accepted, hsettled⟩
  | completed unit =>
    refine ⟨hsound, hplanned, hle, fun u hu => ?_, fun u hu => ?_⟩
    · rcases Finset.mem_insert.mp hu with rfl | hu
      · exact .head _
      · exact .tail _ (h.accepted u hu)
    · rcases mem_cons.mp hu with rfl | hu
      · exact .inl (Finset.mem_insert_self _ _)
      · exact hsettled u hu
  | committed =>
    exact ⟨hsound, hplanned, Nat.succ_le_succ hle,
      fun u hu => h.accepted u (Finset.mem_filter.mp hu).1, hsettled⟩

theorem Kept.run (h : Kept tracked commits) (acts : List Act) :
    Kept (run Tracked.step tracked acts) (commits + acts.countP Act.isCommit) ∧
      tracked.state.settled ⊆ (run Tracked.step tracked acts).state.settled ∧
      tracked.state.checkpointed.toSet ⊆ (run Tracked.step tracked acts).state.checkpointed.toSet ∧
      (run Tracked.step tracked acts).state.totalUnits = tracked.state.totalUnits ∧
      (run Tracked.step tracked acts).state.checkpointWindow = tracked.state.checkpointWindow := by
  induction acts generalizing tracked commits with
  | nil => exact ⟨h, le_rfl, le_rfl, rfl, rfl⟩
  | cons act acts ih =>
    obtain ⟨hsettled, hcheckpointed, htotal, hwindow⟩ := h.step_grows act
    obtain ⟨hkept, hsettled', hcheckpointed', htotal', hwindow'⟩ := ih (h.step act)
    rw [run_cons, countP_cons]
    refine ⟨?_, hsettled.trans hsettled', hcheckpointed.trans hcheckpointed', htotal'.trans htotal,
      hwindow'.trans hwindow⟩
    rwa [add_assoc, add_comm (if act.isCommit = true then 1 else 0)] at hkept

theorem Kept.new {identity : ResumeIdentity} {checkpointWindow : ℕ}
    {checkpointed : UnitRanges} {state : ResumeState}
    (h : ResumeState.new identity totalUnits checkpointWindow checkpointed = .ok state) :
    Kept ⟨state, [], []⟩ 0 ∧ state.totalUnits = totalUnits ∧
      state.checkpointWindow = checkpointWindow := by
  simp only [ResumeState.new, bind_eq_ok, validateDurable_ok] at h
  obtain ⟨-, -, -, hdurable, h⟩ := h
  obtain rfl := Except.ok.inj h
  exact ⟨⟨⟨by simp, by simp, hdurable, by simp⟩, by simp, le_rfl, by simp, by simp⟩, rfl, rfl⟩

end Runs

end ObjectTransfer.Resume
