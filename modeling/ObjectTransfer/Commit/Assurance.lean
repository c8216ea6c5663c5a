import ObjectTransfer.Foundations.Runs
import ObjectTransfer.Commit.Machine

/-! # Commit assurance never runs ahead of evidence

The levels a machine has performed are a function of the state it stands in, or
of the state a crash saved. That one invariant survives every accepted event,
so it holds after any sequence of events and staleness marks, and the ordering,
predecessor and recovery guarantees are read off it.
-/

namespace ObjectTransfer.Commit
open Foundations List Machine

/-- What can happen to a machine: an event is offered, or its incarnation ends. -/
inductive Action where
  | event (e : Event)
  | markStale
  deriving DecidableEq, Repr

/-- A machine with everything it has observed so far. -/
structure History where
  machine : Machine
  observed : List Observation
  deriving DecidableEq, Repr

namespace History

def fresh (profile : Profile) : History := ⟨.new profile, []⟩

def step (h : History) : Action → History
  | .event e =>
    let (machine, result) := h.machine.apply e
    ⟨machine, h.observed ++ (result.toOption.bind id).toList⟩
  | .markStale => ⟨h.machine.markStale, h.observed⟩

end History

/-- The history of a fresh machine under a sequence of actions. -/
def history (profile : Profile) (actions : List Action) : History :=
  run History.step (.fresh profile) actions

/-- Every level up to and including the given one, in order. -/
def Assurance.upTo (level : Assurance) : List Assurance :=
  [admitted, transitVerified, durable, atRestVerified, published].filter (· ≤ level)

theorem Assurance.mem_upTo {level a : Assurance} : a ∈ upTo level ↔ a ≤ level := by
  cases level <;> cases a <;> decide

/-- The levels performed by a machine that stands in a live state. -/
def attained (profile : Profile) : State → List Assurance
  | .admitted => Assurance.upTo .admitted
  | .transitVerified => Assurance.upTo .transitVerified
  | .dataFlushed => Assurance.upTo .transitVerified
  | .durable => Assurance.upTo .durable
  | .atRestVerified => Assurance.upTo .atRestVerified
  | .namespaceLinked => Assurance.upTo profile.requiredPredecessor
  | .published => Assurance.upTo profile.requiredPredecessor ++ [.published]
  | _ => []

/-- The transitions that climb towards publication, with the level each observes. -/
inductive Climb (profile : Profile) : State → State → Option Assurance → Prop where
  | admission : Climb profile .new .admitted (some .admitted)
  | verify : Climb profile .admitted .transitVerified (some .transitVerified)
  | flush : Climb profile .transitVerified .dataFlushed none
  | journal : Climb profile .dataFlushed .durable (some .durable)
  | atRest : Climb profile .durable .atRestVerified (some .atRestVerified)
  | link : Climb profile profile.requiredPredecessor.state .namespaceLinked none
  | publish : Climb profile .namespaceLinked .published (some .published)

variable {profile : Profile} {o : Option Assurance} {s : State} {next : State}

theorem Climb.attained_next (h : Climb profile s next o) :
    attained profile next = attained profile s ++ o.toList := by
  cases h with
  | link => cases profile <;> rfl
  | _ => rfl

variable {l : Assurance}

theorem Climb.above (h : Climb profile s next (some l)) : ∀ a ∈ attained profile s, a < l := by
  cases h <;> cases profile <;> decide

theorem Climb.not_recovery (h : Climb profile s next o) :
    s ≠ .recoveryRequired ∧ next ≠ .recoveryRequired := by
  cases h with
  | link => cases profile <;> decide
  | _ => decide

/-- No event is accepted in these states. -/
def State.Terminal (s : State) : Prop := s = .published ∨ s = .poisoned ∨ s = .aborted

variable {t : Transition} {err : Error}

namespace Machine

/-- Everything an accepted event can do. -/
inductive Accepts (m : Machine) : Event → Transition → Prop where
  | recover {s : State} (at_ : m.state = .recoveryRequired) (saved : m.recoveryState = some s) :
      Accepts m .recover ⟨s, m.sequence + 1, none, none⟩
  | enter {e : Event} (live : m.state ≠ .recoveryRequired) (ne : e ≠ .recover) :
      Accepts m e ⟨.recoveryRequired, m.sequence + 1, some m.state, none⟩
  | stop {e : Event} {s : State} (ne : e ≠ .recover) (h : s = .poisoned ∨ s = .aborted) :
      Accepts m e ⟨s, m.sequence + 1, m.recoveryState, none⟩
  | climb {e : Event} {s : State} {o : Option Assurance} (ne : e ≠ .recover)
      (h : Climb m.profile m.state s o) :
      Accepts m e ⟨s, m.sequence + 1, m.recoveryState, o⟩

theorem target_namespaceLinked (m : Machine) :
    m.target .namespaceLinked =
      if m.canPublishFrom m.state then .ok (.namespaceLinked, none)
      else .error .invalidTransition := by
  rcases m with ⟨profile, state, current, saved, seq, performed⟩
  cases state <;> rfl

variable {m : Machine} {e : Event}

theorem target_cases (h : m.target e = .ok (next, o)) :
    (m.state ≠ .recoveryRequired ∧ next = .recoveryRequired ∧ o = none) ∨
      ((next = .poisoned ∨ next = .aborted) ∧ o = none) ∨ Climb m.profile m.state next o := by
  by_cases he : e = .namespaceLinked
  · subst he
    rw [target_namespaceLinked] at h
    split_ifs at h with hp
    cases h
    have hs : m.state = m.profile.requiredPredecessor.state := by simpa [canPublishFrom] using hp
    rw [hs]
    exact .inr (.inr .link)
  · cases hs : m.state <;> cases e <;> simp [target, target.enterRecovery, hs] at h he <;>
      obtain ⟨rfl, rfl⟩ := h <;> simp <;> constructor

/-- The inversion lemma for one event: the guards it passed and what it does. -/
theorem plan_cases (h : m.plan e = .ok t) :
    m.currentIncarnation = true ∧ ¬ m.state.Terminal ∧ m.Accepts e t := by
  simp only [plan, bind_eq_ok, rejectIf_eq_ok, not_not, exists_const] at h
  obtain ⟨hc, ht, -, h⟩ := h
  refine ⟨hc, ht, ?_⟩
  split_ifs at h with he
  · simp only [bind_eq_ok, rejectIf_eq_ok, okOr_eq_ok, not_not] at h
    obtain ⟨-, hs, s, hr, ht⟩ := h
    cases ht
    subst he
    exact .recover hs hr
  · simp only [bind_eq_ok, rejectIf_eq_ok] at h
    obtain ⟨⟨next, o⟩, hn, -, -, ht⟩ := h
    cases ht
    rcases target_cases hn with ⟨hs, rfl, rfl⟩ | ⟨hs, rfl⟩ | hs
    · exact .enter hs he
    · have hne : next ≠ .recoveryRequired := by rcases hs with rfl | rfl <;> decide
      simpa [savedState, hne] using Accepts.stop he hs
    · have hne := hs.not_recovery.2
      simpa [savedState, hne] using Accepts.climb he hs

variable {m' : Machine}

theorem apply_ok {o : Option Observation} (h : m.apply e = (m', .ok o)) :
    ∃ t, m.plan e = .ok t ∧ m.commit t = (m', o) := by
  unfold apply at h
  split at h
  · simp at h
  · rename_i t ht
    simp only [Prod.mk.injEq, Except.ok.injEq] at h
    exact ⟨t, ht, Prod.ext h.1 h.2⟩

theorem apply_error (h : m.apply e = (m', .error err)) : m.plan e = .error err ∧ m' = m := by
  unfold apply at h
  split at h
  · rename_i err' he
    simp only [Prod.mk.injEq, Except.error.injEq] at h
    exact ⟨by rw [he, h.2], h.1.symm⟩
  · simp at h

/-- The levels performed are those of the state the machine stands in, or of
the live state that recovery will return to. -/
def Standing (m : Machine) : Prop :=
  match m.state with
  | .recoveryRequired =>
    ∃ s, m.recoveryState = some s ∧ s ≠ .recoveryRequired ∧ ¬ s.Terminal ∧
      m.performed = attained m.profile s
  | .poisoned => True
  | .aborted => True
  | s => m.performed = attained m.profile s

theorem Standing.performed (h : m.Standing) (ht : ¬ m.state.Terminal)
    (hr : m.state ≠ .recoveryRequired) : m.performed = attained m.profile m.state := by
  unfold Standing at h
  cases hs : m.state <;> simp [hs, State.Terminal] at h ht hr ⊢ <;> exact h

theorem standing_of_live (hr : m.state ≠ .recoveryRequired)
    (h : m.performed = attained m.profile m.state) : m.Standing := by
  unfold Standing
  cases hs : m.state <;> simp [hs] at h hr ⊢ <;> exact h

end Machine

/-- What every reachable history satisfies. -/
structure Sound (profile : Profile) (h : History) : Prop where
  profile_eq : h.machine.profile = profile
  performed_eq : h.machine.performed = h.observed.map Observation.level
  ascending : h.observed.Pairwise fun a b => a.level < b.level ∧ a.sequence < b.sequence
  sequences : ∀ o ∈ h.observed, o.sequence ≤ h.machine.sequence
  standing : h.machine.Standing
  evidence : .published ∈ h.machine.performed →
    ∀ l ≤ profile.requiredPredecessor, l ∈ h.machine.performed

theorem Sound.fresh (profile : Profile) : Sound profile (.fresh profile) where
  profile_eq := rfl
  performed_eq := rfl
  ascending := .nil
  sequences := by simp [History.fresh]
  standing := rfl
  evidence := by simp [History.fresh, new]

variable {e : Event} {m : Machine}

/-- Committing any accepted transition keeps the levels tied to the state. -/
theorem Machine.Accepts.standing
    (ha : m.Accepts e t) (ht : ¬ m.state.Terminal) (hs : m.Standing) : (m.commit t).1.Standing := by
  cases ha with
  | recover hr hsaved =>
    obtain ⟨s, h1, h2, -, h4⟩ : ∃ s, m.recoveryState = some s ∧ s ≠ .recoveryRequired ∧
        ¬ s.Terminal ∧ m.performed = attained m.profile s := by simpa [Standing, hr] using hs
    cases h1.symm.trans hsaved
    exact standing_of_live h2 (by simpa [commit] using h4)
  | enter hr => exact ⟨m.state, rfl, hr, ht, by simpa [commit] using hs.performed ht hr⟩
  | stop _ h => rcases h with rfl | rfl <;> trivial
  | climb _ h =>
    apply standing_of_live h.not_recovery.2
    simp [commit, hs.performed ht h.not_recovery.1, h.attained_next]

/-- A level observed by an accepted event is above every level performed before. -/
theorem Machine.Accepts.above (ha : m.Accepts e t) (ht : ¬ m.state.Terminal) (hs : m.Standing)
    (hl : t.observation = some l) : ∀ a ∈ m.performed, a < l := by
  cases ha with
  | climb _ h =>
    cases hl
    rw [hs.performed ht h.not_recovery.1]
    exact h.above
  | _ => cases hl

/-- Publication is only observed from a linked namespace, below which every level
up to the required predecessor has been performed. -/
theorem Machine.Accepts.linked (ha : m.Accepts e t)
    (ht : ¬ m.state.Terminal) (hs : m.Standing) (hl : t.observation = some .published) :
    ∀ l ≤ m.profile.requiredPredecessor, l ∈ m.performed := by
  cases ha with
  | climb _ h =>
    intro l hle
    rw [hs.performed ht h.not_recovery.1]
    generalize m.state = s at h
    cases hl
    cases h
    exact Assurance.mem_upTo.mpr hle
  | _ => cases hl

theorem Machine.Accepts.sequence (ha : m.Accepts e t) : t.sequence = m.sequence + 1 := by
  cases ha <;> rfl

variable {h : History}

theorem History.step_ok (hp : h.machine.plan e = .ok t) :
    h.step (.event e) = ⟨(h.machine.commit t).1, h.observed ++ (h.machine.commit t).2.toList⟩ := by
  simp [step, apply, hp, Except.toOption]

theorem History.step_error (hp : h.machine.plan e = .error err) : h.step (.event e) = h := by
  simp [step, apply, hp, Except.toOption]

theorem Sound.commit (hs : Sound profile h)
    (ht : ¬ h.machine.state.Terminal) (ha : h.machine.Accepts e t) :
    Sound profile
      ⟨(h.machine.commit t).1, h.observed ++ (h.machine.commit t).2.toList⟩ where
  profile_eq := hs.profile_eq
  performed_eq := by
    cases ho : t.observation <;> simp [Machine.commit, ho, hs.performed_eq]
  ascending := by
    rw [pairwise_append]
    refine ⟨hs.ascending, by cases ho : t.observation <;> simp [Machine.commit, ho], ?_⟩
    intro a hmem b hb
    cases ho : t.observation with
    | none => simp [Machine.commit, ho] at hb
    | some l =>
      obtain rfl : b = ⟨l, t.sequence⟩ := by simpa [Machine.commit, ho] using hb
      have hal : a.level ∈ h.machine.performed := by
        rw [hs.performed_eq]
        exact mem_map_of_mem hmem
      have hseq := hs.sequences a hmem
      have ht' := ha.sequence
      exact ⟨ha.above ht hs.standing ho _ hal, by simp only; omega⟩
  sequences := by
    intro o hmem
    have hseq := ha.sequence
    rcases mem_append.mp hmem with hold | hnew
    · have := hs.sequences o hold
      simp only [Machine.commit]
      omega
    · cases ho : t.observation with
      | none => simp [Machine.commit, ho] at hnew
      | some l =>
        obtain rfl : o = ⟨l, t.sequence⟩ := by simpa [Machine.commit, ho] using hnew
        exact le_rfl
  standing := ha.standing ht hs.standing
  evidence := by
    simp only [Machine.commit, mem_append, Option.mem_toList]
    rintro (hold | hnew) l hl
    · exact .inl (hs.evidence hold l hl)
    · exact .inl (ha.linked ht hs.standing hnew l (by rwa [hs.profile_eq]))

theorem Sound.step (h : History) (a : Action) (hs : Sound profile h) :
    Sound profile (h.step a) := by
  cases a with
  | markStale => exact ⟨hs.profile_eq, hs.performed_eq, hs.ascending, hs.sequences, hs.standing,
      hs.evidence⟩
  | event e =>
    cases hp : h.machine.plan e with
    | error => rwa [History.step_error hp]
    | ok =>
      obtain ⟨-, ht, ha⟩ := plan_cases hp
      rw [History.step_ok hp]
      exact hs.commit ht ha

theorem history_sound (profile : Profile) (actions : List Action) :
    Sound profile (history profile actions) :=
  run_invariant Sound.step (Sound.fresh profile) actions

theorem Sound.linked (hs : Sound profile h) (hl : h.machine.state = .namespaceLinked) :
    ∀ l ≤ profile.requiredPredecessor, l ∈ h.observed.map Observation.level := by
  intro l hle
  have hp := hs.standing.performed (by simp [hl, State.Terminal]) (by simp [hl])
  rw [← hs.performed_eq, hp, hl, hs.profile_eq]
  exact Assurance.mem_upTo.mpr hle

theorem Profile.requiredPredecessor_lt (profile : Profile) (h : l ≤ profile.requiredPredecessor) :
    l < .published := by
  cases profile <;> cases l <;> revert h <;> decide

theorem Assurance.not_published_lt (l : Assurance) : ¬ Assurance.published < l := by
  cases l <;> decide

theorem Assurance.lt_irrefl (l : Assurance) : ¬ l < l := Nat.lt_irrefl l.rank

/-- Everything publication requires was observed strictly before it. -/
theorem Sound.before_published (hs : Sound profile h) {earlier later : List Observation}
    {o : Observation} (ho : h.observed = earlier ++ o :: later) (hpub : o.level = .published) :
    ∀ l ≤ profile.requiredPredecessor, l ∈ earlier.map Observation.level := by
  intro l hle
  have hmem : Assurance.published ∈ h.machine.performed := by
    rw [hs.performed_eq, ho]
    simp [hpub]
  have hl := hs.evidence hmem l hle
  have hlt := profile.requiredPredecessor_lt hle
  have hasc := hs.ascending
  rw [hs.performed_eq, ho, map_append, map_cons, mem_append, mem_cons] at hl
  rw [ho, pairwise_append, pairwise_cons] at hasc
  rcases hl with hl | rfl | hl
  · exact hl
  · rw [hpub] at hlt
    exact absurd hlt (Assurance.lt_irrefl _)
  · obtain ⟨o', ho', rfl⟩ := mem_map.mp hl
    have hbad := (hasc.2.1.1 o' ho').1
    rw [hpub] at hbad
    exact absurd hbad (Assurance.not_published_lt _)

theorem Machine.target_error (h : m.target e = .error err) : err = .invalidTransition := by
  by_cases he : e = .namespaceLinked
  · subst he
    rw [target_namespaceLinked] at h
    split_ifs at h
    cases h
    rfl
  · cases hs : m.state <;> cases e <;> simp [target, target.enterRecovery, hs] at h he <;>
      exact h.symm

/-- The publication defence fires only for a linked machine with no predecessor on
record, and no reachable machine is one. -/
theorem Sound.no_missingPredecessor (hs : Sound profile h) (e : Event) :
    h.machine.plan e ≠ .error .missingPredecessor := by
  intro hp
  simp only [plan, bind_eq_error, rejectIf_eq_error, rejectIf_eq_ok, reduceCtorEq,
    and_false, false_or] at hp
  obtain ⟨-, -, -, ht, -, -, hp⟩ := hp
  split_ifs at hp with he
  · simp [bind_eq_error, rejectIf_eq_error, okOr_eq_error] at hp
  · simp only [bind_eq_error, rejectIf_eq_error, and_true, reduceCtorEq, and_false,
      exists_false, or_false] at hp
    rcases hp with hp | ⟨⟨next, o⟩, htarget, rfl, hno⟩
    · cases target_error hp
    · rcases target_cases htarget with ⟨-, -, hbad⟩ | ⟨-, hbad⟩ | hc
      · cases hbad
      · cases hbad
      · have hmem := (Machine.Accepts.climb he hc).linked ht hs.standing rfl
          h.machine.profile.requiredPredecessor (Nat.le_refl _)
        exact hno (by simpa [requiredPredecessorPerformed, hasPerformed] using hmem)

theorem Sound.recovery_kept (hs : Sound profile h) (hr : h.machine.state = .recoveryRequired)
    (a : Action) (hr' : (h.step a).machine.state = .recoveryRequired) :
    (h.step a).machine.recoveryState = h.machine.recoveryState ∧
      (h.step a).machine.performed = h.machine.performed := by
  cases a with
  | markStale => exact ⟨rfl, rfl⟩
  | event e =>
    cases hp : h.machine.plan e with
    | error => simp [History.step_error hp]
    | ok =>
      rw [History.step_ok hp] at hr'
      have hstand := hs.standing
      simp only [Machine.Standing, hr] at hstand
      obtain ⟨s, hsaved, hne, -, -⟩ := hstand
      rcases (plan_cases hp).2.2 with ⟨-, hsaved'⟩ | ⟨hlive, -⟩ | ⟨-, h⟩ | ⟨-, h⟩
      · cases hsaved.symm.trans hsaved'
        exact absurd hr' hne
      · exact absurd hr hlive
      · rcases h with rfl | rfl <;> cases hr'
      · exact absurd hr' h.not_recovery.2

theorem recovery_kept_run (hs : Sound profile h) (later : List Action)
    (hr : ∀ front, front <+: later → (run History.step h front).machine.state = .recoveryRequired) :
    (run History.step h later).machine.recoveryState = h.machine.recoveryState ∧
      (run History.step h later).machine.performed = h.machine.performed := by
  induction later generalizing h with
  | nil => exact ⟨rfl, rfl⟩
  | cons a later ih =>
    have hhere := hr [] nil_prefix
    have hnext := hr [a] (by simp)
    have hkept := hs.recovery_kept hhere a hnext
    have hrest := ih (hs.step h a) fun front hf =>
      hr (a :: front) (cons_prefix_cons.mpr ⟨rfl, hf⟩)
    exact ⟨hrest.1.trans hkept.1, hrest.2.trans hkept.2⟩

theorem recover_returns (hs : Sound profile h) {later : List Action}
    (hlive : h.machine.state ≠ .recoveryRequired)
    (hr : ∀ front, front <+: later →
      (run History.step (h.step (.event e)) front).machine.state = .recoveryRequired) :
    (run History.step (h.step (.event e)) later).machine.recoveryState = some h.machine.state ∧
      (run History.step (h.step (.event e)) later).machine.performed = h.machine.performed := by
  have hkept := recovery_kept_run (hs.step h (.event e)) later hr
  have hentered := hr [] nil_prefix
  rw [hkept.1, hkept.2]
  cases hp : h.machine.plan e with
  | error =>
    rw [run_nil, History.step_error hp] at hentered
    exact absurd hentered hlive
  | ok =>
    rw [run_nil, History.step_ok hp] at hentered
    rw [History.step_ok hp]
    rcases (plan_cases hp).2.2 with ⟨hat, -⟩ | ⟨-, -⟩ | ⟨-, h⟩ | ⟨-, h⟩
    · exact absurd hat hlive
    · exact ⟨rfl, by simp [Machine.commit]⟩
    · rcases h with rfl | rfl <;> cases hentered
    · exact absurd hentered h.not_recovery.2

/-- A machine that has ended accepts nothing and stays where it is. -/
def Machine.Ended (m : Machine) : Prop := m.state.Terminal ∨ m.currentIncarnation = false

theorem Machine.Ended.plan (hm : m.Ended) (e : Event) : ∃ err, m.plan e = .error err := by
  cases hp : m.plan e with
  | error err => exact ⟨err, rfl⟩
  | ok =>
    obtain ⟨hc, ht, -⟩ := plan_cases hp
    rcases hm with hm | hm
    · exact absurd hm ht
    · simp [hm] at hc

theorem Machine.Ended.step (h : History) (a : Action) (hm : h.machine.Ended) :
    (h.step a).machine.Ended := by
  cases a with
  | markStale => exact .inr rfl
  | event e =>
    obtain ⟨err, hp⟩ := hm.plan e
    rwa [History.step_error hp]

theorem ended_of_stale (h : History) {actions : List Action} (hmem : .markStale ∈ actions) :
    (run History.step h actions).machine.Ended := by
  obtain ⟨before, after, rfl⟩ := append_of_mem hmem
  rw [run_append, run_cons]
  exact run_invariant Machine.Ended.step (.inr rfl) after

theorem Machine.recover_outcome (hsaved : m.recoveryState = some s)
    (hat : m.state = .recoveryRequired) :
    (∀ m' o, m.apply .recover = (m', .ok o) →
      m'.state = s ∧ o = none ∧ m'.performed = m.performed) ∧
    (m.currentIncarnation = true → m.sequence + 1 < 2 ^ 64 →
      ∃ m', m.apply .recover = (m', .ok none)) := by
  constructor
  · intro m' o h
    obtain ⟨t, hp, hc⟩ := apply_ok h
    have ha := (plan_cases hp).2.2
    cases ha with
    | recover _ hs =>
      cases hsaved.symm.trans hs
      cases hc
      exact ⟨rfl, rfl, by simp⟩
    | enter _ ne | stop ne | climb ne => exact absurd rfl ne
  · intro hc hseq
    have hp : m.plan .recover = .ok ⟨s, m.sequence + 1, none, none⟩ := by
      simp only [plan, rejectIf_neg (not_not.mpr hseq)]
      simp [rejectIf, hc, hat, hsaved]
    refine ⟨(m.commit ⟨s, m.sequence + 1, none, none⟩).1, ?_⟩
    simp [apply, hp, commit]

/-- Commit assurance never runs ahead of evidence, in every history of a fresh
machine under any interleaving of events and staleness marks. -/
theorem assurance_follows_evidence (profile : Profile) (actions : List Action) :
    let h := history profile actions
    (h.observed.Pairwise fun a b => a.level < b.level ∧ a.sequence < b.sequence) ∧
    (h.machine.state = .namespaceLinked →
      ∀ l ≤ profile.requiredPredecessor, l ∈ h.observed.map Observation.level) ∧
    (∀ earlier o later, h.observed = earlier ++ o :: later → o.level = .published →
      ∀ l ≤ profile.requiredPredecessor, l ∈ earlier.map Observation.level) ∧
    (∀ e, (h.machine.apply e).2 ≠ .error .missingPredecessor) ∧
    (∀ e later, h.machine.state ≠ .recoveryRequired →
      (∀ front, front <+: later →
        (run History.step (h.step (.event e)) front).machine.state = .recoveryRequired) →
      let m := (run History.step (h.step (.event e)) later).machine
      (∀ m' o, m.apply .recover = (m', .ok o) →
        m'.state = h.machine.state ∧ o = none ∧ m'.performed = h.machine.performed) ∧
      (m.currentIncarnation = true → m.sequence + 1 < 2 ^ 64 →
        ∃ m', m.apply .recover = (m', .ok none))) ∧
    (h.machine.state.Terminal ∨ .markStale ∈ actions →
      ∀ later e, ∃ err, ((run History.step h later).machine.apply e).2 = .error err) ∧
    (∀ e err, (h.machine.apply e).2 = .error err → (h.machine.apply e).1 = h.machine) := by
  intro h
  have hs : Sound profile h := history_sound profile actions
  refine ⟨hs.ascending, hs.linked, fun _ _ _ => hs.before_published, ?_, ?_, ?_, ?_⟩
  · intro e hbad
    exact hs.no_missingPredecessor e (apply_error (Prod.ext rfl hbad)).1
  · intro e later hlive hr m
    obtain ⟨hsaved, hperf⟩ := recover_returns hs hlive hr
    have hout := recover_outcome hsaved (hr later prefix_rfl)
    rwa [hperf] at hout
  · intro hend later e
    have hended : h.machine.Ended := by
      rcases hend with ht | hm
      · exact .inl ht
      · exact ended_of_stale _ hm
    obtain ⟨err, hp⟩ :=
      (run_invariant (P := fun h : History => h.machine.Ended) Machine.Ended.step hended later).plan e
    exact ⟨err, by simp [apply, hp]⟩
  · intro e err he
    exact (apply_error (Prod.ext rfl he)).2

end ObjectTransfer.Commit
