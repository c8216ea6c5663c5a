import ObjectTransfer.Foundations.Outcome

/-! # The commit and assurance transition machine

A publication climbs a ladder of assurance levels. Every guard runs while a
transition is planned, so committing a planned transition cannot fail and a
rejected event never touches the machine.
-/

namespace ObjectTransfer.Commit
open Foundations

inductive Profile where
  | fast
  | balanced
  | strict
  deriving DecidableEq, Repr

inductive Assurance where
  | admitted
  | transitVerified
  | durable
  | atRestVerified
  | published
  deriving DecidableEq, Repr

inductive State where
  | new
  | admitted
  | transitVerified
  | dataFlushed
  | durable
  | atRestVerified
  | namespaceLinked
  | published
  | recoveryRequired
  | poisoned
  | aborted
  deriving DecidableEq, Repr

inductive Event where
  | admission
  | transitVerified
  | dataFlushSucceeded
  | dataFlushFailed
  | journalFlushSucceeded
  | journalFlushFailed
  | atRestVerified
  | atRestVerificationFailed
  | namespaceLinked
  | namespaceLinkAmbiguous
  | namespaceDurable
  | namespaceFlushFailed
  | crash
  | recover
  | abort
  deriving DecidableEq, Repr

inductive Error where
  | staleIncarnation
  | terminal
  | invalidTransition
  | missingPredecessor
  deriving DecidableEq, Repr

namespace Assurance

/-- Declaration order, which is the order the source derives. -/
def rank : Assurance → ℕ
  | admitted => 0
  | transitVerified => 1
  | durable => 2
  | atRestVerified => 3
  | published => 4

instance : LT Assurance := ⟨fun a b => a.rank < b.rank⟩
instance : LE Assurance := ⟨fun a b => a.rank ≤ b.rank⟩
instance (a b : Assurance) : Decidable (a < b) := inferInstanceAs (Decidable (a.rank < b.rank))
instance (a b : Assurance) : Decidable (a ≤ b) := inferInstanceAs (Decidable (a.rank ≤ b.rank))

/-- The state a machine stands in once it has performed this level. -/
def state : Assurance → State
  | admitted => .admitted
  | transitVerified => .transitVerified
  | durable => .durable
  | atRestVerified => .atRestVerified
  | published => .published

end Assurance

/-- The assurance a publication under this profile must already have performed. -/
def Profile.requiredPredecessor : Profile → Assurance
  | fast => .transitVerified
  | balanced => .durable
  | strict => .atRestVerified

structure Observation where
  level : Assurance
  sequence : ℕ
  deriving DecidableEq, Repr

/-- A transition that has passed every guard and waits to be committed. -/
structure Transition where
  next : State
  sequence : ℕ
  recoveryState : Option State
  observation : Option Assurance
  deriving DecidableEq, Repr

structure Machine where
  profile : Profile
  state : State
  currentIncarnation : Bool
  recoveryState : Option State
  sequence : ℕ
  performed : List Assurance
  deriving DecidableEq, Repr

namespace Machine

def new (profile : Profile) : Machine where
  profile := profile
  state := .new
  currentIncarnation := true
  recoveryState := none
  sequence := 0
  performed := []

def markStale (m : Machine) : Machine := { m with currentIncarnation := false }

def hasPerformed (m : Machine) (level : Assurance) : Bool := m.performed.contains level

def canPublishFrom (m : Machine) (state : State) : Bool :=
  state == m.profile.requiredPredecessor.state

def requiredPredecessorPerformed (m : Machine) : Bool :=
  m.hasPerformed m.profile.requiredPredecessor

/-- Where an event takes the machine and the level it observes, before the
publication defence and the recovery bookkeeping. -/
def target (m : Machine) (event : Event) : Except Error (State × Option Assurance) :=
  match m.state, event with
  | .new, .admission => .ok (.admitted, some .admitted)
  | .admitted, .transitVerified => .ok (.transitVerified, some .transitVerified)
  | .transitVerified, .dataFlushSucceeded => .ok (.dataFlushed, none)
  | .dataFlushed, .journalFlushSucceeded => .ok (.durable, some .durable)
  | .durable, .atRestVerified => .ok (.atRestVerified, some .atRestVerified)
  | state, .namespaceLinked =>
    if m.canPublishFrom state then .ok (.namespaceLinked, none) else .error .invalidTransition
  | .namespaceLinked, .namespaceDurable => .ok (.published, some .published)
  | .new, .abort => .ok (.aborted, none)
  | .admitted, .abort => .ok (.aborted, none)
  | .transitVerified, .abort => .ok (.aborted, none)
  | .dataFlushed, .abort => .ok (.aborted, none)
  | .durable, .abort => .ok (.aborted, none)
  | .atRestVerified, .abort => .ok (.aborted, none)
  | _, .dataFlushFailed => .ok (.poisoned, none)
  | _, .journalFlushFailed => .ok (.poisoned, none)
  | _, .atRestVerificationFailed => .ok (.poisoned, none)
  | state, .namespaceLinkAmbiguous => enterRecovery state
  | state, .namespaceFlushFailed => enterRecovery state
  | state, .crash => enterRecovery state
  | _, _ => .error .invalidTransition
where
  enterRecovery (state : State) : Except Error (State × Option Assurance) :=
    if state ≠ .recoveryRequired then .ok (.recoveryRequired, none)
    else .error .invalidTransition

/-- Entering recovery saves the state it came from; every other transition
leaves whatever an earlier crash saved. -/
def savedState (m : Machine) (next : State) : Option State :=
  if next = .recoveryRequired then some m.state else m.recoveryState

/-- Computes the complete transition for an event, or rejects it. -/
def plan (m : Machine) (event : Event) : Except Error Transition := do
  rejectIf (¬ m.currentIncarnation) .staleIncarnation
  rejectIf (m.state = .published ∨ m.state = .poisoned ∨ m.state = .aborted) .terminal
  rejectIf (¬ m.sequence + 1 < 2 ^ 64) .invalidTransition
  if event = .recover then
    rejectIf (m.state ≠ .recoveryRequired) .invalidTransition
    let recovered ← okOr m.recoveryState .invalidTransition
    .ok
      { next := recovered
        sequence := m.sequence + 1
        recoveryState := none
        observation := none }
  else
    let (next, observation) ← m.target event
    rejectIf (observation = some .published ∧ ¬ m.requiredPredecessorPerformed)
      .missingPredecessor
    .ok
      { next
        sequence := m.sequence + 1
        recoveryState := m.savedState next
        observation }

def commit (m : Machine) (t : Transition) : Machine × Option Observation :=
  ({ m with
      state := t.next
      sequence := t.sequence
      recoveryState := t.recoveryState
      performed := m.performed ++ t.observation.toList },
    t.observation.map fun level => { level, sequence := t.sequence })

def apply (m : Machine) (event : Event) : Machine × Except Error (Option Observation) :=
  match m.plan event with
  | .error e => (m, .error e)
  | .ok t => ((m.commit t).1, .ok (m.commit t).2)

end Machine
end ObjectTransfer.Commit
