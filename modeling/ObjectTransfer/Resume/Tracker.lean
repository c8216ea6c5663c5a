import ObjectTransfer.Resume.Units
import Mathlib.Data.Finset.Sort

/-! # Resume state

The units of one object: under way, completed since the last checkpoint, and checkpointed. A
checkpoint is prepared, persisted by the host, and committed with what the host made durable, which
may be more than was proposed. A plan belongs to the generation it was prepared in.
-/

namespace ObjectTransfer.Resume
open Foundations

inductive Error where
  | invalidConfiguration
  | invalidUnit
  | unitAlreadyActive
  | unitNotActive
  | checkpointRequired
  | invalidCheckpoint
  | staleCheckpointPlan
  | checkpointGenerationExhausted
  deriving DecidableEq, Repr

structure ResumeIdentity where
  discriminator : UInt16
  digest : Digest
  length : UInt64
  deriving DecidableEq

structure CheckpointPlan where
  identity : ResumeIdentity
  generation : ℕ
  totalUnits : UInt64
  baseline : UnitRanges
  checkpointed : UnitRanges
  pending : UnitRanges
  deriving DecidableEq

structure ResumeState where
  identity : ResumeIdentity
  totalUnits : UInt64
  checkpointWindow : ℕ
  checkpointed : UnitRanges
  completedSinceCheckpoint : Finset ℕ
  active : Finset ℕ
  checkpointGeneration : ℕ
  deriving DecidableEq

def validateCheckpointWindow (totalUnits : UInt64) (checkpointWindow : ℕ) : Except Error Unit := do
  rejectIf (checkpointWindow > u64Max) .invalidConfiguration
  rejectIf (checkpointWindow = 0 ∨ checkpointWindow > totalUnits.toNat) .invalidConfiguration

def validateDurable (totalUnits : UInt64) (checkpointed : UnitRanges) : Except Error Unit :=
  rejectIf (checkpointed.max.any fun unit => decide (unit ≥ totalUnits.toNat)) .invalidCheckpoint

namespace ResumeState

def new (identity : ResumeIdentity) (totalUnits : UInt64) (checkpointWindow : ℕ)
    (checkpointed : UnitRanges) : Except Error ResumeState := do
  validateCheckpointWindow totalUnits checkpointWindow
  validateDurable totalUnits checkpointed
  return ⟨identity, totalUnits, checkpointWindow, checkpointed, ∅, ∅, 0⟩

def validateUnit (state : ResumeState) (unit : ℕ) : Except Error Unit :=
  rejectIf (unit ≥ state.totalUnits.toNat) .invalidUnit

/-- Start a unit, unless it is completed or checkpointed. -/
def beginUnit (state : ResumeState) (unit : ℕ) : Except Error (ResumeState × Bool) := do
  state.validateUnit unit
  if state.checkpointed.contains unit ∨ unit ∈ state.completedSinceCheckpoint then
    return (state, false)
  else do
    rejectIf (unit ∈ state.active) .unitAlreadyActive
    return ({ state with active := insert unit state.active }, true)

/-- Whether the window is full now. -/
def completeUnit (state : ResumeState) (unit : ℕ) : Except Error (ResumeState × Bool) := do
  state.validateUnit unit
  rejectIf (unit ∉ state.active) .unitNotActive
  rejectIf (state.completedSinceCheckpoint.card ≥ state.checkpointWindow) .checkpointRequired
  let completedSinceCheckpoint := insert unit state.completedSinceCheckpoint
  return ({ state with active := state.active.erase unit, completedSinceCheckpoint },
    decide (completedSinceCheckpoint.card ≥ state.checkpointWindow))

def prepareCheckpoint (state : ResumeState) : CheckpointPlan :=
  let pending := UnitRanges.new.extendUnits (state.completedSinceCheckpoint.sort (· ≤ ·))
  { identity := state.identity
    generation := state.checkpointGeneration
    totalUnits := state.totalUnits
    baseline := state.checkpointed
    checkpointed := state.checkpointed.union pending
    pending }

/-- The plan was made in another generation, or for another state. -/
def stale (state : ResumeState) (plan : CheckpointPlan) : Bool :=
  plan.identity ≠ state.identity || plan.generation ≠ state.checkpointGeneration ||
    plan.totalUnits ≠ state.totalUnits || plan.baseline ≠ state.checkpointed ||
    plan.pending.units.any fun unit => decide (unit ∉ state.completedSinceCheckpoint)

def commitCheckpoint (state : ResumeState) (plan : CheckpointPlan) (durable : UnitRanges) :
    Except Error ResumeState := do
  rejectIf (state.stale plan) .staleCheckpointPlan
  validateDurable state.totalUnits durable
  rejectIf (¬ (plan.checkpointed.difference durable).isEmpty) .invalidCheckpoint
  let nextGeneration ← okOr (checkedAdd state.checkpointGeneration 1) .checkpointGenerationExhausted
  return { state with
    completedSinceCheckpoint :=
      state.completedSinceCheckpoint.filter fun unit => ¬ durable.contains unit
    active := state.active.filter fun unit => ¬ durable.contains unit
    checkpointed := durable
    checkpointGeneration := nextGeneration }

def missingUnits (state : ResumeState) : List ℕ :=
  state.checkpointed.missing state.totalUnits.toNat

end ResumeState

end ObjectTransfer.Resume
