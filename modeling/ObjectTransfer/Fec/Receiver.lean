import ObjectTransfer.Fec.Plan
import ObjectTransfer.Foundations.Cells
import ObjectTransfer.Foundations.OrderedMap

/-! # The receiving end

Credit, the table of open epochs and the generations under assembly. A generation is live
from its first symbol to its `k`-th, zero sources included, and leaves a bit in its epoch's
bitmap when it retires. Every call returns the receiver and its answer, or nothing where it
panics.
-/

namespace ObjectTransfer.Fec
open Foundations

/-- The caps a newer credit epoch replaces whole. -/
structure Credit where
  creditEpoch : ℕ
  maxUnretiredBytes : ℕ
  maxActiveGenerations : ℕ
  maxDecodeWork : ℕ
  maxOpenEpochs : ℕ
  unretired_le : maxUnretiredBytes ≤ u64Max
  work_le : maxDecodeWork ≤ u64Max
  deriving DecidableEq

inductive Open where
  | opened
  | repeated
  | refused
  deriving DecidableEq, Repr

inductive Drop where
  | noCredit
  | unknownEpoch
  | wrongLength
  | esiOutOfRange
  | generationPastEpoch
  | zeroSource
  | duplicate
  | generationDone
  | pastCredit
  deriving DecidableEq, Repr

structure Decoded where
  generation : ℕ
  offset : ℕ
  bytes : Bytes
  deriving DecidableEq, Repr

structure Report where
  sequence : ℕ
  received : ℕ
  missingSources : List ℕ
  deriving DecidableEq, Repr

inductive Symbol where
  | stored (first : Bool)
  | decoded (decoded : Decoded)
  | abandoned (generation : ℕ) (state : Report)
  | dropped (reason : Drop)
  deriving DecidableEq, Repr

def maxTrackedGenerations : ℕ := 2 ^ 20

/-- A live generation: the source buffer, the repair symbols that arrived, and one bit per
ESI in hand. -/
structure Generation where
  sources : Bytes
  repairs : List (ℕ × Bytes)
  seen : BitVec 128
  received : ℕ
  sequence : ℕ
  deriving DecidableEq

structure Epoch where
  plan : EpochPlan
  live : OrderedMap ℕ Generation
  done : List (BitVec 64)
  deriving DecidableEq

structure Counters where
  activeGenerations : ℕ
  unretiredBytes : ℕ
  deriving DecidableEq

structure Receiver where
  creditHeld : Option Credit
  decodeWorkSpent : ℕ
  epochs : OrderedMap ℕ Epoch
  counters : Counters
  deriving DecidableEq

namespace Generation

/-- Zero sources are in hand from the start. -/
def new (geometry : Geometry) (sentSources : ℕ) : Generation where
  sources := List.replicate (geometry.sourceCount * geometry.symbolLength) 0
  repairs := []
  seen := 0
  received := geometry.sourceCount - sentSources
  sequence := 0

def has (slot : Generation) (esi : ℕ) : Bool := hasBit slot.seen esi

def store (slot : Generation) (geometry : Geometry) (esi : ℕ) (bytes : Bytes) :
    Option Generation := do
  let seen := setBit slot.seen esi
  let received := slot.received + 1
  if esi < geometry.sourceCount then
    let start := esi * geometry.symbolLength
    let sources ← copyInto slot.sources start (start + geometry.symbolLength) bytes
    return { slot with sources, seen, received }
  else
    return { slot with repairs := slot.repairs ++ [(esi, bytes)], seen, received }

def hasSources (slot : Generation) (sentSources : ℕ) : Bool :=
  (List.range sentSources).all slot.has

end Generation

namespace Epoch

def isDone (state : Epoch) (generation : ℕ) : Option Bool := do
  let word ← state.done[generation / 64]?
  return hasBit word (generation % 64)

def markDone (state : Epoch) (generation : ℕ) : Option Epoch := do
  let word ← state.done[generation / 64]?
  return { state with done := state.done.set (generation / 64) (setBit word (generation % 64)) }

end Epoch

namespace Counters

/-- Count one more live generation, unless that is past the credit. -/
def admitGeneration (counters : Counters) (credit : Credit) (bytes : ℕ) : Option Counters := do
  let total ← checkedAdd counters.unretiredBytes bytes
  if counters.activeGenerations ≥ credit.maxActiveGenerations ∨ total > credit.maxUnretiredBytes
  then none
  else return ⟨counters.activeGenerations + 1, total⟩

def retire (counters : Counters) (bytes : ℕ) : Option Counters := do
  let active ← checkedSub counters.activeGenerations 1
  let unretired ← checkedSub counters.unretiredBytes bytes
  return ⟨active, unretired⟩

end Counters

/-- The state of a live generation, with the next sequence. -/
def reportOf (plan : EpochPlan) (generation : ℕ) (slot : Generation) :
    Option (Generation × Report) := do
  let sequence ← checkedAdd slot.sequence 1
  let sent ← plan.sentSourceCount generation
  let received ← toU8 slot.received
  let sources ← (List.range sent).mapM toU8
  return ({ slot with sequence },
    ⟨sequence, received, sources.filter fun j => !slot.has j⟩)

/-- What a symbol's header and length decide on their own. -/
def admitSymbol (plan : EpochPlan) (generation esi : ℕ) (bytes : Bytes) :
    Option (Except Drop ℕ) := do
  if bytes.length ≠ plan.geometry.symbolLength then return .error .wrongLength
  else if esi ≥ plan.geometry.symbolCount then return .error .esiOutOfRange
  else if ¬ plan.holds generation then return .error .generationPastEpoch
  else do
    let sentSources ← plan.sentSourceCount generation
    if esi < plan.geometry.sourceCount ∧ esi ≥ sentSources then return .error .zeroSource
    else return .ok sentSources

/-- The symbols in hand: sent sources, repair symbols, zero sources. -/
def inHand (plan : EpochPlan) (slot : Generation) (sentSources : ℕ) :
    Option (List (ℕ × Bytes)) := do
  let geometry := plan.geometry
  let sources ← ((List.range sentSources).filter slot.has).mapM fun esi => do
    let start := esi * geometry.symbolLength
    return (esi, ← slice? slot.sources start (start + geometry.symbolLength))
  let zeros := (List.range' sentSources (geometry.sourceCount - sentSources)).map fun esi =>
    (esi, List.replicate geometry.symbolLength 0)
  return sources ++ slot.repairs ++ zeros

/-- Fill in the sources that did not arrive. -/
def eliminate [Gf.Simd] (plan : EpochPlan) (slot : Generation) (sentSources : ℕ) :
    Option Generation := do
  let geometry := plan.geometry
  let recovered ← (recoverMissing geometry (← inHand plan slot sentSources)).toOption
  let sources ← recovered.foldlM (fun sources p =>
    let start := p.1 * geometry.symbolLength
    copyInto sources start (start + geometry.symbolLength) p.2) slot.sources
  return { slot with sources }

/-- The object bytes of a generation, padding removed. -/
def assemble (plan : EpochPlan) (generation : ℕ) (sources : Bytes) : Option Decoded := do
  let span ← plan.generationSpan generation
  return ⟨generation, span.1, sources.take span.2⟩

namespace Receiver

def new : Receiver := ⟨none, 0, .empty, ⟨0, 0⟩⟩

/-- Install a newer credit epoch; an older or equal one is ignored. -/
def credit (receiver : Receiver) (credit : Credit) : Receiver × Bool :=
  if receiver.creditHeld.any fun held => decide (held.creditEpoch ≥ credit.creditEpoch) then
    (receiver, false)
  else ({ receiver with creditHeld := some credit, decodeWorkSpent := 0 }, true)

def «open» (receiver : Receiver) (plan : EpochPlan) : Receiver × Except Error Open :=
  match receiver.epochs.get? plan.epoch with
  | some known =>
    if known.plan = plan then (receiver, .ok .repeated) else (receiver, .error .invalidGeometry)
  | none =>
    match receiver.creditHeld with
    | none => (receiver, .ok .refused)
    | some credit =>
      if receiver.epochs.size ≥ credit.maxOpenEpochs ∨
          plan.generationCount > maxTrackedGenerations then
        (receiver, .ok .refused)
      else
        let words := divCeil plan.generationCount 64
        let epoch : Epoch := ⟨plan, .empty, List.replicate words 0⟩
        ({ receiver with epochs := receiver.epochs.insert plan.epoch epoch }, .ok .opened)

/-- A live generation leaves the table and is marked done. -/
def retire (receiver : Receiver) (epoch : ℕ) (state : Epoch) (generation : ℕ) :
    Option Receiver := do
  let state ← { state with live := state.live.erase generation }.markDone generation
  let counters ← receiver.counters.retire state.plan.generationBytes
  return { receiver with epochs := receiver.epochs.insert epoch state, counters }

variable [Gf.Simd]

/-- A generation with `k` symbols in hand. -/
def complete (receiver : Receiver) (credit : Credit) (epoch : ℕ) (state : Epoch)
    (generation sentSources : ℕ) (slot : Generation) : Option (Receiver × Symbol) := do
  let plan := state.plan
  if slot.hasSources sentSources then
    let receiver ← receiver.retire epoch state generation
    return (receiver, .decoded (← assemble plan generation slot.sources))
  else
    match (checkedAdd receiver.decodeWorkSpent plan.generationBytes).filter
      fun spent => decide (spent ≤ credit.maxDecodeWork) with
    | none =>
      let reported ← reportOf plan generation slot
      let receiver ← receiver.retire epoch state generation
      return (receiver, .abandoned generation reported.2)
    | some spent =>
      let slot ← eliminate plan slot sentSources
      let receiver ← { receiver with decodeWorkSpent := spent }.retire epoch state generation
      return (receiver, .decoded (← assemble plan generation slot.sources))

/-- A new symbol of a generation that is not done. -/
def accept (receiver : Receiver) (credit : Credit) (epoch : ℕ) (state : Epoch)
    (generation sentSources : ℕ) (slot : Generation) (first : Bool) (esi : ℕ) (bytes : Bytes) :
    Option (Receiver × Symbol) := do
  let slot ← slot.store state.plan.geometry esi bytes
  if slot.received < state.plan.geometry.sourceCount then
    let state := { state with live := state.live.insert generation slot }
    return ({ receiver with epochs := receiver.epochs.insert epoch state }, .stored first)
  else receiver.complete credit epoch state generation sentSources slot

/-- One symbol datagram, already split into its header and bytes. -/
def symbol (receiver : Receiver) (epoch generation esi : ℕ) (bytes : Bytes) :
    Option (Receiver × Symbol) := do
  match receiver.creditHeld with
  | none => return (receiver, .dropped .noCredit)
  | some credit =>
    match receiver.epochs.get? epoch with
    | none => return (receiver, .dropped .unknownEpoch)
    | some state =>
      match ← admitSymbol state.plan generation esi bytes with
      | .error reason => return (receiver, .dropped reason)
      | .ok sentSources =>
        if ← state.isDone generation then return (receiver, .dropped .generationDone)
        else
          match state.live.get? generation with
          | some slot =>
            if slot.has esi then return (receiver, .dropped .duplicate)
            else receiver.accept credit epoch state generation sentSources slot false esi bytes
          | none =>
            match receiver.counters.admitGeneration credit state.plan.generationBytes with
            | none => return (receiver, .dropped .pastCredit)
            | some counters =>
              Receiver.accept { receiver with counters } credit epoch state generation
                sentSources (.new state.plan.geometry sentSources) true esi bytes

omit [Gf.Simd]

/-- The state to send for a live generation, if there is such a generation. -/
def report (receiver : Receiver) (epoch generation : ℕ) : Option (Receiver × Option Report) := do
  match receiver.epochs.get? epoch with
  | none => return (receiver, none)
  | some state =>
    match state.live.get? generation with
    | none => return (receiver, none)
    | some slot =>
      let reported ← reportOf state.plan generation slot
      let state := { state with live := state.live.insert generation reported.1 }
      return ({ receiver with epochs := receiver.epochs.insert epoch state }, some reported.2)

def abandon (receiver : Receiver) (epoch generation : ℕ) : Option (Receiver × Bool) := do
  match receiver.epochs.get? epoch with
  | none => return (receiver, false)
  | some state =>
    match state.live.get? generation with
    | none => return (receiver, false)
    | some _ => return (← receiver.retire epoch state generation, true)

/-- Retire every live generation of an epoch and forget it. -/
def close (receiver : Receiver) (epoch : ℕ) : Option (Receiver × Bool) := do
  match receiver.epochs.get? epoch with
  | none => return (receiver, false)
  | some state =>
    let counters ← (List.range state.live.size).foldlM
      (fun counters _ => counters.retire state.plan.generationBytes) receiver.counters
    return ({ receiver with epochs := receiver.epochs.erase epoch, counters }, true)

end Receiver

end ObjectTransfer.Fec
