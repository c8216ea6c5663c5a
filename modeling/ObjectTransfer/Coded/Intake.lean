import ObjectTransfer.Fec.Agreement

/-! # The datagram intake of a receiving session

The epoch table, the symbol path and the generations that wait for their bundle. Symbols that
arrive before their epoch's open are held and replayed; what arrives for an epoch that was
settled is dropped. Every call returns the intake and its answer, or nothing where it panics.
-/

namespace ObjectTransfer.Coded
open Foundations Codec Fec

/-- Decoded generations held for a bundle that has not arrived. -/
def maxOrphanGenerations : ℕ := 130

def maxOrphanBytes : ℕ := maxOrphanGenerations * 65536

/-- The advisory states held for sending. -/
def maxOwedStates : ℕ := 256

def maxPreopenBytes : ℕ := 24 * 1024 * 1024

def symbolHeaderLen : ℕ := 9

def generationBytes : ℕ := 65536

def maxOpenEpochs : ℕ := 8

def decodeWorkPerStagingByte : ℕ := 16

/-- The object root and the range an epoch was opened over. -/
structure Cover where
  root : Digest
  offset : ℕ
  length : ℕ
  deriving DecidableEq

structure OpenEpoch where
  cover : Cover
  plan : EpochPlan
  restated : Bool
  deriving DecidableEq

def Cover.of (frame : CodingEpochOpen) : Cover :=
  ⟨frame.object.root, frame.offset.toNat, frame.length.toNat⟩

/-- The bytes of a generation that wait for its bundle. -/
structure Orphan where
  cover : Cover
  generation : ℕ
  offset : ℕ
  generationBytes : ℕ
  bytes : Bytes
  deriving DecidableEq

inductive Owed where
  | credit (credit : Credit)
  | state (state : GenState)
  | done (done : GenDone)
  deriving DecidableEq

/-- What one event yields for the bundle path. -/
structure Joined where
  cover : Cover
  generation : ℕ
  plaintextOffset : ℕ
  generationBytes : ℕ
  bytes : Bytes
  deriving DecidableEq

structure FecCounts where
  offered : ℕ := 0
  coded : ℕ := 0
  decoded : ℕ := 0
  abandoned : ℕ := 0
  refused : ℕ := 0
  symbols : ℕ := 0
  symbolDrops : ℕ := 0
  deriving DecidableEq, Repr

structure SymbolHeader where
  epoch : ℕ
  generation : ℕ
  esi : ℕ
  deriving DecidableEq, Repr

structure Intake where
  receiver : Receiver
  epochs : OrderedMap ℕ OpenEpoch
  preopen : List (ℕ × Bytes)
  preopenBytes : ℕ
  highestSettled : Option ℕ
  orphans : List Orphan
  orphanBytes : ℕ
  owed : List Owed
  creditEpoch : ℕ
  owedStates : ℕ
  counts : FecCounts
  deriving DecidableEq

/-- The nine-byte header, read before the geometry of the epoch is known. -/
def peekHeader (datagram : Bytes) : Option SymbolHeader := do
  let head ← slice? datagram 0 symbolHeaderLen
  return ⟨ofBe (head.take 4), ofBe ((head.drop 4).take 4),
    ofBe ((head.drop 8).take 1)⟩

namespace Intake

def new : Intake where
  receiver := .new
  epochs := .empty
  preopen := []
  preopenBytes := 0
  highestSettled := none
  orphans := []
  orphanBytes := 0
  owed := []
  creditEpoch := 0
  owedStates := 0
  counts := {}

/-- Credit derived from the staging capacity, sent when a cap moved or half the decode work is
spent. -/
def extendCredit (intake : Intake) (stagingBytes epochCapacity : ℕ) (h : stagingBytes ≤ u64Max) :
    Intake :=
  let credit : Credit :=
    { creditEpoch := intake.creditEpoch + 1
      maxUnretiredBytes := stagingBytes
      maxActiveGenerations := max (stagingBytes / generationBytes) 1
      maxDecodeWork := min (stagingBytes * decodeWorkPerStagingByte) u64Max
      maxOpenEpochs := min maxOpenEpochs epochCapacity
      unretired_le := h
      work_le := Nat.min_le_right _ _ }
  let held := intake.receiver.creditHeld
  let unchanged := held.any fun held =>
    decide (held.maxUnretiredBytes = credit.maxUnretiredBytes ∧
      held.maxActiveGenerations = credit.maxActiveGenerations ∧
      held.maxOpenEpochs = credit.maxOpenEpochs)
  let budgetFresh := held.any fun held =>
    decide (intake.receiver.decodeWorkSpent ≤ held.maxDecodeWork / 2)
  if unchanged && budgetFresh then intake
  else
    { intake with
      creditEpoch := credit.creditEpoch
      receiver := (intake.receiver.credit credit).1
      owed := intake.owed ++ [.credit credit] }

/-- Queue an advisory state, unless too many are queued. -/
def oweState (intake : Intake) (state : GenState) : Intake :=
  if intake.owedStates ≥ maxOwedStates then intake
  else
    { intake with
      owedStates := intake.owedStates + 1
      owed := intake.owed ++ [.state state] }

def oweDone (intake : Intake) (epoch generation : ℕ) (outcome : GenOutcome) : Intake :=
  { intake with
    owed := intake.owed ++ [.done ⟨.ofNat epoch, .ofNat generation, outcome⟩] }

/-- Mark an epoch settled and drop what is held at or under it. -/
def settleEpoch (intake : Intake) (epoch : ℕ) : Option Intake := do
  let dead := intake.preopen.filter fun held => decide (held.1 ≤ epoch)
  let preopenBytes ← dead.foldlM (fun total held => checkedSub total held.2.length)
    intake.preopenBytes
  return { intake with
    highestSettled := some ((intake.highestSettled.map fun held => max held epoch).getD epoch)
    preopen := intake.preopen.filter fun held => !decide (held.1 ≤ epoch)
    preopenBytes
    counts := { intake.counts with symbolDrops := intake.counts.symbolDrops + dead.length } }

def takePreopen (intake : Intake) (epoch : ℕ) : Option (Intake × List Bytes) := do
  let taken := (intake.preopen.filter fun held => held.1 == epoch).map Prod.snd
  let preopenBytes ← checkedSub intake.preopenBytes (taken.map List.length).sum
  return ({ intake with
    preopen := intake.preopen.filter fun held => !(held.1 == epoch)
    preopenBytes }, taken)

def takeOrphans (intake : Intake) (cover : Cover) : Option (Intake × List Joined) := do
  let contains := fun orphan : Orphan => decide (orphan.cover.root = cover.root ∧
    orphan.offset ≥ cover.offset ∧ orphan.offset - cover.offset < cover.length)
  let taken := (intake.orphans.filter contains).map fun orphan =>
    (⟨cover, orphan.generation, orphan.offset, orphan.generationBytes, orphan.bytes⟩ : Joined)
  let orphanBytes ← checkedSub intake.orphanBytes (taken.map fun joined => joined.bytes.length).sum
  return ({ intake with
    orphans := intake.orphans.filter fun orphan => !contains orphan
    orphanBytes }, taken)

/-- The oldest orphans go until there is room for another. -/
def dropOrphans (length : ℕ) : List Orphan → ℕ → Option (List Orphan × ℕ)
  | [], bytes => some ([], bytes)
  | oldest :: rest, bytes =>
    if rest.length + 1 ≥ maxOrphanGenerations ∨ bytes + length > maxOrphanBytes then do
      dropOrphans length rest (← checkedSub bytes oldest.bytes.length)
    else some (oldest :: rest, bytes)

/-- Hold a decoded generation until its bundle arrives. -/
def holdOrphan (intake : Intake) (joined : Joined) : Option Intake :=
  if joined.bytes.length > maxOrphanBytes then some intake
  else do
    let (orphans, orphanBytes) ← dropOrphans joined.bytes.length intake.orphans intake.orphanBytes
    return { intake with
      orphans := orphans ++ [⟨joined.cover, joined.generation, joined.plaintextOffset,
        joined.generationBytes, joined.bytes⟩]
      orphanBytes := orphanBytes + joined.bytes.length }

/-- One fresh state for each generation that is still live, while states may be queued. -/
def restateLive (epoch : ℕ) : List ℕ → Intake → Option Intake
  | [], intake => some intake
  | generation :: generations, intake =>
    if intake.owedStates ≥ maxOwedStates then some intake
    else do
      let (receiver, report) ← intake.receiver.report epoch generation
      let intake := { intake with receiver }
      match report with
      | none => restateLive epoch generations intake
      | some report =>
        restateLive epoch generations (intake.oweState (stateOf epoch generation report))

/-- Once for an epoch, when its repair round arrives. -/
def restateShort (intake : Intake) (epoch : ℕ) (plan : EpochPlan) : Option Intake :=
  match intake.epochs.get? epoch with
  | none => some intake
  | some held =>
    if held.restated then some intake
    else
      restateLive epoch (List.range (min plan.generationCount (2 ^ 32 - 1)))
        { intake with epochs := intake.epochs.insert epoch { held with restated := true } }

/-- The oldest symbols go until there is room for another; nothing when there never is. -/
def makeRoom (length : ℕ) : List (ℕ × Bytes) → (bytes drops : ℕ) →
    Option (List (ℕ × Bytes) × ℕ × ℕ × Bool)
  | preopen, bytes, drops =>
    if bytes + length > maxPreopenBytes then
      match preopen with
      | [] => some ([], bytes, drops, false)
      | oldest :: rest => do
        makeRoom length rest (← checkedSub bytes oldest.2.length) (drops + 1)
    else some (preopen, bytes, drops, true)

/-- A symbol of an epoch that is not open. -/
def holdPreopen (intake : Intake) (epoch : ℕ) (datagram : Bytes) : Option Intake :=
  if intake.highestSettled.any fun settled => decide (epoch ≤ settled) then
    some { intake with
      counts := { intake.counts with symbolDrops := intake.counts.symbolDrops + 1 } }
  else do
    let (preopen, preopenBytes, symbolDrops, room) ←
      makeRoom datagram.length intake.preopen intake.preopenBytes intake.counts.symbolDrops
    let counts := { intake.counts with symbolDrops }
    if room then
      return { intake with
        preopen := preopen ++ [(epoch, datagram)]
        preopenBytes := preopenBytes + datagram.length
        counts }
    else return { intake with preopen, preopenBytes, counts }

/-- One more symbol of a generation; the only one it takes opens it as well. -/
def countSymbol (intake : Intake) (plan : EpochPlan) (generation : ℕ) : Option Intake := do
  let sent ← plan.sentSourceCount generation
  let coded := if sent = 1 then intake.counts.coded + 1 else intake.counts.coded
  return { intake with
    counts := { intake.counts with symbols := intake.counts.symbols + 1, coded } }

def settleSymbol (intake : Intake) (epoch : OpenEpoch) (header : SymbolHeader) :
    Symbol → Option (Intake × Option Joined)
  | .decoded decoded => do
    let intake ← intake.countSymbol epoch.plan decoded.generation
    let intake := { intake with
      counts := { intake.counts with decoded := intake.counts.decoded + 1 } }
    return (intake.oweDone header.epoch decoded.generation .decoded,
      some ⟨epoch.cover, decoded.generation, decoded.offset, epoch.plan.generationBytes,
        decoded.bytes⟩)
  | .abandoned generation state => do
    let intake ← intake.countSymbol epoch.plan generation
    let intake := { intake with
      counts := { intake.counts with abandoned := intake.counts.abandoned + 1 } }
    let intake := intake.oweState (stateOf header.epoch generation state)
    return (intake.oweDone header.epoch generation .abandoned, none)
  | .stored first => do
    let intake := { intake with
      counts := { intake.counts with symbols := intake.counts.symbols + 1 } }
    if first then
      let intake := { intake with counts := { intake.counts with coded := intake.counts.coded + 1 } }
      if intake.owedStates < maxOwedStates then
        let (receiver, report) ← intake.receiver.report header.epoch header.generation
        let intake := { intake with receiver }
        match report with
        | none => return (intake, none)
        | some state => return (intake.oweState (stateOf header.epoch header.generation state), none)
      else return (intake, none)
    else return (intake, none)
  | .dropped .noCredit | .dropped .pastCredit =>
    some ({ intake with
      counts := { intake.counts with symbolDrops := intake.counts.symbolDrops + 1 } }, none)
  | .dropped _ => some (intake, none)

variable [Gf.Simd]

def symbol (intake : Intake) (datagram : Bytes) : Option (Intake × Option Joined) :=
  match peekHeader datagram with
  | none => some (intake, none)
  | some header =>
    match intake.epochs.get? header.epoch with
    | none => (intake.holdPreopen header.epoch datagram).map fun intake => (intake, none)
    | some epoch => do
      let (receiver, outcome) ← intake.receiver.symbol header.epoch header.generation header.esi
        (datagram.drop symbolHeaderLen)
      let intake := { intake with receiver }
      let intake ← if header.esi ≥ epoch.plan.geometry.sourceCount then
          intake.restateShort header.epoch epoch.plan
        else some intake
      intake.settleSymbol epoch header outcome

/-- The symbols held for an epoch, through the ordinary path. -/
def replay (intake : Intake) : List Bytes → Option (Intake × List Joined)
  | [] => some (intake, [])
  | datagram :: held => do
    let (intake, join) ← intake.symbol datagram
    let (intake, joined) ← intake.replay held
    return (intake, join.toList ++ joined)

/-- `CODING_EPOCH_OPEN`; an error is the conflict the session is closed over. -/
def «open» (intake : Intake) (frame : CodingEpochOpen) :
    Option (Intake × Except Unit (List Joined)) :=
  match EpochPlan.new frame.epoch.toNat frame.offset.toNat frame.length.toNat frame.geometry with
  | .error _ => some (intake, .error ())
  | .ok plan =>
    match intake.receiver.open plan with
    | (receiver, .ok .opened) => do
      let intake := { intake with
        receiver
        counts := { intake.counts with offered := intake.counts.offered + plan.generationCount }
        epochs := intake.epochs.insert frame.epoch.toNat ⟨.of frame, plan, false⟩ }
      let (intake, held) ← intake.takePreopen frame.epoch.toNat
      let (intake, joined) ← intake.replay held
      return (intake, .ok joined)
    | (receiver, .ok .repeated) => some ({ intake with receiver }, .ok [])
    | (receiver, .ok .refused) => do
      let intake := { intake with
        receiver
        counts := { intake.counts with refused := intake.counts.refused + 1 } }
      let intake ← intake.settleEpoch frame.epoch.toNat
      return (intake.oweDone frame.epoch.toNat 0 .refused, .ok [])
    | (receiver, .error _) => some ({ intake with receiver }, .error ())

omit [Gf.Simd]

/-- `CODING_EPOCH_CLOSE`; the orphans of the epoch go with it. -/
def close (intake : Intake) (frame : CodingEpochClose) : Option Intake := do
  let (receiver, _) ← intake.receiver.close frame.epoch.toNat
  let intake ← { intake with receiver }.settleEpoch frame.epoch.toNat
  match intake.epochs.get? frame.epoch.toNat with
  | none => return intake
  | some epoch =>
    let intake := { intake with epochs := intake.epochs.erase frame.epoch.toNat }
    let (intake, _) ← intake.takeOrphans epoch.cover
    return intake

def settleOwed (intake : Intake) : Option Intake :=
  match intake.owed with
  | [] => some intake
  | .state _ :: owed => do return { intake with owed, owedStates := ← checkedSub intake.owedStates 1 }
  | _ :: owed => some { intake with owed }

end Intake

end ObjectTransfer.Coded
