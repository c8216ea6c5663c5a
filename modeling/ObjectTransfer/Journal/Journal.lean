import ObjectTransfer.Foundations.VolatileFile
import ObjectTransfer.Journal.Format

/-! # The journal and its writer

The methods of a journal on the file under its name, with the outcome of every call to the file
system given. A failed append leaves any beginning of its record behind and poisons the writer until
it is repaired. A compaction writes a file of its own and moves it over the journal.
-/

namespace ObjectTransfer.Journaling
open Foundations

/-- The writer. The file it holds is the one under the journal's name while it is attached. -/
structure Journal where
  bytes : ℕ
  incarnation : Block 16
  nextSequence : ℕ
  poisoned : Bool
  attached : Bool
  detached_poisoned : attached = false → poisoned = true
  deriving DecidableEq

/-- The file under the journal's name, and the one it replaced while the directory is not synced. -/
structure Disk where
  file : VolatileFile
  replaced : Option VolatileFile
  deriving DecidableEq

/-- How the write and the sync of an append end: a write that fails has written some bytes. -/
structure AppendIo where
  failedAfter : Option ℕ
  synced : Bool
  deriving DecidableEq, Repr

/-- Which of the calls of a repair succeed. -/
structure RepairIo where
  sameFile : Bool
  seek : Bool
  read : Bool
  setLen : Bool
  sync : Bool
  seekEnd : Bool
  deriving DecidableEq, Repr

structure OpenIo where
  opened : Bool
  read : Bool
  setLen : Bool
  sync : Bool
  seekEnd : Bool
  deriving DecidableEq, Repr

/-- A rename that fails may have been carried out. -/
inductive Rename where
  | done
  | failed (replaced : Bool)
  deriving DecidableEq, Repr

structure CompactIo where
  prepared : Bool
  rename : Rename
  parentSynced : Bool
  readBack : Bool
  seekEnd : Bool
  deriving DecidableEq, Repr

def grownWithinCeiling (bytes added : ℕ) : Except Error ℕ :=
  match checkedAdd bytes added with
  | none => .error .full
  | some grown => if grown > maxJournalBytes then .error .full else .ok grown

/-- The sequence a journal ending at `last` writes next. -/
def nextSequenceAfter : Option Record → Except Error ℕ
  | none => .ok 0
  | some record => successor record.sequence

def create (incarnation : Block 16) : Disk × Journal :=
  (⟨.empty, none⟩, ⟨0, incarnation, 0, false, true, nofun⟩)

/-- Cut a torn tail off and sync, or leave the file as it is. -/
def openAt (disk : Disk) (incarnation : Block 16) (io : OpenIo) :
    Disk × Except Error (Journal × Replayed (List Record)) :=
  if !io.opened || !io.read then (disk, .error .io)
  else
    match replayReader disk.file.content incarnation with
    | .error error => (disk, .error error)
    | .ok replay =>
      match nextSequenceAfter replay.state.getLast? with
      | .error error => (disk, .error error)
      | .ok nextSequence =>
        if replay.torn && !io.setLen then (disk, .error .io)
        else
          let cut := if replay.torn then disk.file.setLen replay.valid else disk.file
          if replay.torn && !io.sync then ({ disk with file := cut }, .error .io)
          else
            let file := if replay.torn then cut.sync else cut
            if !io.seekEnd then ({ disk with file }, .error .io)
            else ({ disk with file },
              .ok (⟨file.content.length, incarnation, nextSequence, false, true, nofun⟩, replay))

namespace Journal

variable (journal : Journal)

/-- The writer once something it wrote may be there or not. -/
def poison : Journal := { journal with poisoned := true, detached_poisoned := fun _ => rfl }

/-- The writer once its file may have lost its name. -/
def detach (attached : Bool) : Journal :=
  { journal with poisoned := true, attached, detached_poisoned := fun _ => rfl }

def nextRecord (state : UInt8) (payload : Bytes) : Record :=
  ⟨journal.incarnation, journal.nextSequence, state, payload, false⟩

def appendDurable (disk : Disk) (state : UInt8) (payload : Bytes) (io : AppendIo) :
    Disk × Journal × Except Error ℕ :=
  if journal.poisoned then (disk, journal, .error .poisoned)
  else if payload.length > maxPayload then (disk, journal, .error .payloadTooLarge)
  else if state &&& checkpointFlag ≠ 0 then (disk, journal, .error .invalidState)
  else
    match successor journal.nextSequence with
    | .error error => (disk, journal, .error error)
    | .ok following =>
      match encode (journal.nextRecord state payload) with
      | .error error => (disk, journal, .error error)
      | .ok encoded =>
        match grownWithinCeiling journal.bytes encoded.length with
        | .error error => (disk, journal, .error error)
        | .ok grown =>
          match io.failedAfter with
          | some written =>
            ({ disk with file := disk.file.append (encoded.take written) }, journal.poison,
              .error .io)
          | none =>
            if io.synced then
              ({ disk with file := (disk.file.append encoded).sync },
                { journal with bytes := grown, nextSequence := following }, .ok journal.nextSequence)
            else
              ({ disk with file := disk.file.append encoded }, journal.poison, .error .io)

def repairPoisoned (disk : Disk) (io : RepairIo) :
    Disk × Journal × Except Error (Replayed (List Record)) :=
  if !journal.poisoned then (disk, journal, .error .invalidState)
  else if !io.sameFile then (disk, journal, .error .io)
  else if hattached : journal.attached = false then (disk, journal, .error .invalidState)
  else if !io.seek || !io.read then (disk, journal, .error .io)
  else
    match replayReader disk.file.content journal.incarnation with
    | .error error => (disk, journal, .error error)
    | .ok replay =>
      if replay.torn && !io.setLen then (disk, journal, .error .io)
      else
        let cut := if replay.torn then disk.file.setLen replay.valid else disk.file
        if !io.sync then ({ disk with file := cut }, journal, .error .io)
        else if !io.seekEnd then ({ disk with file := cut.sync }, journal, .error .io)
        else
          match nextSequenceAfter replay.state.getLast? with
          | .error error => ({ disk with file := cut.sync }, journal, .error error)
          | .ok nextSequence =>
            ({ disk with file := cut.sync },
              { journal with
                bytes := cut.content.length
                nextSequence
                poisoned := false
                detached_poisoned := fun h => absurd h hattached }, .ok replay)

def checkpointRecord (sequence : ℕ) (state : UInt8) (payload : Bytes) : Record :=
  ⟨journal.incarnation, sequence, state, payload, true⟩

/-- Take over the file a rename put in place, once it reads back. -/
def finishCompaction (disk : Disk) (replacement : VolatileFile) (io : CompactIo) :
    Disk × Journal × Except Error Unit :=
  let moved : Disk := ⟨replacement, some disk.file⟩
  if !io.parentSynced then (moved, journal.detach false, .error .io)
  else
    let settled : Disk := ⟨replacement, none⟩
    if !io.readBack then (settled, journal.detach false, .error .io)
    else
      match replayReader replacement.content journal.incarnation with
      | .error error => (settled, journal.detach false, .error error)
      | .ok replayed =>
        if replayed.torn ∨ replayed.state.length ≠ 1 then
          (settled, journal.detach false, .error .invalidHeader)
        else if !io.seekEnd then (settled, journal.detach false, .error .io)
        else
          (settled,
            { journal with
              bytes := replacement.content.length
              poisoned := false
              attached := true
              detached_poisoned := nofun }, .ok ())

def compactCheckpoint (disk : Disk) (state : UInt8) (payload : Bytes) (io : CompactIo) :
    Disk × Journal × Except Error Unit :=
  if journal.poisoned then (disk, journal, .error .poisoned)
  else if state &&& checkpointFlag ≠ 0 then (disk, journal, .error .invalidState)
  else if payload.length > maxPayload then (disk, journal, .error .payloadTooLarge)
  else
    match checkedSub journal.nextSequence 1 with
    | none => (disk, journal, .error .empty)
    | some sequence =>
      match encode (journal.checkpointRecord sequence state payload) with
      | .error error => (disk, journal, .error error)
      | .ok encoded =>
        if !io.prepared then (disk, journal, .error .io)
        else
          let replacement := VolatileFile.durable encoded
          match io.rename with
          | .failed replaced =>
            (if replaced then ⟨replacement, some disk.file⟩ else disk, journal.detach !replaced,
              .error .io)
          | .done => journal.finishCompaction disk replacement io

end Journal

/-- What a crash leaves under the journal's name. -/
def Disk.crash (disk : Disk) (keep : ℕ) (revert : Bool) : Disk :=
  match disk.replaced, revert with
  | some file, true => ⟨file.crash keep, none⟩
  | _, _ => ⟨disk.file.crash keep, none⟩

end ObjectTransfer.Journaling
