import ObjectTransfer.Foundations.History
import ObjectTransfer.Foundations.Runs
import ObjectTransfer.Journal.Journal

/-! # Runs of a journal

A journal is written, repaired, compacted, cut by crashes and opened again in any order. What its
file replays to is always the record of the last compaction and, numbered one after another, some of
the appends that were tried since: all that were acknowledged, and otherwise only such as reported an
I/O error.
-/

namespace ObjectTransfer.Journaling
open Foundations List VolatileFile

/-- A call of `append_durable` and what it returned. -/
structure Attempt where
  state : UInt8
  payload : Bytes
  result : Except Error ℕ

/-- The records of some appends, numbered from `first`. -/
def recordsFrom (incarnation : Block 16) : ℕ → List Attempt → List Record
  | _, [] => []
  | first, attempt :: attempts =>
    ⟨incarnation, first, attempt.state, attempt.payload, false⟩ ::
      recordsFrom incarnation (first + 1) attempts

/-- Each acknowledged append was given the number it has here. -/
def Answered : ℕ → List Attempt → Prop
  | _, [] => True
  | first, attempt :: attempts =>
    (∀ sequence, attempt.result = .ok sequence → sequence = first) ∧ Answered (first + 1) attempts

def Attempt.acknowledged (attempt : Attempt) : Bool := attempt.result.isOk

section Records

variable {incarnation : Block 16} {first : ℕ} {attempts more : List Attempt}

theorem recordsFrom_append (first : ℕ) (attempts more : List Attempt) :
    recordsFrom incarnation first (attempts ++ more) = recordsFrom incarnation first attempts ++
      recordsFrom incarnation (first + attempts.length) more := by
  induction attempts generalizing first with
  | nil => rfl
  | cons attempt attempts ih =>
    rw [cons_append, recordsFrom, ih, recordsFrom, cons_append, length_cons, add_assoc, add_comm 1]

theorem recordsFrom_take (first k : ℕ) (attempts : List Attempt) :
    (recordsFrom incarnation first attempts).take k =
      recordsFrom incarnation first (attempts.take k) := by
  induction attempts generalizing first k with
  | nil => simp [recordsFrom]
  | cons attempt attempts ih =>
    cases k with
    | zero => rfl
    | succ => rw [recordsFrom, take_succ_cons, ih, take_succ_cons, recordsFrom]

theorem recordsFrom_consecutive (first : ℕ) (attempts : List Attempt) :
    Consecutive first (recordsFrom incarnation first attempts) := by
  induction attempts generalizing first with
  | nil => trivial
  | cons attempt attempts ih => exact ⟨rfl, ih _⟩

theorem Answered.append (h : Answered first attempts) (hmore : Answered (first + attempts.length) more) :
    Answered first (attempts ++ more) := by
  induction attempts generalizing first with
  | nil => exact hmore
  | cons attempt attempts ih =>
    refine ⟨h.1, ih h.2 ?_⟩
    rwa [length_cons, add_comm attempts.length, ← add_assoc] at hmore

theorem Answered.take (h : Answered first attempts) (k : ℕ) : Answered first (attempts.take k) := by
  induction attempts generalizing first k with
  | nil => rwa [take_nil]
  | cons attempt attempts ih =>
    cases k with
    | zero => trivial
    | succ k => exact ⟨h.1, ih h.2 k⟩

end Records

/-- Where the records begin: at zero, or behind the record of a compaction. -/
inductive Begins (incarnation : Block 16) : Option (UInt8 × Bytes) → List Record → ℕ → Prop where
  | fresh : Begins incarnation none [] 0
  | compacted (sequence : ℕ) (state : UInt8) (payload : Bytes)
      (hwritable : Writable incarnation ⟨incarnation, sequence, state, payload, true⟩) :
      Begins incarnation (some (state, payload)) [⟨incarnation, sequence, state, payload, true⟩]
        (sequence + 1)

/-- A file that holds the records of some appends, those on the disk for certain first. -/
structure Holds (incarnation : Block 16) (attempts : List Attempt) (base : List Record) (first : ℕ)
    (durable loose : List Attempt) (tail : Bytes) (file : VolatileFile) : Prop where
  content : file.content =
    writeAll recordBytes (base ++ recordsFrom incarnation first (durable ++ loose)) ++ tail
  unfinished : Unfinished recordBytes (Writable incarnation) tail
  synced : (writeAll recordBytes (base ++ recordsFrom incarnation first durable)).length ≤ file.synced
  bounded : file.content.length ≤ maxJournalBytes
  writable : ∀ record ∈ base ++ recordsFrom incarnation first (durable ++ loose),
    Writable incarnation record
  numbered : first + (durable ++ loose).length ≤ u64Max
  tried : (durable ++ loose).Sublist attempts
  acknowledged : (attempts.filter Attempt.acknowledged).Sublist durable
  answered : Answered first (durable ++ loose)
  failed : ∀ attempt ∈ durable ++ loose, attempt.acknowledged = false → attempt.result = .error .io

section Holds

variable {incarnation : Block 16} {compacted : Option (UInt8 × Bytes)} {attempts kept : List Attempt}
  {base : List Record} {first : ℕ} {durable loose : List Attempt} {tail : Bytes} {file : VolatileFile}

theorem Begins.numbered (h : Begins incarnation compacted base first) (kept : List Attempt) :
    Numbered (base ++ recordsFrom incarnation first kept) := by
  cases h with
  | fresh =>
    cases kept with
    | nil => exact .empty
    | cons => exact .cons _ _ (.inl rfl) (recordsFrom_consecutive _ _)
  | compacted => exact .cons _ _ (.inr rfl) (recordsFrom_consecutive _ _)

theorem Begins.nextSequence (h : Begins incarnation compacted base first)
    (hle : first + kept.length ≤ u64Max) :
    nextSequenceAfter (base ++ recordsFrom incarnation first kept).getLast? =
      .ok (first + kept.length) := by
  rcases eq_nil_or_concat kept with rfl | ⟨front, last, rfl⟩
  · rw [recordsFrom, append_nil]
    cases h with
    | fresh => rfl
    | compacted => exact (okOr_eq_ok.mpr (checkedAdd_of_le (by simpa using hle)))
  · rw [concat_eq_append, length_append] at hle ⊢
    rw [recordsFrom_append, ← append_assoc]
    simp only [recordsFrom, getLast?_concat, nextSequenceAfter]
    exact okOr_eq_ok.mpr (checkedAdd_of_le hle)

namespace Holds

theorem replays (h : Holds incarnation attempts base first durable loose tail file)
    (hbase : Begins incarnation compacted base first) :
    replayReader file.content incarnation =
      .ok ⟨base ++ recordsFrom incarnation first (durable ++ loose), decide (tail ≠ []),
        (writeAll recordBytes (base ++ recordsFrom incarnation first (durable ++ loose))).length⟩ := by
  have hbounded := h.bounded
  rw [h.content] at hbounded ⊢
  exact replayReader_log h.writable (hbase.numbered _) h.unfinished hbounded

variable {attempt : Attempt}

theorem refused (h : Holds incarnation attempts base first durable loose tail file)
    (hfailed : attempt.acknowledged = false) :
    Holds incarnation (attempts ++ [attempt]) base first durable loose tail file :=
  { h with
    tried := h.tried.trans (List.sublist_append_left _ _)
    acknowledged := by
      rw [filter_append, filter_cons_of_neg (by simp [hfailed]), filter_nil, append_nil]
      exact h.acknowledged }

section

variable (h : Holds incarnation attempts base first durable loose [] file) {record : Record}
variable (hnext : recordsFrom incarnation (first + (durable ++ loose).length) [attempt] = [record])
include h hnext

theorem content_concat : file.content ++ recordBytes record = writeAll recordBytes
    (base ++ recordsFrom incarnation first (durable ++ loose ++ [attempt])) ++ [] := by
  rw [h.content, recordsFrom_append _ (durable ++ loose), hnext, ← append_assoc, writeAll_append]
  simp

variable (hnumbered : first + (durable ++ loose).length + 1 ≤ u64Max)
variable (hwritable : Writable incarnation record)
variable (hbounded : file.content.length + (recordBytes record).length ≤ maxJournalBytes)

include hwritable in
theorem writable_concat :
    ∀ record ∈ base ++ recordsFrom incarnation first (durable ++ loose ++ [attempt]),
      Writable incarnation record := by
  rw [recordsFrom_append, hnext, ← append_assoc]
  intro record hrecord
  rcases mem_append.mp hrecord with hold | hnew
  · exact h.writable record hold
  · exact mem_singleton.mp hnew ▸ hwritable

include hnumbered hwritable hbounded

/-- An append that failed after some bytes of its record: the record stays unfinished, or it is all
there and not synced. -/
theorem written (hfailed : attempt.result = .error .io) (n : ℕ) :
    ∃ loose' tail', (loose' = loose ∨ loose' = loose ++ [attempt]) ∧
      Holds incarnation (attempts ++ [attempt]) base first durable loose' tail'
        (file.append ((recordBytes record).take n)) := by
  have hnot : attempt.acknowledged = false := by
    simp [Attempt.acknowledged, hfailed, Except.isOk, Except.toBool]
  have hrefused := h.refused hnot
  by_cases hlt : n < (recordBytes record).length
  · refine ⟨loose, _, .inl rfl, ?_, .of_take hwritable hlt, hrefused.synced, ?_, h.writable,
      h.numbered, hrefused.tried, hrefused.acknowledged, h.answered, h.failed⟩
    · rw [append_content, h.content, append_nil]
    · rw [append_content, length_append, length_take]
      omega
  · rw [take_of_length_le (not_lt.mp hlt)]
    refine ⟨loose ++ [attempt], [], .inr rfl, ?_, .inl rfl, hrefused.synced, ?_, ?_, ?_, ?_,
      hrefused.acknowledged, ?_, ?_⟩
    · rw [← append_assoc]
      exact h.content_concat hnext
    · rw [append_content, length_append]
      exact hbounded
    · rw [← append_assoc]
      exact h.writable_concat hnext hwritable
    · rw [← append_assoc, length_append, ← add_assoc]
      exact hnumbered
    · rw [← append_assoc]
      exact h.tried.append (List.Sublist.refl _)
    · rw [← append_assoc]
      exact h.answered.append ⟨fun sequence hok => by simp [hfailed] at hok, trivial⟩
    · rw [← append_assoc]
      intro other hother hnot
      rcases mem_append.mp hother with hold | hnew
      · exact h.failed other hold hnot
      · rw [mem_singleton.mp hnew]
        exact hfailed

/-- An acknowledged append: its sync puts everything on the disk. -/
theorem acknowledge (hok : attempt.result = .ok (first + (durable ++ loose).length)) :
    Holds incarnation (attempts ++ [attempt]) base first (durable ++ loose ++ [attempt]) [] []
      (file.append (recordBytes record)).sync := by
  have hyes : attempt.acknowledged = true := by
    simp [Attempt.acknowledged, hok, Except.isOk, Except.toBool]
  refine ⟨?_, .inl rfl, ?_, ?_, ?_, ?_, ?_, ?_, ?_, ?_⟩
  · rw [append_nil (durable ++ loose ++ [attempt])]
    exact h.content_concat hnext
  · have hcontent := congrArg length (h.content_concat hnext)
    rw [append_nil] at hcontent
    exact hcontent.ge
  · rw [sync_content, append_content, length_append]
    exact hbounded
  · rw [append_nil]
    exact h.writable_concat hnext hwritable
  · rw [append_nil, length_append, ← add_assoc]
    exact hnumbered
  · rw [append_nil]
    exact h.tried.append (List.Sublist.refl _)
  · rw [filter_append, filter_cons_of_pos hyes, filter_nil]
    exact (h.acknowledged.trans (sublist_append_left _ _)).append (List.Sublist.refl _)
  · rw [append_nil]
    refine h.answered.append ⟨fun sequence hanswer => ?_, trivial⟩
    rw [hok] at hanswer
    exact (Except.ok.inj hanswer).symm
  · rw [append_nil]
    intro other hother hnot
    rcases mem_append.mp hother with hold | hnew
    · exact h.failed other hold hnot
    · rw [mem_singleton.mp hnew, hyes] at hnot
      cases hnot

end

section

variable (h : Holds incarnation attempts base first durable loose tail file)
include h

theorem sync :
    Holds incarnation attempts base first (durable ++ loose) [] tail file.sync := by
  have hnil := append_nil (durable ++ loose)
  refine ⟨?_, h.unfinished, ?_, h.bounded, ?_, ?_, ?_, ?_, ?_, ?_⟩
  · rw [hnil]
    exact h.content
  · rw [sync_synced, h.content, length_append]
    exact Nat.le_add_right _ _
  · rw [hnil]
    exact h.writable
  · rw [hnil]
    exact h.numbered
  · rw [hnil]
    exact h.tried
  · exact h.acknowledged.trans (sublist_append_left _ _)
  · rw [hnil]
    exact h.answered
  · rw [hnil]
    exact h.failed

/-- A crash loses appends that were not acknowledged, the last ones first. -/
theorem crash (keep : ℕ) :
    ∃ k tail', Holds incarnation attempts base first durable (loose.take k) tail' (file.crash keep) := by
  have hsplit : base ++ recordsFrom incarnation first (durable ++ loose) =
      (base ++ recordsFrom incarnation first durable) ++
        recordsFrom incarnation (first + durable.length) loose := by
    rw [recordsFrom_append, append_assoc]
  have hwritable := h.writable
  rw [hsplit] at hwritable
  obtain ⟨k, tail', hk, htail', hcut⟩ := take_log_keeps
    (fun record hrecord => hwritable record (mem_append_right _ hrecord)) h.unfinished
    (h.synced.trans (le_max_right keep file.synced))
  have hlost : durable ++ loose = durable ++ loose.take k ++ loose.drop k := by
    rw [append_assoc, take_append_drop]
  have hkept : (durable ++ loose.take k).Sublist (durable ++ loose) :=
    (List.Sublist.refl _).append (take_sublist k loose)
  refine ⟨k, tail', ?_, htail', ?_, ?_, ?_, ?_, hkept.trans h.tried, h.acknowledged, ?_,
    fun attempt hattempt => h.failed attempt (hkept.subset hattempt)⟩
  · rw [crash_content, h.content, hsplit, hcut, recordsFrom_take,
      append_assoc, ← recordsFrom_append]
  · rw [crash_synced, crash_content, h.content, hsplit, hcut,
      length_append]
    exact (writeAll_length_le _ _).trans (Nat.le_add_right _ _)
  · exact (length_take_le' _ _).trans h.bounded
  · intro record hrecord
    refine h.writable record ?_
    rw [hlost, recordsFrom_append, ← append_assoc]
    exact mem_append_left _ hrecord
  · exact (Nat.add_le_add_left hkept.length_le _).trans h.numbered
  · have hanswered := h.answered.take (durable.length + k)
    rwa [take_length_add_append] at hanswered

end

end Holds

end Holds

inductive Appending (journal : Journal) (disk : Disk) (state : UInt8) (payload : Bytes) :
    Disk → Journal → Except Error ℕ → Prop where
  | refused (error : Error) : Appending journal disk state payload disk journal (.error error)
  | failed (written : ℕ) (hclean : journal.poisoned = false)
      (hnumbered : journal.nextSequence + 1 ≤ u64Max)
      (hwritable : Writable journal.incarnation (journal.nextRecord state payload))
      (hbounded : journal.bytes + (recordBytes (journal.nextRecord state payload)).length ≤
        maxJournalBytes) :
      Appending journal disk state payload
        { disk with
          file := disk.file.append ((recordBytes (journal.nextRecord state payload)).take written) }
        journal.poison (.error .io)
  | done (hclean : journal.poisoned = false) (hnumbered : journal.nextSequence + 1 ≤ u64Max)
      (hwritable : Writable journal.incarnation (journal.nextRecord state payload))
      (hbounded : journal.bytes + (recordBytes (journal.nextRecord state payload)).length ≤
        maxJournalBytes) :
      Appending journal disk state payload
        { disk with
          file := (disk.file.append (recordBytes (journal.nextRecord state payload))).sync }
        { journal with
          bytes := journal.bytes + (recordBytes (journal.nextRecord state payload)).length
          nextSequence := journal.nextSequence + 1 }
        (.ok journal.nextSequence)

section Calls

variable (journal : Journal) (disk : Disk) (state : UInt8) (payload : Bytes)

theorem appendDurable_cases (io : AppendIo) :
    Appending journal disk state payload (journal.appendDurable disk state payload io).1
      (journal.appendDurable disk state payload io).2.1
      (journal.appendDurable disk state payload io).2.2 := by
  unfold Journal.appendDurable
  split
  · exact .refused _
  next hpoisoned =>
  split
  · exact .refused _
  next hpayload =>
  split
  · exact .refused _
  next hstate =>
  cases hnext : successor journal.nextSequence with
  | error => exact .refused _
  | ok following =>
  obtain ⟨hle, rfl⟩ := checkedAdd_eq_some.mp (okOr_eq_ok.mp hnext)
  have hwritable : Writable journal.incarnation (journal.nextRecord state payload) :=
    ⟨rfl, (Nat.le_succ _).trans hle, not_not.mp hstate, not_lt.mp hpayload⟩
  rw [encode_eq hwritable]
  dsimp only
  cases hgrown : grownWithinCeiling journal.bytes
      (recordBytes (journal.nextRecord state payload)).length with
  | error => exact .refused _
  | ok grown =>
  have hbounded : grown = journal.bytes + (recordBytes (journal.nextRecord state payload)).length ∧
      grown ≤ maxJournalBytes := by
    unfold grownWithinCeiling at hgrown
    split at hgrown
    · cases hgrown
    · next grown' hsum =>
      split_ifs at hgrown with hlarge
      cases hgrown
      exact ⟨(checkedAdd_eq_some.mp hsum).2.symm, not_lt.mp hlarge⟩
  obtain ⟨rfl, hbounded⟩ := hbounded
  have hclean : journal.poisoned = false := Bool.eq_false_iff.mpr hpoisoned
  cases hfailed : io.failedAfter with
  | some written => exact .failed written hclean hle hwritable hbounded
  | none =>
    split_ifs with hsynced
    · exact .done hclean hle hwritable hbounded
    · have hall : Appending journal disk state payload _ _ _ := .failed
        (recordBytes (journal.nextRecord state payload)).length hclean hle hwritable hbounded
      rwa [take_length] at hall

/-- A compaction whose rename is reached succeeds. -/
def CompactIo.Sound (io : CompactIo) : Prop :=
  io.prepared = true → io.rename = .done ∧ io.parentSynced = true ∧ io.readBack = true ∧
    io.seekEnd = true

/-- A sound compaction does nothing, or leaves one record. -/
inductive Compacting (journal : Journal) (disk : Disk) (state : UInt8) (payload : Bytes) :
    Disk → Journal → Except Error Unit → Prop where
  | refused (error : Error) : Compacting journal disk state payload disk journal (.error error)
  | done (sequence : ℕ) (hclean : journal.poisoned = false)
      (hsequence : journal.nextSequence = sequence + 1)
      (hwritable : Writable journal.incarnation (journal.checkpointRecord sequence state payload)) :
      Compacting journal disk state payload
        ⟨.durable (recordBytes (journal.checkpointRecord sequence state payload)), none⟩
        { journal with
          bytes := (recordBytes (journal.checkpointRecord sequence state payload)).length
          poisoned := false
          attached := true
          detached_poisoned := nofun } (.ok ())

theorem replayReader_checkpoint {incarnation : Block 16} {record : Record}
    (h : Writable incarnation record) (hcheckpoint : record.checkpoint = true) :
    replayReader (recordBytes record) incarnation =
      .ok ⟨[record], false, (recordBytes record).length⟩ := by
  have hlog : writeAll recordBytes [record] ++ [] = recordBytes record := by simp
  have hle : (writeAll recordBytes [record] ++ []).length ≤ maxJournalBytes := by
    rw [hlog, recordBytes_length]
    exact (Nat.add_le_add_right (Nat.add_le_add_left h.payload _) _).trans (by decide)
  have hreplay := replayReader_log (fun r hr => mem_singleton.mp hr ▸ h)
    (.cons record [] (.inr hcheckpoint) trivial) (.inl rfl) hle
  simpa using hreplay

theorem compactCheckpoint_cases (io : CompactIo) (hsound : io.Sound)
    (hle : journal.poisoned = false → journal.nextSequence ≤ u64Max) :
    Compacting journal disk state payload (journal.compactCheckpoint disk state payload io).1
      (journal.compactCheckpoint disk state payload io).2.1
      (journal.compactCheckpoint disk state payload io).2.2 := by
  unfold Journal.compactCheckpoint
  split
  · exact .refused _
  next hpoisoned =>
  split
  · exact .refused _
  next hstate =>
  split
  · exact .refused _
  next hpayload =>
  cases hsequence : checkedSub journal.nextSequence 1 with
  | none => exact .refused _
  | some sequence =>
  obtain ⟨hpos, hsequence⟩ := checkedSub_eq_some.mp hsequence
  have hle := hle (Bool.eq_false_iff.mpr hpoisoned)
  have hwritable : Writable journal.incarnation (journal.checkpointRecord sequence state payload) :=
    ⟨rfl, by dsimp only [Journal.checkpointRecord]; omega, not_not.mp hstate, not_lt.mp hpayload⟩
  dsimp only
  rw [encode_eq hwritable]
  cases hprepared : io.prepared with
  | false => exact .refused _
  | true =>
  obtain ⟨hrename, hparent, hread, hseek⟩ := hsound hprepared
  have hreplay := replayReader_checkpoint hwritable rfl
  have hfinish : journal.finishCompaction disk
      (.durable (recordBytes (journal.checkpointRecord sequence state payload))) io =
      (⟨.durable (recordBytes (journal.checkpointRecord sequence state payload)), none⟩,
        { journal with
          bytes := (recordBytes (journal.checkpointRecord sequence state payload)).length
          poisoned := false
          attached := true
          detached_poisoned := nofun }, .ok ()) := by
    unfold Journal.finishCompaction
    simp [hparent, hread, hseek, VolatileFile.durable, hreplay]
  rw [hrename]
  dsimp only
  rw [hfinish]
  exact .done sequence (Bool.eq_false_iff.mpr hpoisoned) (by omega) hwritable

end Calls

/-- The calls on a journal, the loss of its writer, and crashes. -/
inductive Op where
  | append (state : UInt8) (payload : Bytes) (io : AppendIo)
  | repair (io : RepairIo)
  | compact (state : UInt8) (payload : Bytes) (io : CompactIo)
  | close
  | «open» (io : OpenIo)
  | crash (keep : ℕ) (revert : Bool)

inductive Event where
  | append (attempt : Attempt)
  | compacted (state : UInt8) (payload : Bytes)

/-- The disk, the writer if there is one, and what happened, the latest first. -/
structure World where
  disk : Disk
  handle : Option Journal
  log : List Event

namespace World

def new (incarnation : Block 16) : World :=
  ⟨(create incarnation).1, some (create incarnation).2, []⟩

/-- A call without a writer, or an open beside one, does nothing. -/
def step (incarnation : Block 16) (world : World) : Op → World
  | .append state payload io =>
    match world.handle with
    | none => world
    | some journal =>
      let (disk, journal, result) := journal.appendDurable world.disk state payload io
      ⟨disk, some journal, .append ⟨state, payload, result⟩ :: world.log⟩
  | .repair io =>
    match world.handle with
    | none => world
    | some journal =>
      let (disk, journal, _) := journal.repairPoisoned world.disk io
      ⟨disk, some journal, world.log⟩
  | .compact state payload io =>
    match world.handle with
    | none => world
    | some journal =>
      let (disk, journal, result) := journal.compactCheckpoint world.disk state payload io
      ⟨disk, some journal,
        if result.isOk then .compacted state payload :: world.log else world.log⟩
  | .close => { world with handle := none }
  | .open io =>
    match world.handle with
    | some _ => world
    | none =>
      let (disk, result) := openAt world.disk incarnation io
      ⟨disk, result.toOption.map Prod.fst, world.log⟩
  | .crash keep revert => ⟨world.disk.crash keep revert, none, world.log⟩

end World

def Event.isCompacted : Event → Bool
  | .compacted .. => true
  | .append _ => false

def Event.attempt : Event → Option Attempt
  | .append attempt => some attempt
  | .compacted .. => none

def lastCompaction : List Event → Option (UInt8 × Bytes)
  | [] => none
  | .compacted state payload :: _ => some (state, payload)
  | .append _ :: log => lastCompaction log

/-- The appends tried since the last compaction, in order. -/
def attemptsSince (log : List Event) : List Attempt :=
  ((since Event.isCompacted log).filterMap Event.attempt).reverse

theorem attemptsSince_append (attempt : Attempt) (log : List Event) :
    attemptsSince (.append attempt :: log) = attemptsSince log ++ [attempt] := by
  rw [attemptsSince, since_cons rfl,
    filterMap_cons_some (f := Event.attempt) rfl, reverse_cons, attemptsSince]

/-- The calls the runs are made of: a compaction that reaches its rename succeeds. -/
def Op.Sound : Op → Prop
  | .compact _ _ io => io.Sound
  | _ => True

/-- A writer that knows its file. -/
structure Writes (incarnation : Block 16) (first : ℕ) (kept : List Attempt) (tail : Bytes)
    (file : VolatileFile) (journal : Journal) : Prop where
  incarnation : journal.incarnation = incarnation
  attached : journal.attached = true
  clean : journal.poisoned = false → tail = [] ∧ journal.bytes = file.content.length ∧
    journal.nextSequence = first + kept.length

/-- What every run keeps. -/
structure Sound (incarnation : Block 16) (world : World) (base : List Record) (first : ℕ)
    (durable loose : List Attempt) (tail : Bytes) : Prop where
  begins : Begins incarnation (lastCompaction world.log) base first
  holds : Holds incarnation (attemptsSince world.log) base first durable loose tail world.disk.file
  settled : world.disk.replaced = none
  writes : ∀ journal, world.handle = some journal →
    Writes incarnation first (durable ++ loose) tail world.disk.file journal

def Consistent (incarnation : Block 16) (world : World) : Prop :=
  ∃ base first durable loose tail, Sound incarnation world base first durable loose tail

section Steps

variable {incarnation : Block 16} {world : World} {base : List Record} {first : ℕ}
  {durable loose : List Attempt} {tail : Bytes} {journal : Journal}

variable {file : VolatileFile}

theorem Writes.handle {kept : List Attempt}
    (h : Writes incarnation first kept tail file journal) : ∀ other, some journal = some other →
      Writes incarnation first kept tail file other := by
  rintro _ ⟨⟩
  exact h

theorem consistent_new (incarnation : Block 16) : Consistent incarnation (.new incarnation) := by
  refine ⟨[], 0, [], [], [], .fresh, ⟨rfl, .inl rfl, Nat.le_refl _, Nat.zero_le _, nofun,
    Nat.zero_le _, .slnil, .slnil, trivial, nofun⟩, rfl, Writes.handle ?_⟩
  exact ⟨rfl, rfl, fun _ => ⟨rfl, rfl, rfl⟩⟩

variable {disk : Disk} {journal' : Journal} {payload : Bytes} {state : UInt8}

theorem Sound.append (h : Sound incarnation world base first durable loose tail)
    (hhandle : world.handle = some journal) {result : Except Error ℕ}
    (happend : Appending journal world.disk state payload disk journal' result) :
    Consistent incarnation
      ⟨disk, some journal', .append ⟨state, payload, result⟩ :: world.log⟩ := by
  obtain ⟨hincarnation, hattached, hclean⟩ := h.writes journal hhandle
  have hholds := h.holds
  have hrecord (hfree : journal.poisoned = false) :
      recordsFrom incarnation (first + (durable ++ loose).length) [⟨state, payload, result⟩] =
        [journal.nextRecord state payload] := by
    rw [Journal.nextRecord, hincarnation, (hclean hfree).2.2]
    rfl
  cases happend with
  | refused =>
    refine ⟨base, first, durable, loose, tail, h.begins, ?_, h.settled,
      Writes.handle ⟨hincarnation, hattached, hclean⟩⟩
    rw [attemptsSince_append]
    exact hholds.refused rfl
  | failed written hfree hnumbered hwritable hbounded =>
    obtain ⟨rfl, hbytes, hnext⟩ := hclean hfree
    rw [hincarnation] at hwritable
    rw [hnext] at hnumbered
    rw [hbytes] at hbounded
    obtain ⟨loose', tail', -, hwritten⟩ :=
      hholds.written (hrecord hfree) hnumbered hwritable hbounded rfl written
    refine ⟨base, first, durable, loose', tail', h.begins, ?_, h.settled,
      Writes.handle ⟨hincarnation, hattached, nofun⟩⟩
    rw [attemptsSince_append]
    exact hwritten
  | done hfree hnumbered hwritable hbounded =>
    obtain ⟨rfl, hbytes, hnext⟩ := hclean hfree
    rw [hincarnation] at hwritable
    rw [hnext] at hnumbered
    rw [hbytes] at hbounded
    have hdone :=
      hholds.acknowledge (hrecord hfree) hnumbered hwritable hbounded (congrArg _ hnext)
    refine ⟨base, first, durable ++ loose ++ [⟨state, payload, .ok journal.nextSequence⟩], [], [],
      h.begins, ?_, h.settled, Writes.handle ?_⟩
    · rw [attemptsSince_append]
      exact hdone
    · refine ⟨hincarnation, hattached, fun _ => ⟨rfl, ?_, ?_⟩⟩
      · simp [hbytes]
      · simp [hnext]
        omega

/-- The file with its tail cut off, where the replay says so. -/
theorem Holds.repaired {attempts : List Attempt}
    (h : Holds incarnation attempts base first durable loose tail file) :
    Holds incarnation attempts base first durable loose [] (if decide (tail ≠ []) then file.setLen
          (writeAll recordBytes (base ++ recordsFrom incarnation first (durable ++ loose))).length
        else file) := by
  by_cases htail : tail = []
  · rw [if_neg (by simp [htail])]
    exact htail ▸ h
  · rw [if_pos (by simp [htail])]
    exact { h with
      content := by
        rw [setLen_content, h.content, take_left' rfl, append_nil]
      unfinished := .inl rfl
      synced := by
        refine Nat.le_min.mpr ⟨h.synced, ?_⟩
        rw [recordsFrom_append, ← append_assoc]
        exact writeAll_length_le _ _
      bounded := by
        exact (length_take_le' _ _).trans h.bounded }

/-- A repair may cut the tail off, then put everything on the disk, then free the writer. -/
inductive Repairing (journal : Journal) (disk : Disk) (cut : VolatileFile)
    (nextSequence : ℕ) : Disk → Journal → Prop where
  | nothing : Repairing journal disk cut nextSequence disk journal
  | cut (hpoisoned : journal.poisoned = true) :
      Repairing journal disk cut nextSequence { disk with file := cut } journal
  | synced (hpoisoned : journal.poisoned = true) :
      Repairing journal disk cut nextSequence { disk with file := cut.sync } journal
  | freed (journal' : Journal) (hincarnation : journal'.incarnation = journal.incarnation)
      (hattached : journal'.attached = true) (hbytes : journal'.bytes = cut.content.length)
      (hnext : journal'.nextSequence = nextSequence) :
      Repairing journal disk cut nextSequence { disk with file := cut.sync } journal'

variable {replay : Replayed (List Record)} {nextSequence : ℕ}

theorem repairPoisoned_cases
    (hreplay : replayReader disk.file.content journal.incarnation = .ok replay)
    (hnext : nextSequenceAfter replay.state.getLast? = .ok nextSequence) (io : RepairIo) :
    Repairing journal disk
      (if replay.torn then disk.file.setLen replay.valid else disk.file) nextSequence
      (journal.repairPoisoned disk io).1 (journal.repairPoisoned disk io).2.1 := by
  unfold Journal.repairPoisoned
  simp only [hreplay, hnext]
  generalize (if replay.torn = true then disk.file.setLen replay.valid else disk.file) = cut
  split_ifs with hpoisoned hsame hattached hread hcut hsync hseek
  · exact .nothing
  · exact .nothing
  · exact .nothing
  · exact .nothing
  · exact .nothing
  · exact .cut (by simpa using hpoisoned)
  · exact .synced (by simpa using hpoisoned)
  · exact .freed _ rfl (by simpa using hattached) rfl rfl

theorem Sound.repair (h : Sound incarnation world base first durable loose tail)
    (hhandle : world.handle = some journal) (io : RepairIo) :
    Consistent incarnation ⟨(journal.repairPoisoned world.disk io).1,
      some (journal.repairPoisoned world.disk io).2.1, world.log⟩ := by
  obtain ⟨rfl, hattached, hclean⟩ := h.writes journal hhandle
  have hrepaired := h.holds.repaired
  have hcases := repairPoisoned_cases (h.holds.replays h.begins)
    (h.begins.nextSequence h.holds.numbered) io
  generalize (journal.repairPoisoned world.disk io).1 = disk at hcases
  generalize (journal.repairPoisoned world.disk io).2.1 = journal' at hcases
  cases hcases with
  | nothing =>
    exact ⟨base, first, durable, loose, tail, h.begins, h.holds, h.settled,
      Writes.handle ⟨rfl, hattached, hclean⟩⟩
  | cut hpoisoned =>
    exact ⟨base, first, durable, loose, [], h.begins, hrepaired, h.settled,
      Writes.handle ⟨rfl, hattached, fun hfree => by simp [hpoisoned] at hfree⟩⟩
  | synced hpoisoned =>
    exact ⟨base, first, durable ++ loose, [], [], h.begins, hrepaired.sync, h.settled,
      Writes.handle ⟨rfl, hattached, fun hfree => by simp [hpoisoned] at hfree⟩⟩
  | freed _ hincarnation' hattached' hbytes hnext =>
    refine ⟨base, first, durable ++ loose, [], [], h.begins, hrepaired.sync, h.settled,
      Writes.handle ⟨hincarnation', hattached', fun _ => ⟨rfl, hbytes, ?_⟩⟩⟩
    rw [hnext, append_nil]

/-- An open may cut the tail off, then put everything on the disk, then give a writer. -/
inductive Opening (incarnation : Block 16) (disk : Disk) (replay : Replayed (List Record))
    (nextSequence : ℕ) : Disk → Except Error (Journal × Replayed (List Record)) → Prop where
  | nothing (error : Error) : Opening incarnation disk replay nextSequence disk (.error error)
  | cut (error : Error) : Opening incarnation disk replay nextSequence
      { disk with file := if replay.torn then disk.file.setLen replay.valid else disk.file }
      (.error error)
  | settled (file : VolatileFile)
      (hfile : file = if replay.torn then (disk.file.setLen replay.valid).sync else disk.file)
      (result : Except Error (Journal × Replayed (List Record)))
      (hresult : ∀ opened, result = .ok opened → opened.2 = replay ∧
        opened.1.incarnation = incarnation ∧ opened.1.attached = true ∧
        opened.1.bytes = file.content.length ∧ opened.1.nextSequence = nextSequence) :
      Opening incarnation disk replay nextSequence { disk with file } result

theorem openAt_cases (hreplay : replayReader disk.file.content incarnation = .ok replay)
    (hnext : nextSequenceAfter replay.state.getLast? = .ok nextSequence) (io : OpenIo) :
    Opening incarnation disk replay nextSequence (openAt disk incarnation io).1
      (openAt disk incarnation io).2 := by
  unfold openAt
  simp only [hreplay, hnext]
  have hfile : (if replay.torn then
      (if replay.torn then disk.file.setLen replay.valid else disk.file).sync
      else if replay.torn then disk.file.setLen replay.valid else disk.file) =
      if replay.torn then (disk.file.setLen replay.valid).sync else disk.file := by
    cases replay.torn <;> rfl
  rw [hfile]
  split
  · exact .nothing _
  split
  · exact .nothing _
  split
  · exact .cut _
  split
  · exact .settled _ rfl _ nofun
  · refine .settled _ rfl _ fun opened hopened => ?_
    cases hopened
    exact ⟨rfl, rfl, rfl, rfl, rfl⟩

theorem openAt_replay (hreplay : replayReader disk.file.content incarnation = .ok replay)
    (hnext : nextSequenceAfter replay.state.getLast? = .ok nextSequence) {io : OpenIo}
    (hio : io = ⟨true, true, true, true, true⟩) :
    ∃ journal, (openAt disk incarnation io).2 = .ok (journal, replay) := by
  subst hio
  simp [openAt, hreplay, hnext]

section

variable (h : Sound incarnation world base first durable loose tail)
include h

theorem Sound.open (io : OpenIo) :
    Consistent incarnation ⟨(openAt world.disk incarnation io).1,
      (openAt world.disk incarnation io).2.toOption.map Prod.fst, world.log⟩ := by
  have hrepaired := h.holds.repaired
  have hcases := openAt_cases (h.holds.replays h.begins) (h.begins.nextSequence h.holds.numbered) io
  generalize (openAt world.disk incarnation io).1 = disk at hcases
  generalize (openAt world.disk incarnation io).2 = result at hcases
  cases hcases with
  | nothing => exact ⟨base, first, durable, loose, tail, h.begins, h.holds, h.settled, nofun⟩
  | cut => exact ⟨base, first, durable, loose, [], h.begins, hrepaired, h.settled, nofun⟩
  | settled file hfile _ hresult =>
    have hwrites : ∀ (kept : List Attempt), kept.length = (durable ++ loose).length → ∀ journal,
        result.toOption.map Prod.fst = some journal →
        Writes incarnation first kept [] file journal := by
      rintro kept hkept journal hjournal
      obtain ⟨opened, hopened, rfl⟩ := Option.map_eq_some_iff.mp hjournal
      cases result with
      | error => cases hopened
      | ok =>
        cases hopened
        obtain ⟨-, hincarnation, hattached, hbytes, hnext⟩ := hresult _ rfl
        exact ⟨hincarnation, hattached, fun _ => ⟨rfl, hbytes, hkept ▸ hnext⟩⟩
    by_cases htail : tail = []
    · have hsame : file = world.disk.file := by
        rw [hfile, if_neg (by simp [htail])]
      refine ⟨base, first, durable, loose, [], h.begins, ?_, h.settled, hwrites _ rfl⟩
      rw [← htail]
      exact hsame ▸ h.holds
    · refine ⟨base, first, durable ++ loose, [], [], h.begins, ?_, h.settled,
        hwrites _ (by rw [append_nil])⟩
      rw [if_pos (by simp [htail])] at hrepaired
      rw [if_pos (by simp [htail])] at hfile
      exact hfile ▸ hrepaired.sync

theorem Sound.compact (hhandle : world.handle = some journal) {result : Except Error Unit}
    (hcompact : Compacting journal world.disk state payload disk journal' result) :
    Consistent incarnation ⟨disk, some journal',
      if result.isOk then .compacted state payload :: world.log else world.log⟩ := by
  obtain ⟨rfl, hattached, hclean⟩ := h.writes journal hhandle
  cases hcompact with
  | refused =>
    exact ⟨base, first, durable, loose, tail, h.begins, h.holds, h.settled,
      Writes.handle ⟨rfl, hattached, hclean⟩⟩
  | done sequence hfree hsequence hwritable =>
    obtain ⟨-, -, hnext⟩ := hclean hfree
    have hnumbered := h.holds.numbered
    refine ⟨_, sequence + 1, [], [], [], .compacted sequence state payload hwritable, ?_, rfl,
      Writes.handle ?_⟩
    · change Holds _ (attemptsSince (.compacted state payload :: world.log)) _ _ _ _ _ _
      refine ⟨?_, .inl rfl, ?_, ?_, ?_, ?_, .slnil, .slnil, trivial, nofun⟩
      · simp [VolatileFile.durable, recordsFrom]
        rfl
      · simp [VolatileFile.durable, recordsFrom]
        rfl
      · rw [VolatileFile.durable, recordBytes_length]
        exact (Nat.add_le_add_right (Nat.add_le_add_left hwritable.payload _) _).trans (by decide)
      · intro record hrecord
        rw [append_nil, recordsFrom, append_nil, mem_singleton] at hrecord
        exact hrecord ▸ hwritable
      · rw [append_nil, length_nil, ← hsequence, hnext]
        exact hnumbered
    · exact ⟨rfl, rfl, fun _ => ⟨rfl, rfl, hsequence⟩⟩

theorem Sound.crash (keep : ℕ)
    (revert : Bool) : Consistent incarnation ⟨world.disk.crash keep revert, none, world.log⟩ := by
  obtain ⟨k, tail', hcrash⟩ := h.holds.crash keep
  have hdisk : world.disk.crash keep revert = ⟨world.disk.file.crash keep, none⟩ := by
    unfold Disk.crash
    rw [h.settled]
  rw [hdisk]
  exact ⟨base, first, durable, _, tail', h.begins, hcrash, rfl, nofun⟩

end

theorem Consistent.step (h : Consistent incarnation world) {op : Op} (hop : op.Sound) :
    Consistent incarnation (world.step incarnation op) := by
  obtain ⟨base, first, durable, loose, tail, h⟩ := h
  have hsame : Consistent incarnation world := ⟨base, first, durable, loose, tail, h⟩
  cases op with
  | append state payload io =>
    cases hhandle : world.handle with
    | none => simpa only [World.step, hhandle] using hsame
    | some journal =>
      simpa only [World.step, hhandle] using
        h.append hhandle (appendDurable_cases journal world.disk state payload io)
  | repair io =>
    cases hhandle : world.handle with
    | none => simpa only [World.step, hhandle] using hsame
    | some => simpa only [World.step, hhandle] using h.repair hhandle io
  | compact state payload io =>
    cases hhandle : world.handle with
    | none => simpa only [World.step, hhandle] using hsame
    | some journal =>
      have hle : journal.poisoned = false → journal.nextSequence ≤ u64Max := by
        intro hfree
        rw [((h.writes journal hhandle).clean hfree).2.2]
        exact h.holds.numbered
      simpa only [World.step, hhandle] using
        h.compact hhandle (compactCheckpoint_cases journal world.disk state payload io hop hle)
  | close =>
    exact ⟨base, first, durable, loose, tail, h.begins, h.holds, h.settled, nofun⟩
  | «open» io =>
    cases hhandle : world.handle with
    | none => simpa only [World.step, hhandle] using h.open io
    | some => simpa only [World.step, hhandle] using hsame
  | crash keep revert => exact h.crash keep revert

variable {ops : List Op}

theorem consistent_run (incarnation : Block 16) (h : ∀ op ∈ ops, op.Sound) :
    Consistent incarnation (run (World.step incarnation) (.new incarnation) ops) := by
  induction ops using reverseRecOn with
  | nil => exact consistent_new incarnation
  | append_singleton ops op ih =>
    rw [run_concat]
    exact (ih fun other hother => h other (mem_append_left _ hother)).step
      (h op (mem_append_right _ (mem_singleton_self op)))

/-- After any run the file replays, within its ceiling, to the record of the last compaction and
behind it, numbered one after another, some of the appends tried since: every acknowledged one under
the number it was given, and besides only such as reported an I/O error. An open whose calls succeed
returns that replay. -/
theorem journal_keeps_acknowledged (incarnation : Block 16) {ops : List Op}
    (h : ∀ op ∈ ops, op.Sound) : let world := run (World.step incarnation) (.new incarnation) ops
    ∃ base first kept torn valid,
      Begins incarnation (lastCompaction world.log) base first ∧
      replayReader world.disk.file.content incarnation =
        .ok ⟨base ++ recordsFrom incarnation first kept, torn, valid⟩ ∧
      kept.Sublist (attemptsSince world.log) ∧
      ((attemptsSince world.log).filter Attempt.acknowledged).Sublist kept ∧
      Answered first kept ∧
      (∀ attempt ∈ kept, attempt.acknowledged = false → attempt.result = .error .io) ∧
      world.disk.file.content.length ≤ maxJournalBytes ∧
      ∃ journal, (openAt world.disk incarnation ⟨true, true, true, true, true⟩).2 =
        .ok (journal, ⟨base ++ recordsFrom incarnation first kept, torn, valid⟩) := by
  intro world
  obtain ⟨base, first, durable, loose, tail, hsound⟩ := consistent_run incarnation h
  have hreplay := hsound.holds.replays hsound.begins
  refine ⟨base, first, durable ++ loose, _, _, hsound.begins, hreplay, hsound.holds.tried,
    hsound.holds.acknowledged.trans (sublist_append_left _ _), hsound.holds.answered,
    hsound.holds.failed, hsound.holds.bounded, ?_⟩
  exact openAt_replay hreplay (hsound.begins.nextSequence hsound.holds.numbered) rfl

/-- A compaction is numbered as the last record it replaces. -/
theorem compaction_takes_last_number (h : ∀ op ∈ ops, op.Sound)
    (hworld : run (World.step incarnation) (.new incarnation) ops = world)
    (hhandle : world.handle = some journal) {io : CompactIo} (hio : io.Sound)
    (hok : (journal.compactCheckpoint world.disk state payload io).2.2 = .ok ()) :
    ∃ records last torn valid,
      replayReader world.disk.file.content incarnation = .ok ⟨records ++ [last], torn, valid⟩ ∧
      (journal.compactCheckpoint world.disk state payload io).1.file.content =
        recordBytes ⟨incarnation, last.sequence, state, payload, true⟩ := by
  obtain ⟨base, first, durable, loose, tail, hsound⟩ := hworld ▸ consistent_run incarnation h
  obtain ⟨rfl, -, hclean⟩ := hsound.writes journal hhandle
  have hreplay := hsound.holds.replays hsound.begins
  have hlast := hsound.begins.nextSequence hsound.holds.numbered
  have hcompact := compactCheckpoint_cases journal world.disk state payload io hio
    fun hfree => (hclean hfree).2.2 ▸ hsound.holds.numbered
  rw [hok] at hcompact
  generalize (journal.compactCheckpoint world.disk state payload io).1 = disk at *
  generalize (journal.compactCheckpoint world.disk state payload io).2.1 = journal' at hcompact
  cases hcompact with
  | done sequence hfree hsequence =>
    rw [← (hclean hfree).2.2, hsequence] at hlast
    rcases eq_nil_or_concat
      (base ++ recordsFrom journal.incarnation first (durable ++ loose)) with hnil | ⟨records, last, heq⟩
    · rw [hnil] at hlast
      cases hlast
    · rw [heq, concat_eq_append] at hreplay hlast
      rw [getLast?_concat, nextSequenceAfter, successor, okOr_eq_ok, checkedAdd_eq_some] at hlast
      obtain rfl : last.sequence = sequence := by omega
      exact ⟨records, last, _, _, hreplay, rfl⟩

end Steps

section Sample

def sampleIncarnation : Block 16 := ⟨List.replicate 16 7, by decide⟩

/-- An acknowledged append, one whose record was cut short, a crash that keeps the torn bytes, and
an open that cuts them off. -/
def sampleOps : List Op :=
  [.append 1 [10, 11] ⟨none, true⟩, .append 2 [12] ⟨some 5, false⟩, .crash 100 false,
    .open ⟨true, true, true, true, true⟩]

def sampleWorld : World :=
  run (World.step sampleIncarnation) (.new sampleIncarnation) sampleOps

theorem journal_keeps_acknowledged_sample :
    sampleWorld.disk.file.content.length = 40 ∧
    ∃ base first kept torn valid,
      replayReader sampleWorld.disk.file.content sampleIncarnation =
        .ok ⟨base ++ recordsFrom sampleIncarnation first kept, torn, valid⟩ ∧
      ((attemptsSince sampleWorld.log).filter Attempt.acknowledged).Sublist kept := by
  have hsound : ∀ op ∈ sampleOps, op.Sound := by simp [sampleOps, Op.Sound]
  obtain ⟨base, first, kept, torn, valid, -, hreplay, -, hkept, -⟩ :=
    journal_keeps_acknowledged sampleIncarnation hsound
  rw [← sampleWorld] at hreplay hkept
  exact ⟨by decide +kernel, base, first, kept, torn, valid, hreplay, hkept⟩

theorem compaction_takes_last_number_sample :
    ∃ journal records last torn valid, sampleWorld.handle = some journal ∧
      replayReader sampleWorld.disk.file.content sampleIncarnation =
        .ok ⟨records ++ [last], torn, valid⟩ ∧
      (journal.compactCheckpoint sampleWorld.disk 3 [] ⟨true, .done, true, true, true⟩).1.file.content =
        recordBytes ⟨sampleIncarnation, last.sequence, 3, [], true⟩ := by
  obtain ⟨journal, hhandle⟩ := Option.isSome_iff_exists.mp
    (show sampleWorld.handle.isSome by decide +kernel)
  have hok : sampleWorld.handle.map (fun journal => (journal.compactCheckpoint sampleWorld.disk 3 []
      ⟨true, .done, true, true, true⟩).2.2) = some (.ok ()) := by decide +kernel
  rw [hhandle, Option.map_some, Option.some.injEq] at hok
  have hsound : ∀ op ∈ sampleOps, op.Sound := by simp [sampleOps, Op.Sound]
  obtain ⟨records, last, torn, valid, h⟩ := compaction_takes_last_number hsound
    (by rw [sampleWorld]) hhandle (fun _ => ⟨rfl, rfl, rfl, rfl⟩) hok
  exact ⟨journal, records, last, torn, valid, hhandle, h⟩

end Sample

end ObjectTransfer.Journaling
