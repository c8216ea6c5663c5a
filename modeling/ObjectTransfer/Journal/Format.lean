import ObjectTransfer.Foundations.BigEndian
import ObjectTransfer.Foundations.RecordLog

/-! # The journal's records on disk

A record is a header of 34 bytes, its payload, and the CRC32C of both. The record of a compaction
has a flag in the byte of its state.
-/

namespace ObjectTransfer.Journaling
open Foundations List

def magic : Bytes := [0x56, 0x4f, 0x54, 0x4a]

def version : UInt8 := 0

def headerLen : ℕ := 4 + 1 + 16 + 8 + 1 + 4

def maxPayload : ℕ := 1048576

def checkpointFlag : UInt8 := 0x80

def maxJournalBytes : ℕ := 67108864

inductive Error where
  | io
  | poisoned
  | payloadTooLarge
  | invalidHeader
  | checksum
  | sequenceGap
  | sequenceConflict
  | staleIncarnation
  | invalidState
  | empty
  | locked
  | tooLarge
  | full
  deriving DecidableEq, Repr

structure Record where
  incarnation : Block 16
  sequence : ℕ
  state : UInt8
  payload : Bytes
  checkpoint : Bool
  deriving DecidableEq

structure Header where
  incarnation : Block 16
  sequence : ℕ
  state : UInt8
  checkpoint : Bool
  payloadLength : ℕ
  deriving DecidableEq

/-- One byte into the running checksum: eight shifts by the reflected polynomial. -/
def crcByte (running : UInt32) (byte : UInt8) : UInt32 :=
  (List.range 8).foldl (fun running _ => (running >>> 1) ^^^ (0x82f63b78 &&& (0 - (running &&& 1))))
    (running ^^^ byte.toUInt32)

def crc32cUpdate (crc : UInt32) (bytes : Bytes) : UInt32 := ~~~(bytes.foldl crcByte (~~~crc))

def crc32c (bytes : Bytes) : UInt32 := crc32cUpdate 0 bytes

example : crc32c [0x31, 0x32, 0x33, 0x34, 0x35, 0x36, 0x37, 0x38, 0x39] = 0xe3069283 := by
  decide +kernel

def Header.decode (bytes : Bytes) : Except Error Header :=
  if bytes.take 4 ≠ magic ∨ bytes[4]? ≠ some version then .error .invalidHeader
  else
    let encodedState := bytes.getD 29 0
    .ok
      { incarnation := .ofBytes 16 ((bytes.drop 5).take 16)
        sequence := ofLe ((bytes.drop 21).take 8)
        state := encodedState &&& ~~~checkpointFlag
        checkpoint := encodedState &&& checkpointFlag != 0
        payloadLength := ofLe ((bytes.drop 30).take 4) }

def Header.encode (header : Header) : Bytes :=
  magic ++ ([version] ++ (header.incarnation.toList ++ (leBytes 8 header.sequence ++
    ([if header.checkpoint then header.state + checkpointFlag else header.state] ++
      leBytes 4 header.payloadLength))))

def encode (record : Record) : Except Error Bytes :=
  if record.payload.length > maxPayload then .error .payloadTooLarge
  else if record.state &&& checkpointFlag ≠ 0 then .error .invalidState
  else
    let header : Header := ⟨record.incarnation, record.sequence, record.state, record.checkpoint,
      record.payload.length⟩
    let bytes := header.encode ++ record.payload
    .ok (bytes ++ leBytes 4 (crc32c bytes).toNat)

/-- The record at the front of what is left of a journal. -/
def readRecord (currentIncarnation : Block 16) (bytes : Bytes) : Reading Record Error :=
  if bytes.length < headerLen + 4 then .torn
  else
    match Header.decode (bytes.take headerLen) with
    | .error error => .bad error
    | .ok header =>
      if header.incarnation ≠ currentIncarnation then .bad .staleIncarnation
      else if header.payloadLength > maxPayload then .bad .payloadTooLarge
      else
        let checksumAt := headerLen + header.payloadLength
        if checksumAt + 4 > bytes.length then .torn
        else if (crc32c (bytes.take checksumAt)).toNat ≠ ofLe ((bytes.drop checksumAt).take 4) then
          .bad .checksum
        else
          .record
            { incarnation := header.incarnation
              sequence := header.sequence
              state := header.state
              payload := (bytes.take checksumAt).drop headerLen
              checkpoint := header.checkpoint }
            (checksumAt + 4)

def successor (sequence : ℕ) : Except Error ℕ := okOr (checkedAdd sequence 1) .sequenceGap

/-- A record goes behind the last one: a repetition of it is skipped, any other one must be the
next. -/
def pushRecord (records : List Record) (record : Record) : Except Error (List Record) :=
  match records.getLast? with
  | some previous =>
    if record.sequence = previous.sequence then
      if record ≠ previous then .error .sequenceConflict else .ok records
    else if (successor previous.sequence).toOption ≠ some record.sequence then .error .sequenceGap
    else .ok (records ++ [record])
  | none =>
    if record.sequence = 0 ∨ record.checkpoint then .ok (records ++ [record])
    else .error .sequenceGap

def replayReader (bytes : Bytes) (currentIncarnation : Block 16) :
    Except Error (Replayed (List Record)) :=
  if bytes.length > maxJournalBytes then .error .tooLarge
  else replay (readRecord currentIncarnation) pushRecord [] bytes

/-- A record a journal of the incarnation can write. -/
structure Writable (incarnation : Block 16) (record : Record) : Prop where
  incarnation : record.incarnation = incarnation
  sequence : record.sequence ≤ u64Max
  state : record.state &&& checkpointFlag = 0
  payload : record.payload.length ≤ maxPayload

def recordBytes (record : Record) : Bytes :=
  let header : Header := ⟨record.incarnation, record.sequence, record.state, record.checkpoint,
    record.payload.length⟩
  header.encode ++ record.payload ++
    leBytes 4 (crc32c (header.encode ++ record.payload)).toNat

section Format

variable {incarnation : Block 16} {record : Record}

@[simp] theorem Header.encode_length (header : Header) : header.encode.length = headerLen := by
  simp [Header.encode, magic, headerLen]

theorem encode_eq (h : Writable incarnation record) : encode record = .ok (recordBytes record) := by
  rw [encode, if_neg (not_lt.mpr h.payload), if_neg (not_not.mpr h.state)]
  rfl

@[simp] theorem recordBytes_length (record : Record) :
    (recordBytes record).length = headerLen + record.payload.length + 4 := by
  simp [recordBytes, add_assoc]

/-- The flag and the state share a byte. -/
theorem state_flag (state : UInt8) (hstate : state &&& checkpointFlag = 0) (checkpoint : Bool) :
    (if checkpoint then state + checkpointFlag else state) &&& ~~~checkpointFlag = state ∧
      ((if checkpoint then state + checkpointFlag else state) &&& checkpointFlag != 0) =
        checkpoint := by
  have hall : ∀ n : Fin 256, UInt8.ofNat n &&& checkpointFlag = 0 → ∀ checkpoint : Bool,
      (if checkpoint then UInt8.ofNat n + checkpointFlag else UInt8.ofNat n) &&& ~~~checkpointFlag =
          UInt8.ofNat n ∧
        ((if checkpoint then UInt8.ofNat n + checkpointFlag else UInt8.ofNat n) &&&
          checkpointFlag != 0) = checkpoint := by decide +kernel
  have hbyte := hall ⟨state.toNat, state.toNat_lt⟩
  rw [UInt8.ofNat_toNat] at hbyte
  exact hbyte hstate checkpoint

theorem Header.decode_encode {header : Header} (hsequence : header.sequence ≤ u64Max)
    (hstate : header.state &&& checkpointFlag = 0) (hlength : header.payloadLength ≤ maxPayload) :
    Header.decode header.encode = .ok header := by
  obtain ⟨hclear, hflag⟩ := state_flag header.state hstate header.checkpoint
  have hsequence' : ofLe (leBytes 8 header.sequence) = header.sequence :=
    ofLe_leBytes (lt_of_le_of_lt hsequence (by decide))
  have hlength' : ofLe (leBytes 4 header.payloadLength) = header.payloadLength :=
    ofLe_leBytes (lt_of_le_of_lt hlength (by decide))
  have hmagic : header.encode.take 4 = magic := take_left' rfl
  have hversion : header.encode[4]? = some version := rfl
  have h5 : header.encode.drop 5 = header.incarnation.toList ++ (leBytes 8 header.sequence ++
      ([if header.checkpoint then header.state + checkpointFlag else header.state] ++
        leBytes 4 header.payloadLength)) := rfl
  have h21 : header.encode.drop 21 = leBytes 8 header.sequence ++
      ([if header.checkpoint then header.state + checkpointFlag else header.state] ++
        leBytes 4 header.payloadLength) := by
    rw [show 21 = 5 + 16 from rfl, ← drop_drop, h5, drop_left' (List.Vector.toList_length _)]
  have h29 : header.encode.drop 29 =
      [if header.checkpoint then header.state + checkpointFlag else header.state] ++
        leBytes 4 header.payloadLength := by
    rw [show 29 = 21 + 8 from rfl, ← drop_drop, h21, drop_left' (leBytes_length _ _)]
  have h30 : header.encode.drop 30 = leBytes 4 header.payloadLength := by
    rw [show 30 = 29 + 1 from rfl, ← drop_drop, h29]
    rfl
  have hstate29 : header.encode.getD 29 0 =
      if header.checkpoint then header.state + checkpointFlag else header.state := by
    rw [getD_eq_getElem?_getD, ← head?_drop, h29]
    rfl
  rw [Header.decode, if_neg (by simp [hmagic, hversion])]
  dsimp only
  rw [hstate29, h5, h21, h30, hclear, hflag, take_left' (List.Vector.toList_length _),
    take_left' (leBytes_length _ _), take_of_length_le (leBytes_length _ _).le,
    hsequence', hlength', Block.ofBytes_toList]

def Record.header (record : Record) : Header :=
  ⟨record.incarnation, record.sequence, record.state, record.checkpoint, record.payload.length⟩

/-- What is left to decide once the header of a record is there. -/
theorem readRecord_of_header (h : Writable incarnation record) {bytes : Bytes}
    (hlong : headerLen + 4 ≤ bytes.length) (hheader : bytes.take headerLen = record.header.encode) :
    readRecord incarnation bytes =
      if headerLen + record.payload.length + 4 > bytes.length then .torn
      else if (crc32c (bytes.take (headerLen + record.payload.length))).toNat ≠
          ofLe ((bytes.drop (headerLen + record.payload.length)).take 4) then .bad .checksum
      else .record
        { record with payload := (bytes.take (headerLen + record.payload.length)).drop headerLen }
        (headerLen + record.payload.length + 4) := by
  rw [readRecord, if_neg (not_lt.mpr hlong), hheader,
    Header.decode_encode h.sequence h.state h.payload]
  dsimp only [Record.header]
  rw [if_neg (not_not.mpr h.incarnation), if_neg (not_lt.mpr h.payload)]

theorem readRecord_recordBytes (h : Writable incarnation record) (rest : Bytes) :
    readRecord incarnation (recordBytes record ++ rest) =
      .record record (recordBytes record).length := by
  have hheader : record.header.encode.length = headerLen := Header.encode_length _
  have hbody : (record.header.encode ++ record.payload).length = headerLen + record.payload.length := by
    rw [length_append, hheader]
  have hbytes : recordBytes record ++ rest = (record.header.encode ++ record.payload) ++
      (leBytes 4 (crc32c (record.header.encode ++ record.payload)).toNat ++ rest) := by
    rw [← append_assoc]
    rfl
  have hsum : ofLe (leBytes 4 (crc32c (record.header.encode ++ record.payload)).toNat) =
      (crc32c (record.header.encode ++ record.payload)).toNat :=
    ofLe_leBytes (UInt32.toNat_lt _)
  rw [readRecord_of_header h (by simp; omega), if_neg (by simp), hbytes, take_left' hbody,
    drop_left' hbody, take_left' (leBytes_length _ _), hsum, if_neg (not_not.mpr rfl),
    drop_left' hheader, recordBytes_length]
  rw [hbytes, append_assoc, take_left' hheader]

theorem readRecord_torn (h : Writable incarnation record) {tail : Bytes}
    (hbegins : tail <+: recordBytes record) (hlt : tail.length < (recordBytes record).length) :
    readRecord incarnation tail = .torn := by
  by_cases hlong : headerLen + 4 ≤ tail.length
  · rw [recordBytes_length] at hlt
    rw [readRecord_of_header h hlong, if_pos hlt]
    obtain ⟨rest, hrest⟩ := hbegins
    have htake : (tail ++ rest).take headerLen = tail.take headerLen :=
      take_append_of_le_length (by omega)
    rw [← htake, hrest, recordBytes, append_assoc]
    exact take_left' (Header.encode_length _)
  · rw [readRecord, if_pos (not_le.mp hlong)]

/-- The records a journal can write are read back, and a cut one is a torn tail. -/
theorem readable (incarnation : Block 16) :
    Readable (readRecord incarnation) recordBytes (Writable incarnation) where
  reads record h rest := readRecord_recordBytes h rest
  tears tail h hne := by
    rcases h with rfl | ⟨record, hgood, hbegins, hlt⟩
    · exact absurd rfl hne
    · exact readRecord_torn hgood hbegins hlt
  nonempty record h := by
    rw [recordBytes_length]
    omega

end Format

section Sequences

/-- Records numbered one after another from `first`. -/
def Consecutive (first : ℕ) : List Record → Prop
  | [] => True
  | record :: records => record.sequence = first ∧ Consecutive (first + 1) records

variable {records : List Record}

theorem pushRecord_next {previous record : Record}
    (hlast : records.getLast? = some previous) (hnext : record.sequence = previous.sequence + 1)
    (hle : record.sequence ≤ u64Max) : pushRecord records record = .ok (records ++ [record]) := by
  rw [pushRecord, hlast]
  dsimp only
  rw [if_neg (by omega), successor, checkedAdd_of_le (hnext ▸ hle), if_neg]
  simp [hnext, Except.toOption]

theorem pushRecord_first {record : Record} (h : record.sequence = 0 ∨ record.checkpoint = true) :
    pushRecord [] record = .ok [record] := if_pos h

/-- Numbered records go one behind the other. -/
theorem foldlM_pushRecord {records done : List Record} {previous : Record}
    (hlast : done.getLast? = some previous) (hnumbered : Consecutive (previous.sequence + 1) records)
    (hle : ∀ record ∈ records, record.sequence ≤ u64Max) :
    records.foldlM pushRecord done = .ok (done ++ records) := by
  induction records generalizing done previous with
  | nil => rw [append_nil]; rfl
  | cons record records ih =>
    obtain ⟨hnext, hrest⟩ := hnumbered
    rw [foldlM_cons,
      pushRecord_next hlast hnext (hle record (mem_cons_self ..)), ok_bind,
      ih getLast?_concat (hnext ▸ hrest) fun r hr => hle r (mem_cons_of_mem _ hr),
      append_assoc]
    rfl

/-- What a journal can hold: records numbered from zero, or from a checkpoint. -/
inductive Numbered : List Record → Prop where
  | empty : Numbered []
  | cons (record : Record) (records : List Record)
      (hfirst : record.sequence = 0 ∨ record.checkpoint = true)
      (hnumbered : Consecutive (record.sequence + 1) records) : Numbered (record :: records)

theorem Numbered.foldlM (h : Numbered records)
    (hle : ∀ record ∈ records, record.sequence ≤ u64Max) :
    records.foldlM pushRecord [] = .ok records := by
  cases h with
  | empty => rfl
  | cons record records hfirst hnumbered =>
    rw [foldlM_cons, pushRecord_first hfirst, ok_bind,
      foldlM_pushRecord rfl hnumbered fun r hr => hle r (mem_cons_of_mem _ hr)]
    rfl

theorem replayReader_log {incarnation : Block 16} {tail : Bytes}
    (hgood : ∀ record ∈ records, Writable incarnation record) (hnumbered : Numbered records)
    (htail : Unfinished recordBytes (Writable incarnation) tail)
    (hle : (writeAll recordBytes records ++ tail).length ≤ maxJournalBytes) :
    replayReader (writeAll recordBytes records ++ tail) incarnation =
      .ok ⟨records, decide (tail ≠ []), (writeAll recordBytes records).length⟩ := by
  have hpush := hnumbered.foldlM fun record hrecord => (hgood record hrecord).sequence
  rw [replayReader, if_neg (not_lt.mpr hle), replay,
    replayFrom_log (readable incarnation) hgood htail hpush le_rfl, zero_add]

end Sequences

end ObjectTransfer.Journaling
