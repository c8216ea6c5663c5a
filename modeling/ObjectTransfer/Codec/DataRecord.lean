import ObjectTransfer.Codec.EnvelopeCorrect
import ObjectTransfer.Codec.Reader
import ObjectTransfer.Codec.Transfer

/-! # Data records on the wire

The frame of a record is written around its encoded bytes, so that a payload is never built and
copied. It is the frame the generic path writes, and what is read back borrows the same bytes.
-/

namespace ObjectTransfer.Codec
open Foundations List Reader

/-- `u8::try_from`. -/
def toUInt8? (value : UInt64) : Option UInt8 :=
  if value.toNat < 2 ^ 8 then some value.toUInt8 else none

def encodeValidatedDataRecordHeader (value : DataRecordHeader) : Bytes :=
  Cbor.map 8 ++ Cbor.uint 0 ++ Cbor.uint 0 ++ Cbor.uint 1 ++ Cbor.bytes value.bundleId.toList ++
    Cbor.uint 2 ++ Cbor.uint value.recordIndex.toNat ++
    Cbor.uint 3 ++ Cbor.uint value.plaintextOffset.toNat ++
    Cbor.uint 4 ++ Cbor.uint value.plaintextLength.toNat ++
    Cbor.uint 5 ++ Cbor.uint value.compression.toNat ++
    Cbor.uint 6 ++ Cbor.uint value.encodedLength ++
    Cbor.uint 7 ++ Cbor.head Cbor.Major.bytes value.encodedLength

def decodeDataRecordRefPayload (input : Bytes) : Except Error DataRecord :=
  Parser.run (do
    Reader.map 8
    Reader.version
    Reader.key 1
    let bundleId ← Reader.fixed 16
    Reader.key 2
    let recordIndex ← Reader.uint
    Reader.key 3
    let plaintextOffset ← Reader.uint
    Reader.key 4
    let plaintextLength ← Reader.uint
    Reader.key 5
    let compression ← Reader.uint
    let compression ← Parser.lift (okOr (toUInt8? compression) .invalidValue)
    Reader.key 6
    let encodedLength ← Reader.uint
    Reader.key 7
    let encoded ← Reader.bytes maxDataBytes
    let value := DataRecord.mk bundleId recordIndex plaintextOffset plaintextLength compression
      encoded
    Reader.complete value (do
      rejectIf (encodedLength.toNat ≠ encoded.length) .invalidValue
      validateDataRecord value)) input

def encodeValidatedDataRecord (value : DataRecord) : Bytes :=
  encodeValidatedDataRecordHeader value.header ++ value.encoded

/-- The front of a record's frame, up to its encoded bytes, and where those go. -/
def beginDataRecord (value : DataRecordHeader) (output : Bytes) :
    Bytes × Except Error (ℕ × ℕ) :=
  match validateDataRecordHeader value with
  | .error error => (output, .error error)
  | .ok () =>
    match encodeVarint FrameType.dataRecord with
    | .error error => (output, .error (.envelope error))
    | .ok kind =>
      match encodeVarint (dataRecordPayloadLen value) with
      | .error error => (output ++ kind, .error (.envelope error))
      | .ok length =>
        let output := output ++ kind ++ length ++ encodeValidatedDataRecordHeader value
        (output, .ok (output.length, saturatingAdd output.length value.encodedLength))

def encodeDataRecord (value : DataRecord) (output : Bytes) : Bytes × Except Error Unit :=
  match beginDataRecord value.header output with
  | (output, .error error) => (output, .error error)
  | (output, .ok _) => (output ++ value.encoded, .ok ())

/-- The same with the encoded bytes zeroed, to be filled in place. -/
def reserveDataRecord (value : DataRecordHeader) (output : Bytes) :
    Bytes × Except Error (ℕ × ℕ) :=
  match beginDataRecord value output with
  | (output, .error error) => (output, .error error)
  | (output, .ok range) => (output ++ replicate (range.2 - output.length) 0, .ok range)

def decodeDataRecordRef (input : Bytes) (limits : DecodeLimits) :
    Except Error (DataRecord × ℕ) := do
  let (decoded, consumed) ← (decodeOne input limits).mapError .envelope
  match decoded with
  | .skippedOptional frameType _ => .error (.wrongFrameType frameType)
  | .known frameType payload =>
    rejectIf (frameType ≠ FrameType.dataRecord) (.wrongFrameType frameType)
    let record ← decodeDataRecordRefPayload payload
    return (record, consumed)

section Exact

variable {input : Bytes} {value : DataRecord}

theorem dataRecordPayloadLen_eq (h : validateDataRecord value = .ok ()) :
    dataRecordPayloadLen value.header = (encodeValidatedDataRecord value).length ∧
      (encodeValidatedDataRecord value).length ≤ maxDataBytes := by
  simp only [validateDataRecord, validateDataRecordHeader, rejectIf_eq_ok, not_or] at h
  have hlimit := h.2.2.2.2.2.1
  rw [not_lt, dataRecordPayloadLen, saturatingSum_eq] at hlimit
  rw [dataRecordPayloadLen, saturatingSum_eq, encodeValidatedDataRecord]
  simp only [sum_cons, sum_nil, cborByteStringLen, cborHeadLen, saturatingAdd, DataRecord.header,
    encodeValidatedDataRecordHeader, Cbor.map, Cbor.uint, Cbor.bytes, length_append,
    Cbor.head_length, List.Vector.toList_length] at hlimit ⊢
  unfold maxDataBytes u64Max at *
  omega

theorem toUInt8?_eq_some {value : UInt64} {small : UInt8} :
    toUInt8? value = some small ↔ value = small.toUInt64 := by
  simp only [toUInt8?, Option.ite_none_right_eq_some, Option.some.injEq, ← UInt64.toNat_inj,
    ← UInt8.toNat_inj, UInt64.toNat_toUInt8, UInt8.toNat_toUInt64]
  have := small.toNat_lt
  omega

theorem decodeDataRecordRefPayload_eq_ok :
    decodeDataRecordRefPayload input = .ok value ↔ validateDataRecord value = .ok () ∧
      input = encodeValidatedDataRecord value := by
  simp +decide only [decodeDataRecordRefPayload, encodeValidatedDataRecord,
    encodeValidatedDataRecordHeader, Parser.run_eq_ok, map_then, version_then, key_then, fixed_then,
    uint_then, bytes_then, complete_eq_ok, bind_eq_ok, Parser.lift_then, okOr_eq_ok,
    toUInt8?_eq_some, rejectIf_eq_ok, not_not, append_assoc]
  constructor
  · rintro ⟨_, _, rfl, _, rfl, _, rfl, bundleId, _, rfl, _, rfl, _, _, rfl, _, rfl, _, _, rfl, _, rfl,
      _, _, rfl, _, rfl, _, _, rfl, compression, rfl, _, rfl, length, _, rfl, _, rfl, encoded, _, -, rfl,
      ⟨_, hlength, hvalid⟩, rfl, rfl, rfl⟩
    exact ⟨hvalid, by simp [DataRecord.header, Cbor.bytes, hlength]⟩
  · rintro ⟨hvalid, rfl⟩
    have hbound := (dataRecordPayloadLen_eq hvalid).2
    rw [encodeValidatedDataRecord, length_append] at hbound
    have hlength : value.encoded.length ≤ maxDataBytes := by omega
    -- the length is written twice, as a field of its own and in the head of the bytes
    have htoNat : (UInt64.ofNat value.encoded.length).toNat = value.encoded.length := by
      exact UInt64.toNat_ofNat_of_lt' (lt_of_le_of_lt hlength (by decide))
    exact ⟨[], _, rfl, _, rfl, _, rfl, _, _, rfl, _, rfl, _, _, rfl, _, rfl, _, _, rfl, _, rfl, _, _, rfl,
      _, rfl, _, _, congrArg (Cbor.uint · ++ _) (UInt8.toNat_toUInt64 _).symm, value.compression, rfl,
      _, rfl, _, _, congrArg (Cbor.uint · ++ _) htoNat.symm, _, rfl, value.encoded, [], hlength,
      (append_nil _).symm, ⟨(), htoNat, hvalid⟩, rfl, rfl, rfl⟩

/-- The front of the frame and the encoded bytes are the frame of the payload. -/
theorem beginDataRecord_eq (h : validateDataRecord value = .ok ()) (output : Bytes) :
    ∃ front, frameBytes (FrameType.dataRecord, encodeValidatedDataRecord value) = front ++ value.encoded ∧
      (encodeFrame FrameType.dataRecord (encodeValidatedDataRecord value) []).2 = .ok () ∧
      beginDataRecord value.header output = (output ++ front, .ok ((output ++ front).length,
        saturatingAdd (output ++ front).length value.encoded.length)) := by
  obtain ⟨hlength, hbound⟩ := dataRecordPayloadLen_eq h
  obtain ⟨kind, hkind⟩ : ∃ kind, encodeVarint FrameType.dataRecord = .ok kind := ⟨_, rfl⟩
  obtain ⟨length, hvarint⟩ := encodeVarint_ok_iff.mpr
    (show (encodeValidatedDataRecord value).length ≤ maxQuicVarint from hbound.trans (by decide))
  have hlimit : min ((registeredPayloadLimit FrameType.dataRecord).getD defaultMaxUnknownPayload)
      hardMaxFramePayload = maxDataBytes := by decide
  have hframe : encodeFrame FrameType.dataRecord (encodeValidatedDataRecord value) [] =
      (kind ++ length ++ encodeValidatedDataRecord value, .ok ()) := by
    simp only [encodeFrame, hlimit, if_neg (not_lt.mpr hbound), hkind, hvarint, nil_append]
  refine ⟨kind ++ length ++ encodeValidatedDataRecordHeader value.header, ?_, by rw [hframe], ?_⟩
  · rw [frameBytes, hframe, encodeValidatedDataRecord]
    simp only [append_assoc]
  · rw [validateDataRecord] at h
    simp only [beginDataRecord, h, hkind, hlength, hvarint, append_assoc]
    rfl

end Exact

/-- A record written around its bytes is the frame of its payload, and only that payload is read
as the record. -/
theorem data_record_paths_agree {value : DataRecord} (h : validateDataRecord value = .ok ())
    {limits : DecodeLimits} (hlimits : validateLimits limits = .ok ()) (output rest : Bytes)
    (hfit : (output ++ frameBytes (FrameType.dataRecord, encodeValidatedDataRecord value)).length ≤
      u64Max) :
    let frame := frameBytes (FrameType.dataRecord, encodeValidatedDataRecord value)
    (encodeValidatedDataRecord value).length = dataRecordPayloadLen value.header ∧
      encodeDataRecord value output = (output ++ frame, .ok ()) ∧
      (∃ front, front ++ value.encoded = output ++ frame ∧
        beginDataRecord value.header output =
          (front, .ok (front.length, (output ++ frame).length)) ∧
        reserveDataRecord value.header output = (front ++ replicate value.encoded.length 0,
          .ok (front.length, (output ++ frame).length))) ∧
      decodeDataRecordRef (frame ++ rest) limits = .ok (value, frame.length) ∧
      ∀ input, decodeDataRecordRefPayload input = .ok value →
        input = encodeValidatedDataRecord value := by
  intro frame
  obtain ⟨front, hframe, haccepted, hbegin⟩ := beginDataRecord_eq h output
  have hwhole : (output ++ front) ++ value.encoded = output ++ frame := by
    rw [append_assoc, ← hframe]
  have hlength : (output ++ frame).length = (output ++ front).length + value.encoded.length := by
    rw [← hwhole, length_append]
  rw [saturatingAdd_eq (hlength ▸ hfit), ← hlength] at hbegin
  refine ⟨(dataRecordPayloadLen_eq h).1.symm, ?_, ⟨_, hwhole, hbegin, ?_⟩, ?_, fun input hread =>
    (decodeDataRecordRefPayload_eq_ok.mp hread).2⟩
  · rw [encodeDataRecord, hbegin, ← hwhole]
  · simp only [reserveDataRecord, hbegin, hlength, Nat.add_sub_cancel_left]
  · have hcarried : Carried limits (FrameType.dataRecord, encodeValidatedDataRecord value) :=
      ⟨haccepted, .inl rfl, by rintro ⟨⟩⟩
    have hone : decodeOne (frame ++ rest) limits =
        .ok (.known FrameType.dataRecord (encodeValidatedDataRecord value), frame.length) :=
      decodeOne_frameBytes hlimits hcarried rest
    simp only [decodeDataRecordRef, hone, Except.mapError, ok_bind, ne_eq,
      not_true_eq_false, decodeDataRecordRefPayload_eq_ok.mpr ⟨h, rfl⟩]
    rfl

/-- The one byte `[7]` at the start of an object, behind one other byte. -/
theorem data_record_paths_agree_one_byte :
    encodeDataRecord ⟨.replicate 16 5, 0, 0, 1, 0, [7]⟩ [9] = ([9] ++ frameBytes
      (FrameType.dataRecord, encodeValidatedDataRecord ⟨.replicate 16 5, 0, 0, 1, 0, [7]⟩), .ok ()) :=
  (data_record_paths_agree (by decide) (show validateLimits ⟨0, 1⟩ = .ok () by decide) [9] []
    (by decide)).2.1

end ObjectTransfer.Codec
