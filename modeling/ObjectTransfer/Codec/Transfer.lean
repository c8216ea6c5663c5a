import ObjectTransfer.Codec.Wire

/-! # Range, proof and data frames -/

namespace ObjectTransfer.Codec
open Foundations

def maxRequestedRange : ℕ := 4194304

def maxDataBytes : ℕ := 256 * 1024

def maxDataRecordsPerBundle : ℕ := 17

structure ProofBundle where
  requestId : Block 16
  bundleId : Block 16
  object : ObjectId
  requestedOffset : UInt64
  requestedLength : UInt64
  coveredOffset : UInt64
  coveredLength : UInt64
  dataRecordCount : UInt64
  totalPlaintextLength : UInt64
  proof : Bytes
  deriving DecidableEq

structure DataRecord where
  bundleId : Block 16
  recordIndex : UInt64
  plaintextOffset : UInt64
  plaintextLength : UInt64
  compression : UInt8
  encoded : Bytes
  deriving DecidableEq

/-- The fields of a record before its encoded bytes are filled in. -/
structure DataRecordHeader where
  bundleId : Block 16
  recordIndex : UInt64
  plaintextOffset : UInt64
  plaintextLength : UInt64
  compression : UInt8
  encodedLength : ℕ
  deriving DecidableEq

def DataRecord.header (record : DataRecord) : DataRecordHeader where
  bundleId := record.bundleId
  recordIndex := record.recordIndex
  plaintextOffset := record.plaintextOffset
  plaintextLength := record.plaintextLength
  compression := record.compression
  encodedLength := record.encoded.length

/-- The bytes an object identity takes in a payload. -/
def objectPayloadLen (object : ObjectId) : ℕ :=
  saturatingSum [cborHeadLen 4, cborHeadLen 1, cborHeadLen object.suite.toNat,
    cborByteStringLen 32, cborHeadLen object.length.toNat]

def proofBundlePayloadLenWith (value : ProofBundle) (proofLen : ℕ) : ℕ :=
  saturatingSum [cborHeadLen 11, cborHeadLen 0, cborHeadLen 0, cborHeadLen 1, cborByteStringLen 16,
    cborHeadLen 2, cborByteStringLen 16, cborHeadLen 3, objectPayloadLen value.object,
    cborHeadLen 4, cborHeadLen value.requestedOffset.toNat,
    cborHeadLen 5, cborHeadLen value.requestedLength.toNat,
    cborHeadLen 6, cborHeadLen value.coveredOffset.toNat,
    cborHeadLen 7, cborHeadLen value.coveredLength.toNat,
    cborHeadLen 8, cborHeadLen value.dataRecordCount.toNat,
    cborHeadLen 9, cborHeadLen value.totalPlaintextLength.toNat,
    cborHeadLen 10, cborByteStringLen proofLen]

/-- Whether a length passes the registered ceiling of a frame. -/
def pastLimit (frameType length : ℕ) : Bool :=
  (registeredPayloadLimit frameType).any fun limit => decide (length > limit)

def validateProofBundleWithProofLen (value : ProofBundle) (proofLen : ℕ) : Except Error Unit := do
  value.object.validate
  rejectIf (value.object.length = 0 ∨ value.requestedLength = 0 ∨
    value.requestedLength.toNat > maxRequestedRange ∨
    endsPast value.requestedOffset value.requestedLength value.object.length.toNat ∨
    value.coveredOffset.toNat ≠ value.requestedOffset.toNat / groupBytes * groupBytes ∨
    value.dataRecordCount = 0 ∨ value.dataRecordCount.toNat > maxDataRecordsPerBundle ∨
    value.totalPlaintextLength ≠ value.coveredLength ∨
    pastLimit FrameType.proofBundle (proofBundlePayloadLenWith value proofLen)) .invalidValue
  let requestEnd ← okOr (checkedAdd value.requestedOffset.toNat value.requestedLength.toNat)
    .invalidValue
  let aligned ← okOr (checkedMul (divCeil requestEnd groupBytes) groupBytes) .invalidValue
  let expectedEnd := min aligned value.object.length.toNat
  rejectIf (checkedAdd value.coveredOffset.toNat value.coveredLength.toNat ≠ some expectedEnd)
    .invalidValue

def validateProofBundle (value : ProofBundle) : Except Error Unit :=
  validateProofBundleWithProofLen value value.proof.length

def ProofBundle.validate (value : ProofBundle) : Except Error Unit := validateProofBundle value

def dataRecordPayloadLen (value : DataRecordHeader) : ℕ :=
  saturatingSum [cborHeadLen 8, cborHeadLen 0, cborHeadLen 0, cborHeadLen 1, cborByteStringLen 16,
    cborHeadLen 2, cborHeadLen value.recordIndex.toNat,
    cborHeadLen 3, cborHeadLen value.plaintextOffset.toNat,
    cborHeadLen 4, cborHeadLen value.plaintextLength.toNat,
    cborHeadLen 5, cborHeadLen value.compression.toNat,
    cborHeadLen 6, cborHeadLen value.encodedLength,
    cborHeadLen 7, cborByteStringLen value.encodedLength]

def validateDataRecordHeader (value : DataRecordHeader) : Except Error Unit :=
  rejectIf (value.recordIndex.toNat > 16 ∨ value.plaintextOffset.toNat > maxObjectLength ∨
    value.plaintextLength = 0 ∨ value.plaintextLength.toNat > maxDataBytes ∨
    value.encodedLength = 0 ∨ dataRecordPayloadLen value > maxDataBytes ∨
    ¬ (value.compression = 0 ∨ value.compression = 1) ∨
    value.compression = 0 ∧ value.plaintextLength.toNat ≠ value.encodedLength) .invalidValue

def validateDataRecord (value : DataRecord) : Except Error Unit :=
  validateDataRecordHeader value.header

def DataRecord.validate (value : DataRecord) : Except Error Unit := validateDataRecord value

end ObjectTransfer.Codec
