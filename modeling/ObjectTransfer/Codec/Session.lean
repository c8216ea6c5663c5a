import ObjectTransfer.Codec.Reader

/-! # Authentication frames

The challenge, the request that answers it, and the two answers to a request. Every payload has one
form: the decoder accepts the bytes of the encoder and nothing else.
-/

namespace ObjectTransfer.Codec
open Foundations List Reader Cbor

def maxAuthNonce : ℕ := 64

def minAuthNonce : ℕ := 16

def maxCapabilityFormats : ℕ := 16

def maxScopeBytes : ℕ := 4096

def maxRejectDetailBytes : ℕ := 1024

def maxCapabilityFormat : ℕ := 65535

def maxCapabilityBytes : ℕ := 49152

/-- How a capability is bound to the peer that presents it. -/
inductive Binding where
  | none
  | proofOfPossession
  deriving DecidableEq, Repr

namespace Binding

def fromWire (value : UInt64) : Option Binding :=
  if value = 0 then some none else if value = 1 then some proofOfPossession else Option.none

def toWire : Binding → UInt64
  | none => 0
  | proofOfPossession => 1

theorem fromWire_eq_some {value : UInt64} {binding : Binding} :
    fromWire value = some binding ↔ value = binding.toWire := by
  unfold fromWire
  cases binding <;> simp only [toWire] <;> split_ifs with hzero hone <;> simp_all

end Binding

/-- A server's challenge. No format means that no capability is asked for. -/
structure AuthContext where
  nonce : Bytes
  binding : Binding
  formats : List UInt64
  deriving DecidableEq

structure SessionOpen where
  sessionId : Block 16
  capabilityFormat : UInt64
  capability : Bytes
  requestedScope : Bytes
  bindingProof : Bytes
  deriving DecidableEq

structure SessionAccept where
  sessionId : Block 16
  grantedScope : Bytes
  deriving DecidableEq

structure SessionReject where
  sessionId : Block 16
  reason : UInt64
  detail : String
  deriving DecidableEq

def validateAuthContext (value : AuthContext) : Except Error Unit := do
  rejectIf (value.nonce.length < minAuthNonce ∨ value.nonce.length > maxAuthNonce) .invalidValue
  rejectIf (value.formats.length > maxCapabilityFormats) .tooLarge
  rejectIf (¬ value.formats.IsChain (· < ·) ∨
    ∃ format ∈ value.formats, format = 0 ∨ format.toNat > maxCapabilityFormat) .invalidValue

def encodeAuthContext (value : AuthContext) : Except Error Bytes := do
  validateAuthContext value
  return Cbor.map 4 ++ Cbor.uint 0 ++ Cbor.uint 0 ++ Cbor.uint 1 ++ Cbor.bytes value.nonce ++
    Cbor.uint 2 ++ Cbor.uint value.binding.toWire.toNat ++ Cbor.uint 3 ++
    array value.formats.length ++ value.formats.flatMap fun format => Cbor.uint format.toNat

def decodeAuthContext (input : Bytes) : Except Error AuthContext :=
  Parser.run (do
    map 4
    version
    key 1
    let nonce ← bytes maxAuthNonce
    key 2
    let binding ← uint
    let binding ← Parser.lift (okOr (Binding.fromWire binding) .invalidValue)
    key 3
    let count ← arrayLen maxCapabilityFormats
    let formats ← Parser.times count uint
    complete (AuthContext.mk nonce binding formats)
      (validateAuthContext ⟨nonce, binding, formats⟩)) input

def validateSessionOpen (value : SessionOpen) : Except Error Unit := do
  rejectIf (value.capabilityFormat = 0 ∨ value.capabilityFormat.toNat > maxCapabilityFormat)
    .invalidValue
  rejectIf (value.capability.length > maxCapabilityBytes ∨
    value.requestedScope.length > maxScopeBytes ∨ value.bindingProof.length > maxScopeBytes)
    .tooLarge

def encodeSessionOpen (value : SessionOpen) : Except Error Bytes := do
  validateSessionOpen value
  return Cbor.map 6 ++ Cbor.uint 0 ++ Cbor.uint 0 ++ Cbor.uint 1 ++
    Cbor.bytes value.sessionId.toList ++ Cbor.uint 2 ++ Cbor.uint value.capabilityFormat.toNat ++
    Cbor.uint 3 ++ Cbor.bytes value.capability ++ Cbor.uint 4 ++ Cbor.bytes value.requestedScope ++
    Cbor.uint 5 ++ Cbor.bytes value.bindingProof

def decodeSessionOpen (input : Bytes) : Except Error SessionOpen :=
  Parser.run (do
    map 6
    version
    key 1
    let sessionId ← fixed 16
    key 2
    let capabilityFormat ← uint
    key 3
    let capability ← bytes maxCapabilityBytes
    key 4
    let requestedScope ← bytes maxScopeBytes
    key 5
    let bindingProof ← bytes maxScopeBytes
    let value := SessionOpen.mk sessionId capabilityFormat capability requestedScope bindingProof
    complete value (validateSessionOpen value)) input

def validateSessionAccept (value : SessionAccept) : Except Error Unit :=
  rejectIf (value.grantedScope.length > maxScopeBytes) .tooLarge

def encodeSessionAccept (value : SessionAccept) : Except Error Bytes := do
  validateSessionAccept value
  return Cbor.map 3 ++ Cbor.uint 0 ++ Cbor.uint 0 ++ Cbor.uint 1 ++
    Cbor.bytes value.sessionId.toList ++ Cbor.uint 2 ++ Cbor.bytes value.grantedScope

def decodeSessionAccept (input : Bytes) : Except Error SessionAccept :=
  Parser.run (do
    map 3
    version
    key 1
    let sessionId ← fixed 16
    key 2
    let grantedScope ← bytes maxScopeBytes
    let value := SessionAccept.mk sessionId grantedScope
    complete value (validateSessionAccept value)) input

/-- Only the codes assigned to a rejection are accepted as its reason. -/
def validateSessionReject (value : SessionReject) : Except Error Unit :=
  rejectIf (value.reason.toNat ∉ [ErrorCode.authenticationFailed, ErrorCode.authorizationFailed,
    ErrorCode.replayRejected] ∨ (utf8 value.detail).length > maxRejectDetailBytes)
    .invalidValue

def encodeSessionReject (value : SessionReject) : Except Error Bytes := do
  validateSessionReject value
  return Cbor.map 4 ++ Cbor.uint 0 ++ Cbor.uint 0 ++ Cbor.uint 1 ++
    Cbor.bytes value.sessionId.toList ++ Cbor.uint 2 ++ Cbor.uint value.reason.toNat ++
    Cbor.uint 3 ++ text value.detail

def decodeSessionReject (input : Bytes) : Except Error SessionReject :=
  Parser.run (do
    map 4
    version
    key 1
    let sessionId ← fixed 16
    key 2
    let reason ← uint
    key 3
    let detail ← text maxRejectDetailBytes
    let value := SessionReject.mk sessionId reason detail
    complete value (validateSessionReject value)) input

section Exact

variable {input : Bytes} {value : AuthContext} {u : Unit}

theorem validateAuthContext_eq_ok :
    validateAuthContext value = .ok u ↔ minAuthNonce ≤ value.nonce.length ∧
      value.nonce.length ≤ maxAuthNonce ∧ value.formats.length ≤ maxCapabilityFormats ∧
      value.formats.IsChain (· < ·) ∧
      ∀ format ∈ value.formats, format ≠ 0 ∧ format.toNat ≤ maxCapabilityFormat := by
  simp only [validateAuthContext, bind_eq_ok, rejectIf_eq_ok, not_or, not_not, not_lt,
    not_exists, not_and, exists_const, and_assoc, ne_eq]

theorem validateSessionOpen_eq_ok {value : SessionOpen} :
    validateSessionOpen value = .ok u ↔
      (value.capabilityFormat ≠ 0 ∧ value.capabilityFormat.toNat ≤ maxCapabilityFormat) ∧
      value.capability.length ≤ maxCapabilityBytes ∧ value.requestedScope.length ≤ maxScopeBytes ∧
      value.bindingProof.length ≤ maxScopeBytes := by
  simp only [validateSessionOpen, bind_eq_ok, rejectIf_eq_ok, not_or, not_lt, exists_const, ne_eq]

theorem encodeAuthContext_length {payload : Bytes}
    (h : encodeAuthContext value = .ok payload) : payload.length ≤ 256 := by
  simp only [encodeAuthContext, bind_eq_ok, pure_eq_ok] at h
  obtain ⟨_, hvalid, rfl⟩ := h
  obtain ⟨-, hnonce, hformats, -⟩ := validateAuthContext_eq_ok.mp hvalid
  have hhead (value : ℕ) : headLen value ≤ 9 := by
    unfold headLen
    split_ifs <;> omega
  have hflat (formats : List UInt64) :
      (formats.flatMap fun format => Cbor.uint format.toNat).length ≤ formats.length * 9 := by
    induction formats with
    | nil => simp
    | cons format =>
      rw [flatMap_cons, length_append, length_cons, Cbor.uint, head_length]
      have := hhead format.toNat
      omega
  have hlist := hflat value.formats
  have hnonceHead := hhead value.nonce.length
  have hbinding := hhead value.binding.toWire.toNat
  have hcount := hhead value.formats.length
  have hsmall : ∀ tag < 5, headLen tag = 1 := by decide
  simp only [Cbor.map, Cbor.bytes, array, Cbor.uint, length_append, head_length] at *
  rw [hsmall 4 (by omega), hsmall 0 (by omega), hsmall 1 (by omega), hsmall 2 (by omega),
    hsmall 3 (by omega)]
  unfold maxAuthNonce at hnonce
  unfold maxCapabilityFormats at hformats
  omega

theorem decodeAuthContext_eq_ok :
    decodeAuthContext input = .ok value ↔ encodeAuthContext value = .ok input := by
  simp +decide only [decodeAuthContext, encodeAuthContext, Parser.run_eq_ok, bind_eq_ok, pure_eq_ok,
    map_then, version_then, key_then, bytes_then, uint_then,
    Parser.lift_then, okOr_eq_ok, Binding.fromWire_eq_some, arrayLen_then,
    times_then uint_exact, complete_eq_ok, append_assoc]
  constructor
  · rintro ⟨_, _, rfl, _, rfl, _, rfl, nonce, _, -, rfl, _, rfl, _, _, rfl, binding, rfl, _, rfl, _, _,
      -, rfl, formats, _, rfl, rfl, hvalid, rfl, rfl, rfl⟩
    exact ⟨_, hvalid, by simp⟩
  · rintro ⟨_, hvalid, rfl⟩
    obtain ⟨-, hnonce, hformats, -⟩ := validateAuthContext_eq_ok.mp hvalid
    exact ⟨[], _, rfl, _, rfl, _, rfl, _, _, hnonce, rfl, _, rfl, _, _, rfl, _, rfl, _, rfl, _, _,
      hformats, rfl, _, _, rfl, (append_nil _).symm, hvalid, rfl, rfl, rfl⟩

theorem decodeSessionOpen_eq_ok {value : SessionOpen} :
    decodeSessionOpen input = .ok value ↔ encodeSessionOpen value = .ok input := by
  simp +decide only [decodeSessionOpen, encodeSessionOpen, Parser.run_eq_ok, bind_eq_ok, pure_eq_ok,
    map_then, version_then, key_then, fixed_then, uint_then,
    bytes_then, complete_eq_ok, append_assoc]
  constructor
  · rintro ⟨_, _, rfl, _, rfl, _, rfl, sessionId, _, rfl, _, rfl, format, _, rfl, _, rfl, capability, _,
      -, rfl, _, rfl, scope, _, -, rfl, _, rfl, proof, _, -, rfl, hvalid, rfl, rfl, rfl⟩
    exact ⟨_, hvalid, by simp⟩
  · rintro ⟨_, hvalid, rfl⟩
    obtain ⟨-, hcapability, hscope, hproof⟩ := validateSessionOpen_eq_ok.mp hvalid
    exact ⟨[], _, rfl, _, rfl, _, rfl, _, _, rfl, _, rfl, _, _, rfl, _, rfl, _, _, hcapability, rfl, _,
      rfl, _, _, hscope, rfl, _, rfl, _, _, hproof, (append_nil _).symm, hvalid, rfl, rfl, rfl⟩

theorem decodeSessionAccept_eq_ok {value : SessionAccept} :
    decodeSessionAccept input = .ok value ↔ encodeSessionAccept value = .ok input := by
  simp +decide only [decodeSessionAccept, encodeSessionAccept, Parser.run_eq_ok, bind_eq_ok,
    pure_eq_ok, map_then, version_then, key_then, fixed_then,
    bytes_then, complete_eq_ok, append_assoc]
  constructor
  · rintro ⟨_, _, rfl, _, rfl, _, rfl, sessionId, _, rfl, _, rfl, scope, _, -, rfl, hvalid, rfl, rfl,
      rfl⟩
    exact ⟨_, hvalid, by simp⟩
  · rintro ⟨_, hvalid, rfl⟩
    have hscope := rejectIf_eq_ok.mp hvalid
    exact ⟨[], _, rfl, _, rfl, _, rfl, _, _, rfl, _, rfl, _, _, not_lt.mp hscope,
      (append_nil _).symm, hvalid, rfl, rfl, rfl⟩

theorem decodeSessionReject_eq_ok {value : SessionReject} :
    decodeSessionReject input = .ok value ↔ encodeSessionReject value = .ok input := by
  simp +decide only [decodeSessionReject, encodeSessionReject, Parser.run_eq_ok, bind_eq_ok,
    pure_eq_ok, map_then, version_then, key_then, fixed_then,
    uint_then, text_then, complete_eq_ok, append_assoc]
  constructor
  · rintro ⟨_, _, rfl, _, rfl, _, rfl, sessionId, _, rfl, _, rfl, reason, _, rfl, _, rfl, detail, _, -,
      rfl, hvalid, rfl, rfl, rfl⟩
    exact ⟨_, hvalid, by simp⟩
  · rintro ⟨_, hvalid, rfl⟩
    have hdetail := (not_or.mp (rejectIf_eq_ok.mp hvalid)).2
    exact ⟨[], _, rfl, _, rfl, _, rfl, _, _, rfl, _, rfl, _, _, rfl, _, rfl, _, _,
      not_lt.mp hdetail, (append_nil _).symm, hvalid, rfl, rfl, rfl⟩

end Exact

/-- The payloads of the session exchange have one form each: only what is written is read back. -/
theorem session_payloads_canonical (input : Bytes) :
    (∀ value, decodeAuthContext input = .ok value ↔ encodeAuthContext value = .ok input) ∧
      (∀ value, decodeSessionOpen input = .ok value ↔ encodeSessionOpen value = .ok input) ∧
      (∀ value, decodeSessionAccept input = .ok value ↔ encodeSessionAccept value = .ok input) ∧
      ∀ value, decodeSessionReject input = .ok value ↔ encodeSessionReject value = .ok input :=
  ⟨fun _ => decodeAuthContext_eq_ok, fun _ => decodeSessionOpen_eq_ok,
    fun _ => decodeSessionAccept_eq_ok, fun _ => decodeSessionReject_eq_ok⟩

end ObjectTransfer.Codec
