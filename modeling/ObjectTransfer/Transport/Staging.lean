import ObjectTransfer.Transport.Framing

/-! # Staging capacity

A checked budget. What is held is owned by permits: a permit is charged when it is taken and gives
its amount back once. A release past what is held poisons the ledger, which then grants nothing.
-/

namespace ObjectTransfer.Transport
open Foundations

structure Ledger where
  limit : ℕ
  held : ℕ
  poisoned : Bool
  deriving DecidableEq, Repr

namespace Ledger

def new (limit : ℕ) : Except Error Ledger := do
  rejectIf (limit = 0) .invalidConfiguration
  return ⟨limit, 0, false⟩

def charge (ledger : Ledger) (amount : ℕ) : Except Error Ledger := do
  rejectIf (amount = 0) .invalidConfiguration
  rejectIf ledger.poisoned .accountingPoisoned
  let next ← okOr (checkedAdd ledger.held amount) .arithmeticOverflow
  rejectIf (next > ledger.limit) .stagingExhausted
  return { ledger with held := next }

def release (ledger : Ledger) (amount : ℕ) : Ledger :=
  if amount = 0 then ledger
  else
    match checkedSub ledger.held amount with
    | some held => { ledger with held := held }
    | none => { ledger with held := ledger.limit, poisoned := true }

/-- The held amount. A poisoned ledger reports its limit. -/
def used (ledger : Ledger) : ℕ := if ledger.poisoned then ledger.limit else ledger.held

def rebuilt (ledger : Ledger) : Ledger := ⟨ledger.limit, 0, false⟩

theorem charge_eq_ok {ledger charged : Ledger} {amount : ℕ} :
    ledger.charge amount = .ok charged ↔ amount ≠ 0 ∧ ledger.poisoned = false ∧
      ledger.held + amount ≤ u64Max ∧ ledger.held + amount ≤ ledger.limit ∧
      charged = { ledger with held := ledger.held + amount } := by
  simp only [charge, bind_eq_ok, rejectIf_eq_ok, okOr_eq_ok, checkedAdd_eq_some, pure_eq_ok]
  constructor
  · rintro ⟨⟨⟩, hamount, ⟨⟩, hpoisoned, next, ⟨hfit, rfl⟩, ⟨⟩, hlimit, rfl⟩
    exact ⟨hamount, by simpa using hpoisoned, hfit, by omega, rfl⟩
  · rintro ⟨hamount, hpoisoned, hfit, hlimit, rfl⟩
    exact ⟨(), hamount, (), by simp [hpoisoned], _, ⟨hfit, rfl⟩, (), by omega, rfl⟩

theorem release_of_le {ledger : Ledger} {amount : ℕ} (h : amount ≤ ledger.held) :
    ledger.release amount = { ledger with held := ledger.held - amount } := by
  rw [release]
  split
  · next hzero => simp [hzero]
  · rw [checkedSub_of_le h]

end Ledger

structure StagingCapacity where
  ledger : Ledger
  bdpTarget : ℕ
  configuredMax : ℕ
  deriving DecidableEq, Repr

namespace StagingCapacity

def new (limit bdpTarget configuredMax : ℕ) : Except Error StagingCapacity := do
  rejectIf (configuredMax = 0 ∨ configuredMax > limit) .invalidConfiguration
  let ledger ← Ledger.new limit
  return ⟨ledger, bdpTarget, configuredMax⟩

def reserve (staging : StagingCapacity) (bytes : ℕ) : Except Error StagingCapacity := do
  let ledger ← staging.ledger.charge bytes
  return { staging with ledger := ledger }

/-- Drop a reservation. -/
def release (staging : StagingCapacity) (bytes : ℕ) : StagingCapacity :=
  { staging with ledger := staging.ledger.release bytes }

def rebuilt (staging : StagingCapacity) : StagingCapacity :=
  { staging with ledger := staging.ledger.rebuilt }

def isPoisoned (staging : StagingCapacity) : Bool := staging.ledger.poisoned

def setBdpTarget (staging : StagingCapacity) (bdpTarget : ℕ) : StagingCapacity :=
  { staging with bdpTarget := bdpTarget }

def used (staging : StagingCapacity) : ℕ := staging.ledger.used

end StagingCapacity

/-- The wire length of a reliable record submission. -/
def validateDataRecord (record : Bytes) : Except Error Unit :=
  rejectIf (record.length > maxDataRecordBytes + maxFrameEnvelopeBytes) .recordTooLarge

end ObjectTransfer.Transport
