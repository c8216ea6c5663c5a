import ObjectTransfer.Codec.Wire
import ObjectTransfer.Fec.Accounting

/-! # Frames of the datagram path -/

namespace ObjectTransfer.Codec
open Foundations List

/-- Receiver to sender: what one generation has and still lacks. -/
structure GenState where
  epoch : UInt32
  generation : UInt32
  sequence : UInt64
  received : UInt8
  missingSources : List UInt8
  deriving DecidableEq, Repr

inductive GenOutcome where
  | decoded
  | abandoned
  | refused
  deriving DecidableEq, Repr

/-- Sender to receiver: an epoch over a range of an object. -/
structure CodingEpochOpen where
  epoch : UInt32
  object : ObjectId
  offset : UInt64
  length : UInt64
  geometry : Fec.Geometry
  deriving DecidableEq

structure CodingEpochClose where
  epoch : UInt32
  deriving DecidableEq, Repr

/-- Receiver to sender: the terminal result of a generation, or of a whole epoch. -/
structure GenDone where
  epoch : UInt32
  generation : UInt32
  outcome : GenOutcome
  deriving DecidableEq, Repr

/-- `is_sorted_by(|a, b| a < b)`. -/
def ascending : List UInt8 → Bool
  | a :: b :: rest => decide (a < b) && ascending (b :: rest)
  | _ => true

def encodeGenState (value : GenState) : Except Error Bytes :=
  if value.received.toNat > Fec.maxSymbols ∨
      value.missingSources.length > Fec.maxSourceSymbols ∨
      value.missingSources.any (fun esi => decide (esi.toNat ≥ Fec.maxSourceSymbols)) ∨
      !ascending value.missingSources then
    .error .invalidValue
  else .ok <|
    Cbor.map 5 ++ Cbor.uint 0 ++ Cbor.uint value.epoch.toNat ++ Cbor.uint 1 ++
      Cbor.uint value.generation.toNat ++ Cbor.uint 2 ++ Cbor.uint value.sequence.toNat ++
      Cbor.uint 3 ++ Cbor.uint value.received.toNat ++ Cbor.uint 4 ++
      Cbor.array value.missingSources.length ++
      value.missingSources.flatMap fun esi => Cbor.uint esi.toNat

/-- The frame that carries a receiver's report. -/
def stateOf (epoch generation : ℕ) (report : Fec.Report) : GenState where
  epoch := .ofNat epoch
  generation := .ofNat generation
  sequence := .ofNat report.sequence
  received := .ofNat report.received
  missingSources := report.missingSources.map .ofNat

theorem ascending_of_pairwise {l : List UInt8} (h : l.Pairwise (· < ·)) : ascending l = true := by
  induction l with
  | nil => rfl
  | cons a l ih =>
    cases l with
    | nil => rfl
    | cons b =>
      rw [pairwise_cons] at h
      simp [ascending, ih h.2, h.1 b (mem_cons_self ..)]

theorem length_le_of_pairwise_lt {l : List ℕ} (h : l.Pairwise (· < ·)) {n : ℕ}
    (hlt : ∀ i ∈ l, i < n) : l.length ≤ n := by
  have hnodup : l.Nodup := h.imp fun hab => hab.ne
  have hsub : l ⊆ range n := fun i hi => mem_range.mpr (hlt i hi)
  simpa using (hnodup.subperm hsub).length_le

/-- A report within its epoch's bounds has a frame. -/
theorem encodeGenState_stateOf {plan : Fec.EpochPlan} {generation : ℕ} {report : Fec.Report}
    (h : Fec.Reported plan generation report) (epoch : ℕ) :
    ∃ bytes, encodeGenState (stateOf epoch generation report) = .ok bytes := by
  have hk : plan.sentSources generation ≤ Fec.maxSourceSymbols :=
    (plan.sentSources_le generation).trans plan.geometry.source_le
  have hn : plan.geometry.symbolCount ≤ Fec.maxSymbols :=
    add_le_add plan.geometry.source_le plan.geometry.repair_le
  have hbyte : ∀ n ≤ Fec.maxSymbols, (UInt8.ofNat n).toNat = n := fun n hle =>
    UInt8.toNat_ofNat_of_lt' (lt_of_le_of_lt hle (by decide))
  have hesi : ∀ esi ∈ report.missingSources, esi < Fec.maxSourceSymbols := fun esi hmem =>
    (h.sent esi hmem).trans_le hk
  have hwide : ∀ esi ∈ report.missingSources, (UInt8.ofNat esi).toNat = esi := fun esi hmem =>
    hbyte esi ((hesi esi hmem).le.trans (by decide))
  rw [encodeGenState, if_neg]
  · exact ⟨_, rfl⟩
  · simp only [stateOf, not_or]
    refine ⟨?_, ?_, ?_, ?_⟩
    · rw [hbyte _ (h.received.trans hn)]
      exact not_lt.mpr (h.received.trans hn)
    · rw [length_map]
      exact not_lt.mpr (length_le_of_pairwise_lt h.sorted hesi)
    · simp only [any_map, any_eq_true, Function.comp_apply, decide_eq_true_eq, not_exists,
        not_and, ge_iff_le, not_le]
      intro esi hmem
      rw [hwide esi hmem]
      exact hesi esi hmem
    · rw [ascending_of_pairwise]
      · simp
      · refine pairwise_map.mpr (h.sorted.imp_of_mem fun {a b} ha hb hab => ?_)
        rwa [UInt8.lt_iff_toNat_lt, hwide a ha, hwide b hb]

end ObjectTransfer.Codec
