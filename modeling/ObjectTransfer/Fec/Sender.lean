import ObjectTransfer.Fec.Plan
import ObjectTransfer.Fec.Symbols
import ObjectTransfer.Foundations.Cells

/-! # Encoding a generation

A sender pads the bytes of a generation to `k` source symbols, sends those that carry
bytes and then every repair symbol.
-/

namespace ObjectTransfer.Fec
open Foundations List

/-- One source symbol: the bytes it covers, padded with zeros. -/
def sourceSymbol (plan : EpochPlan) (generation : ℕ) (bytes : Bytes) (j : ℕ) : Option Bytes := do
  let esi ← toU8 j
  match ← plan.sourceSpan generation esi with
  | .zero => return List.replicate plan.geometry.symbolLength 0
  | .bytes offset n => do
    let span ← plan.generationSpan generation
    let start ← checkedSub offset span.1
    let piece ← slice? bytes start (start + n)
    copyInto (List.replicate plan.geometry.symbolLength 0) 0 n piece

/-- Symbols with their ESIs, counted from `first`. -/
def number (first : ℕ) (symbols : List Bytes) : Option (List (ℕ × Bytes)) :=
  (symbols.zipIdx first).mapM fun p => return (← toU8 p.2, p.1)

/-- The symbols of one generation in the order a sender puts them on the wire. -/
def encodeGeneration [Gf.Simd] (plan : EpochPlan) (generation : ℕ) (bytes : Bytes) :
    Except (Abort Error) (List (ℕ × Bytes)) := do
  rejectIf (¬ plan.holds generation) (.error .invalidGeometry)
  let span ← okOr (plan.generationSpan generation) .panic
  rejectIf (bytes.length ≠ span.2) (.error .invalidSymbol)
  let sent ← okOr (plan.sentSourceCount generation) .panic
  let sources ← okOr ((List.range plan.geometry.sourceCount).mapM
    (sourceSymbol plan generation bytes)) .panic
  let repair ← encode plan.geometry sources
  let front ← okOr (number 0 (sources.take sent)) .panic
  let back ← okOr (number plan.geometry.sourceCount repair) .panic
  return front ++ back

/-- The bytes of a generation filled up with zeros. -/
def padded (plan : EpochPlan) (bytes : Bytes) : Bytes :=
  bytes ++ List.replicate (plan.generationBytes - bytes.length) 0

def paddedSources (plan : EpochPlan) (bytes : Bytes) : List Bytes :=
  (List.range plan.geometry.sourceCount).map
    (chunkAt plan.geometry.symbolLength (padded plan bytes))

def sentEsis (plan : EpochPlan) (generation : ℕ) : List ℕ :=
  List.range (plan.sentSources generation) ++
    List.range' plan.geometry.sourceCount plan.geometry.repairCount

theorem number_eq {first n : ℕ} (h : first + n ≤ 256) (f : ℕ → Bytes) :
    number first ((List.range n).map fun i => f (first + i)) =
      some ((List.range' first n).map fun esi => (esi, f esi)) := by
  have hzip : ((range n).map fun i => f (first + i)).zipIdx first =
      (range' first n).map fun esi => (f esi, esi) :=
    ext_getElem (by simp) fun i _ _ => by simp
  have hswap : (range' first n).map (fun esi => (esi, f esi)) =
      ((range' first n).map fun esi => (f esi, esi)).map Prod.swap := by
    rw [map_map]
    rfl
  rw [number, hzip, hswap]
  refine mapM_eq_some fun p hp => ?_
  obtain ⟨esi, hesi, rfl⟩ := mem_map.mp hp
  rw [mem_range'_1] at hesi
  rw [toU8_of_lt (by omega)]
  rfl

section Padded

variable {plan : EpochPlan} {generation : ℕ} {bytes : Bytes} {esi : ℕ}

theorem mem_sentEsis : esi ∈ sentEsis plan generation ↔
    esi < plan.sentSources generation ∨
      plan.geometry.sourceCount ≤ esi ∧ esi < plan.geometry.symbolCount := by
  rw [sentEsis, mem_append, mem_range, mem_range'_1]
  rfl

theorem lt_symbolCount (h : esi ∈ sentEsis plan generation) : esi < plan.geometry.symbolCount := by
  rcases mem_sentEsis.mp h with h | h
  · exact lt_of_lt_of_le h ((plan.sentSources_le generation).trans (Nat.le_add_right _ _))
  · exact h.2

variable {j : ℕ}

theorem paddedSources_getD (hj : j < plan.geometry.sourceCount) :
    (paddedSources plan bytes).getD j [] =
      chunkAt plan.geometry.symbolLength (padded plan bytes) j := by
  simp [paddedSources, getD, hj]

variable (hlen : bytes.length = plan.spanBytes generation)
include hlen

theorem padded_length : (padded plan bytes).length = plan.generationBytes := by
  have := plan.spanBytes_le generation
  rw [padded, length_append, length_replicate]
  omega

theorem paddedSources_spec : Sources plan.geometry (paddedSources plan bytes) := by
  refine ⟨by simp [paddedSources], fun s hs => ?_⟩
  obtain ⟨j, hj, rfl⟩ := mem_map.mp hs
  have hle : plan.geometry.symbolLength * (j + 1) ≤ plan.generationBytes := by
    rw [EpochPlan.generationBytes, mul_comm]
    exact Nat.mul_le_mul_right _ (mem_range.mp hj)
  rw [Nat.mul_succ] at hle
  rw [chunkAt_length, padded_length hlen]
  omega

theorem cells_padded : cells plan.geometry.sourceCount
    (chunkAt plan.geometry.symbolLength (padded plan bytes)) = padded plan bytes := by
  rw [cells, flatten_map_chunkAt, take_of_length_le]
  rw [padded_length hlen, EpochPlan.generationBytes, mul_comm]

/-- A chunk of the padded bytes is what is left of the bytes there, then zeros. -/
theorem chunkAt_padded (hj : j < plan.geometry.sourceCount) :
    chunkAt plan.geometry.symbolLength (padded plan bytes) j =
      chunkAt plan.geometry.symbolLength bytes j ++ List.replicate
        (plan.geometry.symbolLength - (plan.spanBytes generation -
          j * plan.geometry.symbolLength)) 0 := by
  have hle : plan.geometry.symbolLength * (j + 1) ≤ plan.generationBytes := by
    rw [EpochPlan.generationBytes, mul_comm]
    exact Nat.mul_le_mul_right _ hj
  rw [Nat.mul_succ, mul_comm] at hle
  rw [chunkAt, chunkAt, padded, drop_append, take_append, length_drop,
    drop_replicate, take_replicate, hlen, mul_comm _ j]
  congr 2
  omega

theorem sourceSymbol_eq (hg : plan.holds generation = true)
    (hj : j < plan.geometry.sourceCount) : sourceSymbol plan generation bytes j =
      some (chunkAt plan.geometry.symbolLength (padded plan bytes) j) := by
  have h256 := plan.geometry.symbolCount_lt
  have hu8 : toU8 j = some j := toU8_of_lt (by unfold Geometry.symbolCount at h256; omega)
  rw [chunkAt_padded hlen hj, sourceSymbol, hu8, some_bind, EpochPlan.sourceSpan_eq hg hj,
    some_bind]
  by_cases hzero : plan.spanBytes generation ≤ j * plan.geometry.symbolLength
  · rw [if_pos hzero, chunkAt, mul_comm _ j, drop_eq_nil_of_le (by omega),
      Nat.sub_eq_zero_of_le hzero, take_nil, Nat.sub_zero]
    rfl
  · rw [if_neg hzero]
    simp only [EpochPlan.generationSpan_eq hg, some_bind]
    rw [checkedSub_of_le (Nat.le_add_right _ _), some_bind, Nat.add_sub_cancel_left,
      slice?_eq (Nat.le_add_right _ _) (by omega), some_bind, copyInto, if_pos, chunkAt]
    · rw [mul_comm _ j, Nat.add_sub_cancel_left, take_zero, nil_append, drop_replicate]
      have htake : ((bytes.drop (j * plan.geometry.symbolLength)).take
          (min (plan.spanBytes generation - j * plan.geometry.symbolLength)
            plan.geometry.symbolLength)) =
          (bytes.drop (j * plan.geometry.symbolLength)).take plan.geometry.symbolLength := by
        rw [take_eq_take_iff, length_drop]
        omega
      congr 3
      omega
    · simp only [length_take, length_drop, length_replicate]
      omega

variable [Gf.Simd]

theorem encodeGeneration_eq (hg : plan.holds generation = true) :
    encodeGeneration plan generation bytes = .ok ((sentEsis plan generation).map fun esi =>
      (esi, symbolOf plan.geometry (paddedSources plan bytes) esi)) := by
  have hs := paddedSources_spec hlen
  have h256 := plan.geometry.symbolCount_lt
  have hsent := plan.sentSources_le generation
  have hcount : plan.geometry.sourceCount ≤ plan.geometry.symbolCount := Nat.le_add_right _ _
  have hsources : (range plan.geometry.sourceCount).mapM (sourceSymbol plan generation bytes) =
      some (paddedSources plan bytes) :=
    mapM_eq_some fun j hj => sourceSymbol_eq hlen hg (mem_range.mp hj)
  have hfront : number 0 ((paddedSources plan bytes).take (plan.sentSources generation)) =
      some ((range (plan.sentSources generation)).map fun esi =>
        (esi, symbolOf plan.geometry (paddedSources plan bytes) esi)) := by
    rw [range_eq_range', ← number_eq (by omega), paddedSources, ← map_take,
      take_range, min_eq_left hsent]
    congr 1
    refine map_congr_left fun j hj => ?_
    have hj : j < plan.geometry.sourceCount := lt_of_lt_of_le (mem_range.mp hj) hsent
    rw [zero_add, symbolOf, if_pos hj]
    exact (paddedSources_getD hj).symm
  have hback : number plan.geometry.sourceCount ((range plan.geometry.repairCount).map fun i =>
      repairSymbol plan.geometry (paddedSources plan bytes) (plan.geometry.sourceCount + i)) =
      some ((range' plan.geometry.sourceCount plan.geometry.repairCount).map fun esi =>
        (esi, symbolOf plan.geometry (paddedSources plan bytes) esi)) := by
    rw [number_eq h256.le]
    congr 1
    refine map_congr_left fun esi hesi => ?_
    rw [symbolOf, if_neg (not_lt.mpr (mem_range'_1.mp hesi).1)]
  rw [encodeGeneration, rejectIf_neg (not_not.mpr hg), ok_bind, EpochPlan.generationSpan_eq hg,
    okOr_some, ok_bind, rejectIf_neg (not_not.mpr hlen), ok_bind, EpochPlan.sentSourceCount_eq hg,
    okOr_some, ok_bind, hsources, okOr_some, ok_bind, hs.encode_eq, ok_bind, hfront, okOr_some,
    ok_bind, hback, okOr_some, ok_bind, sentEsis, map_append]
  rfl

end Padded

end ObjectTransfer.Fec
