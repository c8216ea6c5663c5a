import ObjectTransfer.Fec.Code
import ObjectTransfer.Foundations.Tiling

/-! # Epoch plans

An epoch covers a byte range of an object and cuts it into generations of `k` source
symbols; the last generation may be short, and its sources past the range are all zero and
never sent. Overflowing arithmetic and failed assertions are panics.
-/

namespace ObjectTransfer.Fec
open Foundations

/-- One coding epoch: its byte range and the geometry of its generations. -/
structure EpochPlan where
  epoch : ℕ
  offset : ℕ
  length : ℕ
  geometry : Geometry
  length_pos : 0 < length
  end_le : offset + length ≤ u64Max
  count_le : divCeil length (geometry.sourceCount * geometry.symbolLength) ≤ 2 ^ 32

instance : DecidableEq EpochPlan := fun a b =>
  decidable_of_iff (a.epoch = b.epoch ∧ a.offset = b.offset ∧ a.length = b.length ∧
    a.geometry = b.geometry) (by cases a; cases b; simp)

/-- The object bytes one source symbol covers. -/
inductive SourceSpan where
  | bytes (offset bytes : ℕ)
  | zero
  deriving DecidableEq, Repr

namespace EpochPlan

def new (epoch offset length : ℕ) (geometry : Geometry) : Except Error EpochPlan :=
  if h : length = 0 ∨ checkedAdd offset length = none ∨
      divCeil length (geometry.sourceCount * geometry.symbolLength) > 2 ^ 32 then
    .error .invalidGeometry
  else .ok
    { epoch, offset, length, geometry
      length_pos := by omega
      end_le := by
        obtain ⟨total, htotal⟩ := Option.ne_none_iff_exists'.mp fun hnone => h (.inr (.inl hnone))
        exact (checkedAdd_eq_some.mp htotal).1
      count_le := by omega }

/-- A plan is made exactly for the fields of some plan. -/
theorem new_eq_ok {epoch offset length : ℕ} {geometry : Geometry} {plan : EpochPlan} :
    new epoch offset length geometry = .ok plan ↔
      plan.epoch = epoch ∧ plan.offset = offset ∧ plan.length = length ∧
        plan.geometry = geometry := by
  constructor
  · intro h
    unfold new at h
    split_ifs at h
    cases h
    exact ⟨rfl, rfl, rfl, rfl⟩
  · rintro ⟨rfl, rfl, rfl, rfl⟩
    unfold new
    rw [dif_neg]
    have hpos := plan.length_pos
    have hend := checkedAdd_of_le plan.end_le
    have hcount := plan.count_le
    rw [hend]
    simp only [reduceCtorEq, false_or, not_or]
    omega

variable (plan : EpochPlan)

def generationBytes : ℕ := plan.geometry.sourceCount * plan.geometry.symbolLength

def generationCount : ℕ := divCeil plan.length plan.generationBytes

def holds (generation : ℕ) : Bool := generation < plan.generationCount

/-- The object bytes a generation covers: offset and length. -/
def generationSpan (generation : ℕ) : Option (ℕ × ℕ) := do
  guard (plan.holds generation)
  let start ← checkedMul generation plan.generationBytes
  let rest ← checkedSub plan.length start
  let offset ← checkedAdd plan.offset start
  return (offset, min plan.generationBytes rest)

def sourceSpan (generation esi : ℕ) : Option SourceSpan := do
  guard (esi < plan.geometry.sourceCount)
  let span ← plan.generationSpan generation
  let symbolStart ← checkedMul esi plan.geometry.symbolLength
  if symbolStart ≥ span.2 then return .zero
  else do
    let rest ← checkedSub span.2 symbolStart
    let offset ← checkedAdd span.1 symbolStart
    return .bytes offset (min rest plan.geometry.symbolLength)

def sentSourceCount (generation : ℕ) : Option ℕ := do
  let span ← plan.generationSpan generation
  return divCeil span.2 plan.geometry.symbolLength

def spanBytes (generation : ℕ) : ℕ :=
  min plan.generationBytes (plan.length - generation * plan.generationBytes)

def sentSources (generation : ℕ) : ℕ :=
  divCeil (plan.spanBytes generation) plan.geometry.symbolLength

theorem spanBytes_le (generation : ℕ) : plan.spanBytes generation ≤ plan.generationBytes :=
  min_le_left _ _

theorem sentSources_le (generation : ℕ) :
    plan.sentSources generation ≤ plan.geometry.sourceCount := by
  by_contra hcon
  have := (lt_divCeil_iff plan.geometry.length_pos).mp (not_le.mp hcon)
  rw [mul_comm] at this
  exact absurd (plan.spanBytes_le generation) (not_le.mpr this)

variable {plan}

theorem generationBytes_pos : 0 < plan.generationBytes :=
  Nat.mul_pos plan.geometry.source_pos plan.geometry.length_pos

section Held

variable {generation : ℕ} (hg : plan.holds generation = true)
include hg

theorem start_lt : generation * plan.generationBytes < plan.length := by
  rw [holds, decide_eq_true_eq, generationCount, lt_divCeil_iff generationBytes_pos, mul_comm] at hg
  exact hg

theorem spanBytes_pos : 0 < plan.spanBytes generation :=
  lt_min generationBytes_pos (Nat.sub_pos_of_lt (start_lt hg))

theorem generationSpan_eq : plan.generationSpan generation =
    some (plan.offset + generation * plan.generationBytes, plan.spanBytes generation) := by
  have hstart := start_lt hg
  have hend := plan.end_le
  have hmul := checkedMul_eq_some.mpr
    ⟨show generation * plan.generationBytes ≤ u64Max from by omega, rfl⟩
  have hadd := checkedAdd_of_le
    (show plan.offset + generation * plan.generationBytes ≤ u64Max from by omega)
  simp [generationSpan, hg, hmul, hadd, checkedSub_of_le hstart.le, spanBytes]

theorem sentSourceCount_eq : plan.sentSourceCount generation = some (plan.sentSources generation) := by
  rw [sentSourceCount, generationSpan_eq hg]
  rfl

theorem sentSources_pos : 0 < plan.sentSources generation :=
  (lt_divCeil_iff plan.geometry.length_pos).mpr (by simpa using spanBytes_pos hg)

/-- A source symbol covers what its generation has left at it. -/
theorem sourceSpan_eq {esi : ℕ} (hesi : esi < plan.geometry.sourceCount) :
    plan.sourceSpan generation esi = some (
      if plan.spanBytes generation ≤ esi * plan.geometry.symbolLength then .zero
      else .bytes
        (plan.offset + generation * plan.generationBytes + esi * plan.geometry.symbolLength)
        (min (plan.spanBytes generation - esi * plan.geometry.symbolLength)
          plan.geometry.symbolLength)) := by
  have hend := plan.end_le
  have hspan : plan.spanBytes generation ≤ plan.length - generation * plan.generationBytes :=
    min_le_right _ _
  have hle : esi * plan.geometry.symbolLength ≤ maxSourceSymbols * maxSymbolLength :=
    Nat.mul_le_mul (hesi.le.trans plan.geometry.source_le) plan.geometry.length_le
  have hmul := checkedMul_eq_some.mpr
    ⟨hle.trans (by decide), rfl⟩
  by_cases hzero : plan.spanBytes generation ≤ esi * plan.geometry.symbolLength
  · simp [sourceSpan, generationSpan_eq hg, hmul, hesi, hzero]
  · have hsub := checkedSub_of_le (Nat.le_of_not_le hzero)
    have hadd := checkedAdd_of_le (show plan.offset + generation * plan.generationBytes +
      esi * plan.geometry.symbolLength ≤ u64Max from by omega)
    simp [sourceSpan, generationSpan_eq hg, hmul, hesi, hzero, hsub, hadd]

end Held

/-- The sources that are not sent are those past the bytes of the generation. -/
theorem lt_sentSources {generation esi : ℕ} : esi < plan.sentSources generation ↔
    esi * plan.geometry.symbolLength < plan.spanBytes generation := by
  rw [sentSources, lt_divCeil_iff plan.geometry.length_pos, mul_comm]

theorem map_generationSpan : (List.range plan.generationCount).map plan.generationSpan =
    (cutEvery plan.generationBytes plan.offset plan.length).map some := by
  rw [cutEvery, List.map_map]
  apply List.map_congr_left
  intro generation hg
  exact generationSpan_eq (decide_eq_true (List.mem_range.mp hg))

theorem map_sourceSpan {generation : ℕ} (hg : plan.holds generation = true) :
    (List.range (plan.sentSources generation)).map (plan.sourceSpan generation) =
      (cutEvery plan.geometry.symbolLength (plan.offset + generation * plan.generationBytes)
        (plan.spanBytes generation)).map fun p => some (.bytes p.1 p.2) := by
  rw [cutEvery, List.map_map]
  apply List.map_congr_left
  intro esi hesi
  have hsent := List.mem_range.mp hesi
  have hlt := lt_sentSources.mp hsent
  rw [sourceSpan_eq hg (hsent.trans_le (plan.sentSources_le generation)), if_neg (not_le.mpr hlt),
    min_comm]
  rfl

end EpochPlan

/-- The generations of an epoch tile its range and the sources of each tile the generation, with no
overflow or panic on the way. -/
theorem epoch_tiled {epoch offset length : ℕ} {geometry : Geometry} {plan : EpochPlan}
    (hnew : EpochPlan.new epoch offset length geometry = .ok plan) :
    plan.generationBytes ≤ u64Max ∧ ∃ spans : List Span,
      (List.range plan.generationCount).map plan.generationSpan = spans.map some ∧
      (∀ s ∈ spans, 0 < s.2) ∧ EndToEnd offset spans ∧ Tiles spans offset length ∧
      ∀ generation span, spans[generation]? = some span →
        ∃ sent ≤ geometry.sourceCount, plan.sentSourceCount generation = some sent ∧
          (∃ pieces : List Span, (List.range sent).map (plan.sourceSpan generation) =
              pieces.map (fun p => some (.bytes p.1 p.2)) ∧
            (∀ p ∈ pieces, 0 < p.2) ∧ EndToEnd span.1 pieces ∧ Tiles pieces span.1 span.2) ∧
          ∀ esi, sent ≤ esi → esi < geometry.sourceCount →
            plan.sourceSpan generation esi = some .zero := by
  obtain ⟨-, rfl, rfl, rfl⟩ := EpochPlan.new_eq_ok.mp hnew
  refine ⟨?_, _, EpochPlan.map_generationSpan, cutEvery_pos EpochPlan.generationBytes_pos _ _,
    cutEvery_endToEnd EpochPlan.generationBytes_pos _ _,
    cutEvery_tiles EpochPlan.generationBytes_pos _ _, fun generation span hspan => ?_⟩
  · exact (Nat.mul_le_mul plan.geometry.source_le plan.geometry.length_le).trans (by decide)
  have hg : plan.holds generation = true := by
    obtain ⟨hlt, -⟩ := List.getElem?_eq_some_iff.mp hspan
    rw [cutEvery, List.length_map, List.length_range] at hlt
    exact decide_eq_true hlt
  have hsome : some (some span) = some (plan.generationSpan generation) := by
    rw [← Option.map_some, ← hspan, ← List.getElem?_map, ← EpochPlan.map_generationSpan,
      List.getElem?_map, List.getElem?_range (of_decide_eq_true hg), Option.map_some]
  rw [EpochPlan.generationSpan_eq hg] at hsome
  obtain rfl := Option.some.inj (Option.some.inj hsome)
  refine ⟨_, plan.sentSources_le generation, EpochPlan.sentSourceCount_eq hg,
    ⟨_, EpochPlan.map_sourceSpan hg, cutEvery_pos plan.geometry.length_pos _ _,
      cutEvery_endToEnd plan.geometry.length_pos _ _,
      cutEvery_tiles plan.geometry.length_pos _ _⟩, fun esi hsent hesi => ?_⟩
  rw [EpochPlan.sourceSpan_eq hg hesi, if_pos]
  exact not_lt.mp (mt EpochPlan.lt_sentSources.mpr (not_lt.mpr hsent))

/-- Ten bytes at the top of the range, in generations of two symbols of three bytes. -/
theorem epoch_tiled_top : ∃ plan, EpochPlan.new 0 (u64Max - 10) 10
      ⟨2, 0, 3, by decide, by decide, by decide, by decide, by decide⟩ = .ok plan ∧
    ∃ spans : List Span, Tiles spans (u64Max - 10) 10 := by
  obtain ⟨plan, hnew⟩ : ∃ plan, EpochPlan.new 0 (u64Max - 10) 10
    ⟨2, 0, 3, by decide, by decide, by decide, by decide, by decide⟩ = .ok plan := ⟨_, rfl⟩
  obtain ⟨-, spans, -, -, -, htiles, -⟩ := epoch_tiled hnew
  exact ⟨plan, hnew, spans, htiles⟩

end ObjectTransfer.Fec
