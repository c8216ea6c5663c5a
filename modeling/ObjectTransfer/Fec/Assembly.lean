import ObjectTransfer.Fec.Mds
import ObjectTransfer.Fec.Receiver
import ObjectTransfer.Fec.Sender

/-! # Assembling one generation

The buffer of a live generation holds the sources that arrived and zeros elsewhere, its
repair symbols are those that arrived, in order. With `k` symbols in hand, zero sources
included, the buffer is or becomes the padded bytes of the generation.
-/

namespace ObjectTransfer.Fec
open Foundations List

theorem foldlM_copyInto_cells {k n : ℕ} {f g : ℕ → Bytes} (hf : ∀ j < k, (f j).length = n)
    (hg : ∀ j < k, (g j).length = n) {l : List ℕ} (hl : ∀ j ∈ l, j < k) :
    (l.map fun j => (j, g j)).foldlM (fun buffer p =>
        copyInto buffer (p.1 * n) (p.1 * n + n) p.2) (cells k f) =
      some (cells k fun j => if j ∈ l then g j else f j) := by
  induction l generalizing f with
  | nil => simp
  | cons i l ih =>
    rw [forall_mem_cons] at hl
    have hupdate : ∀ j < k, (Function.update f i (g i) j).length = n := by
      intro j hj
      by_cases hij : j = i
      · rw [hij, Function.update_self, hg i hl.1]
      · rw [Function.update_of_ne hij, hf j hj]
    rw [map_cons, foldlM_cons, copyInto_cells hf hl.1 (hg i hl.1), some_bind, ih hupdate hl.2]
    congr 1
    refine cells_congr fun j _ => ?_
    by_cases hij : j = i
    · subst hij
      simp
    · simp [hij]

section Bitmap

def Epoch.marked (state : Epoch) (generation : ℕ) : Epoch :=
  { state with
    live := state.live.erase generation
    done := state.done.modify (generation / 64) fun word => setBit word (generation % 64) }

variable {state : Epoch} {generation : ℕ}

/-- One bit for every generation. -/
def Epoch.Mapped (state : Epoch) : Prop :=
  state.done.length = divCeil state.plan.generationCount 64

theorem Epoch.Mapped.lt (h : state.Mapped) (hg : state.plan.holds generation = true) :
    generation / 64 < state.done.length := by
  rw [h, lt_divCeil_iff (by decide)]
  exact lt_of_le_of_lt (Nat.mul_div_le _ _) (by simpa [EpochPlan.holds] using hg)

theorem Epoch.lt_of_isDone {done : Bool} (h : state.isDone generation = some done) :
    generation / 64 < state.done.length := by
  obtain ⟨word, hword, -⟩ := Option.bind_eq_some_iff.mp h
  exact (List.getElem?_eq_some_iff.mp hword).1

theorem Epoch.Mapped.isDone_eq (h : state.Mapped) (hg : state.plan.holds generation = true) :
    ∃ done, state.isDone generation = some done := by
  rw [isDone, getElem?_eq_getElem (h.lt hg)]
  exact ⟨_, rfl⟩

theorem Epoch.markDone_marked (hlt : generation / 64 < state.done.length) :
    { state with live := state.live.erase generation }.markDone generation =
      some (state.marked generation) := by
  rw [markDone, getElem?_eq_getElem hlt, some_bind, marked, modify_eq_set_getElem?]
  simp [hlt]

theorem Epoch.isDone_marked (hlt : generation / 64 < state.done.length) :
    (state.marked generation).isDone generation = some true := by
  have hmod : generation % 64 < 64 := Nat.mod_lt _ (by decide)
  simp [isDone, marked, hlt, hasBit_setBit hmod hmod]

theorem Epoch.isDone_marked_of_ne {other : ℕ} (hne : other ≠ generation) :
    (state.marked generation).isDone other = state.isDone other := by
  have h1 : generation % 64 < 64 := Nat.mod_lt _ (by decide)
  have h2 : other % 64 < 64 := Nat.mod_lt _ (by decide)
  by_cases hword : generation / 64 = other / 64
  · have hbit : generation % 64 ≠ other % 64 := fun hbit => hne (by omega)
    cases hget : state.done[other / 64]? with
    | none =>
      simp only [isDone, marked, getElem?_modify, hget]
      rfl
    | some => simp [isDone, marked, hget, hword, hasBit_setBit h1 h2, hbit]
  · simp [isDone, marked, hword]

end Bitmap

section Retire

def Receiver.ended (receiver : Receiver) (epoch : ℕ) (state : Epoch) (generation : ℕ) : Receiver :=
  { receiver with
    epochs := receiver.epochs.insert epoch (state.marked generation)
    counters := ⟨receiver.counters.activeGenerations - 1,
      receiver.counters.unretiredBytes - state.plan.generationBytes⟩ }

theorem Receiver.retire_ended {receiver : Receiver} {epoch generation : ℕ} {state : Epoch}
    (hlt : generation / 64 < state.done.length) (hactive : 0 < receiver.counters.activeGenerations)
    (hbytes : state.plan.generationBytes ≤ receiver.counters.unretiredBytes) :
    receiver.retire epoch state generation = some (receiver.ended epoch state generation) := by
  have hplan : (state.marked generation).plan = state.plan := rfl
  rw [retire, Epoch.markDone_marked hlt, some_bind, Counters.retire, checkedSub_of_le hactive,
    some_bind, hplan, checkedSub_of_le hbytes]
  rfl

end Retire

variable [Gf.Simd]

def sentSymbol (plan : EpochPlan) (bytes : Bytes) (esi : ℕ) : Bytes :=
  symbolOf plan.geometry (paddedSources plan bytes) esi

/-- A live generation after the symbols `esis` arrived, in this order. -/
structure Holding (plan : EpochPlan) (generation : ℕ) (bytes : Bytes) (esis : List ℕ)
    (slot : Generation) : Prop where
  sources : slot.sources = cells plan.geometry.sourceCount fun j =>
    if j ∈ esis then sentSymbol plan bytes j else List.replicate plan.geometry.symbolLength 0
  repairs : slot.repairs = (esis.filter fun esi => decide (plan.geometry.sourceCount ≤ esi)).map
    fun esi => (esi, sentSymbol plan bytes esi)
  seen : ∀ esi < plan.geometry.symbolCount, slot.has esi = decide (esi ∈ esis)
  received : slot.received = plan.geometry.sourceCount - plan.sentSources generation + esis.length
  nodup : esis.Nodup
  sent : ∀ esi ∈ esis, esi ∈ sentEsis plan generation

section Slot

variable {plan : EpochPlan} {generation : ℕ} {bytes : Bytes} {esis : List ℕ} {slot : Generation}

variable {esi : ℕ}

omit [Gf.Simd] in
theorem symbolCount_lt_128 (g : Geometry) (h : esi < g.symbolCount) : esi < 128 :=
  lt_of_lt_of_le h (g.symbolCount_le.trans (by decide))

omit [Gf.Simd] in
theorem has_setBit {seen : BitVec 128} (hseen : ∀ e < plan.geometry.symbolCount,
      hasBit seen e = decide (e ∈ esis)) (hesi : esi < plan.geometry.symbolCount) :
    ∀ e < plan.geometry.symbolCount, hasBit (setBit seen esi) e = decide (e ∈ esis ++ [esi]) := by
  intro e he
  rw [hasBit_setBit (symbolCount_lt_128 _ hesi) (symbolCount_lt_128 _ he), hseen e he,
    ← Bool.decide_or]
  simp [eq_comm]

omit [Gf.Simd] in
theorem arrived_concat {sent : List ℕ} (hnodup : esis.Nodup) (hesis : ∀ e ∈ esis, e ∈ sent)
    (hnew : esi ∉ esis) (hsent : esi ∈ sent) :
    (esis ++ [esi]).Nodup ∧ ∀ e ∈ esis ++ [esi], e ∈ sent := by
  rw [nodup_append_comm, singleton_append, nodup_cons]
  exact ⟨⟨hnew, hnodup⟩, by simpa [or_imp, forall_and] using ⟨hesis, hsent⟩⟩

theorem Holding.new (plan : EpochPlan) (generation : ℕ) (bytes : Bytes) :
    Holding plan generation bytes [] (.new plan.geometry (plan.sentSources generation)) where
  sources := by
    simp [Generation.new, cells, map_const', flatten_replicate_replicate]
  repairs := rfl
  seen := fun esi hesi => hasBit_zero (symbolCount_lt_128 _ hesi)
  received := rfl
  nodup := nodup_nil
  sent := by simp

theorem sentSymbol_source {j : ℕ} (hj : j < plan.geometry.sourceCount) :
    sentSymbol plan bytes j = chunkAt plan.geometry.symbolLength (padded plan bytes) j := by
  rw [sentSymbol, symbolOf, if_pos hj, paddedSources_getD hj]

variable (hlen : bytes.length = plan.spanBytes generation)
include hlen

theorem sentSymbol_length (esi : ℕ) :
    (sentSymbol plan bytes esi).length = plan.geometry.symbolLength :=
  (paddedSources_spec hlen).symbolOf_length esi

theorem sentSymbol_zero {j : ℕ} (hj : j < plan.geometry.sourceCount)
    (hzero : plan.sentSources generation ≤ j) :
    sentSymbol plan bytes j = List.replicate plan.geometry.symbolLength 0 := by
  have hspan := mt EpochPlan.lt_sentSources.mpr (not_lt.mpr hzero)
  rw [sentSymbol_source hj, chunkAt_padded hlen hj, chunkAt, mul_comm _ j,
    drop_eq_nil_of_le (by omega), Nat.sub_eq_zero_of_le (not_lt.mp hspan),
    take_nil, nil_append, Nat.sub_zero]

theorem cells_sentSymbol : cells plan.geometry.sourceCount (sentSymbol plan bytes) =
    padded plan bytes := by
  rw [cells_congr fun j hj => sentSymbol_source hj, cells_padded hlen]

theorem buffer_cell_length (esis : List ℕ) (j : ℕ) : (if j ∈ esis then sentSymbol plan bytes j
    else List.replicate plan.geometry.symbolLength 0).length = plan.geometry.symbolLength := by
  split_ifs
  · exact sentSymbol_length hlen j
  · exact length_replicate

theorem Holding.store (h : Holding plan generation bytes esis slot)
    (hsent : esi ∈ sentEsis plan generation) (hnew : esi ∉ esis) :
    ∃ slot', slot.store plan.geometry esi (sentSymbol plan bytes esi) = some slot' ∧
      Holding plan generation bytes (esis ++ [esi]) slot' := by
  obtain ⟨hnodup, hall⟩ := arrived_concat h.nodup h.sent hnew hsent
  have hseen := has_setBit h.seen (lt_symbolCount hsent)
  by_cases hsource : esi < plan.geometry.sourceCount
  · have hcopy := copyInto_cells (fun j _ => buffer_cell_length hlen esis j) hsource
      (sentSymbol_length hlen esi)
    refine ⟨_, by simp only [Generation.store, if_pos hsource, h.sources, hcopy]; rfl, ?_⟩
    refine ⟨cells_congr fun j _ => ?_, ?_, hseen, ?_, hnodup, hall⟩
    · by_cases hj : j = esi
      · subst hj
        simp
      · simp [hj]
    · have : ¬ plan.geometry.sourceCount ≤ esi := by omega
      simp [h.repairs, filter_append, this]
    · simp [h.received, add_assoc]
  · refine ⟨_, by simp only [Generation.store, if_neg hsource]; rfl, ?_⟩
    refine ⟨?_, ?_, hseen, ?_, hnodup, hall⟩
    · rw [h.sources]
      refine cells_congr fun j hj => ?_
      have hne : j ≠ esi := by omega
      simp [hne]
    · have : plan.geometry.sourceCount ≤ esi := by omega
      simp [h.repairs, filter_append, this]
    · simp [h.received, add_assoc]

theorem Holding.sources_eq (h : Holding plan generation bytes esis slot)
    (hhas : slot.hasSources (plan.sentSources generation) = true) :
    slot.sources = padded plan bytes := by
  rw [h.sources, ← cells_sentSymbol hlen]
  refine cells_congr fun j hj => ?_
  by_cases hsent : j < plan.sentSources generation
  · have hbit := all_eq_true.mp hhas j (mem_range.mpr hsent)
    rw [h.seen j (hj.trans_le (Nat.le_add_right _ _)), decide_eq_true_eq] at hbit
    rw [if_pos hbit]
  · rw [sentSymbol_zero hlen hj (not_lt.mp hsent), ite_self]

/-- The sources that are zero and never sent. -/
def zeroEsis (plan : EpochPlan) (generation : ℕ) : List ℕ :=
  List.range' (plan.sentSources generation)
    (plan.geometry.sourceCount - plan.sentSources generation)

omit [Gf.Simd] hlen in
theorem mem_zeroEsis : esi ∈ zeroEsis plan generation ↔
    plan.sentSources generation ≤ esi ∧ esi < plan.geometry.sourceCount := by
  have hle := plan.sentSources_le generation
  rw [zeroEsis, mem_range'_1]
  omega

/-- The ESIs in hand: sent sources, repair symbols, zero sources. -/
def handEsis (plan : EpochPlan) (generation : ℕ) (esis : List ℕ) : List ℕ :=
  (List.range (plan.sentSources generation)).filter (fun esi => decide (esi ∈ esis)) ++
    esis.filter (fun esi => decide (plan.geometry.sourceCount ≤ esi)) ++ zeroEsis plan generation

omit [Gf.Simd] hlen in
theorem mem_handEsis (hsent : ∀ esi ∈ esis, esi ∈ sentEsis plan generation) (esi : ℕ) :
    esi ∈ handEsis plan generation esis ↔
      esi ∈ esis ∨ plan.sentSources generation ≤ esi ∧ esi < plan.geometry.sourceCount := by
  have hle := plan.sentSources_le generation
  have hmem := hsent esi
  rw [mem_sentEsis] at hmem
  simp only [handEsis, mem_append, mem_filter, mem_range, decide_eq_true_eq, mem_zeroEsis]
  grind

omit [Gf.Simd] hlen in
theorem handEsis_nodup (hnodup : esis.Nodup) : (handEsis plan generation esis).Nodup := by
  have hle := plan.sentSources_le generation
  rw [handEsis, nodup_append', nodup_append']
  refine ⟨⟨nodup_range.filter _, hnodup.filter _, ?_⟩, nodup_range', ?_⟩
  · intro esi h1 h2
    simp only [mem_filter, mem_range, decide_eq_true_eq] at h1 h2
    omega
  · intro esi h1 h2
    simp only [mem_append, mem_filter, mem_range, decide_eq_true_eq, mem_zeroEsis] at h1 h2
    omega

omit [Gf.Simd] hlen in
theorem handEsis_length (hnodup : esis.Nodup)
    (hsent : ∀ esi ∈ esis, esi ∈ sentEsis plan generation) :
    (handEsis plan generation esis).length =
      plan.geometry.sourceCount - plan.sentSources generation + esis.length := by
  have hperm : (handEsis plan generation esis).Perm (esis ++ zeroEsis plan generation) := by
    refine (perm_ext_iff_of_nodup (handEsis_nodup hnodup) ?_).mpr fun esi => ?_
    · rw [nodup_append']
      refine ⟨hnodup, nodup_range', fun esi h1 h2 => ?_⟩
      have hesi := hsent esi h1
      rw [mem_sentEsis] at hesi
      rw [mem_zeroEsis] at h2
      omega
    · rw [mem_handEsis hsent, mem_append, mem_zeroEsis]
  rw [hperm.length_eq, length_append, zeroEsis, length_range', add_comm]

omit [Gf.Simd] hlen in
theorem lt_of_mem_handEsis (hsent : ∀ esi ∈ esis, esi ∈ sentEsis plan generation)
    (h : esi ∈ handEsis plan generation esis) : esi < plan.geometry.symbolCount := by
  rcases (mem_handEsis hsent esi).mp h with hesi | hesi
  · exact lt_symbolCount (hsent esi hesi)
  · exact hesi.2.trans_le (Nat.le_add_right _ _)

omit [Gf.Simd] hlen in
theorem inHand_cells {cell : ℕ → Bytes}
    (hseen : ∀ esi < plan.geometry.symbolCount, slot.has esi = decide (esi ∈ esis))
    (hcell : ∀ esi < plan.sentSources generation, esi ∈ esis → slice? slot.sources
      (esi * plan.geometry.symbolLength)
      (esi * plan.geometry.symbolLength + plan.geometry.symbolLength) = some (cell esi)) :
    inHand plan slot (plan.sentSources generation) =
      some (((List.range (plan.sentSources generation)).filter fun esi =>
          decide (esi ∈ esis)).map (fun esi => (esi, cell esi)) ++ slot.repairs ++
        (zeroEsis plan generation).map fun esi =>
          (esi, List.replicate plan.geometry.symbolLength (0 : UInt8))) := by
  have hfilter : (range (plan.sentSources generation)).filter slot.has =
      (range (plan.sentSources generation)).filter fun esi => decide (esi ∈ esis) := by
    refine filter_congr fun esi hesi => hseen esi ?_
    exact (mem_range.mp hesi).trans_le
      ((plan.sentSources_le generation).trans (Nat.le_add_right _ _))
  rw [inHand, hfilter, mapM_eq_some fun esi hesi => ?_]
  · rfl
  · rw [mem_filter, mem_range, decide_eq_true_eq] at hesi
    simp only [hcell esi hesi.1 hesi.2]
    rfl

section

variable (h : Holding plan generation bytes esis slot)
include h

theorem Holding.inHand_eq :
    inHand plan slot (plan.sentSources generation) =
      some ((handEsis plan generation esis).map fun esi => (esi, sentSymbol plan bytes esi)) := by
  rw [inHand_cells h.seen fun esi hlt hesi => ?_]
  · have hzeros : (zeroEsis plan generation).map
          (fun esi => (esi, replicate plan.geometry.symbolLength (0 : UInt8))) =
        (zeroEsis plan generation).map fun esi => (esi, sentSymbol plan bytes esi) := by
      refine map_congr_left fun esi hesi => ?_
      rw [mem_zeroEsis] at hesi
      rw [sentSymbol_zero hlen hesi.2 hesi.1]
    rw [hzeros, h.repairs, handEsis, map_append, map_append]
  · rw [h.sources, slice?_cells (fun j _ => buffer_cell_length hlen esis j)
      (hlt.trans_le (plan.sentSources_le generation)), if_pos hesi]

theorem Holding.recoverMissing_eq (hk : slot.received = plan.geometry.sourceCount) :
    recoverMissing plan.geometry ((handEsis plan generation esis).map fun esi =>
      (esi, sentSymbol plan bytes esi)) =
      .ok ((missingSources plan.geometry (handEsis plan generation esis)).map fun esi =>
        (esi, sentSymbol plan bytes esi)) := by
  have hkeys : ((handEsis plan generation esis).map fun esi =>
      (esi, sentSymbol plan bytes esi)).map Prod.fst = handEsis plan generation esis := by
    simp [Function.comp_def]
  have hnodup : (handEsis plan generation esis).Nodup := handEsis_nodup h.nodup
  have hr : Received plan.geometry (paddedSources plan bytes)
      ((handEsis plan generation esis).map fun esi => (esi, sentSymbol plan bytes esi)) := by
    refine ⟨by rwa [hkeys], fun p hp => ?_⟩
    obtain ⟨esi, hesi, rfl⟩ := mem_map.mp hp
    exact ⟨lt_of_mem_handEsis h.sent hesi, rfl⟩
  have henough : plan.geometry.sourceCount ≤ ((handEsis plan generation esis).map fun esi =>
      (esi, sentSymbol plan bytes esi)).length := by
    rw [length_map, handEsis_length h.nodup h.sent, ← h.received, hk]
  rw [Fec.recoverMissing_eq (paddedSources_spec hlen) hr henough, hkeys]
  congr 1
  refine map_congr_left fun esi hesi => ?_
  have hsource := (mem_missingSources.mp hesi).1
  rw [paddedSources_getD hsource, sentSymbol_source hsource]

theorem Holding.eliminate_eq (hk : slot.received = plan.geometry.sourceCount) :
    ∃ slot', eliminate plan slot (plan.sentSources generation) = some slot' ∧
      slot'.sources = padded plan bytes := by
  have hfold := foldlM_copyInto_cells (fun j _ => buffer_cell_length hlen esis j)
    (fun j _ => sentSymbol_length hlen j)
    (show ∀ j ∈ missingSources plan.geometry (handEsis plan generation esis), _ from
      fun j hj => (mem_missingSources.mp hj).1)
  refine ⟨_, by
    simp only [eliminate, h.inHand_eq hlen, some_bind, h.recoverMissing_eq hlen hk,
      Except.toOption, h.sources, hfold]
    rfl, ?_⟩
  rw [← cells_sentSymbol hlen]
  refine cells_congr fun j hj => ?_
  have hmem := mem_handEsis h.sent j
  by_cases hin : j ∈ esis
  · simp [hin]
  · by_cases hsent : j < plan.sentSources generation
    · rw [if_pos (mem_missingSources.mpr ⟨hj, fun hmiss => ?_⟩)]
      rcases hmem.mp hmiss with hmiss | hmiss
      · exact hin hmiss
      · omega
    · simp [hin, sentSymbol_zero hlen hj (not_lt.mp hsent)]

end

end Slot

end ObjectTransfer.Fec
