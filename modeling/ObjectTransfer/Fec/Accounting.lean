import ObjectTransfer.Fec.Assembly
import ObjectTransfer.Fec.Consistent

/-! # What a call can do to the receiver

Every call of the receiver, whatever its arguments, is answered; the only panic left is the
overflow of a report's sequence number. A symbol is dropped and changes nothing, is stored, or
ends its generation, and each of these says exactly how the tables and counters move.
-/

namespace ObjectTransfer.Fec
open Foundations List OrderedMap

section Slots

/-- A live generation after symbols with the ESIs `esis` arrived, whatever their bytes. -/
structure Filled (plan : EpochPlan) (generation : ℕ) (esis : List ℕ) (slot : Generation) :
    Prop where
  sources : slot.sources.length = plan.generationBytes
  repairs : slot.repairs.map Prod.fst =
    esis.filter fun esi => decide (plan.geometry.sourceCount ≤ esi)
  width : ∀ p ∈ slot.repairs, p.2.length = plan.geometry.symbolLength
  seen : ∀ esi < plan.geometry.symbolCount, slot.has esi = decide (esi ∈ esis)
  received : slot.received = plan.geometry.sourceCount - plan.sentSources generation + esis.length
  nodup : esis.Nodup
  sent : ∀ esi ∈ esis, esi ∈ sentEsis plan generation

variable {plan : EpochPlan} {generation esi : ℕ} {bytes : Bytes} {esis : List ℕ}
  {slot : Generation}

theorem copyInto_length {dest src out : Bytes} {start stop : ℕ}
    (h : copyInto dest start stop src = some out) : out.length = dest.length := by
  unfold copyInto at h
  split_ifs at h with hbounds
  obtain rfl := Option.some.inj h
  simp only [length_append, length_take, length_drop]
  omega

theorem copyInto_cell {dest cell : Bytes} {k n i : ℕ} (hdest : dest.length = k * n)
    (hcell : cell.length = n) (hi : i < k) :
    ∃ out, copyInto dest (i * n) (i * n + n) cell = some out := by
  have hle : (i + 1) * n ≤ k * n := Nat.mul_le_mul_right n hi
  rw [Nat.succ_mul] at hle
  exact ⟨_, if_pos (by omega)⟩

theorem foldlM_copyInto {k n : ℕ} {cells : List (ℕ × Bytes)} {dest : Bytes}
    (hdest : dest.length = k * n) (hcells : ∀ p ∈ cells, p.1 < k ∧ p.2.length = n) :
    ∃ out, cells.foldlM (fun buffer p => copyInto buffer (p.1 * n) (p.1 * n + n) p.2) dest =
      some out := by
  induction cells generalizing dest with
  | nil => exact ⟨dest, rfl⟩
  | cons p cells ih =>
    rw [forall_mem_cons] at hcells
    obtain ⟨out, hout⟩ := copyInto_cell hdest hcells.1.2 hcells.1.1
    obtain ⟨last, hlast⟩ := ih ((copyInto_length hout).trans hdest) hcells.2
    exact ⟨last, by rw [foldlM_cons, hout, some_bind, hlast]⟩

theorem Filled.new (plan : EpochPlan) (generation : ℕ) :
    Filled plan generation [] (.new plan.geometry (plan.sentSources generation)) where
  sources := List.length_replicate
  repairs := rfl
  width := by simp [Generation.new]
  seen := fun esi hesi => hasBit_zero (symbolCount_lt_128 _ hesi)
  received := rfl
  nodup := nodup_nil
  sent := by simp

section

variable (h : Filled plan generation esis slot)
include h

theorem Filled.store (hsent : esi ∈ sentEsis plan generation)
    (hnew : esi ∉ esis) (hbytes : bytes.length = plan.geometry.symbolLength) :
    ∃ slot', slot.store plan.geometry esi bytes = some slot' ∧ slot'.sequence = slot.sequence ∧
      Filled plan generation (esis ++ [esi]) slot' := by
  obtain ⟨hnodup, hall⟩ := arrived_concat h.nodup h.sent hnew hsent
  have hseen := has_setBit h.seen (lt_symbolCount hsent)
  have hreceived : slot.received + 1 = plan.geometry.sourceCount - plan.sentSources generation +
      (esis ++ [esi]).length := by
    rw [h.received, length_append, length_singleton]
    omega
  by_cases hsource : esi < plan.geometry.sourceCount
  · obtain ⟨sources, hcopy⟩ := copyInto_cell h.sources hbytes hsource
    refine ⟨{ slot with sources, seen := setBit slot.seen esi, received := slot.received + 1 },
      by simp only [Generation.store, if_pos hsource, hcopy]; rfl, rfl,
      (copyInto_length hcopy).trans h.sources, ?_, h.width, hseen, hreceived, hnodup, hall⟩
    have hbelow : ¬ plan.geometry.sourceCount ≤ esi := not_le.mpr hsource
    simp [h.repairs, filter_append, hbelow]
  · refine ⟨{ slot with
        repairs := slot.repairs ++ [(esi, bytes)]
        seen := setBit slot.seen esi
        received := slot.received + 1 },
      by simp only [Generation.store, if_neg hsource]; rfl, rfl, h.sources, ?_, fun p hp => ?_,
      hseen, hreceived, hnodup, hall⟩
    · simp [h.repairs, filter_append, not_lt.mp hsource]
    · rcases mem_append.mp hp with hp | hp
      · exact h.width p hp
      · rw [mem_singleton.mp hp, hbytes]

theorem Filled.inHand_eq :
    ∃ received, inHand plan slot (plan.sentSources generation) = some received ∧
      Plausible plan.geometry received ∧ received.length = slot.received := by
  let cell := fun esi => (slot.sources.drop (esi * plan.geometry.symbolLength)).take
    plan.geometry.symbolLength
  have hcell : ∀ esi < plan.sentSources generation, slice? slot.sources
      (esi * plan.geometry.symbolLength)
      (esi * plan.geometry.symbolLength + plan.geometry.symbolLength) = some (cell esi) ∧
      (cell esi).length = plan.geometry.symbolLength := by
    intro esi hesi
    have hend : (esi + 1) * plan.geometry.symbolLength ≤ plan.generationBytes :=
      Nat.mul_le_mul_right _ (hesi.trans_le (plan.sentSources_le generation))
    rw [Nat.succ_mul] at hend
    have hlength := h.sources
    refine ⟨by rw [slice?_eq (by omega) (by omega), Nat.add_sub_cancel_left], ?_⟩
    rw [length_take, length_drop]
    omega
  refine ⟨_, inHand_cells h.seen fun esi hlt _ => (hcell esi hlt).1, ?_⟩
  generalize hreceived : map _ _ ++ slot.repairs ++ map _ _ = received
  have hkeys : received.map Prod.fst = handEsis plan generation esis := by
    simp [← hreceived, handEsis, h.repairs, Function.comp_def]
  refine ⟨⟨by rw [hkeys]; exact handEsis_nodup h.nodup, fun p hp => ⟨?_, ?_⟩⟩, ?_⟩
  · exact lt_of_mem_handEsis h.sent (hkeys ▸ mem_map_of_mem hp)
  · rw [← hreceived] at hp
    rcases mem_append.mp hp with hp | hp
    · rcases mem_append.mp hp with hp | hp
      · obtain ⟨esi, hesi, rfl⟩ := mem_map.mp hp
        exact (hcell esi (mem_range.mp (mem_filter.mp hesi).1)).2
      · exact h.width p hp
    · obtain ⟨esi, -, rfl⟩ := mem_map.mp hp
      exact length_replicate
  · rw [← length_map, hkeys, handEsis_length h.nodup h.sent, h.received]

theorem Filled.eliminate_ok [Gf.Simd] (hk : slot.received = plan.geometry.sourceCount) :
    ∃ slot', eliminate plan slot (plan.sentSources generation) = some slot' := by
  obtain ⟨received, hhand, hplausible, hlength⟩ := h.inHand_eq
  obtain ⟨recovered, hrecovered, hcells⟩ := hplausible.recoverMissing_ok (hlength.trans hk)
  obtain ⟨sources, hsources⟩ := foldlM_copyInto h.sources hcells
  refine ⟨{ slot with sources }, ?_⟩
  simp only [eliminate, hhand, some_bind, hrecovered, Except.toOption, hsources]
  rfl

theorem Filled.received_le :
    slot.received ≤ plan.geometry.symbolCount := by
  have hnodup : (handEsis plan generation esis).Nodup := handEsis_nodup h.nodup
  have hsub : handEsis plan generation esis ⊆ range plan.geometry.symbolCount := by
    intro esi hesi
    exact mem_range.mpr (lt_of_mem_handEsis h.sent hesi)
  have hle := (hnodup.subperm hsub).length_le
  rwa [handEsis_length h.nodup h.sent, ← h.received, length_range] at hle

end

structure Reported (plan : EpochPlan) (generation : ℕ) (report : Report) : Prop where
  received : report.received ≤ plan.geometry.symbolCount
  sorted : report.missingSources.Pairwise (· < ·)
  sent : ∀ esi ∈ report.missingSources, esi < plan.sentSources generation

theorem Filled.report (h : Filled plan generation esis slot)
    (hg : plan.holds generation = true) (hroom : slot.sequence < u64Max) :
    ∃ slot' report, reportOf plan generation slot = some (slot', report) ∧
      (slot'.sequence = slot.sequence + 1 ∧ slot'.received = slot.received ∧
        report.sequence = slot.sequence + 1 ∧ Filled plan generation esis slot') ∧
      Reported plan generation report := by
  have hle := plan.sentSources_le generation
  have h256 := plan.geometry.symbolCount_lt
  have hcount : plan.geometry.sourceCount ≤ plan.geometry.symbolCount := Nat.le_add_right _ _
  have hsources : (range (plan.sentSources generation)).mapM toU8 =
      some ((range (plan.sentSources generation)).map id) :=
    mapM_eq_some fun j hj => toU8_of_lt (by have := mem_range.mp hj; omega)
  refine ⟨{ slot with sequence := slot.sequence + 1 }, ⟨slot.sequence + 1, slot.received,
    (range (plan.sentSources generation)).filter fun j => !slot.has j⟩, ?_,
    ⟨rfl, rfl, rfl, ⟨h.sources, h.repairs, h.width, h.seen, h.received, h.nodup, h.sent⟩⟩,
    h.received_le, pairwise_lt_range.filter _, fun esi hesi => ?_⟩
  · rw [reportOf, checkedAdd_of_le (by omega), some_bind, EpochPlan.sentSourceCount_eq hg,
      some_bind, toU8_of_lt (lt_of_le_of_lt h.received_le h256), some_bind, hsources, some_bind,
      map_id]
    rfl
  · exact mem_range.mp (mem_filter.mp hesi).1

end Slots

/-- A live generation: inside the epoch, not done, and short of `k` symbols. -/
structure Live (state : Epoch) (generation : ℕ) (slot : Generation) : Prop where
  holds : state.plan.holds generation = true
  running : state.isDone generation = some false
  filled : ∃ esis, Filled state.plan generation esis slot
  short : slot.received < state.plan.geometry.sourceCount

/-- The tables and counters agree. -/
structure Accounted (receiver : Receiver) : Prop where
  mapped : ∀ epoch state, receiver.epochs.get? epoch = some state → state.Mapped
  live : ∀ epoch state generation slot, receiver.epochs.get? epoch = some state →
    state.live.get? generation = some slot → Live state generation slot
  active : receiver.counters.activeGenerations = receiver.epochs.total fun state => state.live.size
  unretired : receiver.counters.unretiredBytes =
    receiver.epochs.total fun state => state.live.size * state.plan.generationBytes
  bounded : receiver.counters.unretiredBytes ≤ u64Max
  work : ∀ credit, receiver.creditHeld = some credit →
    receiver.decodeWorkSpent ≤ credit.maxDecodeWork

/-- How a symbol is counted: its generation is live already, or is opened within the credit. -/
inductive Admitted (receiver : Receiver) (credit : Credit) (state : Epoch) (generation : ℕ) :
    Counters → Bool → Prop where
  | live (slot : Generation) (present : state.live.get? generation = some slot) :
      Admitted receiver credit state generation receiver.counters false
  | opened (absent : state.live.get? generation = none)
      (active : receiver.counters.activeGenerations < credit.maxActiveGenerations)
      (bytes : receiver.counters.unretiredBytes + state.plan.generationBytes ≤
        credit.maxUnretiredBytes) :
      Admitted receiver credit state generation
        ⟨receiver.counters.activeGenerations + 1,
          receiver.counters.unretiredBytes + state.plan.generationBytes⟩ true

inductive Ending (plan : EpochPlan) (generation : ℕ) : Symbol → Prop where
  | decoded (offset : ℕ) (bytes : Bytes) :
      Ending plan generation (.decoded ⟨generation, offset, bytes⟩)
  | abandoned (report : Report) (reported : Reported plan generation report) :
      Ending plan generation (.abandoned generation report)

/-- A generation as the next symbol finds it. -/
def Epoch.slot (state : Epoch) (generation : ℕ) : Generation :=
  (state.live.get? generation).getD
    (.new state.plan.geometry (state.plan.sentSources generation))

/-- With one more symbol in hand the generation still lacks a source it was sent. -/
def Receiver.eliminates (receiver : Receiver) (epoch generation esi : ℕ) : Bool :=
  match receiver.epochs.get? epoch with
  | none => false
  | some state =>
    !(List.range (state.plan.sentSources generation)).all fun j =>
      (state.slot generation).has j || decide (j = esi)

/-- The decode work of a symbol: its generation, when it is decoded by elimination. -/
def Receiver.charge (receiver : Receiver) (epoch generation esi : ℕ) : Symbol → ℕ
  | .decoded _ =>
    if receiver.eliminates epoch generation esi then
      ((receiver.epochs.get? epoch).map fun state => state.plan.generationBytes).getD 0
    else 0
  | _ => 0

inductive SymbolStep (receiver : Receiver) (epoch generation esi : ℕ) :
    Receiver → Symbol → Prop where
  | dropped (reason : Drop) : SymbolStep receiver epoch generation esi receiver (.dropped reason)
  | stored (credit : Credit) (state : Epoch) (counters : Counters) (first : Bool)
      (slot : Generation) (held : receiver.creditHeld = some credit)
      (known : receiver.epochs.get? epoch = some state)
      (counted : Admitted receiver credit state generation counters first)
      (live : Live state generation slot)
      (numbered : slot.sequence = (state.slot generation).sequence) :
      SymbolStep receiver epoch generation esi
        { receiver with
          counters
          epochs := receiver.epochs.insert epoch
            { state with live := state.live.insert generation slot } }
        (.stored first)
  | ended (credit : Credit) (state : Epoch) (counters : Counters) (first : Bool) (spent : ℕ)
      (answer : Symbol) (held : receiver.creditHeld = some credit)
      (known : receiver.epochs.get? epoch = some state)
      (counted : Admitted receiver credit state generation counters first)
      (holds : state.plan.holds generation = true)
      (running : state.isDone generation = some false)
      (charged : spent = receiver.decodeWorkSpent + receiver.charge epoch generation esi answer)
      (covered : spent = receiver.decodeWorkSpent ∨ spent ≤ credit.maxDecodeWork)
      (ending : Ending state.plan generation answer) :
      SymbolStep receiver epoch generation esi
        ({ receiver with counters, decodeWorkSpent := spent }.ended epoch state generation) answer

/-- The answer to a symbol is one of those above; only a generation that has reported `u64::MAX`
times can make it panic. -/
def SymbolSteps (receiver : Receiver) (epoch generation esi : ℕ) (slot : Generation)
    (result : Option (Receiver × Symbol)) : Prop :=
  (∃ receiver' answer, result = some (receiver', answer) ∧
    SymbolStep receiver epoch generation esi receiver' answer) ∨
  result = none ∧ u64Max ≤ slot.sequence

variable {counters' : Counters}

section Symbol

variable {receiver : Receiver} {epoch generation esi : ℕ} {bytes : Bytes} {credit : Credit}
  {state : Epoch} {counters : Counters} {first : Bool} {slot : Generation} {esis : List ℕ}

theorem admitSymbol_cases (plan : EpochPlan) (generation esi : ℕ) (bytes : Bytes) :
    (∃ reason, admitSymbol plan generation esi bytes = some (.error reason)) ∨
      admitSymbol plan generation esi bytes = some (.ok (plan.sentSources generation)) ∧
      bytes.length = plan.geometry.symbolLength ∧ plan.holds generation = true ∧
      esi ∈ sentEsis plan generation := by
  by_cases hlength : bytes.length = plan.geometry.symbolLength
  swap
  · exact .inl ⟨_, if_pos hlength⟩
  by_cases hesi : esi < plan.geometry.symbolCount
  swap
  · exact .inl ⟨.esiOutOfRange, by simp [admitSymbol, hlength, not_lt.mp hesi]⟩
  by_cases hg : plan.holds generation = true
  swap
  · exact .inl ⟨.generationPastEpoch, by simp [admitSymbol, hlength, not_le.mpr hesi, hg]⟩
  by_cases hzero : esi < plan.geometry.sourceCount ∧ plan.sentSources generation ≤ esi
  · exact .inl ⟨.zeroSource, by
      simp [admitSymbol, hlength, not_le.mpr hesi, hg, EpochPlan.sentSourceCount_eq hg, hzero]⟩
  · refine .inr ⟨?_, hlength, hg, mem_sentEsis.mpr (by omega)⟩
    simp [admitSymbol, hlength, not_le.mpr hesi, hg, EpochPlan.sentSourceCount_eq hg, hzero]

theorem admitGeneration_eq {n : ℕ} (h : counters.admitGeneration credit n = some counters') :
    counters.activeGenerations < credit.maxActiveGenerations ∧
      counters.unretiredBytes + n ≤ credit.maxUnretiredBytes ∧
      counters' = ⟨counters.activeGenerations + 1, counters.unretiredBytes + n⟩ := by
  rw [Counters.admitGeneration, Option.bind_eq_bind, Option.bind_eq_some_iff] at h
  obtain ⟨total, htotal, h⟩ := h
  obtain ⟨-, rfl⟩ := checkedAdd_eq_some.mp htotal
  split_ifs at h with hover
  obtain rfl := Option.some.inj h
  exact ⟨by omega, by omega, rfl⟩

variable {plan : EpochPlan}

theorem reportOf_exhausted (h : u64Max ≤ slot.sequence) : reportOf plan generation slot = none := by
  have hadd : checkedAdd slot.sequence 1 = none := by
    rw [checkedAdd, if_neg (by omega)]
  rw [reportOf, hadd]
  rfl

theorem assemble_eq (hg : plan.holds generation = true) (sources : Bytes) :
    ∃ offset out, assemble plan generation sources = some ⟨generation, offset, out⟩ := by
  rw [assemble, EpochPlan.generationSpan_eq hg]
  exact ⟨_, _, rfl⟩

theorem eliminates_eq {slot' : Generation} (hknown : receiver.epochs.get? epoch = some state)
    (hslot : state.slot generation = slot) (hfilled : Filled state.plan generation esis slot)
    (hfilled' : Filled state.plan generation (esis ++ [esi]) slot') :
    receiver.eliminates epoch generation esi =
      !slot'.hasSources (state.plan.sentSources generation) := by
  simp only [Receiver.eliminates, hknown, hslot, Generation.hasSources]
  congr 1
  rw [Bool.eq_iff_iff, all_eq_true, all_eq_true]
  refine forall₂_congr fun j hj => ?_
  have hlt : j < state.plan.geometry.symbolCount :=
    (mem_range.mp hj).trans_le
      ((state.plan.sentSources_le generation).trans (Nat.le_add_right _ _))
  rw [hfilled.seen j hlt, hfilled'.seen j hlt]
  simp

variable [Gf.Simd] (hheld : receiver.creditHeld = some credit)
  (hknown : receiver.epochs.get? epoch = some state) (hmapped : state.Mapped)
  (hholds : state.plan.holds generation = true) (hrunning : state.isDone generation = some false)
  (hcounted : Admitted receiver credit state generation counters first)
  (hactive : 0 < counters.activeGenerations)
  (hbytes : state.plan.generationBytes ≤ counters.unretiredBytes)
include hheld hknown hmapped hholds hrunning hcounted hactive hbytes

/-- A generation with `k` symbols in hand ends, unless its reports ran out of numbers. -/
theorem complete_step (hfilled : Filled state.plan generation esis slot)
    (hk : slot.received = state.plan.geometry.sourceCount)
    (hlacks : receiver.eliminates epoch generation esi =
      !slot.hasSources (state.plan.sentSources generation)) :
    SymbolSteps receiver epoch generation esi slot (Receiver.complete { receiver with counters }
      credit epoch state generation (state.plan.sentSources generation) slot) := by
  have hretire : ∀ spent, { receiver with counters, decodeWorkSpent := spent }.retire epoch state
      generation = some ({ receiver with counters, decodeWorkSpent := spent }.ended epoch state
        generation) := fun spent => Receiver.retire_ended (hmapped.lt hholds) hactive hbytes
  by_cases hhas : slot.hasSources (state.plan.sentSources generation) = true
  · obtain ⟨offset, out, hassemble⟩ := assemble_eq hholds slot.sources
    refine .inl ⟨_, _, ?_, .ended credit state counters first receiver.decodeWorkSpent _ hheld
      hknown hcounted hholds hrunning ?_ (.inl rfl) (.decoded offset out)⟩
    swap
    · simp [Receiver.charge, hlacks, hhas]
    have hsame := hretire receiver.decodeWorkSpent
    simp only [Receiver.complete, if_pos hhas, hsame, some_bind, hassemble]
    rfl
  · cases hspent : (checkedAdd receiver.decodeWorkSpent state.plan.generationBytes).filter
        (fun spent => decide (spent ≤ credit.maxDecodeWork)) with
    | none =>
      by_cases hsequence : slot.sequence < u64Max
      swap
      · refine .inr ⟨?_, not_lt.mp hsequence⟩
        simp only [Receiver.complete, if_neg hhas, hspent]
        rw [reportOf_exhausted (not_lt.mp hsequence)]
        rfl
      obtain ⟨slot', report, hreport, -, hreported⟩ := hfilled.report hholds hsequence
      refine .inl ⟨_, _, ?_, .ended credit state counters first receiver.decodeWorkSpent _ hheld
        hknown hcounted hholds hrunning rfl (.inl rfl) (.abandoned report hreported)⟩
      have hsame := hretire receiver.decodeWorkSpent
      simp only [Receiver.complete, if_neg hhas, hspent, hreport, hsame, some_bind]
      rfl
    | some =>
      obtain ⟨hadd, hle⟩ := Option.filter_eq_some_iff.mp hspent
      obtain ⟨-, rfl⟩ := checkedAdd_eq_some.mp hadd
      obtain ⟨slot', heliminate⟩ := hfilled.eliminate_ok hk
      obtain ⟨offset, out, hassemble⟩ := assemble_eq hholds slot'.sources
      refine .inl ⟨_, _, ?_, .ended credit state counters first _ _ hheld hknown hcounted hholds
        hrunning ?_ (.inr (by simpa using hle)) (.decoded offset out)⟩
      swap
      · simp [Receiver.charge, hlacks, hhas, hknown]
      simp only [Receiver.complete, if_neg hhas, hspent, heliminate, hretire, some_bind, hassemble]
      rfl

theorem accept_step (hslot : state.slot generation = slot)
    (hfilled : Filled state.plan generation esis slot)
    (hshort : slot.received < state.plan.geometry.sourceCount)
    (hlength : bytes.length = state.plan.geometry.symbolLength)
    (hsent : esi ∈ sentEsis state.plan generation) (hnew : esi ∉ esis) :
    SymbolSteps receiver epoch generation esi slot (Receiver.accept { receiver with counters }
      credit epoch state generation (state.plan.sentSources generation) slot first esi bytes) := by
  obtain ⟨slot', hstore, hsame, hfilled'⟩ := hfilled.store hsent hnew hlength
  have hreceived : slot'.received = slot.received + 1 := by
    rw [hfilled'.received, hfilled.received, length_append, length_singleton]
    omega
  by_cases hmore : slot'.received < state.plan.geometry.sourceCount
  · refine .inl ⟨_, _, ?_, .stored credit state counters first slot' hheld hknown hcounted
      ⟨hholds, hrunning, ⟨_, hfilled'⟩, hmore⟩ (by rw [hsame, hslot])⟩
    simp only [Receiver.accept, hstore, some_bind, if_pos hmore]
    rfl
  · have hcomplete := complete_step hheld hknown hmapped hholds hrunning hcounted hactive hbytes
      hfilled' (by omega) (eliminates_eq hknown hslot hfilled hfilled')
    simp only [Receiver.accept, hstore, some_bind, if_neg hmore]
    unfold SymbolSteps at hcomplete ⊢
    rwa [hsame] at hcomplete

end Symbol

variable {slot : Generation}

section Totals

variable {receiver : Receiver} {epoch generation : ℕ} {state : Epoch}

theorem total_le {m : OrderedMap ℕ Epoch} (h : m.get? epoch = some state) (f : Epoch → ℕ) :
    f state ≤ m.total f := by
  rw [total_of_some h]
  exact Nat.le_add_right _ _

theorem Accounted.counted (h : Accounted receiver) (hknown : receiver.epochs.get? epoch = some state)
    (hlive : state.live.get? generation = some slot) :
    0 < receiver.counters.activeGenerations ∧
      state.plan.generationBytes ≤ receiver.counters.unretiredBytes := by
  have hsize : 0 < state.live.size := by
    rw [size_eq_total, total_of_some hlive]
    omega
  rw [h.active, h.unretired]
  exact ⟨hsize.trans_le (total_le hknown fun state => state.live.size),
    (Nat.le_mul_of_pos_left _ hsize).trans
      (total_le hknown fun state => state.live.size * state.plan.generationBytes)⟩

end Totals

/-- Some live generation has reported `u64::MAX` times. -/
def Exhausted (receiver : Receiver) : Prop :=
  ∃ epoch state generation slot, receiver.epochs.get? epoch = some state ∧
    state.live.get? generation = some slot ∧ u64Max ≤ slot.sequence

theorem Accounted.symbol_step [Gf.Simd] {receiver : Receiver} (h : Accounted receiver)
    (epoch generation esi : ℕ) (bytes : Bytes) :
    (∃ receiver' answer, receiver.symbol epoch generation esi bytes = some (receiver', answer) ∧
      SymbolStep receiver epoch generation esi receiver' answer) ∨
    receiver.symbol epoch generation esi bytes = none ∧ Exhausted receiver := by
  have hdrop : ∀ reason, receiver.symbol epoch generation esi bytes =
      some (receiver, .dropped reason) → (∃ receiver' answer,
        receiver.symbol epoch generation esi bytes = some (receiver', answer) ∧
        SymbolStep receiver epoch generation esi receiver' answer) ∨
      receiver.symbol epoch generation esi bytes = none ∧ Exhausted receiver :=
    fun reason heq => .inl ⟨_, _, heq, .dropped reason⟩
  cases hheld : receiver.creditHeld with
  | none => exact hdrop .noCredit (by simp [Receiver.symbol, hheld])
  | some credit =>
  cases hknown : receiver.epochs.get? epoch with
  | none => exact hdrop .unknownEpoch (by simp [Receiver.symbol, hheld, hknown])
  | some state =>
  rcases admitSymbol_cases state.plan generation esi bytes with
    ⟨reason, haccepts⟩ | ⟨haccepts, hlength, hholds, hsent⟩
  · exact hdrop reason (by simp [Receiver.symbol, hheld, hknown, haccepts])
  have hmapped := h.mapped epoch state hknown
  obtain ⟨done, hdone⟩ := hmapped.isDone_eq hholds
  cases done with
  | true => exact hdrop .generationDone (by simp [Receiver.symbol, hheld, hknown, haccepts, hdone])
  | false =>
  cases hlive : state.live.get? generation with
  | some slot =>
    obtain ⟨-, -, ⟨esis, hfilled⟩, hshort⟩ := h.live epoch state generation slot hknown hlive
    have hhas := hfilled.seen esi (lt_symbolCount hsent)
    by_cases hnew : esi ∈ esis
    · rw [decide_eq_true hnew] at hhas
      exact hdrop .duplicate
        (by simp [Receiver.symbol, hheld, hknown, haccepts, hdone, hlive, hhas])
    · rw [decide_eq_false hnew] at hhas
      obtain ⟨hactive, hbytes⟩ := h.counted hknown hlive
      have haccept := accept_step hheld hknown hmapped hholds hdone (.live slot hlive) hactive hbytes
        (by rw [Epoch.slot, hlive]; rfl) hfilled hshort hlength hsent hnew
      have hsymbol : receiver.symbol epoch generation esi bytes = receiver.accept credit epoch
          state generation (state.plan.sentSources generation) slot false esi bytes := by
        simp [Receiver.symbol, hheld, hknown, haccepts, hdone, hlive, hhas]
      rw [hsymbol]
      exact haccept.imp_right fun hpanic =>
        ⟨hpanic.1, epoch, state, generation, slot, hknown, hlive, hpanic.2⟩
  | none =>
    cases hcounters : receiver.counters.admitGeneration credit state.plan.generationBytes with
    | none =>
      exact hdrop .pastCredit
        (by simp [Receiver.symbol, hheld, hknown, haccepts, hdone, hlive, hcounters])
    | some =>
      obtain ⟨hactive, hbytes, rfl⟩ := admitGeneration_eq hcounters
      have hfilled := Filled.new state.plan generation
      have hshort : (Generation.new state.plan.geometry
          (state.plan.sentSources generation)).received < state.plan.geometry.sourceCount := by
        have h1 := EpochPlan.sentSources_pos hholds
        have h2 := state.plan.geometry.source_pos
        rw [hfilled.received, length_nil]
        omega
      have haccept := accept_step hheld hknown hmapped hholds hdone (.opened hlive hactive hbytes)
        (Nat.succ_pos _) (Nat.le_add_left _ _) (by rw [Epoch.slot, hlive]; rfl) hfilled hshort hlength
        hsent (by simp)
      rcases haccept with ⟨receiver', answer, heq, hstep⟩ | ⟨-, hcon⟩
      · refine .inl ⟨receiver', answer, ?_, hstep⟩
        simpa [Receiver.symbol, hheld, hknown, haccepts, hdone, hlive, hcounters] using heq
      · simp [Generation.new, u64Max] at hcon

section Preserve

variable {receiver receiver' : Receiver} {epoch generation : ℕ} {state : Epoch} {credit : Credit}
  {counters : Counters} {first : Bool}

/-- Counters that count one generation of an epoch as live, and otherwise what is live. -/
structure Counting (receiver : Receiver) (epoch : ℕ) (state : Epoch) (generation : ℕ)
    (counters : Counters) : Prop where
  active : counters.activeGenerations =
    (receiver.epochs.erase epoch).total (fun s => s.live.size) +
      (1 + (state.live.erase generation).size)
  unretired : counters.unretiredBytes =
    (receiver.epochs.erase epoch).total (fun s => s.live.size * s.plan.generationBytes) +
      (1 + (state.live.erase generation).size) * state.plan.generationBytes
  bounded : counters.unretiredBytes ≤ u64Max

section

variable (h : Accounted receiver)
include h

section

variable (hknown : receiver.epochs.get? epoch = some state)
include hknown

theorem Accounted.counted_live
    (hlive : state.live.get? generation = some slot) :
    Counting receiver epoch state generation receiver.counters := by
  have hsize : state.live.size = 1 + (state.live.erase generation).size := by
    rw [size_eq_total, size_eq_total, total_of_some hlive]
  refine ⟨?_, ?_, h.bounded⟩
  · rw [h.active, total_of_some hknown, hsize, add_comm]
  · rw [h.unretired, total_of_some hknown, hsize, add_comm]

omit hknown in
omit h in
theorem Admitted.counted (hcounted : Admitted receiver credit state generation counters first)
    (h : Accounted receiver) (hknown : receiver.epochs.get? epoch = some state) :
    Counting receiver epoch state generation counters := by
  cases hcounted with
  | live slot present => exact h.counted_live hknown present
  | opened absent active bytes =>
    have herase := erase_of_none absent
    refine ⟨?_, ?_, bytes.trans credit.unretired_le⟩
    · simp only [h.active, total_of_some hknown, herase]
      omega
    · simp only [h.unretired, total_of_some hknown, herase, add_mul, one_mul]
      omega

omit hknown in
theorem Accounted.insert (epoch : ℕ) (state' : Epoch)
    {spent : ℕ} (hmapped : state'.Mapped)
    (hlive : ∀ generation slot, state'.live.get? generation = some slot → Live state' generation slot)
    (hactive : counters'.activeGenerations =
      (receiver.epochs.erase epoch).total (fun s => s.live.size) + state'.live.size)
    (hunretired : counters'.unretiredBytes = (receiver.epochs.erase epoch).total
      (fun s => s.live.size * s.plan.generationBytes) +
        state'.live.size * state'.plan.generationBytes)
    (hbounded : counters'.unretiredBytes ≤ u64Max)
    (hwork : ∀ credit, receiver.creditHeld = some credit → spent ≤ credit.maxDecodeWork) :
    Accounted { receiver with
      counters := counters'
      decodeWorkSpent := spent
      epochs := receiver.epochs.insert epoch state' } := by
  refine ⟨fun epoch' other hother => ?_, fun epoch' other g slot hother hslot => ?_, ?_, ?_,
    hbounded, hwork⟩
  · rcases get?_insert_eq_some.mp hother with ⟨-, rfl⟩ | ⟨-, hother⟩
    · exact hmapped
    · exact h.mapped epoch' other hother
  · rcases get?_insert_eq_some.mp hother with ⟨-, rfl⟩ | ⟨-, hother⟩
    · exact hlive g slot hslot
    · exact h.live epoch' other g slot hother hslot
  · simp only [total_insert, hactive, add_comm]
  · simp only [total_insert, hunretired, add_comm]

theorem Live.insert
    (hlive : Live state generation slot) :
    ∀ g other, (state.live.insert generation slot).get? g = some other →
      Live { state with live := state.live.insert generation slot } g other := by
  intro g other hget
  rcases get?_insert_eq_some.mp hget with ⟨rfl, rfl⟩ | ⟨-, hget⟩
  · exact ⟨hlive.holds, hlive.running, hlive.filled, hlive.short⟩
  · obtain ⟨h1, h2, h3, h4⟩ := h.live epoch state g other hknown hget
    exact ⟨h1, h2, h3, h4⟩

omit hknown in
omit h in
theorem Epoch.Mapped.marked (h : state.Mapped) (generation : ℕ) : (state.marked generation).Mapped := by
  have hlength : (state.marked generation).done.length = state.done.length := by simp [Epoch.marked]
  exact hlength.trans h

theorem Live.marked :
    ∀ g other, (state.marked generation).live.get? g = some other →
      Live (state.marked generation) g other := by
  intro g other hget
  obtain ⟨heq, hget⟩ := get?_erase_eq_some.mp hget
  obtain ⟨h1, h2, h3, h4⟩ := h.live epoch state g other hknown hget
  exact ⟨h1, (Epoch.isDone_marked_of_ne heq).trans h2, h3, h4⟩

theorem Accounted.stored
    (hlive : Live state generation slot)
    (hcounted : Counting receiver epoch state generation counters) :
    Accounted { receiver with
      counters
      epochs := receiver.epochs.insert epoch
        { state with live := state.live.insert generation slot } } := by
  have hsize : (state.live.insert generation slot).size =
      1 + (state.live.erase generation).size := by
    rw [size_eq_total, size_eq_total, total_insert]
  refine h.insert epoch { state with live := state.live.insert generation slot }
    (h.mapped epoch state hknown) (hlive.insert h hknown) ?_ ?_ hcounted.bounded h.work
  · rw [hcounted.active, hsize]
  · rw [hcounted.unretired, hsize]

theorem Accounted.ended
    (hcounted : Counting receiver epoch state generation counters) {spent : ℕ}
    (hwork : ∀ credit, receiver.creditHeld = some credit → spent ≤ credit.maxDecodeWork) :
    Accounted ({ receiver with counters, decodeWorkSpent := spent }.ended epoch state generation) := by
  refine h.insert epoch (state.marked generation) ((h.mapped epoch state hknown).marked generation)
    (Live.marked h hknown) ?_ ?_ ((Nat.sub_le _ _).trans hcounted.bounded) hwork
  · simp only [hcounted.active, Epoch.marked]
    omega
  · simp only [hcounted.unretired, Epoch.marked, add_mul, one_mul]
    omega

end

end

theorem SymbolStep.accounted {answer : Symbol}
    (hstep : SymbolStep receiver epoch generation esi receiver' answer) (h : Accounted receiver) :
    Accounted receiver' := by
  cases hstep with
  | dropped => exact h
  | stored credit state counters first slot held known counted live =>
    exact h.stored known live (counted.counted h known)
  | ended credit state counters first spent answer held known counted holds running charged
      covered ending =>
    refine h.ended known (counted.counted h known) fun other hother => ?_
    obtain rfl := Option.some.inj (held.symm.trans hother)
    rcases covered with hsame | hle
    · exact hsame.le.trans (h.work credit held)
    · exact hle

end Preserve

end ObjectTransfer.Fec
