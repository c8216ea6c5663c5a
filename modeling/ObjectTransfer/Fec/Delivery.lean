import ObjectTransfer.Fec.Calls

/-! # Delivery of one generation

Whatever symbols of a generation arrive, in whatever order and however often, the receiver
holds the distinct ones until there are `k`, zero sources included, and then answers with the
bytes the sender encoded.
-/

namespace ObjectTransfer.Fec
open Foundations List

section Delivery

variable [Gf.Simd]

/-- The receivers that the symbols `arrivals` lead to, each in turn. -/
def Receiver.deliver (receiver : Receiver) (epoch generation : ℕ) (arrivals : List (ℕ × Bytes)) :
    Option Receiver :=
  arrivals.foldlM (fun receiver p => (receiver.symbol epoch generation p.1 p.2).map Prod.fst)
    receiver

/-- Room under the credit for one more generation and its elimination. -/
structure EnoughCredit (credit : Credit) (receiver : Receiver) (plan : EpochPlan) : Prop where
  held : receiver.creditHeld = some credit
  active : receiver.counters.activeGenerations < credit.maxActiveGenerations
  bytes : receiver.counters.unretiredBytes + plan.generationBytes ≤ credit.maxUnretiredBytes
  work : receiver.decodeWorkSpent + plan.generationBytes ≤ credit.maxDecodeWork

variable {plan : EpochPlan} {epoch generation : ℕ} {bytes : Bytes} {credit : Credit}
  {receiver : Receiver} {esis : List ℕ} {esi : ℕ}

def Finished (plan : EpochPlan) (epoch generation : ℕ) (receiver : Receiver) : Prop :=
  ∃ credit state, receiver.creditHeld = some credit ∧ receiver.epochs.get? epoch = some state ∧
    state.plan = plan ∧ state.isDone generation = some true

/-- The generation is counted and there is work left to eliminate it. -/
structure Counted (plan : EpochPlan) (generation : ℕ) (credit : Credit) (receiver : Receiver)
    (state : Epoch) : Prop where
  held : receiver.creditHeld = some credit
  work : receiver.decodeWorkSpent + plan.generationBytes ≤ credit.maxDecodeWork
  active : 0 < receiver.counters.activeGenerations
  unretired : plan.generationBytes ≤ receiver.counters.unretiredBytes
  same : state.plan = plan
  running : state.isDone generation = some false

/-- What the receiver knows of the generation before the symbols in hand suffice: nothing before
the first symbol, the symbols `esis` after it. -/
inductive Assembling (plan : EpochPlan) (epoch generation : ℕ) (bytes : Bytes) (credit : Credit)
    (receiver : Receiver) : List ℕ → Prop where
  | fresh (state : Epoch) (room : EnoughCredit credit receiver plan)
      (known : receiver.epochs.get? epoch = some state) (same : state.plan = plan)
      (running : state.isDone generation = some false)
      (absent : state.live.get? generation = none) :
      Assembling plan epoch generation bytes credit receiver []
  | live (state : Epoch) (slot : Generation) (esis : List ℕ) (nonempty : esis ≠ [])
      (counted : Counted plan generation credit receiver state)
      (known : receiver.epochs.get? epoch = some state)
      (present : state.live.get? generation = some slot)
      (holding : Holding plan generation bytes esis slot) :
      Assembling plan epoch generation bytes credit receiver esis

variable (hg : plan.holds generation = true) (hlen : bytes.length = plan.spanBytes generation)
include hg hlen

theorem admitSymbol_eq (hsent : esi ∈ sentEsis plan generation) :
    admitSymbol plan generation esi (sentSymbol plan bytes esi) =
      some (.ok (plan.sentSources generation)) := by
  have hcount := lt_symbolCount hsent
  have hmem := mem_sentEsis.mp hsent
  rw [admitSymbol, if_neg (not_not.mpr (sentSymbol_length hlen esi)), if_neg (by omega),
    if_neg (not_not.mpr hg), EpochPlan.sentSourceCount_eq hg, some_bind, if_neg (by omega)]
  rfl

omit [Gf.Simd] in
theorem assemble_padded : assemble plan generation (padded plan bytes) =
    some ⟨generation, plan.offset + generation * plan.generationBytes, bytes⟩ := by
  rw [assemble, EpochPlan.generationSpan_eq hg, some_bind, padded, ← hlen, take_left]
  rfl

theorem Finished.symbol_eq (h : Finished plan epoch generation receiver)
    (hsent : esi ∈ sentEsis plan generation) :
    receiver.symbol epoch generation esi (sentSymbol plan bytes esi) =
      some (receiver, .dropped .generationDone) := by
  obtain ⟨credit, state, hcredit, hstate, rfl, hdone⟩ := h
  simp only [Receiver.symbol, hcredit, hstate, admitSymbol_eq hg hlen hsent, hdone, some_bind,
    if_true]
  rfl

variable {slot : Generation} {state : Epoch}

/-- `k` symbols in hand give the bytes. -/
theorem Counted.complete_eq (epoch : ℕ) (hcounted : Counted plan generation credit receiver state)
    (hholding : Holding plan generation bytes esis slot)
    (hk : slot.received = plan.geometry.sourceCount) :
    ∃ receiver', receiver.complete credit epoch state generation (plan.sentSources generation)
        slot = some (receiver', .decoded
          ⟨generation, plan.offset + generation * plan.generationBytes, bytes⟩) ∧
      Finished plan epoch generation receiver' := by
  obtain ⟨hcredit, hwork, hactive, hunretired, rfl, hopen⟩ := hcounted
  have hlt := Epoch.lt_of_isDone hopen
  have hretire : ∀ spent, { receiver with decodeWorkSpent := spent }.retire epoch state generation =
      some ({ receiver with decodeWorkSpent := spent }.ended epoch state generation) :=
    fun spent => Receiver.retire_ended hlt hactive hunretired
  have hfinished : ∀ spent, Finished state.plan epoch generation
      ({ receiver with decodeWorkSpent := spent }.ended epoch state generation) := fun spent =>
    ⟨credit, _, hcredit, OrderedMap.get?_insert_self, rfl, Epoch.isDone_marked hlt⟩
  by_cases hhas : slot.hasSources (state.plan.sentSources generation) = true
  · refine ⟨_, ?_, hfinished receiver.decodeWorkSpent⟩
    have hsame := hretire receiver.decodeWorkSpent
    simp only [Receiver.complete, if_pos hhas, hsame, some_bind,
      hholding.sources_eq hlen hhas, assemble_padded hg hlen]
    rfl
  · obtain ⟨slot', heliminate, hsources⟩ := hholding.eliminate_eq hlen hk
    have hspent : (checkedAdd receiver.decodeWorkSpent state.plan.generationBytes).filter
        (fun spent => decide (spent ≤ credit.maxDecodeWork)) =
        some (receiver.decodeWorkSpent + state.plan.generationBytes) := by
      rw [checkedAdd_of_le (hwork.trans credit.work_le)]
      simp [hwork]
    refine ⟨_, ?_, hfinished (receiver.decodeWorkSpent + state.plan.generationBytes)⟩
    simp only [Receiver.complete, if_neg hhas, hspent, heliminate, hretire, some_bind, hsources,
      assemble_padded hg hlen]
    rfl

/-- The symbols still needed after `n` distinct ones, zero sources counted, are not in hand yet. -/
def Incomplete (plan : EpochPlan) (generation n : ℕ) : Prop :=
  n + (plan.geometry.sourceCount - plan.sentSources generation) < plan.geometry.sourceCount

theorem Counted.accept_eq (epoch : ℕ) (hcounted : Counted plan generation credit receiver state)
    (hholding : Holding plan generation bytes esis slot) (hsent : esi ∈ sentEsis plan generation)
    (hnew : esi ∉ esis) (hneed : Incomplete plan generation esis.length) (first : Bool) :
    ∃ receiver' answer, receiver.accept credit epoch state generation
        (plan.sentSources generation) slot first esi (sentSymbol plan bytes esi) =
          some (receiver', answer) ∧
      (Incomplete plan generation (esis.length + 1) → answer = .stored first ∧
        Assembling plan epoch generation bytes credit receiver' (esis ++ [esi])) ∧
      (¬ Incomplete plan generation (esis.length + 1) → answer = .decoded
          ⟨generation, plan.offset + generation * plan.generationBytes, bytes⟩ ∧
        Finished plan epoch generation receiver') := by
  obtain rfl := hcounted.same
  obtain ⟨slot', hstore, hholding'⟩ := hholding.store hlen hsent hnew
  have hreceived := hholding'.received
  rw [length_append, length_singleton] at hreceived
  unfold Incomplete at hneed ⊢
  by_cases hmore : slot'.received < state.plan.geometry.sourceCount
  · let state' := { state with live := state.live.insert generation slot' }
    refine ⟨{ receiver with epochs := receiver.epochs.insert epoch state' }, .stored first, ?_,
      fun _ => ⟨rfl, ?_⟩, fun hcon => absurd hmore (by omega)⟩
    · simp only [Receiver.accept, hstore, some_bind, if_pos hmore]
      rfl
    · exact .live state' slot' _ (by simp) ⟨hcounted.held, hcounted.work, hcounted.active,
        hcounted.unretired, hcounted.same, hcounted.running⟩ OrderedMap.get?_insert_self
        OrderedMap.get?_insert_self hholding'
  · obtain ⟨receiver', hcomplete, hfinished⟩ :=
      hcounted.complete_eq hg hlen epoch hholding' (by omega)
    refine ⟨receiver', _, ?_, fun hcon => absurd hcon (by omega), fun _ => ⟨rfl, hfinished⟩⟩
    simp only [Receiver.accept, hstore, some_bind, if_neg hmore, hcomplete]

theorem Assembling.symbol_repeat
    (h : Assembling plan epoch generation bytes credit receiver esis) (hesi : esi ∈ esis) :
    receiver.symbol epoch generation esi (sentSymbol plan bytes esi) =
      some (receiver, .dropped .duplicate) := by
  cases h with
  | fresh => simp at hesi
  | live state slot esis nonempty counted known present holding =>
    have hsent := holding.sent esi hesi
    have hhas := holding.seen esi (lt_symbolCount hsent)
    rw [decide_eq_true hesi] at hhas
    obtain ⟨hheld, -, -, -, rfl, hrunning⟩ := counted
    simp only [Receiver.symbol, hheld, known, admitSymbol_eq hg hlen hsent, hrunning, some_bind,
      present, hhas, if_true]
    rfl

theorem Assembling.symbol_new (h : Assembling plan epoch generation bytes credit receiver esis)
    (hsent : esi ∈ sentEsis plan generation) (hnew : esi ∉ esis)
    (hneed : Incomplete plan generation esis.length) :
    ∃ receiver' answer, receiver.symbol epoch generation esi (sentSymbol plan bytes esi) =
          some (receiver', answer) ∧
      (Incomplete plan generation (esis.length + 1) → answer = .stored (decide (esis = [])) ∧
        Assembling plan epoch generation bytes credit receiver' (esis ++ [esi])) ∧
      (¬ Incomplete plan generation (esis.length + 1) → answer = .decoded
          ⟨generation, plan.offset + generation * plan.generationBytes, bytes⟩ ∧
        Finished plan epoch generation receiver') := by
  cases h with
  | fresh state room known same running absent =>
    have hadmit : receiver.counters.admitGeneration credit plan.generationBytes =
        some ⟨receiver.counters.activeGenerations + 1,
          receiver.counters.unretiredBytes + plan.generationBytes⟩ := by
      have h1 := room.active
      have h2 := room.bytes
      rw [Counters.admitGeneration, checkedAdd_of_le (h2.trans credit.unretired_le), some_bind,
        if_neg (by omega)]
      rfl
    have hcounted : Counted plan generation credit { receiver with counters :=
        ⟨receiver.counters.activeGenerations + 1,
          receiver.counters.unretiredBytes + plan.generationBytes⟩ } state :=
      ⟨room.held, room.work, Nat.succ_pos _, Nat.le_add_left _ _, same, running⟩
    obtain ⟨receiver', answer, haccept, hrest⟩ := hcounted.accept_eq hg hlen epoch
      (Holding.new plan generation bytes) hsent hnew hneed true
    refine ⟨receiver', answer, ?_, hrest⟩
    subst same
    simp only [room.held] at haccept
    simp only [Receiver.symbol, room.held, known, admitSymbol_eq hg hlen hsent, running, some_bind,
      absent, hadmit, haccept, Bool.false_eq_true, if_false]
  | live state slot esis nonempty counted known present holding =>
    have hhas := holding.seen esi (lt_symbolCount hsent)
    rw [decide_eq_false hnew] at hhas
    obtain ⟨receiver', answer, haccept, hrest⟩ := counted.accept_eq hg hlen epoch
      holding hsent hnew hneed false
    rw [decide_eq_false nonempty]
    refine ⟨receiver', answer, ?_, hrest⟩
    obtain ⟨hheld, -, -, -, rfl, hrunning⟩ := counted
    simp only [Receiver.symbol, hheld, known, admitSymbol_eq hg hlen hsent, hrunning, some_bind,
      present, hhas, haccept, Bool.false_eq_true, if_false]

/-- What the receiver knows of the generation after some symbols. -/
def Progress (plan : EpochPlan) (epoch generation : ℕ) (bytes : Bytes) (credit : Credit)
    (arrivals : List (ℕ × Bytes)) (receiver : Receiver) : Prop :=
  (∃ esis, Assembling plan epoch generation bytes credit receiver esis ∧ esis.Nodup ∧
    esis.toFinset = (arrivals.map Prod.fst).toFinset ∧ Incomplete plan generation esis.length) ∨
  Finished plan epoch generation receiver ∧
    ¬ Incomplete plan generation (arrivals.map Prod.fst).toFinset.card

/-- The answer to a symbol that comes after `arrivals`, and whether it leaves the receiver as it
is. -/
structure Answered (plan : EpochPlan) (generation : ℕ) (bytes : Bytes)
    (arrivals : List (ℕ × Bytes)) (esi : ℕ) (before after : Receiver) (answer : Symbol) :
    Prop where
  late : ¬ Incomplete plan generation (arrivals.map Prod.fst).toFinset.card →
    answer = .dropped .generationDone ∧ after = before
  repeated : Incomplete plan generation (arrivals.map Prod.fst).toFinset.card →
    esi ∈ arrivals.map Prod.fst → answer = .dropped .duplicate ∧ after = before
  stored : Incomplete plan generation ((arrivals.map Prod.fst).toFinset.card + 1) →
    esi ∉ arrivals.map Prod.fst → answer = .stored (decide (arrivals = []))
  last : Incomplete plan generation (arrivals.map Prod.fst).toFinset.card →
    ¬ Incomplete plan generation ((arrivals.map Prod.fst).toFinset.card + 1) →
    esi ∉ arrivals.map Prod.fst → answer = .decoded
      ⟨generation, plan.offset + generation * plan.generationBytes, bytes⟩

variable {arrivals : List (ℕ × Bytes)}

theorem Progress.symbol (h : Progress plan epoch generation bytes credit arrivals receiver)
    (hsent : esi ∈ sentEsis plan generation) :
    ∃ receiver' answer, receiver.symbol epoch generation esi (sentSymbol plan bytes esi) =
        some (receiver', answer) ∧
      Progress plan epoch generation bytes credit
        (arrivals ++ [(esi, sentSymbol plan bytes esi)]) receiver' ∧
      Answered plan generation bytes arrivals esi receiver receiver' answer := by
  have hmono : ∀ n, Incomplete plan generation (n + 1) → Incomplete plan generation n := by
    intro n hn
    unfold Incomplete at hn ⊢
    omega
  have hset : ((arrivals ++ [(esi, sentSymbol plan bytes esi)]).map Prod.fst).toFinset =
      insert esi (arrivals.map Prod.fst).toFinset := by
    ext e
    simp
  rcases h with ⟨esis, hassembling, hnodup, hesis, hneed⟩ | ⟨hfinished, hdone⟩
  · have hcard : (arrivals.map Prod.fst).toFinset.card = esis.length := by
      rw [← hesis, toFinset_card_of_nodup hnodup]
    have hmem : esi ∈ arrivals.map Prod.fst ↔ esi ∈ esis := by
      rw [← mem_toFinset, ← hesis, mem_toFinset]
    have hempty : esis = [] ↔ arrivals = [] := by
      rw [← length_eq_zero_iff, ← hcard, Finset.card_eq_zero, toFinset_eq_empty_iff, map_eq_nil_iff]
    rw [← hcard] at hneed
    by_cases hesi : esi ∈ esis
    · refine ⟨receiver, _, hassembling.symbol_repeat hg hlen hesi, .inl ⟨esis, hassembling, hnodup,
        ?_, hcard ▸ hneed⟩, ⟨fun hcon => absurd hneed hcon, fun _ _ => ⟨rfl, rfl⟩,
        fun _ hcon => absurd (hmem.mpr hesi) hcon, fun _ _ hcon => absurd (hmem.mpr hesi) hcon⟩⟩
      rw [hset, Finset.insert_eq_of_mem (by simpa using hmem.mpr hesi), hesis]
    · obtain ⟨receiver', answer, hsymbol, hmore, hlast⟩ :=
        hassembling.symbol_new hg hlen hsent hesi (hcard ▸ hneed)
      rw [← hcard] at hmore hlast
      refine ⟨receiver', answer, hsymbol, ?_, ⟨fun hcon => absurd hneed hcon,
        fun _ hcon => absurd (hmem.mp hcon) hesi, fun hmore' _ => ?_, fun _ hlast' _ => ?_⟩⟩
      · have hcard' : (insert esi (arrivals.map Prod.fst).toFinset).card =
            (arrivals.map Prod.fst).toFinset.card + 1 :=
          Finset.card_insert_of_notMem (by simpa using mt hmem.mp hesi)
        by_cases hmore' : Incomplete plan generation ((arrivals.map Prod.fst).toFinset.card + 1)
        · refine .inl ⟨esis ++ [esi], (hmore hmore').2, ?_, ?_, ?_⟩
          · rw [nodup_append_comm, singleton_append, nodup_cons]
            exact ⟨hesi, hnodup⟩
          · rw [hset, toFinset_append, hesis, Finset.union_comm]
            rfl
          · rwa [length_append, ← hcard]
        · refine .inr ⟨(hlast hmore').2, ?_⟩
          rwa [hset, hcard']
      · rw [(hmore hmore').1, decide_eq_decide.mpr hempty]
      · exact (hlast hlast').1
  · refine ⟨receiver, _, hfinished.symbol_eq hg hlen hsent, .inr ⟨hfinished, ?_⟩,
      ⟨fun _ => ⟨rfl, rfl⟩, fun hcon => absurd hcon hdone,
        fun hcon => absurd (hmono _ hcon) hdone, fun hcon => absurd hcon hdone⟩⟩
    rw [hset]
    have := Finset.card_le_card (Finset.subset_insert esi (arrivals.map Prod.fst).toFinset)
    unfold Incomplete at hdone ⊢
    omega

theorem Progress.deliver (hstart : Progress plan epoch generation bytes credit [] receiver)
    (harrivals : ∀ p ∈ arrivals, p.1 ∈ sentEsis plan generation ∧
      p.2 = sentSymbol plan bytes p.1) :
    ∃ receiver', receiver.deliver epoch generation arrivals = some receiver' ∧
      Progress plan epoch generation bytes credit arrivals receiver' := by
  induction arrivals using reverseRecOn with
  | nil => exact ⟨receiver, rfl, hstart⟩
  | append_singleton arrivals p ih =>
    rw [forall_mem_append] at harrivals
    obtain ⟨before, hdeliver, hprogress⟩ := ih harrivals.1
    obtain ⟨hsent, hsymbol⟩ := harrivals.2 p (mem_singleton_self p)
    obtain ⟨after, answer, hanswer, hafter, -⟩ := hprogress.symbol hg hlen hsent
    rw [← hsymbol] at hanswer hafter
    refine ⟨after, ?_, hafter⟩
    rw [Receiver.deliver, foldlM_append]
    unfold Receiver.deliver at hdeliver
    rw [hdeliver, some_bind, foldlM_cons, hanswer]
    rfl

omit [Gf.Simd] hg hlen in
/-- In an epoch just opened every generation is still to come. -/
theorem Receiver.open_fresh {receiver' : Receiver}
    (h : receiver.open plan = (receiver', .ok .opened)) (hg : plan.holds generation = true) :
    ∃ state, receiver'.epochs.get? plan.epoch = some state ∧ state.plan = plan ∧
      state.isDone generation = some false ∧ state.live.get? generation = none := by
  unfold Receiver.open at h
  split at h
  · split_ifs at h <;> simp at h
  · split at h
    · simp at h
    · split_ifs at h
      · simp at h
      · obtain ⟨rfl, -⟩ := Prod.ext_iff.mp h
        refine ⟨_, OrderedMap.get?_insert_self, rfl, ?_, rfl⟩
        have hlt : generation / 64 < divCeil plan.generationCount 64 := by
          rw [lt_divCeil_iff (by decide)]
          exact lt_of_le_of_lt (Nat.mul_div_le _ _) (by simpa [EpochPlan.holds] using hg)
        simp [Epoch.isDone, hlt, hasBit_zero (Nat.mod_lt generation (show 0 < 64 by decide))]

omit hg hlen in
/-- Whatever symbols of a generation arrive, the one that completes `k` of them, zero sources
included, decodes the bytes; later ones are dropped as done, repeated ones as duplicates. -/
theorem generation_delivered_exactly {offset : ℕ} {state : Epoch}
    (hspan : plan.generationSpan generation = some (offset, bytes.length))
    (hopen : receiver.epochs.get? epoch = some state) (hplan : state.plan = plan)
    (hrunning : state.isDone generation = some false)
    (habsent : state.live.get? generation = none) (hcredit : EnoughCredit credit receiver plan) :
    ∃ symbols sent, encodeGeneration plan generation bytes = .ok symbols ∧
      plan.sentSourceCount generation = some sent ∧
      ∀ arrivals ⊆ symbols, ∀ p ∈ symbols, ∃ before after answer,
        receiver.deliver epoch generation arrivals = some before ∧
        before.symbol epoch generation p.1 p.2 = some (after, answer) ∧
        let k := plan.geometry.sourceCount
        let inHand := (arrivals.map Prod.fst).toFinset.card + (k - sent)
        (k ≤ inHand → answer = .dropped .generationDone ∧ after = before) ∧
        (inHand < k → p.1 ∈ arrivals.map Prod.fst →
          answer = .dropped .duplicate ∧ after = before) ∧
        (inHand + 1 < k → p.1 ∉ arrivals.map Prod.fst →
          answer = .stored (decide (arrivals = []))) ∧
        (inHand + 1 = k → p.1 ∉ arrivals.map Prod.fst →
          answer = .decoded ⟨generation, offset, bytes⟩) := by
  have hg : plan.holds generation = true := by
    by_contra hcon
    simp [EpochPlan.generationSpan, hcon] at hspan
  rw [EpochPlan.generationSpan_eq hg, Option.some.injEq, Prod.mk.injEq] at hspan
  obtain ⟨rfl, hlen⟩ := hspan
  have hsymbols : ∀ p ∈ (sentEsis plan generation).map fun esi => (esi, sentSymbol plan bytes esi),
      p.1 ∈ sentEsis plan generation ∧ p.2 = sentSymbol plan bytes p.1 := by
    intro p hp
    obtain ⟨esi, hesi, rfl⟩ := mem_map.mp hp
    exact ⟨hesi, rfl⟩
  have hstart : Progress plan epoch generation bytes credit [] receiver := by
    refine .inl ⟨[], .fresh state hcredit hopen hplan hrunning habsent, nodup_nil, rfl, ?_⟩
    have h1 := EpochPlan.sentSources_pos hg
    have h2 := plan.geometry.source_pos
    unfold Incomplete
    simp only [length_nil]
    omega
  refine ⟨_, _, encodeGeneration_eq hlen.symm hg, EpochPlan.sentSourceCount_eq hg,
    fun arrivals harrivals p hp => ?_⟩
  obtain ⟨before, hdeliver, hprogress⟩ := hstart.deliver hg hlen.symm
    fun q hq => hsymbols q (harrivals hq)
  obtain ⟨hsent, hsymbol⟩ := hsymbols p hp
  obtain ⟨after, answer, hanswer, -, hlate, hrepeated, hstored, hlast⟩ :=
    hprogress.symbol hg hlen.symm hsent
  refine ⟨before, after, answer, hdeliver, hsymbol ▸ hanswer, fun h => hlate ?_,
    fun h => hrepeated h, fun h => hstored ?_, fun h => hlast ?_ ?_⟩ <;>
  · unfold Incomplete
    omega

end Delivery

section Sample

attribute [local instance] scalarMachine

/-- Three bytes in two sources of two bytes, with one repair symbol. -/
def samplePlan : EpochPlan where
  epoch := 7
  offset := 10
  length := 3
  geometry := shortPlan.geometry
  length_pos := by decide
  end_le := by decide
  count_le := by decide

def sampleCredit : Credit := smallCredit

def sampleReceiver : Receiver := ((Receiver.new.credit sampleCredit).1.open samplePlan).1

/-- The repair symbol and then the second source. -/
theorem generation_delivered_exactly_by_repair :
    ∃ repair source before after,
      encodeGeneration samplePlan 0 [1, 2, 3] = .ok [(0, [1, 2]), (1, source), (2, repair)] ∧
      sampleReceiver.deliver 7 0 [(2, repair)] = some before ∧
      before.symbol 7 0 1 source = some (after, .decoded ⟨0, 10, [1, 2, 3]⟩) := by
  have hopened : (Receiver.new.credit sampleCredit).1.open samplePlan =
      (sampleReceiver, .ok .opened) := rfl
  have hcredit : EnoughCredit sampleCredit sampleReceiver samplePlan :=
    ⟨rfl, by decide, by decide, by decide⟩
  have hspan : samplePlan.generationSpan 0 = some (10, ([1, 2, 3] : Bytes).length) := rfl
  obtain ⟨state, hstate, hplan, hrunning, habsent⟩ :=
    Receiver.open_fresh hopened (show samplePlan.holds 0 = true from rfl)
  obtain ⟨symbols, sent, hencode, hsent, hall⟩ :=
    generation_delivered_exactly hspan hstate hplan hrunning habsent hcredit
  obtain rfl : 2 = sent := Option.some.inj hsent
  have hlist := encodeGeneration_eq (show ([1, 2, 3] : Bytes).length = samplePlan.spanBytes 0
    from rfl) (show samplePlan.holds 0 = true from rfl)
  rw [hlist] at hencode
  obtain rfl := Except.ok.inj hencode
  obtain ⟨before, after, answer, hdeliver, hsymbol, -, -, -, hlast⟩ :=
    hall [(2, sentSymbol samplePlan [1, 2, 3] 2)]
      (by simpa using ⟨show 2 ∈ sentEsis samplePlan 0 by decide, rfl⟩)
      _ (mem_map_of_mem (show 1 ∈ sentEsis samplePlan 0 by decide))
  rw [hlast (by decide) (by decide)] at hsymbol
  exact ⟨_, _, before, after, hlist, hdeliver, hsymbol⟩

end Sample

end ObjectTransfer.Fec
