import ObjectTransfer.Fec.Accounting
import ObjectTransfer.Foundations.Runs

/-! # Histories of a receiver

The calls on a receiver and what each can do, and from that the account of any history of calls
on a fresh one: what is counted is what is live, every generation ends at most once, and the
credit bounds what is opened and the work that is done.
-/

namespace ObjectTransfer.Fec
open Foundations OrderedMap Receiver

inductive Call where
  | credit (credit : Credit)
  | «open» (plan : EpochPlan)
  | symbol (epoch generation esi : ℕ) (bytes : Bytes)
  | report (epoch generation : ℕ)
  | abandon (epoch generation : ℕ)
  | close (epoch : ℕ)

inductive Answer where
  | credited (installed : Bool)
  | opened (result : Except Error Open)
  | symbol (result : Symbol)
  | reported (report : Option Report)
  | abandoned (live : Bool)
  | closed (known : Bool)

def Receiver.call [Gf.Simd] (receiver : Receiver) : Call → Option (Receiver × Answer)
  | .credit credit => some ((receiver.credit credit).1, .credited (receiver.credit credit).2)
  | .open plan => some ((receiver.open plan).1, .opened (receiver.open plan).2)
  | .symbol epoch generation esi bytes =>
    (receiver.symbol epoch generation esi bytes).map fun p => (p.1, .symbol p.2)
  | .report epoch generation =>
    (receiver.report epoch generation).map fun p => (p.1, .reported p.2)
  | .abandon epoch generation =>
    (receiver.abandon epoch generation).map fun p => (p.1, .abandoned p.2)
  | .close epoch => (receiver.close epoch).map fun p => (p.1, .closed p.2)

/-- The answers of calls that find nothing to do. -/
def Answer.Idle : Answer → Prop
  | .credited installed => installed = false
  | .opened result => result ≠ .ok .opened
  | .symbol _ => False
  | .reported report => report = none
  | .abandoned live => live = false
  | .closed known => known = false

def Epoch.fresh (plan : EpochPlan) : Epoch :=
  ⟨plan, .empty, List.replicate (divCeil plan.generationCount 64) 0⟩

inductive CallStep (receiver : Receiver) : Call → Receiver → Answer → Prop where
  | idle (call : Call) (answer : Answer) (idle : answer.Idle) : CallStep receiver call receiver answer
  | credited (credit : Credit) :
      CallStep receiver (.credit credit)
        { receiver with creditHeld := some credit, decodeWorkSpent := 0 } (.credited true)
  | opened (plan : EpochPlan) (absent : receiver.epochs.get? plan.epoch = none) :
      CallStep receiver (.open plan)
        { receiver with epochs := receiver.epochs.insert plan.epoch (.fresh plan) }
        (.opened (.ok .opened))
  | symbol (epoch generation esi : ℕ) (bytes : Bytes) (receiver' : Receiver) (answer : Symbol)
      (step : SymbolStep receiver epoch generation esi receiver' answer) :
      CallStep receiver (.symbol epoch generation esi bytes) receiver' (.symbol answer)
  | reported (epoch generation : ℕ) (state : Epoch) (slot slot' : Generation) (report : Report)
      (known : receiver.epochs.get? epoch = some state)
      (present : state.live.get? generation = some slot) (live : Live state generation slot')
      (numbered : slot'.sequence = slot.sequence + 1)
      (reported : Reported state.plan generation report) :
      CallStep receiver (.report epoch generation)
        { receiver with
          epochs := receiver.epochs.insert epoch
            { state with live := state.live.insert generation slot' } }
        (.reported (some report))
  | abandoned (epoch generation : ℕ) (state : Epoch) (slot : Generation)
      (known : receiver.epochs.get? epoch = some state)
      (present : state.live.get? generation = some slot) :
      CallStep receiver (.abandon epoch generation) (receiver.ended epoch state generation)
        (.abandoned true)
  | closed (epoch : ℕ) (state : Epoch) (known : receiver.epochs.get? epoch = some state) :
      CallStep receiver (.close epoch)
        { receiver with
          epochs := receiver.epochs.erase epoch
          counters := ⟨receiver.counters.activeGenerations - state.live.size,
            receiver.counters.unretiredBytes - state.live.size * state.plan.generationBytes⟩ }
        (.closed true)

section Steps

variable {receiver : Receiver} (h : Accounted receiver)

theorem credit_step (receiver : Receiver) (credit : Credit) :
    CallStep receiver (.credit credit) (receiver.credit credit).1
      (.credited (receiver.credit credit).2) := by
  unfold Receiver.credit
  split_ifs with hold
  · exact .idle _ _ rfl
  · exact .credited credit

theorem open_step (receiver : Receiver) (plan : EpochPlan) :
    CallStep receiver (.open plan) (receiver.open plan).1 (.opened (receiver.open plan).2) := by
  unfold Receiver.open
  cases hknown : receiver.epochs.get? plan.epoch with
  | some =>
    simp only
    split_ifs
    · exact .idle _ _ (by simp [Answer.Idle])
    · exact .idle _ _ (by simp [Answer.Idle])
  | none =>
    cases hheld : receiver.creditHeld with
    | none => exact .idle _ _ (by simp [Answer.Idle])
    | some =>
      simp only
      split_ifs
      · exact .idle _ _ (by simp [Answer.Idle])
      · rw [← hheld]
        exact .opened plan hknown

theorem foldlM_retire (bytes : ℕ) (n : ℕ) (counters : Counters)
    (hactive : n ≤ counters.activeGenerations) (hbytes : n * bytes ≤ counters.unretiredBytes) :
    (List.range n).foldlM (fun counters _ => counters.retire bytes) counters =
      some ⟨counters.activeGenerations - n, counters.unretiredBytes - n * bytes⟩ := by
  induction n with
  | zero => simp
  | succ n ih =>
    rw [add_mul, one_mul] at hbytes
    rw [List.range_succ, List.foldlM_append, ih (by omega) (by omega), some_bind,
      List.foldlM_cons, Counters.retire]
    simp only
    rw [checkedSub_of_le (by omega), some_bind, checkedSub_of_le (by omega), add_mul, one_mul,
      Nat.sub_sub, Nat.sub_sub]
    rfl

include h

theorem report_step (epoch generation : ℕ) :
    (∃ receiver' report, receiver.report epoch generation = some (receiver', report) ∧
      CallStep receiver (.report epoch generation) receiver' (.reported report)) ∨
    receiver.report epoch generation = none ∧ Exhausted receiver := by
  cases hknown : receiver.epochs.get? epoch with
  | none => exact .inl ⟨receiver, none, by simp [Receiver.report, hknown], .idle _ _ rfl⟩
  | some state =>
  cases hlive : state.live.get? generation with
  | none => exact .inl ⟨receiver, none, by simp [Receiver.report, hknown, hlive], .idle _ _ rfl⟩
  | some slot =>
  obtain ⟨hholds, hrunning, ⟨esis, hfilled⟩, hshort⟩ := h.live epoch state generation slot hknown hlive
  by_cases hsequence : slot.sequence < u64Max
  · obtain ⟨slot', report, hreport, ⟨hnumbered, hsame, -, hfilled'⟩, hreported⟩ :=
      hfilled.report hholds hsequence
    refine .inl ⟨_, some report, ?_, .reported epoch generation state slot slot' report hknown hlive
      ⟨hholds, hrunning, ⟨esis, hfilled'⟩, hsame ▸ hshort⟩ hnumbered hreported⟩
    simp [Receiver.report, hknown, hlive, hreport]
  · refine .inr ⟨?_, epoch, state, generation, slot, hknown, hlive, not_lt.mp hsequence⟩
    simp [Receiver.report, hknown, hlive, reportOf_exhausted (not_lt.mp hsequence)]

theorem abandon_step (epoch generation : ℕ) :
    ∃ receiver' live, receiver.abandon epoch generation = some (receiver', live) ∧
      CallStep receiver (.abandon epoch generation) receiver' (.abandoned live) := by
  cases hknown : receiver.epochs.get? epoch with
  | none => exact ⟨receiver, false, by simp [abandon, hknown], .idle _ _ rfl⟩
  | some state =>
  cases hlive : state.live.get? generation with
  | none => exact ⟨receiver, false, by simp [abandon, hknown, hlive], .idle _ _ rfl⟩
  | some slot =>
    obtain ⟨hactive, hbytes⟩ := h.counted hknown hlive
    have hretire : receiver.retire epoch state generation =
        some (receiver.ended epoch state generation) :=
      retire_ended ((h.mapped epoch state hknown).lt
        (h.live epoch state generation slot hknown hlive).holds) hactive hbytes
    exact ⟨_, true, by simp [abandon, hknown, hlive, hretire],
      .abandoned epoch generation state slot hknown hlive⟩

theorem close_step (epoch : ℕ) :
    ∃ receiver' known, receiver.close epoch = some (receiver', known) ∧
      CallStep receiver (.close epoch) receiver' (.closed known) := by
  cases hknown : receiver.epochs.get? epoch with
  | none => exact ⟨receiver, false, by simp [close, hknown], .idle _ _ rfl⟩
  | some state =>
    have hactive := total_le hknown fun state => state.live.size
    have hbytes := total_le hknown fun state => state.live.size * state.plan.generationBytes
    rw [← h.active] at hactive
    rw [← h.unretired] at hbytes
    refine ⟨_, true, ?_, .closed epoch state hknown⟩
    simp [close, hknown, foldlM_retire _ _ _ hactive hbytes]

/-- Every call does one of the things above; only a report past `u64::MAX` panics. -/
theorem Accounted.call_step [Gf.Simd] (call : Call) :
    (∃ receiver' answer, receiver.call call = some (receiver', answer) ∧
      CallStep receiver call receiver' answer) ∨
    receiver.call call = none ∧ Exhausted receiver := by
  cases call with
  | credit credit => exact .inl ⟨_, _, rfl, credit_step receiver credit⟩
  | «open» plan => exact .inl ⟨_, _, rfl, open_step receiver plan⟩
  | symbol epoch generation esi bytes =>
    rcases h.symbol_step epoch generation esi bytes with ⟨receiver', answer, heq, hstep⟩ | ⟨heq, hpanic⟩
    · exact .inl ⟨receiver', .symbol answer, by simp [call, heq], .symbol _ _ _ _ _ _ hstep⟩
    · exact .inr ⟨by simp [call, heq], hpanic⟩
  | report epoch generation =>
    rcases report_step h epoch generation with ⟨receiver', report, heq, hstep⟩ | ⟨heq, hpanic⟩
    · exact .inl ⟨receiver', .reported report, by simp [call, heq], hstep⟩
    · exact .inr ⟨by simp [call, heq], hpanic⟩
  | abandon epoch generation =>
    obtain ⟨receiver', live, heq, hstep⟩ := abandon_step h epoch generation
    exact .inl ⟨receiver', .abandoned live, by simp [call, heq], hstep⟩
  | close epoch =>
    obtain ⟨receiver', known, heq, hstep⟩ := close_step h epoch
    exact .inl ⟨receiver', .closed known, by simp [call, heq], hstep⟩

end Steps

variable {state : Epoch}

section Kept

variable {receiver receiver' : Receiver} {call : Call} {answer : Answer}

theorem Accounted.erase {epoch : ℕ} (h : Accounted receiver)
    (hknown : receiver.epochs.get? epoch = some state) :
    Accounted { receiver with
      epochs := receiver.epochs.erase epoch
      counters := ⟨receiver.counters.activeGenerations - state.live.size,
        receiver.counters.unretiredBytes - state.live.size * state.plan.generationBytes⟩ } := by
  refine ⟨fun epoch' other hother => ?_, fun epoch' other g slot hother => ?_, ?_, ?_,
    (Nat.sub_le _ _).trans h.bounded, h.work⟩
  · exact h.mapped epoch' other (get?_erase_eq_some.mp hother).2
  · exact h.live epoch' other g slot (get?_erase_eq_some.mp hother).2
  · simp only [h.active, total_of_some hknown]
    omega
  · simp only [h.unretired, total_of_some hknown]
    omega

theorem CallStep.accounted (hstep : CallStep receiver call receiver' answer)
    (h : Accounted receiver) : Accounted receiver' := by
  cases hstep with
  | idle => exact h
  | credited => exact ⟨h.mapped, h.live, h.active, h.unretired, h.bounded, fun _ _ => Nat.zero_le _⟩
  | opened plan absent =>
    have herase := erase_of_none absent
    refine h.insert plan.epoch (.fresh plan) ?_ ?_ ?_ ?_ h.bounded h.work
    · exact List.length_replicate
    · intro generation slot hslot
      simp [Epoch.fresh] at hslot
    · rw [herase, h.active]
      rfl
    · have hidle : (Epoch.fresh plan).live.size = 0 := rfl
      rw [herase, h.unretired, hidle, zero_mul, add_zero]
  | symbol epoch generation esi bytes _ answer step => exact step.accounted h
  | reported epoch generation state slot slot' report known present live =>
    exact h.stored known live (h.counted_live known present)
  | abandoned epoch generation state slot known present =>
    exact h.ended known (h.counted_live known present) h.work
  | closed epoch state known => exact h.erase known

end Kept

/-- A call, its answer, and the receiver it was made on. -/
structure Event where
  receiver : Receiver
  call : Call
  answer : Answer

inductive Played [Gf.Simd] : List Event → Receiver → Prop where
  | fresh : Played [] .new
  | call (events : List Event) (receiver receiver' : Receiver) (call : Call) (answer : Answer)
      (before : Played events receiver) (returned : receiver.call call = some (receiver', answer)) :
      Played (events ++ [⟨receiver, call, answer⟩]) receiver'

namespace Event

/-- The generation whose terminal result an event is. -/
def ends : Event → Option (ℕ × ℕ)
  | ⟨_, .symbol epoch generation _ _, .symbol (.decoded _)⟩ => some (epoch, generation)
  | ⟨_, .symbol epoch generation _ _, .symbol (.abandoned _ _)⟩ => some (epoch, generation)
  | ⟨_, .abandon epoch generation, .abandoned true⟩ => some (epoch, generation)
  | _ => none

def closes : Event → Option ℕ
  | ⟨_, .close epoch, .closed true⟩ => some epoch
  | _ => none

/-- Terminal results of a generation, counted from the last close of its epoch. -/
def count (epoch generation n : ℕ) (event : Event) : ℕ :=
  if event.closes = some epoch then 0
  else if event.ends = some (epoch, generation) then n + 1 else n

/-- Decode work, counted from the last credit installed. -/
def work (n : ℕ) : Event → ℕ
  | ⟨_, .credit _, .credited true⟩ => 0
  | ⟨receiver, .symbol epoch generation esi _, .symbol answer⟩ =>
    n + receiver.charge epoch generation esi answer
  | _ => n

end Event

def results (epoch generation : ℕ) (events : List Event) : ℕ :=
  run (Event.count epoch generation) 0 events

def decodeWork (events : List Event) : ℕ := run Event.work 0 events

section Marks

variable {receiver receiver' : Receiver} {call : Call} {answer : Answer}

/-- No live generation has reported more than `n` times. -/
def Numbered (receiver : Receiver) (n : ℕ) : Prop :=
  ∀ epoch state generation slot, receiver.epochs.get? epoch = some state →
    state.live.get? generation = some slot → slot.sequence ≤ n

def Settled (receiver : Receiver) (epoch generation : ℕ) : Prop :=
  ∃ state, receiver.epochs.get? epoch = some state ∧ state.isDone generation = some true

variable {epoch n : ℕ}

theorem Numbered.insert (h : Numbered receiver n)
    (hstate : ∀ generation slot, state.live.get? generation = some slot → slot.sequence ≤ n)
    (hepochs : receiver'.epochs = receiver.epochs.insert epoch state) : Numbered receiver' n := by
  intro epoch' other generation slot hother hslot
  rw [hepochs] at hother
  rcases get?_insert_eq_some.mp hother with ⟨-, rfl⟩ | ⟨-, hother⟩
  · exact hstate generation slot hslot
  · exact h epoch' other generation slot hother hslot

variable {generation : ℕ} {live : OrderedMap ℕ Generation}

theorem sequence_insert {slot : Generation}
    (h : ∀ g other, live.get? g = some other → other.sequence ≤ n) (hslot : slot.sequence ≤ n) :
    ∀ g other, (live.insert generation slot).get? g = some other → other.sequence ≤ n := by
  intro g other hget
  rcases get?_insert_eq_some.mp hget with ⟨-, rfl⟩ | ⟨-, hget⟩
  · exact hslot
  · exact h g other hget

theorem sequence_erase (h : ∀ g other, live.get? g = some other → other.sequence ≤ n) :
    ∀ g other, (live.erase generation).get? g = some other → other.sequence ≤ n := by
  intro g other hget
  exact h g other (get?_erase_eq_some.mp hget).2

theorem SymbolStep.numbered {esi : ℕ} {answer : Symbol}
    (hstep : SymbolStep receiver epoch generation esi receiver' answer) (h : Numbered receiver n) :
    Numbered receiver' n := by
  cases hstep with
  | dropped => exact h
  | stored credit state counters first slot held known counted live numbered =>
    refine h.insert (sequence_insert (fun g other => h epoch state g other known) ?_) rfl
    rw [numbered, Epoch.slot]
    cases hget : state.live.get? generation with
    | none => exact Nat.zero_le n
    | some old => exact h epoch state generation old known hget
  | ended credit state counters first spent answer held known =>
    exact h.insert (sequence_erase fun g other => h epoch state g other known) rfl

theorem CallStep.numbered (hstep : CallStep receiver call receiver' answer)
    (h : Numbered receiver n) : Numbered receiver' (n + 1) := by
  have hnext : Numbered receiver (n + 1) := fun epoch state generation slot hknown hslot =>
    (h epoch state generation slot hknown hslot).trans n.le_succ
  cases hstep with
  | idle | credited => exact hnext
  | opened =>
    refine hnext.insert (fun generation slot hslot => ?_) rfl
    simp [Epoch.fresh] at hslot
  | symbol epoch generation esi bytes _ answer step => exact step.numbered hnext
  | reported epoch generation state slot slot' report known present live numbered =>
    refine hnext.insert (sequence_insert (fun g other => hnext epoch state g other known) ?_) rfl
    rw [numbered]
    exact Nat.succ_le_succ (h epoch state generation slot known present)
  | abandoned epoch generation state slot known =>
    exact hnext.insert (sequence_erase fun g other => hnext epoch state g other known) rfl
  | closed =>
    intro epoch' other generation slot hother hslot
    exact hnext epoch' other generation slot (get?_erase_eq_some.mp hother).2 hslot

theorem Settled.insert {epoch' : ℕ} {state state' : Epoch}
    (hdone : Settled receiver epoch generation) (hknown : receiver.epochs.get? epoch' = some state)
    (hepochs : receiver'.epochs = receiver.epochs.insert epoch' state')
    (hkeep : state.isDone generation = some true → state'.isDone generation = some true) :
    Settled receiver' epoch generation := by
  obtain ⟨other, hother, hbit⟩ := hdone
  by_cases heq : epoch = epoch'
  · subst heq
    obtain rfl := Option.some.inj (hknown.symm.trans hother)
    exact ⟨state', by rw [hepochs, get?_insert_self], hkeep hbit⟩
  · exact ⟨other, by rwa [hepochs, get?_insert_of_ne heq], hbit⟩

theorem Epoch.isDone_marked_mono {other : ℕ} (h : state.Mapped)
    (hg : state.plan.holds generation = true) (hdone : state.isDone other = some true) :
    (state.marked generation).isDone other = some true := by
  by_cases heq : other = generation
  · rw [heq, Epoch.isDone_marked (h.lt hg)]
  · rw [Epoch.isDone_marked_of_ne heq, hdone]

theorem CallStep.done (hstep : CallStep receiver call receiver' answer) (h : Accounted receiver)
    (hdone : Settled receiver epoch generation)
    (hopen : Event.closes ⟨receiver, call, answer⟩ ≠ some epoch) :
    Settled receiver' epoch generation := by
  cases hstep with
  | idle | credited => exact hdone
  | opened plan absent =>
    obtain ⟨state, hknown, hbit⟩ := hdone
    have hne : epoch ≠ plan.epoch := by
      rintro rfl
      rw [absent] at hknown
      simp at hknown
    exact ⟨state, by rwa [get?_insert_of_ne hne], hbit⟩
  | symbol epoch' generation' esi bytes _ answer step =>
    cases step with
    | dropped => exact hdone
    | stored credit state counters first slot held known => exact hdone.insert known rfl id
    | ended credit state counters first spent answer held known counted holds =>
      exact hdone.insert known rfl (Epoch.isDone_marked_mono (h.mapped epoch' state known) holds)
  | reported epoch' generation' state slot slot' report known => exact hdone.insert known rfl id
  | abandoned epoch' generation' state slot known present =>
    exact hdone.insert known rfl (Epoch.isDone_marked_mono (h.mapped epoch' state known)
      (h.live epoch' state generation' slot known present).holds)
  | closed epoch' =>
    obtain ⟨other, hother, hbit⟩ := hdone
    have hne : epoch ≠ epoch' := fun heq => hopen (by rw [heq]; rfl)
    exact ⟨other, by rwa [get?_erase_of_ne hne], hbit⟩

theorem done_ended (h : state.Mapped) (hg : state.plan.holds generation = true)
    (hknown : receiver.epochs.get? epoch = some state)
    (hrunning : state.isDone generation = some false)
    (hepochs : receiver'.epochs = receiver.epochs.insert epoch (state.marked generation)) :
    ¬ Settled receiver epoch generation ∧ Settled receiver' epoch generation := by
  constructor
  · rintro ⟨other, hother, hbit⟩
    obtain rfl := Option.some.inj (hknown.symm.trans hother)
    rw [hrunning] at hbit
    simp at hbit
  · exact ⟨_, by rw [hepochs, get?_insert_self], Epoch.isDone_marked (h.lt hg)⟩

theorem Answer.Idle.ends (h : answer.Idle) : Event.ends ⟨receiver, call, answer⟩ = none := by
  cases answer with
  | symbol => exact h.elim
  | abandoned live =>
    obtain rfl : live = false := h
    cases call <;> rfl
  | credited | opened | reported | closed => cases call <;> rfl

theorem Answer.Idle.work (h : answer.Idle) : Event.work n ⟨receiver, call, answer⟩ = n := by
  cases answer with
  | symbol => exact h.elim
  | credited installed =>
    obtain rfl : installed = false := h
    cases call <;> rfl
  | opened | reported | abandoned | closed => cases call <;> rfl

theorem CallStep.ends (hstep : CallStep receiver call receiver' answer) (h : Accounted receiver)
    (hends : Event.ends ⟨receiver, call, answer⟩ = some (epoch, generation)) :
    ¬ Settled receiver epoch generation ∧ Settled receiver' epoch generation := by
  cases hstep with
  | idle call answer idle =>
    rw [idle.ends] at hends
    cases hends
  | credited | opened | closed => cases hends
  | symbol epoch' generation' esi bytes _ answer step =>
    cases step with
    | dropped | stored => cases hends
    | ended credit state counters first spent answer held known counted holds running charged
        covered ending =>
      have heq : (epoch', generation') = (epoch, generation) := by
        cases ending with
        | decoded | abandoned => exact Option.some.inj hends
      obtain ⟨rfl, rfl⟩ := Prod.mk.inj heq
      exact done_ended (h.mapped epoch' state known) holds known running rfl
  | reported => cases hends
  | abandoned epoch' generation' state slot known present =>
    obtain ⟨rfl, rfl⟩ := Prod.mk.inj (Option.some.inj hends)
    obtain ⟨hholds, hrunning, -, -⟩ := h.live epoch' state generation' slot known present
    exact done_ended (h.mapped epoch' state known) hholds known hrunning rfl

theorem CallStep.work (hstep : CallStep receiver call receiver' answer) :
    receiver'.decodeWorkSpent =
      Event.work receiver.decodeWorkSpent ⟨receiver, call, answer⟩ := by
  cases hstep with
  | idle call answer idle => exact idle.work.symm
  | credited | opened | reported | abandoned | closed => rfl
  | symbol epoch generation esi bytes _ answer step =>
    cases step with
    | dropped | stored => rfl
    | ended credit state counters first spent answer held known counted holds running charged
        covered ending => exact charged

end Marks

structure Recorded (events : List Event) (receiver : Receiver) : Prop where
  accounted : Accounted receiver
  numbered : Numbered receiver events.length
  results : ∀ epoch generation, results epoch generation events = 0 ∨
    results epoch generation events = 1 ∧ Settled receiver epoch generation
  work : receiver.decodeWorkSpent = decodeWork events

section History

variable {events : List Event} {receiver receiver' : Receiver} {call : Call} {answer : Answer}

theorem Accounted.new : Accounted .new where
  mapped := by simp [Receiver.new]
  live := by simp [Receiver.new]
  active := rfl
  unretired := rfl
  bounded := Nat.zero_le _
  work := by simp [Receiver.new]

theorem Recorded.step (h : Recorded events receiver)
    (hstep : CallStep receiver call receiver' answer) :
    Recorded (events ++ [⟨receiver, call, answer⟩]) receiver' := by
  refine ⟨hstep.accounted h.accounted, ?_, fun epoch generation => ?_, ?_⟩
  · rw [List.length_append]
    exact hstep.numbered h.numbered
  · rw [Fec.results, run_concat, ← Fec.results, Event.count]
    split_ifs with hcloses hends
    · exact .inl rfl
    · obtain ⟨hbefore, hafter⟩ := hstep.ends h.accounted hends
      rcases h.results epoch generation with hzero | ⟨-, hdone⟩
      · exact .inr ⟨by rw [hzero], hafter⟩
      · exact absurd hdone hbefore
    · exact (h.results epoch generation).imp_right fun hone =>
        ⟨hone.1, hstep.done h.accounted hone.2 hcloses⟩
  · rw [decodeWork, run_concat, ← decodeWork, ← h.work]
    exact hstep.work

theorem Accounted.active_le (h : Accounted receiver) :
    receiver.counters.activeGenerations ≤ u64Max := by
  refine le_trans ?_ h.bounded
  rw [h.active, h.unretired]
  exact total_le_total fun state =>
    Nat.le_mul_of_pos_right _ EpochPlan.generationBytes_pos

variable {epoch generation esi : ℕ}

theorem SymbolStep.eq_of_dropped {reason : Drop}
    (hstep : SymbolStep receiver epoch generation esi receiver' (.dropped reason)) :
    receiver' = receiver := by
  generalize hanswer : Symbol.dropped reason = answer at hstep
  cases hstep with
  | dropped => rfl
  | stored => cases hanswer
  | ended credit state counters first spent answer held known counted holds running charged
      covered ending =>
    rw [← hanswer] at ending
    cases ending

/-- A symbol that is not dropped was counted within the credit. -/
theorem SymbolStep.admitted {answer : Symbol}
    (hstep : SymbolStep receiver epoch generation esi receiver' answer)
    (hkept : ∀ reason, answer ≠ .dropped reason) :
    ∃ credit state counters first, receiver.creditHeld = some credit ∧
      receiver.epochs.get? epoch = some state ∧
      Admitted receiver credit state generation counters first ∧
      ∀ first', answer = .stored first' → receiver'.counters = counters := by
  cases hstep with
  | dropped reason => exact absurd rfl (hkept reason)
  | stored credit state counters first slot held known counted =>
    exact ⟨credit, state, counters, first, held, known, counted, fun _ _ => rfl⟩
  | ended credit state counters first spent answer held known counted holds running charged
      covered ending =>
    refine ⟨credit, state, counters, first, held, known, counted, fun first' hstored => ?_⟩
    rw [hstored] at ending
    cases ending

/-- A close answers whether the epoch was open, and takes it out of the table. -/
theorem close_eq_some {known : Bool} (h : receiver.close epoch = some (receiver', known)) :
    known = (receiver.epochs.get? epoch).isSome ∧
      receiver'.epochs = receiver.epochs.erase epoch := by
  unfold close at h
  cases hknown : receiver.epochs.get? epoch with
  | none =>
    rw [hknown] at h
    obtain ⟨rfl, rfl⟩ := Prod.mk.inj (Option.some.inj h)
    exact ⟨rfl, (erase_of_none hknown).symm⟩
  | some state =>
    rw [hknown] at h
    obtain ⟨counters, -, heq⟩ := Option.bind_eq_some_iff.mp h
    obtain ⟨rfl, rfl⟩ := Prod.mk.inj (Option.some.inj heq)
    exact ⟨rfl, rfl⟩

variable [Gf.Simd]

theorem Played.recorded (h : Played events receiver) : Recorded events receiver := by
  induction h with
  | fresh => exact ⟨.new, by simp [Numbered, Receiver.new], fun _ _ => .inl rfl, rfl⟩
  | call events receiver receiver' call answer before returned ih =>
    rcases ih.accounted.call_step call with ⟨other, answer', heq, hstep⟩ | ⟨heq, -⟩
    · obtain ⟨rfl, rfl⟩ := Prod.mk.inj (Option.some.inj (returned.symm.trans heq))
      exact ih.step hstep
    · rw [heq] at returned
      cases returned

/-- Over any history of calls on a fresh receiver the counters are those of what is live and nothing
live is done; each generation of an open epoch ends at most once; the work charged to the credit
stays within it; a call panics only after `u64::MAX` calls; a close that answers true found the epoch
and takes it away; a dropped symbol changes nothing, and one that opens a generation leaves both
totals within the credit held. -/
theorem receiver_history_accounted (h : Played events receiver) :
    (receiver.counters.activeGenerations = receiver.epochs.total (fun state => state.live.size) ∧
      receiver.counters.unretiredBytes = receiver.epochs.total
        (fun state => state.live.size * state.plan.generationBytes) ∧
      receiver.counters.activeGenerations ≤ u64Max ∧ receiver.counters.unretiredBytes ≤ u64Max) ∧
    (∀ epoch state generation slot, receiver.epochs.get? epoch = some state →
      state.live.get? generation = some slot → state.isDone generation = some false) ∧
    (∀ epoch generation, results epoch generation events ≤ 1) ∧
    (∀ credit, receiver.creditHeld = some credit → decodeWork events ≤ credit.maxDecodeWork) ∧
    (∀ call, receiver.call call = none → u64Max ≤ events.length) ∧
    (∀ epoch receiver' known, receiver.close epoch = some (receiver', known) →
      known = (receiver.epochs.get? epoch).isSome ∧
      receiver'.epochs = receiver.epochs.erase epoch) ∧
    ∀ epoch generation esi bytes receiver' answer,
      receiver.symbol epoch generation esi bytes = some (receiver', answer) →
      (∀ reason, answer = .dropped reason → receiver' = receiver) ∧
      ((∀ reason, answer ≠ .dropped reason) → ∃ credit state,
        receiver.creditHeld = some credit ∧ receiver.epochs.get? epoch = some state ∧
        (state.live.get? generation = none →
          receiver.counters.activeGenerations + 1 ≤ credit.maxActiveGenerations ∧
          receiver.counters.unretiredBytes + state.plan.generationBytes ≤ credit.maxUnretiredBytes ∧
          (∀ first, answer = .stored first → receiver'.counters =
            ⟨receiver.counters.activeGenerations + 1,
              receiver.counters.unretiredBytes + state.plan.generationBytes⟩))) := by
  obtain ⟨haccounted, hnumbered, hresults, hwork⟩ := h.recorded
  refine ⟨⟨haccounted.active, haccounted.unretired, ?_, haccounted.bounded⟩,
    fun epoch state generation slot hknown hlive =>
      (haccounted.live epoch state generation slot hknown hlive).running,
    fun epoch generation => ?_, fun credit hheld => hwork ▸ haccounted.work credit hheld,
    fun call hpanic => ?_, fun _ _ _ => close_eq_some,
    fun epoch generation esi bytes receiver' answer hsymbol => ?_⟩
  · exact haccounted.active_le
  · rcases hresults epoch generation with hzero | ⟨hone, -⟩
    · omega
    · omega
  · rcases haccounted.call_step call with ⟨other, answer, heq, -⟩ | ⟨-, hexhausted⟩
    · rw [hpanic] at heq
      cases heq
    · obtain ⟨epoch, state, generation, slot, hknown, hlive, hlast⟩ := hexhausted
      exact hlast.trans (hnumbered epoch state generation slot hknown hlive)
  · rcases haccounted.symbol_step epoch generation esi bytes with ⟨other, answer', heq, hstep⟩ | ⟨heq, -⟩
    swap
    · rw [heq] at hsymbol
      cases hsymbol
    obtain ⟨rfl, rfl⟩ := Prod.mk.inj (Option.some.inj (hsymbol.symm.trans heq))
    refine ⟨fun reason hdropped => ?_, fun hkept => ?_⟩
    · rw [hdropped] at hstep
      exact hstep.eq_of_dropped
    · obtain ⟨credit, state, counters, first, hheld, hknown, hadmitted, hcounters⟩ :=
        hstep.admitted hkept
      refine ⟨credit, state, hheld, hknown, fun habsent => ?_⟩
      cases hadmitted with
      | live slot present =>
        rw [habsent] at present
        cases present
      | opened absent active bytes => exact ⟨active, bytes, hcounters⟩

end History

section Sample

attribute [local instance] scalarMachine

/-- Five bytes in generations of two sources of two bytes. -/
def shortPlan : EpochPlan where
  epoch := 3
  offset := 0
  length := 5
  geometry := ⟨2, 1, 2, by decide, by decide, by decide, by decide, by decide⟩
  length_pos := by decide
  end_le := by decide
  count_le := by decide

def smallCredit : Credit := ⟨1, 4, 1, 4, 1, by decide, by decide⟩

def openReceiver : Receiver := ((Receiver.new.credit smallCredit).1.open shortPlan).1

def fullReceiver : Receiver :=
  ((openReceiver.symbol 3 0 0 [1, 2]).map Prod.fst).getD .new

/-- With one generation live the credit is used up: no symbol opens another. -/
theorem receiver_history_accounted_at_the_cap :
    fullReceiver.counters = ⟨1, 4⟩ ∧
      ∀ generation esi bytes receiver' answer, generation ≠ 0 →
        fullReceiver.symbol 3 generation esi bytes = some (receiver', answer) →
        ∃ reason, answer = .dropped reason := by
  have hcredit : Played _ (Receiver.new.credit smallCredit).1 :=
    .call [] .new _ (.credit smallCredit) (.credited true) .fresh rfl
  have hopen : Played _ openReceiver :=
    .call _ _ openReceiver (.open shortPlan) (.opened (.ok .opened)) hcredit rfl
  have hfull : Played _ fullReceiver :=
    .call _ _ fullReceiver (.symbol 3 0 0 [1, 2]) (.symbol (.stored true)) hopen rfl
  obtain ⟨-, -, -, -, -, -, hsymbol⟩ := receiver_history_accounted hfull
  refine ⟨rfl, fun generation esi bytes receiver' answer hne heq => ?_⟩
  by_contra hkept
  obtain ⟨credit, state, hheld, hknown, hadmitted⟩ :=
    (hsymbol 3 generation esi bytes receiver' answer heq).2 fun reason hdropped =>
      hkept ⟨reason, hdropped⟩
  obtain rfl : smallCredit = credit := Option.some.inj hheld
  have habsent : state.live.get? generation = none := by
    obtain rfl := Option.some.inj hknown
    exact get?_insert_of_ne hne
  exact absurd (hadmitted habsent).1 (by decide)

end Sample

end ObjectTransfer.Fec
