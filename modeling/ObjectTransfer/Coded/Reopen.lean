import ObjectTransfer.Coded.Intake
import ObjectTransfer.Foundations.History

/-! # Reopened epochs

The epoch table of an intake and the one of its receiver name the same plans, whatever arrives.
An epoch stays in both from its open to its close, so a second open of it is compared with the
plan of the first: the epoch, the range and the geometry, but not the object.
-/

namespace ObjectTransfer.Coded
open Foundations Codec Fec OrderedMap Option

/-- What the session reports of an open its intake rejects. -/
inductive SessionError where
  | codingEpochConflict
  deriving DecidableEq, Repr

inductive EpochFrame where
  | «open» (frame : CodingEpochOpen)
  | close (frame : CodingEpochClose)
  deriving DecidableEq

/-- What an epoch frame does to the intake; the generations it completes are the session's to
join. -/
def acceptFecFrame [Gf.Simd] (intake : Intake) :
    EpochFrame → Option (Intake × Except SessionError (List Joined))
  | .open frame =>
    (intake.open frame).map fun p => (p.1, p.2.mapError fun _ => .codingEpochConflict)
  | .close frame => (intake.close frame).map fun intake => (intake, .ok [])

variable {answer : Symbol}

section Table

def planAt (receiver : Receiver) (epoch : ℕ) : Option EpochPlan :=
  (receiver.epochs.get? epoch).map Epoch.plan

namespace Intake

def entry (intake : Intake) (epoch : ℕ) : Option (Cover × EpochPlan) :=
  (intake.epochs.get? epoch).map fun held => (held.cover, held.plan)

end Intake

variable {receiver receiver' : Receiver} {epoch generation esi : ℕ} {state : Epoch}

theorem planAt_insert {other : ℕ} {state' : Epoch} (hknown : receiver.epochs.get? epoch = some state)
    (h : receiver'.epochs = receiver.epochs.insert epoch state') (hplan : state'.plan = state.plan) :
    planAt receiver' other = planAt receiver other := by
  rw [planAt, planAt, h]
  by_cases heq : other = epoch
  · subst heq
    rw [get?_insert_self, hknown]
    exact congrArg some hplan
  · rw [get?_insert_of_ne heq]

theorem planAt_symbol (h : SymbolStep receiver epoch generation esi receiver' answer) (other : ℕ) :
    planAt receiver' other = planAt receiver other := by
  cases h with
  | dropped => rfl
  | stored credit state counters first slot held known
  | ended credit state counters first spent answer held known => exact planAt_insert known rfl rfl

theorem planAt_report {report : Option Report}
    (h : CallStep receiver (.report epoch generation) receiver' (.reported report)) (other : ℕ) :
    planAt receiver' other = planAt receiver other := by
  cases h with
  | idle => rfl
  | reported _ _ state slot slot' report known => exact planAt_insert known rfl rfl

end Table

/-- The intake moved without an epoch being opened or closed. -/
structure Stays (intake intake' : Intake) : Prop where
  accounted : Accounted intake'.receiver
  plans : ∀ epoch, planAt intake'.receiver epoch = planAt intake.receiver epoch
  entries : ∀ epoch, intake'.entry epoch = intake.entry epoch

variable {joined : List Joined} {plan : EpochPlan} {held : List Bytes} {epoch : ℕ}

namespace Stays

variable {intake intake' intake'' : Intake}

theorem refl (h : Accounted intake.receiver) : Stays intake intake := ⟨h, fun _ => rfl, fun _ => rfl⟩

theorem trans (h : Stays intake intake') (h' : Stays intake' intake'') : Stays intake intake'' where
  accounted := h'.accounted
  plans epoch := (h'.plans epoch).trans (h.plans epoch)
  entries epoch := (h'.entries epoch).trans (h.entries epoch)

section

variable (h : Accounted intake.receiver)
include h

/-- What neither table depends on. -/
theorem of_eq (hreceiver : intake'.receiver = intake.receiver)
    (hepochs : intake'.epochs = intake.epochs) : Stays intake intake' := by
  refine ⟨hreceiver ▸ h, fun epoch => ?_, fun epoch => ?_⟩
  · rw [hreceiver]
  · rw [Intake.entry, Intake.entry, hepochs]

theorem oweState (state : GenState) :
    Stays intake (intake.oweState state) := by
  unfold Intake.oweState
  split_ifs
  · exact refl h
  · exact of_eq h rfl rfl

theorem report {epoch generation : ℕ} {receiver : Receiver} {answer : Option Report}
    (hreport : intake.receiver.report epoch generation = some (receiver, answer)) :
    Stays intake { intake with receiver } := by
  rcases report_step h epoch generation with ⟨receiver', answer', heq, hstep⟩ | ⟨heq, -⟩
  · rw [hreport, some_inj, Prod.mk.injEq] at heq
    obtain ⟨rfl, rfl⟩ := heq
    exact ⟨hstep.accounted h, planAt_report hstep, fun _ => rfl⟩
  · rw [hreport] at heq
    cases heq

theorem restateLive {generations : List ℕ}
    (hrun : Intake.restateLive epoch generations intake = some intake') : Stays intake intake' := by
  induction generations generalizing intake with
  | nil =>
    cases hrun
    exact refl h
  | cons generation generations ih =>
    rw [Intake.restateLive] at hrun
    split_ifs at hrun
    · cases hrun
      exact refl h
    · obtain ⟨⟨receiver, report⟩, hreport, hrest⟩ := bind_eq_some_iff.mp hrun
      have hstays := Stays.report h hreport
      cases report with
      | none => exact hstays.trans (ih hstays.accounted hrest)
      | some report =>
        have howed := hstays.trans (oweState hstays.accounted (stateOf epoch generation report))
        exact howed.trans (ih howed.accounted hrest)

end

theorem entry_restated {held : OpenEpoch} (hheld : intake.epochs.get? epoch = some held)
    (other : ℕ) :
    Intake.entry { intake with epochs := intake.epochs.insert epoch { held with restated := true } }
      other = intake.entry other := by
  rw [Intake.entry, Intake.entry]
  by_cases heq : other = epoch
  · subst heq
    rw [get?_insert_self, hheld]
    rfl
  · rw [get?_insert_of_ne heq]

variable {datagram : Bytes}

section

variable (h : Accounted intake.receiver)
include h

theorem restateShort
    (hrun : intake.restateShort epoch plan = some intake') : Stays intake intake' := by
  rw [Intake.restateShort] at hrun
  cases hheld : intake.epochs.get? epoch with
  | none =>
    rw [hheld] at hrun
    cases hrun
    exact refl h
  | some held =>
    rw [hheld] at hrun
    dsimp only at hrun
    split_ifs at hrun
    · cases hrun
      exact refl h
    · have hmarked : Stays intake
          { intake with epochs := intake.epochs.insert epoch { held with restated := true } } :=
        ⟨h, fun _ => rfl, entry_restated hheld⟩
      exact hmarked.trans (restateLive h hrun)

theorem holdPreopen
    (hrun : intake.holdPreopen epoch datagram = some intake') : Stays intake intake' := by
  rw [Intake.holdPreopen] at hrun
  split_ifs at hrun
  · cases hrun
    exact of_eq h rfl rfl
  · obtain ⟨⟨preopen, bytes, drops, room⟩, -, hrest⟩ := bind_eq_some_iff.mp hrun
    cases room with
    | true | false =>
      cases hrest
      exact of_eq h rfl rfl

theorem countSymbol {generation : ℕ}
    (hrun : intake.countSymbol plan generation = some intake') : Stays intake intake' := by
  obtain ⟨sent, -, hrest⟩ := bind_eq_some_iff.mp hrun
  cases hrest
  exact of_eq h rfl rfl

theorem settleSymbol {epoch : OpenEpoch} {header : SymbolHeader}
    {joined : Option Joined}
    (hrun : intake.settleSymbol epoch header answer = some (intake', joined)) :
    Stays intake intake' := by
  cases answer with
  | decoded =>
    obtain ⟨counted, hcounted, hrest⟩ := bind_eq_some_iff.mp hrun
    cases hrest
    have hstays := countSymbol h hcounted
    exact hstays.trans (of_eq hstays.accounted rfl rfl)
  | abandoned generation state =>
    obtain ⟨counted, hcounted, hrest⟩ := bind_eq_some_iff.mp hrun
    cases hrest
    have hstays := countSymbol h hcounted
    have hgiven : Stays intake { counted with
        counts := { counted.counts with abandoned := counted.counts.abandoned + 1 } } :=
      hstays.trans (of_eq hstays.accounted rfl rfl)
    have howed := hgiven.trans (oweState hgiven.accounted (stateOf header.epoch generation state))
    exact howed.trans (of_eq howed.accounted rfl rfl)
  | stored first =>
    cases first with
    | false =>
      cases hrun
      exact of_eq h rfl rfl
    | true =>
      rw [Intake.settleSymbol] at hrun
      dsimp only at hrun
      rw [if_pos rfl] at hrun
      split_ifs at hrun
      · obtain ⟨⟨receiver, report⟩, hreport, hrest⟩ := bind_eq_some_iff.mp hrun
        have hcounted : Stays intake { intake with
            counts := { intake.counts with
              symbols := intake.counts.symbols + 1
              coded := intake.counts.coded + 1 } } := of_eq h rfl rfl
        have hstays := hcounted.trans (Stays.report hcounted.accounted hreport)
        cases report with
        | none =>
          cases hrest
          exact hstays
        | some =>
          cases hrest
          exact hstays.trans (oweState hstays.accounted _)
      · cases hrun
        exact of_eq h rfl rfl
  | dropped reason =>
    cases reason <;> (cases hrun; exact of_eq h rfl rfl)

end

variable [Gf.Simd]

theorem symbol {joined : Option Joined} (h : Accounted intake.receiver)
    (hrun : intake.symbol datagram = some (intake', joined)) : Stays intake intake' := by
  rw [Intake.symbol] at hrun
  cases hheader : peekHeader datagram with
  | none =>
    rw [hheader] at hrun
    cases hrun
    exact refl h
  | some header =>
  rw [hheader] at hrun
  dsimp only at hrun
  cases hepoch : intake.epochs.get? header.epoch with
  | none =>
    rw [hepoch] at hrun
    obtain ⟨held, hheld, heq⟩ := map_eq_some_iff.mp hrun
    cases heq
    exact holdPreopen h hheld
  | some =>
    rw [hepoch] at hrun
    obtain ⟨⟨receiver, outcome⟩, hsymbol, hrest⟩ := bind_eq_some_iff.mp hrun
    have hstays : Stays intake { intake with receiver } := by
      rcases h.symbol_step header.epoch header.generation header.esi (datagram.drop symbolHeaderLen)
        with ⟨receiver', answer, heq, hstep⟩ | ⟨heq, -⟩
      · rw [hsymbol, some_inj, Prod.mk.injEq] at heq
        obtain ⟨rfl, rfl⟩ := heq
        exact ⟨hstep.accounted h, planAt_symbol hstep, fun _ => rfl⟩
      · rw [hsymbol] at heq
        cases heq
    split_ifs at hrest
    · obtain ⟨restated, hrestated, hsettled⟩ := bind_eq_some_iff.mp hrest
      have hagain := hstays.trans (restateShort hstays.accounted hrestated)
      exact hagain.trans (settleSymbol hagain.accounted hsettled)
    · exact hstays.trans (settleSymbol hstays.accounted hrest)

theorem replay (h : Accounted intake.receiver)
    (hrun : intake.replay held = some (intake', joined)) : Stays intake intake' := by
  induction held generalizing intake joined with
  | nil =>
    cases hrun
    exact refl h
  | cons datagram held ih =>
    obtain ⟨⟨next, join⟩, hsymbol, hrest⟩ := bind_eq_some_iff.mp hrun
    obtain ⟨⟨last, joined'⟩, hreplay, heq⟩ := bind_eq_some_iff.mp hrest
    cases heq
    have hstays := symbol h hsymbol
    exact hstays.trans (ih hstays.accounted hreplay)

end Stays

def planOf (frame : CodingEpochOpen) : Except Fec.Error EpochPlan :=
  EpochPlan.new frame.epoch.toNat frame.offset.toNat frame.length.toNat frame.geometry

/-- Both tables name the same plans. -/
structure Aligned (intake : Intake) : Prop where
  accounted : Accounted intake.receiver
  plans : ∀ epoch, planAt intake.receiver epoch = (intake.entry epoch).map Prod.snd

theorem Aligned.new : Aligned .new := ⟨.new, fun _ => rfl⟩

theorem Aligned.stays {intake intake' : Intake} (h : Aligned intake) (hstays : Stays intake intake') :
    Aligned intake' := by
  refine ⟨hstays.accounted, fun epoch => ?_⟩
  rw [hstays.plans, hstays.entries]
  exact h.plans epoch

/-- An entry was added under an epoch that had none. -/
structure Opens (intake : Intake) (frame : CodingEpochOpen) (intake' : Intake) : Prop where
  accounted : Accounted intake'.receiver
  absent : planAt intake.receiver frame.epoch.toNat = none
  entry : ∃ plan, planOf frame = .ok plan ∧
    planAt intake'.receiver frame.epoch.toNat = some plan ∧
    intake'.entry frame.epoch.toNat = some (.of frame, plan)
  others : ∀ epoch, epoch ≠ frame.epoch.toNat →
    planAt intake'.receiver epoch = planAt intake.receiver epoch ∧
      intake'.entry epoch = intake.entry epoch

inductive Opening (intake : Intake) (frame : CodingEpochOpen) :
    Intake → Except Unit (List Joined) → Prop where
  | repeated (plan : EpochPlan) (hplan : planOf frame = .ok plan)
      (hknown : planAt intake.receiver frame.epoch.toNat = some plan) :
      Opening intake frame intake (.ok [])
  | conflict (hplan : ∀ plan, planOf frame = .ok plan →
        ∃ known, planAt intake.receiver frame.epoch.toNat = some known ∧ known ≠ plan) :
      Opening intake frame intake (.error ())
  | refused (intake' : Intake) (habsent : planAt intake.receiver frame.epoch.toNat = none)
      (hstays : Stays intake intake') : Opening intake frame intake' (.ok [])
  | opened (intake' : Intake) (joined : List Joined) (hopens : Opens intake frame intake') :
      Opening intake frame intake' (.ok joined)

variable {result : Except Unit (List Joined)}

section Opening

variable {intake intake' : Intake} {frame : CodingEpochOpen}

section

variable (h : Accounted intake.receiver)
include h

theorem Stays.settleEpoch
    (hrun : intake.settleEpoch epoch = some intake') : Stays intake intake' := by
  obtain ⟨bytes, -, hrest⟩ := bind_eq_some_iff.mp hrun
  cases hrest
  exact .of_eq h rfl rfl

theorem Stays.takePreopen
    (hrun : intake.takePreopen epoch = some (intake', held)) : Stays intake intake' := by
  obtain ⟨bytes, -, hrest⟩ := bind_eq_some_iff.mp hrun
  cases hrest
  exact .of_eq h rfl rfl

theorem Stays.takeOrphans {cover : Cover}
    (hrun : intake.takeOrphans cover = some (intake', joined)) : Stays intake intake' := by
  obtain ⟨bytes, -, hrest⟩ := bind_eq_some_iff.mp hrun
  cases hrest
  exact .of_eq h rfl rfl

end

theorem receiver_open_cases (receiver : Receiver) (plan : EpochPlan) :
    (receiver.open plan = (receiver, .ok .repeated) ∧ planAt receiver plan.epoch = some plan) ∨
    (receiver.open plan = (receiver, .error .invalidGeometry) ∧
      ∃ known, planAt receiver plan.epoch = some known ∧ known ≠ plan) ∨
    (receiver.open plan = (receiver, .ok .refused) ∧ planAt receiver plan.epoch = none) ∨
    (receiver.open plan =
        ({ receiver with epochs := receiver.epochs.insert plan.epoch (.fresh plan) }, .ok .opened) ∧
      receiver.epochs.get? plan.epoch = none) := by
  unfold Receiver.open planAt
  cases hknown : receiver.epochs.get? plan.epoch with
  | some known =>
    by_cases heq : known.plan = plan
    · exact .inl ⟨if_pos heq, congrArg some heq⟩
    · exact .inr (.inl ⟨if_neg heq, known.plan, rfl, heq⟩)
  | none =>
    cases hheld : receiver.creditHeld with
    | none => exact .inr (.inr (.inl ⟨rfl, rfl⟩))
    | some credit =>
      by_cases hfull : receiver.epochs.size ≥ credit.maxOpenEpochs ∨
          plan.generationCount > maxTrackedGenerations
      · exact .inr (.inr (.inl ⟨if_pos hfull, rfl⟩))
      · exact .inr (.inr (.inr ⟨if_neg hfull, rfl⟩))

variable [Gf.Simd]

/-- The new epoch is in both tables before the held symbols are replayed. -/
theorem Opens.of_replay (h : Accounted intake.receiver)
    (hplan : planOf frame = .ok plan) (habsent : intake.receiver.epochs.get? frame.epoch.toNat = none)
    {added : Intake} (hreceiver : added.receiver = { intake.receiver with
      epochs := intake.receiver.epochs.insert frame.epoch.toNat (.fresh plan) })
    (hepochs : added.epochs = intake.epochs.insert frame.epoch.toNat ⟨.of frame, plan, false⟩)
    {held : List Bytes} {taken : Intake}
    (htaken : added.takePreopen frame.epoch.toNat = some (taken, held))
    (hreplay : taken.replay held = some (intake', joined)) : Opens intake frame intake' := by
  have hepoch : plan.epoch = frame.epoch.toNat := (EpochPlan.new_eq_ok.mp hplan).1
  have haccounted : Accounted added.receiver := by
    rw [hreceiver, ← hepoch]
    exact (CallStep.opened plan (hepoch ▸ habsent)).accounted h
  have htake := Stays.takePreopen haccounted htaken
  have hstays := htake.trans (.replay htake.accounted hreplay)
  refine ⟨hstays.accounted, ?_, ⟨plan, hplan, ?_, ?_⟩, fun epoch hne => ⟨?_, ?_⟩⟩
  · rw [planAt, habsent]
    rfl
  · rw [hstays.plans, planAt, hreceiver, get?_insert_self]
    rfl
  · rw [hstays.entries, Intake.entry, hepochs, get?_insert_self]
    rfl
  · rw [hstays.plans, planAt, hreceiver, get?_insert_of_ne hne]
    rfl
  · rw [hstays.entries, Intake.entry, hepochs, get?_insert_of_ne hne]
    rfl

theorem open_cases (h : Accounted intake.receiver)
    (hrun : intake.open frame = some (intake', result)) : Opening intake frame intake' result := by
  rw [Intake.open, ← planOf] at hrun
  cases hplan : planOf frame with
  | error =>
    rw [hplan] at hrun
    cases hrun
    exact .conflict fun plan hok => by simp [hplan] at hok
  | ok plan =>
  rw [hplan] at hrun
  dsimp only at hrun
  have hepoch : plan.epoch = frame.epoch.toNat := (EpochPlan.new_eq_ok.mp hplan).1
  rcases receiver_open_cases intake.receiver plan with ⟨hopen, hknown⟩ | ⟨hopen, known, hknown, hne⟩ |
    ⟨hopen, habsent⟩ | ⟨hopen, habsent⟩
  · rw [hopen] at hrun
    cases hrun
    exact .repeated plan hplan (hepoch ▸ hknown)
  · rw [hopen] at hrun
    cases hrun
    refine .conflict fun plan' hplan' => ⟨known, hepoch ▸ hknown, ?_⟩
    rw [hplan] at hplan'
    cases hplan'
    exact hne
  · rw [hopen] at hrun
    obtain ⟨settled, hsettled, heq⟩ := bind_eq_some_iff.mp hrun
    cases heq
    have hcounted : Stays intake { intake with
        counts := { intake.counts with refused := intake.counts.refused + 1 } } := .of_eq h rfl rfl
    have hstays := hcounted.trans (.settleEpoch hcounted.accounted hsettled)
    exact .refused _ (hepoch ▸ habsent) (hstays.trans (.of_eq hstays.accounted rfl rfl))
  · rw [hopen] at hrun
    obtain ⟨⟨taken, held⟩, htaken, hrest⟩ := bind_eq_some_iff.mp hrun
    obtain ⟨⟨replayed, joined⟩, hreplay, heq⟩ := bind_eq_some_iff.mp hrest
    cases heq
    rw [hepoch] at habsent
    refine .opened _ joined (.of_replay h hplan habsent ?_ ?_ htaken hreplay)
    · rw [hepoch]
    · rfl

end Opening

section Histories

/-- The calls on an intake: the frames and symbols that arrive, and what the session asks of it. -/
inductive Call where
  | extendCredit (stagingBytes epochCapacity : ℕ) (h : stagingBytes ≤ u64Max)
  | frame (frame : EpochFrame)
  | symbol (datagram : Bytes)
  | holdOrphan (joined : Joined)
  | takeOrphans (cover : Cover)
  | settleOwed

inductive Answer where
  | frame (result : Except SessionError (List Joined))
  | joined (joined : List Joined)

def Intake.call [Gf.Simd] (intake : Intake) : Call → Option (Intake × Answer)
  | .extendCredit stagingBytes epochCapacity h =>
    some (intake.extendCredit stagingBytes epochCapacity h, .joined [])
  | .frame frame => (acceptFecFrame intake frame).map fun p => (p.1, .frame p.2)
  | .symbol datagram => (intake.symbol datagram).map fun p => (p.1, .joined p.2.toList)
  | .holdOrphan joined => (intake.holdOrphan joined).map fun intake => (intake, .joined [])
  | .takeOrphans cover => (intake.takeOrphans cover).map fun p => (p.1, .joined p.2)
  | .settleOwed => intake.settleOwed.map fun intake => (intake, .joined [])

structure Event where
  before : Intake
  call : Call
  answer : Answer
  after : Intake

/-- The histories of a fresh intake, the latest call first. -/
inductive Played [Gf.Simd] : List Event → Intake → Prop where
  | fresh : Played [] .new
  | call (events : List Event) (intake intake' : Intake) (call : Call) (answer : Answer)
      (before : Played events intake) (returned : intake.call call = some (intake', answer)) :
      Played (⟨intake, call, answer, intake'⟩ :: events) intake'

namespace Event

/-- The open a history has accepted for an epoch that was not open. -/
def accepts (epoch : ℕ) (event : Event) : Option CodingEpochOpen :=
  match event.call, event.answer with
  | .frame (.open frame), .frame (.ok _) =>
    if frame.epoch.toNat = epoch ∧ (event.before.epochs.get? epoch).isNone ∧
        (event.after.epochs.get? epoch).isSome then some frame
    else none
  | _, _ => none

def closes (epoch : ℕ) (event : Event) : Bool :=
  match event.call with
  | .frame (.close frame) => frame.epoch.toNat == epoch
  | _ => false

end Event

/-- The opens accepted for an epoch since it was last closed. -/
def standing (epoch : ℕ) (events : List Event) : List CodingEpochOpen :=
  (since (Event.closes epoch) events).filterMap (Event.accepts epoch)

variable {intake intake' : Intake} {events : List Event} {epoch : ℕ}

section

variable (h : Accounted intake.receiver)
include h

theorem Stays.extendCredit {stagingBytes epochCapacity : ℕ} {hle : stagingBytes ≤ u64Max} :
    Stays intake (intake.extendCredit stagingBytes epochCapacity hle) := by
  unfold Intake.extendCredit
  dsimp only
  split_ifs
  · exact refl h
  · refine ⟨(credit_step intake.receiver _).accounted h, fun epoch => ?_, fun _ => rfl⟩
    unfold Receiver.credit
    split_ifs
    · rfl
    · rfl

theorem Stays.holdOrphan {joined : Joined}
    (hrun : intake.holdOrphan joined = some intake') : Stays intake intake' := by
  unfold Intake.holdOrphan at hrun
  split_ifs at hrun
  · cases hrun
    exact refl h
  · obtain ⟨⟨orphans, bytes⟩, -, heq⟩ := bind_eq_some_iff.mp hrun
    cases heq
    exact of_eq h rfl rfl

theorem Stays.settleOwed
    (hrun : intake.settleOwed = some intake') : Stays intake intake' := by
  unfold Intake.settleOwed at hrun
  split at hrun
  · cases hrun
    exact refl h
  · obtain ⟨states, -, heq⟩ := bind_eq_some_iff.mp hrun
    cases heq
    exact of_eq h rfl rfl
  · cases hrun
    exact of_eq h rfl rfl

end

/-- An epoch left both tables and no other did. -/
structure Closes (intake : Intake) (epoch : ℕ) (intake' : Intake) : Prop where
  accounted : Accounted intake'.receiver
  closed : planAt intake'.receiver epoch = none ∧ intake'.entry epoch = none
  others : ∀ other, other ≠ epoch →
    planAt intake'.receiver other = planAt intake.receiver other ∧
      intake'.entry other = intake.entry other

theorem planAt_close {receiver receiver' : Receiver} {known : Bool}
    (h : receiver.close epoch = some (receiver', known)) :
    planAt receiver' epoch = none ∧
      ∀ other, other ≠ epoch → planAt receiver' other = planAt receiver other := by
  unfold Receiver.close at h
  cases hget : receiver.epochs.get? epoch with
  | none =>
    rw [hget] at h
    cases h
    exact ⟨by rw [planAt, hget]; rfl, fun _ _ => rfl⟩
  | some =>
    rw [hget] at h
    obtain ⟨counters, -, heq⟩ := bind_eq_some_iff.mp h
    cases heq
    refine ⟨?_, fun other hne => ?_⟩
    · rw [planAt, get?_erase_self]
      rfl
    · rw [planAt, planAt, get?_erase_of_ne hne]

variable {frame : CodingEpochClose}

theorem close_closes (h : Accounted intake.receiver)
    (hrun : intake.close frame = some intake') : Closes intake frame.epoch.toNat intake' := by
  obtain ⟨⟨receiver, known⟩, hclose, hrest⟩ := bind_eq_some_iff.mp hrun
  obtain ⟨settled, hsettled, hrest⟩ := bind_eq_some_iff.mp hrest
  have haccounted : Accounted receiver := by
    obtain ⟨receiver', known', heq, hstep⟩ := close_step h frame.epoch.toNat
    rw [hclose] at heq
    cases heq
    exact hstep.accounted h
  have hstays : Stays { intake with receiver } settled := .settleEpoch haccounted hsettled
  obtain ⟨hgone, hothers⟩ := planAt_close hclose
  cases hheld : settled.epochs.get? frame.epoch.toNat with
  | none =>
    rw [hheld] at hrest
    cases hrest
    refine ⟨hstays.accounted, ⟨(hstays.plans _).trans hgone, ?_⟩, fun other hne =>
      ⟨(hstays.plans other).trans (hothers other hne), hstays.entries other⟩⟩
    rw [Intake.entry, hheld]
    rfl
  | some =>
    rw [hheld] at hrest
    obtain ⟨⟨taken, orphans⟩, htaken, heq⟩ := bind_eq_some_iff.mp hrest
    cases heq
    have htake : Stays { settled with epochs := settled.epochs.erase frame.epoch.toNat } intake' :=
      .takeOrphans hstays.accounted htaken
    refine ⟨htake.accounted, ⟨?_, ?_⟩, fun other hne => ⟨?_, ?_⟩⟩
    · exact (htake.plans _).trans ((hstays.plans _).trans hgone)
    · rw [htake.entries, Intake.entry, get?_erase_self]
      rfl
    · exact (htake.plans _).trans ((hstays.plans _).trans (hothers other hne))
    · rw [htake.entries, Intake.entry, get?_erase_of_ne hne]
      exact hstays.entries other

/-- Both tables hold every standing open. -/
structure Tracks (events : List Event) (intake : Intake) : Prop where
  aligned : Aligned intake
  held : ∀ epoch frame, frame ∈ standing epoch events → frame.epoch.toNat = epoch ∧
    ∃ plan, planOf frame = .ok plan ∧ intake.entry epoch = some (.of frame, plan)

variable {event : Event}

theorem Tracks.stays (h : Tracks events intake) (hstays : Stays intake intake')
    (haccepts : ∀ epoch, event.accepts epoch = none)
    (hcloses : ∀ epoch, event.closes epoch = false) : Tracks (event :: events) intake' := by
  refine ⟨h.aligned.stays hstays, fun epoch frame hmem => ?_⟩
  rw [standing, since_cons (hcloses epoch), List.filterMap_cons_none (haccepts epoch)] at hmem
  obtain ⟨hepoch, plan, hplan, hentry⟩ := h.held epoch frame hmem
  exact ⟨hepoch, plan, hplan, (hstays.entries epoch).trans hentry⟩

theorem accepts_of_ne (h : ∀ frame, event.call ≠ .frame frame) (epoch : ℕ) :
    event.accepts epoch = none := by
  unfold Event.accepts
  split
  · next hcall hanswer => exact absurd hcall (h _)
  · rfl

theorem closes_of_ne (h : ∀ frame, event.call ≠ .frame (.close frame)) (epoch : ℕ) :
    event.closes epoch = false := by
  unfold Event.closes
  split
  · next hcall => exact absurd hcall (h _)
  · rfl

variable {answer : Answer}

theorem Tracks.close (h : Tracks events intake)
    (hcloses : Closes intake frame.epoch.toNat intake') :
    Tracks (⟨intake, .frame (.close frame), answer, intake'⟩ :: events) intake' := by
  refine ⟨⟨hcloses.accounted, fun epoch => ?_⟩, fun epoch accepted hmem => ?_⟩
  · by_cases heq : epoch = frame.epoch.toNat
    · rw [heq, hcloses.closed.1, hcloses.closed.2]
      rfl
    · rw [(hcloses.others epoch heq).1, (hcloses.others epoch heq).2]
      exact h.aligned.plans epoch
  · by_cases heq : frame.epoch.toNat = epoch
    · rw [standing, since_mark (by simp [Event.closes, heq])] at hmem
      cases hmem
    · rw [standing, since_cons (by simp [Event.closes, heq]), List.filterMap_cons_none rfl] at hmem
      obtain ⟨hepoch, plan, hplan, hentry⟩ := h.held epoch accepted hmem
      exact ⟨hepoch, plan, hplan, (hcloses.others epoch (Ne.symm heq)).2.trans hentry⟩

theorem isSome_entry (intake : Intake) (epoch : ℕ) :
    (intake.entry epoch).isSome = (intake.epochs.get? epoch).isSome := isSome_map

theorem accepts_of_stays {call : Call} (h : Stays intake intake') (epoch : ℕ) :
    Event.accepts epoch ⟨intake, call, answer, intake'⟩ = none := by
  unfold Event.accepts
  split
  · refine if_neg ?_
    rintro ⟨-, hbefore, hafter⟩
    rw [← isSome_entry, h.entries, isSome_entry] at hafter
    rw [isNone_iff_eq_none] at hbefore
    rw [hbefore] at hafter
    cases hafter
  · rfl

theorem Tracks.opened {frame : CodingEpochOpen} {result : Except SessionError (List Joined)}
    (h : Tracks events intake) (hopens : Opens intake frame intake') :
    Tracks (⟨intake, .frame (.open frame), .frame result, intake'⟩ :: events) intake' := by
  obtain ⟨plan, hplan, hadded, hentry⟩ := hopens.entry
  refine ⟨⟨hopens.accounted, fun epoch => ?_⟩, fun epoch accepted hmem => ?_⟩
  · by_cases heq : epoch = frame.epoch.toNat
    · rw [heq, hadded, hentry]
      rfl
    · rw [(hopens.others epoch heq).1, (hopens.others epoch heq).2]
      exact h.aligned.plans epoch
  · obtain ⟨event, hevent, haccepts⟩ := List.mem_filterMap.mp hmem
    rcases List.mem_cons.mp hevent with rfl | hevent
    · unfold Event.accepts at haccepts
      split at haccepts
      · next hcall hanswer =>
        cases hcall
        split_ifs at haccepts with hnew
        obtain rfl := Option.some.inj haccepts
        exact ⟨hnew.1, plan, hplan, hnew.1 ▸ hentry⟩
      · cases haccepts
    · obtain ⟨hepoch, plan', hplan', hentry'⟩ :=
        h.held epoch accepted (List.mem_filterMap.mpr ⟨event, hevent, haccepts⟩)
      -- an epoch that is already held is not the one that opens
      have hne : epoch ≠ frame.epoch.toNat := by
        rintro rfl
        have habsent := hopens.absent
        rw [h.aligned.plans, hentry'] at habsent
        cases habsent
      exact ⟨hepoch, plan', hplan', (hopens.others epoch hne).2.trans hentry'⟩

theorem Tracks.open {frame : CodingEpochOpen} {answer : Except SessionError (List Joined)}
    (h : Tracks events intake) (hopening : Opening intake frame intake' result) :
    Tracks (⟨intake, .frame (.open frame), .frame answer, intake'⟩ :: events) intake' := by
  have hclosed : ∀ epoch, Event.closes epoch
      ⟨intake, .frame (.open frame), .frame answer, intake'⟩ = false := fun _ => rfl
  cases hopening with
  | repeated | conflict =>
    exact h.stays (.refl h.aligned.accounted) (accepts_of_stays (.refl h.aligned.accounted)) hclosed
  | refused _ _ hstays => exact h.stays hstays (accepts_of_stays hstays) hclosed
  | opened _ _ hopens => exact h.opened hopens

variable [Gf.Simd]

theorem Tracks.call {call : Call} (h : Tracks events intake)
    (hcall : intake.call call = some (intake', answer)) :
    Tracks (⟨intake, call, answer, intake'⟩ :: events) intake' := by
  have haccounted := h.aligned.accounted
  have hquiet : Stays intake intake' → (∀ frame, call ≠ .frame frame) →
      Tracks (⟨intake, call, answer, intake'⟩ :: events) intake' := fun hstays hne =>
    h.stays hstays (accepts_of_ne hne) (closes_of_ne fun frame => hne _)
  cases call with
  | extendCredit =>
    cases hcall
    exact hquiet (.extendCredit haccounted) fun _ hcall => by cases hcall
  | symbol =>
    obtain ⟨⟨next, joined⟩, hsymbol, heq⟩ := map_eq_some_iff.mp hcall
    cases heq
    exact hquiet (.symbol haccounted hsymbol) fun _ hcall => by cases hcall
  | holdOrphan =>
    obtain ⟨next, hhold, heq⟩ := map_eq_some_iff.mp hcall
    cases heq
    exact hquiet (.holdOrphan haccounted hhold) fun _ hcall => by cases hcall
  | takeOrphans =>
    obtain ⟨⟨next, joined⟩, htake, heq⟩ := map_eq_some_iff.mp hcall
    cases heq
    exact hquiet (.takeOrphans haccounted htake) fun _ hcall => by cases hcall
  | settleOwed =>
    obtain ⟨next, hsettle, heq⟩ := map_eq_some_iff.mp hcall
    cases heq
    exact hquiet (.settleOwed haccounted hsettle) fun _ hcall => by cases hcall
  | frame frame =>
    obtain ⟨⟨next, result⟩, hframe, heq⟩ := map_eq_some_iff.mp hcall
    cases heq
    cases frame with
    | «open» =>
      obtain ⟨⟨opened, result'⟩, hopen, heq⟩ := map_eq_some_iff.mp hframe
      cases heq
      exact h.open (open_cases haccounted hopen)
    | close =>
      obtain ⟨closed, hclose, heq⟩ := map_eq_some_iff.mp hframe
      cases heq
      exact h.close (close_closes haccounted hclose)

theorem Played.tracks (h : Played events intake) : Tracks events intake := by
  induction h with
  | fresh => exact ⟨.new, fun epoch frame hmem => by cases hmem⟩
  | call events intake intake' call answer before returned ih => exact ih.call returned

/-- A second open of an epoch that stands: the same frame is an idempotent repeat, any other one is
a conflict, and neither changes the intake. -/
def Detected (intake : Intake) (accepted further : CodingEpochOpen) : Prop :=
  ∃ result, acceptFecFrame intake (.open further) = some (intake, result) ∧
    (result = .ok [] ↔ further = accepted) ∧
    (further ≠ accepted → result = .error .codingEpochConflict)

def SameRange (accepted further : CodingEpochOpen) : Prop :=
  further.offset = accepted.offset ∧ further.length = accepted.length ∧
    further.geometry = accepted.geometry

/-- The answer to a second open depends on the range and the geometry alone. -/
theorem Tracks.reopen {accepted further : CodingEpochOpen} (h : Tracks events intake)
    (hstanding : accepted ∈ standing accepted.epoch.toNat events)
    (hepoch : further.epoch = accepted.epoch) :
    (SameRange accepted further → acceptFecFrame intake (.open further) = some (intake, .ok [])) ∧
    (¬ SameRange accepted further →
      acceptFecFrame intake (.open further) = some (intake, .error .codingEpochConflict)) := by
  obtain ⟨-, plan, hplan, hentry⟩ := h.held _ accepted hstanding
  have hknown : planAt intake.receiver further.epoch.toNat = some plan := by
    rw [hepoch, h.aligned.plans, hentry]
    rfl
  have hopen : ∀ plan', planOf further = .ok plan' → intake.receiver.open plan' =
      (intake.receiver, if plan' = plan then .ok .repeated else .error .invalidGeometry) := by
    intro plan' hplan'
    rw [← (EpochPlan.new_eq_ok.mp hplan').1] at hknown
    rcases receiver_open_cases intake.receiver plan' with ⟨heq, hsame⟩ | ⟨heq, known, hother, hne⟩ |
      ⟨-, habsent⟩ | ⟨-, habsent⟩
    · rw [heq, if_pos (Option.some.inj (hsame.symm.trans hknown))]
    · obtain rfl : known = plan := Option.some.inj (hother.symm.trans hknown)
      rw [heq, if_neg hne.symm]
    · rw [hknown] at habsent
      cases habsent
    · rw [planAt, habsent] at hknown
      cases hknown
  obtain ⟨hplanepoch, hoffset, hlength, hgeometry⟩ := EpochPlan.new_eq_ok.mp hplan
  refine ⟨fun hsame => ?_, fun hother => ?_⟩
  · have hagain : planOf further = .ok plan := EpochPlan.new_eq_ok.mpr
      ⟨hepoch ▸ hplanepoch, hsame.1 ▸ hoffset, hsame.2.1 ▸ hlength, hsame.2.2 ▸ hgeometry⟩
    have hrepeat := hopen plan hagain
    rw [planOf] at hagain
    simp only [acceptFecFrame, Intake.open, hagain, hrepeat]
    rfl
  · cases hagain : planOf further with
    | error =>
      rw [planOf] at hagain
      simp only [acceptFecFrame, Intake.open, hagain]
      rfl
    | ok plan' =>
      have hne : plan' ≠ plan := by
        rintro rfl
        obtain ⟨-, hoffset', hlength', hgeometry'⟩ := EpochPlan.new_eq_ok.mp hagain
        exact hother ⟨UInt64.toNat.inj (hoffset'.symm.trans hoffset),
          UInt64.toNat.inj (hlength'.symm.trans hlength), hgeometry'.symm.trans hgeometry⟩
      have hconflict := hopen plan' hagain
      rw [if_neg hne] at hconflict
      rw [planOf] at hagain
      simp only [acceptFecFrame, Intake.open, hagain, hconflict]
      rfl

/-- A second open is detected as the frame it is exactly when it names the object of the first, or
differs from it in the range or the geometry: another object over the same range passes for a
repeat. -/
theorem reopen_detected_iff {accepted further : CodingEpochOpen} (h : Played events intake)
    (hstanding : accepted ∈ standing accepted.epoch.toNat events)
    (hepoch : further.epoch = accepted.epoch) :
    Detected intake accepted further ↔
      further.object = accepted.object ∨ ¬ SameRange accepted further := by
  obtain ⟨hrepeat, hconflict⟩ := h.tracks.reopen hstanding hepoch
  by_cases hsame : SameRange accepted further
  · have hanswer := hrepeat hsame
    have heq : further = accepted ↔ further.object = accepted.object := by
      refine ⟨fun heq => heq ▸ rfl, fun hobject => ?_⟩
      obtain ⟨hoffset, hlength, hgeometry⟩ := hsame
      cases further
      cases accepted
      simp_all
    simp only [Detected, hanswer, some_inj, Prod.mk.injEq, true_and, not_true_eq_false, hsame,
      or_false, ← heq]
    constructor
    · rintro ⟨result, rfl, hdetected, -⟩
      exact hdetected.mp rfl
    · intro hfurther
      exact ⟨_, rfl, ⟨fun _ => hfurther, fun _ => rfl⟩, fun hne => absurd hfurther hne⟩
  · refine ⟨fun _ => .inr hsame, fun _ => ⟨_, hconflict hsame, ?_, fun _ => rfl⟩⟩
    refine ⟨(nomatch ·), ?_⟩
    rintro rfl
    exact absurd ⟨rfl, rfl, rfl⟩ hsame

end Histories

section Sample

attribute [local instance] scalarMachine

def firstRoot : Digest := ⟨List.replicate 32 1, by decide⟩

def otherRoot : Digest := ⟨List.replicate 32 2, by decide⟩

/-- One generation of one symbol. -/
def sampleOpen (root : Digest) : CodingEpochOpen where
  epoch := 7
  object := ⟨1, root, 4⟩
  offset := 0
  length := 4
  geometry := ⟨1, 0, 4, by decide, by decide, by decide, by decide, by decide⟩

def creditedIntake : Intake := Intake.new.extendCredit 65536 1 (by decide)

def openedIntake : Intake :=
  ((creditedIntake.open (sampleOpen firstRoot)).map Prod.fst).getD .new

/-- The history that leads there. -/
def openedEvents : List Event :=
  [⟨creditedIntake, .frame (.open (sampleOpen firstRoot)), .frame (.ok []), openedIntake⟩,
    ⟨.new, .extendCredit 65536 1 (by decide), .joined [], creditedIntake⟩]

theorem openedEvents_played : Played openedEvents openedIntake :=
  .call _ _ _ _ _ (.call [] .new _ _ _ .fresh rfl) rfl

theorem openedEvents_standing : sampleOpen firstRoot ∈ standing 7 openedEvents := by
  decide +kernel

/-- An epoch is opened over the bytes of one object and opened again over those of another: the
second open is taken for a repeat. -/
theorem reopen_over_another_object :
    ∃ events intake accepted further, Played events intake ∧
      accepted ∈ standing accepted.epoch.toNat events ∧ further.epoch = accepted.epoch ∧
      further.object.root ≠ accepted.object.root ∧
      acceptFecFrame intake (.open further) = some (intake, .ok []) ∧
      ¬ Detected intake accepted further := by
  have hanswer : acceptFecFrame openedIntake (.open (sampleOpen otherRoot)) =
      some (openedIntake, .ok []) := by rfl
  refine ⟨openedEvents, openedIntake, sampleOpen firstRoot, sampleOpen otherRoot,
    openedEvents_played, openedEvents_standing, rfl, by decide, hanswer, ?_⟩
  rintro ⟨result, hresult, hdetected, -⟩
  rw [hanswer, some_inj, Prod.mk.injEq] at hresult
  exact absurd (hdetected.mp hresult.2.symm) (by decide)

/-- The open itself, once more. -/
theorem reopen_detected_of_same :
    Detected openedIntake (sampleOpen firstRoot) (sampleOpen firstRoot) :=
  (reopen_detected_iff openedEvents_played openedEvents_standing rfl).mpr (.inl rfl)

end Sample

end ObjectTransfer.Coded
