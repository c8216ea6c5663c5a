import ObjectTransfer.Fec.Accounting

/-! # The sending end's table

What the sender may open and begin under the credit it was given, and what it makes of the
receiver's frames. An epoch keeps the generations begun, each with its outcome once known, and the
highest state sequence accepted for each. Counters are checked: an underflow is a panic.
-/

namespace ObjectTransfer.Fec
open Foundations OrderedMap

/-- What the receiver said a generation became. -/
inductive Done where
  | decoded
  | abandoned
  deriving DecidableEq, Repr

structure SentEpoch where
  plan : EpochPlan
  generations : OrderedMap ℕ (Option Done)
  sequences : OrderedMap ℕ ℕ
  deriving DecidableEq

structure Sender where
  creditHeld : Option Credit
  epochs : OrderedMap ℕ SentEpoch
  highestEpoch : Option ℕ
  activeGenerations : ℕ
  unretiredBytes : ℕ
  deriving DecidableEq

def SentEpoch.live (state : SentEpoch) : ℕ := state.generations.total fun outcome => outcome.isNone.toNat

def SentEpoch.set (state : SentEpoch) (generation : ℕ) (outcome : Option Done) : SentEpoch :=
  { state with generations := state.generations.insert generation outcome }

namespace Sender

def new : Sender := ⟨none, .empty, none, 0, 0⟩

/-- Install a newer credit epoch; an older or equal one is ignored. -/
def credit (sender : Sender) (credit : Credit) : Sender × Bool :=
  if sender.creditHeld.any fun held => decide (held.creditEpoch ≥ credit.creditEpoch) then
    (sender, false)
  else ({ sender with creditHeld := some credit }, true)

def mayOpen (sender : Sender) : Bool :=
  sender.creditHeld.any fun credit => decide (sender.epochs.size < credit.maxOpenEpochs)

/-- Record an epoch about to be announced. -/
def «open» (sender : Sender) (plan : EpochPlan) : Except Error Sender :=
  if sender.highestEpoch.any (fun used => decide (plan.epoch ≤ used)) || !sender.mayOpen then
    .error .invalidGeometry
  else .ok
    { sender with
      highestEpoch := some plan.epoch
      epochs := sender.epochs.insert plan.epoch ⟨plan, .empty, .empty⟩ }

def put (sender : Sender) (epoch : ℕ) (state : SentEpoch) (activeGenerations unretiredBytes : ℕ) :
    Sender :=
  { sender with epochs := sender.epochs.insert epoch state, activeGenerations, unretiredBytes }

/-- Whether the first symbol of one more generation may go out. -/
def mayBegin (sender : Sender) (epoch : ℕ) : Bool :=
  match sender.creditHeld, sender.epochs.get? epoch with
  | some credit, some state =>
    decide (sender.activeGenerations < credit.maxActiveGenerations) &&
      (checkedAdd sender.unretiredBytes state.plan.generationBytes).any fun total =>
        decide (total ≤ credit.maxUnretiredBytes)
  | _, _ => false

/-- Charge one generation before its first symbol is sent. -/
def begin (sender : Sender) (epoch generation : ℕ) : Except (Abort Error) Sender :=
  if ¬ sender.mayBegin epoch then .error (.error .invalidGeometry)
  else match sender.epochs.get? epoch with
    | none => .error .panic
    | some state =>
      if ¬ state.plan.holds generation ∨ (state.generations.get? generation).isSome then
        .error (.error .invalidGeometry)
      else
        match checkedAdd sender.activeGenerations 1,
          checkedAdd sender.unretiredBytes state.plan.generationBytes with
        | some activeGenerations, some unretiredBytes =>
          .ok (sender.put epoch (state.set generation none) activeGenerations unretiredBytes)
        | _, _ => .error .panic

/-- `GEN_STATE`: whether it was news. -/
def state (sender : Sender) (epoch generation : ℕ) (report : Report) :
    Except (Abort Error) (Sender × Bool) :=
  match sender.epochs.get? epoch with
  | none => .ok (sender, false)
  | some known =>
    if ¬ known.plan.holds generation then .error (.error .invalidSymbol)
    else match known.plan.sentSourceCount generation with
      | none => .error .panic
      | some sent =>
        if report.received > known.plan.geometry.symbolCount ∨
            report.missingSources.any fun esi => decide (esi ≥ sent) then
          .error (.error .invalidSymbol)
        else if known.generations.get? generation ≠ some none then .ok (sender, false)
        else if (known.sequences.get? generation).any fun held => decide (report.sequence ≤ held) then
          .ok (sender, false)
        else
          let known :=
            { known with sequences := known.sequences.insert generation report.sequence }
          .ok (sender.put epoch known sender.activeGenerations sender.unretiredBytes, true)

/-- `GEN_DONE` for one generation: whether it was live. -/
def done (sender : Sender) (epoch generation : ℕ) (done : Done) :
    Except (Abort Error) (Sender × Bool) :=
  match sender.epochs.get? epoch with
  | none => .ok (sender, false)
  | some state =>
    if ¬ state.plan.holds generation then .error (.error .invalidSymbol)
    else match state.generations.get? generation with
      | some none =>
        match checkedSub sender.activeGenerations 1,
          checkedSub sender.unretiredBytes state.plan.generationBytes with
        | some activeGenerations, some unretiredBytes =>
          .ok (sender.put epoch (state.set generation (some done)) activeGenerations
            unretiredBytes, true)
        | _, _ => .error .panic
      | some (some earlier) =>
        if earlier ≠ done then .error (.error .invalidSymbol) else .ok (sender, false)
      | none => .ok (sender, false)

/-- Retire every live generation of an epoch and forget it. -/
def close (sender : Sender) (epoch : ℕ) : Option (Sender × Bool) := do
  match sender.epochs.get? epoch with
  | none => return (sender, false)
  | some state =>
    let activeGenerations ← checkedSub sender.activeGenerations state.live
    let bytes ← checkedMul state.live state.plan.generationBytes
    let unretiredBytes ← checkedSub sender.unretiredBytes bytes
    return ({ sender with
      epochs := sender.epochs.erase epoch, activeGenerations, unretiredBytes }, true)

/-- `GEN_DONE` with outcome refused: the receiver never held the epoch. -/
def refused (sender : Sender) (epoch : ℕ) : Option (Sender × Bool) := sender.close epoch

/-- The outcome reported for a generation, nothing inside while it is live. -/
def outcome (sender : Sender) (epoch generation : ℕ) : Option (Option Done) := do
  let state ← sender.epochs.get? epoch
  state.generations.get? generation

end Sender

/-- Identifiers up to the highest one opened are spent. -/
def Sender.Used (sender : Sender) (epoch : ℕ) : Prop :=
  ∃ highest, sender.highestEpoch = some highest ∧ epoch ≤ highest

/-- The sender's table and counters agree. -/
structure Balanced (sender : Sender) : Prop where
  used : ∀ epoch state, sender.epochs.get? epoch = some state → sender.Used epoch
  begun : ∀ epoch state generation, sender.epochs.get? epoch = some state →
    (state.generations.get? generation).isSome → state.plan.holds generation = true
  active : sender.activeGenerations = sender.epochs.total SentEpoch.live
  unretired : sender.unretiredBytes =
    sender.epochs.total fun state => state.live * state.plan.generationBytes
  bounded : sender.unretiredBytes ≤ u64Max

def Begun (sender : Sender) (epoch generation : ℕ) : Prop :=
  ∀ state, sender.epochs.get? epoch = some state → (state.generations.get? generation).isSome

/-- What the sender does of its own accord: it opens unused epochs, begins generations and closes
epochs. Outcomes stay as they are. -/
structure Later (sender sender' : Sender) : Prop where
  used : ∀ epoch, sender.Used epoch → sender'.Used epoch
  kept : ∀ epoch state', sender'.epochs.get? epoch = some state' →
    (¬ sender.Used epoch ∧ ∀ generation, state'.generations.get? generation = none) ∨
    ∃ state, sender.epochs.get? epoch = some state ∧ state'.plan = state.plan ∧ ∀ generation,
      state'.generations.get? generation = state.generations.get? generation ∨
      state.generations.get? generation = none ∧ state'.generations.get? generation = some none

structure Noted (sender : Sender) (epoch generation : ℕ) (done : Done) (sender' : Sender) :
    Prop where
  used : ∀ epoch, sender.Used epoch → sender'.Used epoch
  kept : ∀ epoch' state', sender'.epochs.get? epoch' = some state' →
    ∃ state, sender.epochs.get? epoch' = some state ∧ state'.plan = state.plan ∧ ∀ generation',
      state'.generations.get? generation' =
        if epoch' = epoch ∧ generation' = generation then some (some done)
        else state.generations.get? generation'

section Steps

variable {sender sender' : Sender} {epoch generation : ℕ} {state state' : SentEpoch}

theorem Later.refl (sender : Sender) : Later sender sender :=
  ⟨fun _ h => h, fun _ state' hstate => .inr ⟨state', hstate, rfl, fun _ => .inl rfl⟩⟩

theorem Later.put (hknown : sender.epochs.get? epoch = some state) (state' : SentEpoch)
    (hplan : state'.plan = state.plan)
    (hkept : ∀ generation, state'.generations.get? generation = state.generations.get? generation ∨
      state.generations.get? generation = none ∧ state'.generations.get? generation = some none)
    (active bytes : ℕ) : Later sender (sender.put epoch state' active bytes) := by
  refine ⟨fun other hused => hused, fun other state'' hother => ?_⟩
  rcases get?_insert_eq_some.mp hother with ⟨rfl, rfl⟩ | ⟨-, hother⟩
  · exact .inr ⟨state, hknown, hplan, hkept⟩
  · exact .inr ⟨state'', hother, rfl, fun _ => .inl rfl⟩

theorem Balanced.active_le (h : Balanced sender) : sender.activeGenerations ≤ sender.unretiredBytes := by
  rw [h.active, h.unretired]
  exact total_le_total fun state => Nat.le_mul_of_pos_right _ EpochPlan.generationBytes_pos

theorem Balanced.put (h : Balanced sender) (hknown : sender.epochs.get? epoch = some state)
    (state' : SentEpoch) (hplan : state'.plan = state.plan)
    (hbegun : ∀ generation, (state'.generations.get? generation).isSome →
      state.plan.holds generation = true) {active bytes : ℕ}
    (hactive : active + state.live = sender.activeGenerations + state'.live)
    (hunretired : bytes + state.live * state.plan.generationBytes =
      sender.unretiredBytes + state'.live * state.plan.generationBytes)
    (hbounded : bytes ≤ u64Max) : Balanced (sender.put epoch state' active bytes) := by
  refine ⟨fun other found hother => ?_, fun other found g hother hsome => ?_, ?_, ?_, hbounded⟩
  · rcases get?_insert_eq_some.mp hother with ⟨rfl, -⟩ | ⟨-, hother⟩
    · exact h.used other state hknown
    · exact h.used other found hother
  · rcases get?_insert_eq_some.mp hother with ⟨-, rfl⟩ | ⟨-, hother⟩
    · rw [hplan]
      exact hbegun g hsome
    · exact h.begun other found g hother hsome
  · have htotal := h.active
    rw [total_of_some hknown] at htotal
    simp only [Sender.put, total_insert]
    omega
  · have htotal := h.unretired
    rw [total_of_some hknown] at htotal
    simp only [Sender.put, total_insert, hplan]
    omega

theorem credit_later (sender : Sender) (credit : Credit) :
    Later sender (sender.credit credit).1 := by
  unfold Sender.credit
  split_ifs
  · exact .refl sender
  · exact ⟨fun _ h => h, (Later.refl sender).kept⟩

section

variable (h : Balanced sender)
include h

theorem Balanced.credit (credit : Credit) :
    Balanced (sender.credit credit).1 := by
  unfold Sender.credit
  split_ifs
  · exact h
  · exact ⟨h.used, h.begun, h.active, h.unretired, h.bounded⟩

theorem open_later {plan : EpochPlan} (hopen : sender.open plan = .ok sender') :
    Balanced sender' ∧ Later sender sender' ∧ ¬ sender.Used plan.epoch ∧ sender'.Used plan.epoch ∧
      ∀ state, sender'.epochs.get? plan.epoch = some state → state.plan = plan := by
  unfold Sender.open at hopen
  split_ifs at hopen with hrefused
  obtain rfl := Except.ok.inj hopen
  have hnew : ¬ sender.Used plan.epoch := by
    rintro ⟨highest, hhighest, hle⟩
    simp [hhighest, hle] at hrefused
  have hrise : ∀ epoch, sender.Used epoch → epoch ≤ plan.epoch := by
    rintro epoch ⟨highest, hhighest, hle⟩
    by_contra hlt
    exact hnew ⟨highest, hhighest, by omega⟩
  have habsent : sender.epochs.get? plan.epoch = none := by
    cases hget : sender.epochs.get? plan.epoch with
    | none => rfl
    | some state => exact absurd (h.used plan.epoch state hget) hnew
  have hidle : SentEpoch.live ⟨plan, .empty, .empty⟩ = 0 := rfl
  refine ⟨⟨?_, ?_, ?_, ?_, h.bounded⟩, ⟨?_, ?_⟩, hnew, ⟨plan.epoch, rfl, le_rfl⟩, ?_⟩
  · intro epoch state hstate
    rcases get?_insert_eq_some.mp hstate with ⟨rfl, -⟩ | ⟨-, hstate⟩
    · exact ⟨plan.epoch, rfl, le_rfl⟩
    · exact ⟨plan.epoch, rfl, hrise epoch (h.used epoch state hstate)⟩
  · intro epoch state generation hstate hsome
    rcases get?_insert_eq_some.mp hstate with ⟨-, rfl⟩ | ⟨-, hstate⟩
    · simp at hsome
    · exact h.begun epoch state generation hstate hsome
  · rw [total_insert, erase_of_none habsent, hidle, zero_add]
    exact h.active
  · rw [total_insert, erase_of_none habsent, hidle, zero_mul, zero_add]
    exact h.unretired
  · intro epoch hused
    exact ⟨plan.epoch, rfl, hrise epoch hused⟩
  · intro epoch state' hstate
    rcases get?_insert_eq_some.mp hstate with ⟨rfl, rfl⟩ | ⟨-, hstate⟩
    · exact .inl ⟨hnew, fun _ => get?_empty⟩
    · exact .inr ⟨state', hstate, rfl, fun _ => .inl rfl⟩
  · intro state hstate
    rw [get?_insert_self] at hstate
    obtain rfl := Option.some.inj hstate
    rfl

theorem begin_later (epoch generation : ℕ) :
    (∃ error, sender.begin epoch generation = .error (.error error)) ∨
    ∃ sender', sender.begin epoch generation = .ok sender' ∧ Balanced sender' ∧
      Later sender sender' ∧ ∃ state active bytes, sender.epochs.get? epoch = some state ∧
        state.generations.get? generation = none ∧
        sender' = sender.put epoch (state.set generation none) active bytes := by
  unfold Sender.begin
  split_ifs with hmay
  swap
  · exact .inl ⟨_, rfl⟩
  rw [Sender.mayBegin] at hmay
  cases hheld : sender.creditHeld with
  | none => simp [hheld] at hmay
  | some credit =>
  cases hknown : sender.epochs.get? epoch with
  | none => simp [hheld, hknown] at hmay
  | some state =>
  simp only [hheld, hknown, Bool.and_eq_true, Option.any_eq_true, decide_eq_true_eq,
    checkedAdd_eq_some] at hmay
  obtain ⟨-, total, ⟨htotal, rfl⟩, hcap⟩ := hmay
  by_cases hbad : ¬ state.plan.holds generation = true ∨ (state.generations.get? generation).isSome
  · exact .inl ⟨_, if_pos hbad⟩
  have hactive : sender.activeGenerations + 1 ≤ u64Max := by
    have hle := h.active_le
    have hpos : 0 < state.plan.generationBytes := EpochPlan.generationBytes_pos
    omega
  have habsent : state.generations.get? generation = none := by
    simpa using fun hsome => hbad (.inr hsome)
  have hholds : state.plan.holds generation = true := not_not.mp fun hno => hbad (.inl hno)
  have hlive : (state.set generation none).live = state.live + 1 := by
    simp only [SentEpoch.live, SentEpoch.set, total_insert, erase_of_none habsent]
    exact add_comm _ _
  refine .inr ⟨_, ?_, h.put hknown (state.set generation none) rfl (fun g hsome => ?_) ?_ ?_ htotal,
    .put hknown (state.set generation none) rfl (fun g => ?_) (sender.activeGenerations + 1)
      (sender.unretiredBytes + state.plan.generationBytes), state, _, _, rfl, habsent, rfl⟩
  · simp only [if_neg hbad, checkedAdd_of_le hactive, checkedAdd_of_le htotal]
  · rcases isSome_insert hsome with hsome | rfl
    · exact h.begun epoch state g hknown hsome
    · exact hholds
  · omega
  · rw [hlive, add_mul, one_mul]
    omega
  · by_cases heq : g = generation
    · exact .inr ⟨heq ▸ habsent, by rw [heq, SentEpoch.set, get?_insert_self]⟩
    · exact .inl (get?_insert_of_ne heq)

theorem close_later (epoch : ℕ) :
    ∃ sender' known, sender.close epoch = some (sender', known) ∧ Balanced sender' ∧
      Later sender sender' ∧ (known = false ∧ sender' = sender ∨
        known = true ∧ sender'.epochs = sender.epochs.erase epoch) := by
  cases hknown : sender.epochs.get? epoch with
  | none => exact ⟨sender, false, by simp [Sender.close, hknown], h, .refl sender, .inl ⟨rfl, rfl⟩⟩
  | some state =>
    have hactive := h.active
    have hunretired := h.unretired
    have hbounded := h.bounded
    rw [total_of_some hknown] at hactive hunretired
    refine ⟨⟨sender.creditHeld, sender.epochs.erase epoch, sender.highestEpoch,
      sender.activeGenerations - state.live,
      sender.unretiredBytes - state.live * state.plan.generationBytes⟩, true, ?_,
      ⟨fun other found hother => ?_, fun other found g hother => ?_, ?_, ?_, ?_⟩,
      ⟨fun other hused => hused, fun other found hother => ?_⟩, .inr ⟨rfl, rfl⟩⟩
    · rw [Sender.close, hknown]
      simp only
      rw [checkedSub_of_le (by omega), some_bind, checkedMul_eq_some.mpr ⟨by omega, rfl⟩, some_bind,
        checkedSub_of_le (by omega)]
      rfl
    · exact h.used other found (get?_erase_eq_some.mp hother).2
    · exact h.begun other found g (get?_erase_eq_some.mp hother).2
    · simp only
      omega
    · simp only
      omega
    · simp only
      omega
    · exact .inr ⟨found, (get?_erase_eq_some.mp hother).2, rfl, fun _ => .inl rfl⟩

/-- A report within the bounds of the sender's plan is accepted or ignored. -/
theorem state_later {report : Report}
    (hreport : ∀ state, sender.epochs.get? epoch = some state →
      state.plan.holds generation = true ∧ Reported state.plan generation report) :
    ∃ sender' news, sender.state epoch generation report = .ok (sender', news) ∧ Balanced sender' ∧
      Later sender sender' := by
  unfold Sender.state
  cases hknown : sender.epochs.get? epoch with
  | none => exact ⟨sender, false, rfl, h, .refl sender⟩
  | some known =>
  obtain ⟨hholds, hreported⟩ := hreport known hknown
  have hinside : ¬ (report.received > known.plan.geometry.symbolCount ∨
      (report.missingSources.any fun esi => decide (esi ≥ known.plan.sentSources generation)) =
        true) := by
    rintro (hover | hpast)
    · exact absurd hreported.received (by omega)
    · obtain ⟨esi, hesi, hge⟩ := List.any_eq_true.mp hpast
      have := hreported.sent esi hesi
      simp only [decide_eq_true_eq] at hge
      omega
  simp only [hholds, not_true_eq_false, if_false, EpochPlan.sentSourceCount_eq hholds, if_neg hinside]
  split_ifs
  · exact ⟨sender, false, rfl, h, .refl sender⟩
  · exact ⟨sender, false, rfl, h, .refl sender⟩
  · let known' : SentEpoch :=
      ⟨known.plan, known.generations, known.sequences.insert generation report.sequence⟩
    exact ⟨_, true, rfl,
      h.put hknown known' rfl (fun g hsome => h.begun epoch known g hknown hsome) rfl rfl h.bounded,
      .put hknown known' rfl (fun g => .inl rfl) _ _⟩

theorem done_noted {done : Done}
    (hagree : ∀ state, sender.epochs.get? epoch = some state →
      state.generations.get? generation = some (some done) ∨
      state.generations.get? generation = some none) :
    ∃ sender' live, sender.done epoch generation done = .ok (sender', live) ∧ Balanced sender' ∧
      Noted sender epoch generation done sender' := by
  unfold Sender.done
  cases hknown : sender.epochs.get? epoch with
  | none =>
    refine ⟨sender, false, rfl, h, fun _ hused => hused, fun other state hother =>
      ⟨state, hother, rfl, fun g => ?_⟩⟩
    rw [if_neg]
    rintro ⟨rfl, -⟩
    rw [hknown] at hother
    cases hother
  | some state =>
  have hholds : state.plan.holds generation = true :=
    h.begun epoch state generation hknown
      (by rcases hagree state hknown with heq | heq <;> rw [heq] <;> rfl)
  simp only [hholds, not_true_eq_false, if_false]
  rcases hagree state hknown with hrecorded | hlive
  · simp only [hrecorded, ne_eq, not_true_eq_false, if_false]
    refine ⟨sender, false, rfl, h, fun _ hused => hused, fun other found hother =>
      ⟨found, hother, rfl, fun g => ?_⟩⟩
    split_ifs with heq
    · obtain ⟨rfl, rfl⟩ := heq
      obtain rfl := Option.some.inj (hknown.symm.trans hother)
      exact hrecorded
    · rfl
  · have hactive := h.active
    have hunretired := h.unretired
    rw [total_of_some hknown] at hactive hunretired
    have hcount : state.live = (state.set generation (some done)).live + 1 := by
      simp only [SentEpoch.live, SentEpoch.set, total_insert, total_of_some hlive]
      simp [add_comm]
    rw [hcount, add_mul, one_mul] at hunretired
    refine ⟨sender.put epoch (state.set generation (some done)) (sender.activeGenerations - 1)
      (sender.unretiredBytes - state.plan.generationBytes), true, ?_,
      h.put hknown (state.set generation (some done)) rfl (fun g hsome => ?_) ?_ ?_
        ((Nat.sub_le _ _).trans h.bounded), fun _ hused => hused, fun other found hother => ?_⟩
    · simp only [hlive, checkedSub_of_le (show 1 ≤ sender.activeGenerations by omega),
        checkedSub_of_le (show state.plan.generationBytes ≤ sender.unretiredBytes by omega)]
    · rcases isSome_insert hsome with hsome | rfl
      · exact h.begun epoch state g hknown hsome
      · exact hholds
    · omega
    · rw [hcount, add_mul, one_mul]
      omega
    · rcases get?_insert_eq_some.mp hother with ⟨rfl, rfl⟩ | ⟨hne, hother⟩
      · refine ⟨state, hknown, rfl, fun g => ?_⟩
        by_cases heq : g = generation
        · simp [heq, SentEpoch.set]
        · simp [heq, SentEpoch.set, get?_insert_of_ne]
      · exact ⟨found, hother, rfl, fun g => by rw [if_neg fun hcon => hne hcon.1]⟩

end

end Steps

end ObjectTransfer.Fec
