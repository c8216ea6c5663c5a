import ObjectTransfer.Fec.Sending

/-! # Any calls on the sending end

The calls a session makes on a fresh sender, in any order and with any arguments. No call panics, the
counters are those of the live generations, and what was accepted stays settled: identifiers are
spent once, sequences rise, outcomes stay.
-/

namespace ObjectTransfer.Fec
open Foundations List OrderedMap Sender

inductive SenderCall where
  | credit (credit : Credit)
  | open (plan : EpochPlan)
  | begin (epoch generation : ℕ)
  | state (epoch generation : ℕ) (report : Report)
  | done (epoch generation : ℕ) (done : Done)
  | refused (epoch : ℕ)
  | close (epoch : ℕ)

/-- What a call returned: `Ok` or `true`, `Ok(false)` or `false`, or an error. -/
inductive Response where
  | took
  | ignored
  | error (error : Error)
  deriving DecidableEq

def Response.ofBool (news : Bool) : Response := if news then .took else .ignored

namespace Sender

/-- The sender after a call that may fail; a panic is `none`. -/
def settle (sender : Sender) : Except (Abort Error) (Sender × Bool) → Option (Sender × Response)
  | .ok (sender', news) => some (sender', .ofBool news)
  | .error (.error error) => some (sender, .error error)
  | .error .panic => none

def call (sender : Sender) : SenderCall → Option (Sender × Response)
  | .credit credit => sender.settle (.ok (sender.credit credit))
  | .open plan =>
    match sender.open plan with
    | .ok sender' => some (sender', .took)
    | .error error => some (sender, .error error)
  | .begin epoch generation => sender.settle ((sender.begin epoch generation).map (·, true))
  | .state epoch generation report => sender.settle (sender.state epoch generation report)
  | .done epoch generation done => sender.settle (sender.done epoch generation done)
  | .refused epoch => (sender.refused epoch).map fun (sender', known) => (sender', .ofBool known)
  | .close epoch => (sender.close epoch).map fun (sender', known) => (sender', .ofBool known)

def calls (sender : Sender) : List SenderCall → Option (Sender × List (SenderCall × Response))
  | [] => some (sender, [])
  | call :: rest => do
    let (next, answer) ← sender.call call
    let (last, log) ← next.calls rest
    return (last, (call, answer) :: log)

/-- What is held of an open epoch: its plan, and the generations begun with their outcomes. -/
def known (sender : Sender) (epoch : ℕ) : Option (EpochPlan × OrderedMap ℕ (Option Done)) :=
  (sender.epochs.get? epoch).map fun state => (state.plan, state.generations)

/-- A state sequence that may still be accepted for a generation. -/
def Fresh (sender : Sender) (epoch generation sequence : ℕ) : Prop :=
  ¬ sender.Used epoch ∨ ∃ state, sender.epochs.get? epoch = some state ∧
    ∀ held, state.sequences.get? generation = some held → held < sequence

/-- The outcome of a generation, as long as its epoch is open. -/
def Settled (sender : Sender) (epoch generation : ℕ) (done : Done) : Prop :=
  sender.Used epoch ∧ ∀ state, sender.epochs.get? epoch = some state →
    state.generations.get? generation = some (some done)

end Sender

def opened (log : List (SenderCall × Response)) : List ℕ :=
  log.filterMap fun
    | (.open plan, .took) => some plan.epoch
    | _ => none

def accepted (epoch generation : ℕ) (log : List (SenderCall × Response)) : List ℕ :=
  log.filterMap fun
    | (.state epoch' generation' report, .took) =>
      if epoch' = epoch ∧ generation' = generation then some report.sequence else none
    | _ => none

/-- What an answered call says of an epoch. Only the calls that were accepted count. -/
def heard (epoch : ℕ) (known : Option (EpochPlan × OrderedMap ℕ (Option Done))) :
    SenderCall × Response → Option (EpochPlan × OrderedMap ℕ (Option Done))
  | (.open plan, .took) => if plan.epoch = epoch then some (plan, .empty) else known
  | (.begin epoch' generation, .took) =>
    if epoch' = epoch then known.map fun (plan, begun) => (plan, begun.insert generation none)
    else known
  | (.done epoch' generation done, .took) =>
    if epoch' = epoch then known.map fun (plan, begun) => (plan, begun.insert generation (some done))
    else known
  | (.refused epoch', .took) | (.close epoch', .took) => if epoch' = epoch then none else known
  | _ => known

/-- What never goes back: identifiers stay used, an epoch that was not open has an unused one, and
one that was keeps its outcomes and its sequences. -/
structure Onward (sender sender' : Sender) : Prop where
  used : ∀ epoch, sender.Used epoch → sender'.Used epoch
  kept : ∀ epoch state', sender'.epochs.get? epoch = some state' → ¬ sender.Used epoch ∨
    ∃ state, sender.epochs.get? epoch = some state ∧
      (∀ generation done, state.generations.get? generation = some (some done) →
        state'.generations.get? generation = some (some done)) ∧
      ∀ generation held, state.sequences.get? generation = some held →
        ∃ held', state'.sequences.get? generation = some held' ∧ held ≤ held'

/-- What an accepted call found, and what it left. -/
def Taken (sender sender' : Sender) : SenderCall → Prop
  | .open plan => ¬ sender.Used plan.epoch ∧ sender'.Used plan.epoch
  | .state epoch generation report => sender.Fresh epoch generation report.sequence ∧
      ∃ state', sender'.epochs.get? epoch = some state' ∧
        state'.sequences.get? generation = some report.sequence
  | _ => True

structure Served (sender : Sender) (call : SenderCall) (sender' : Sender) (answer : Response) :
    Prop where
  balanced : Balanced sender'
  onward : Onward sender sender'
  unchanged : answer ≠ .took → sender' = sender
  taken : answer = .took → Taken sender sender' call
  heard : ∀ epoch, sender'.known epoch = heard epoch (sender.known epoch) (call, answer)

section Calls

variable {sender sender' : Sender} {epoch generation : ℕ} {state : SentEpoch}

theorem Onward.refl (sender : Sender) : Onward sender sender :=
  ⟨fun _ h => h, fun _ state' hstate => .inr ⟨state', hstate, fun _ _ h => h,
    fun _ held h => ⟨held, h, le_rfl⟩⟩⟩

theorem Onward.put (hknown : sender.epochs.get? epoch = some state) (state' : SentEpoch)
    (hgenerations : ∀ generation done, state.generations.get? generation = some (some done) →
      state'.generations.get? generation = some (some done))
    (hsequences : ∀ generation held, state.sequences.get? generation = some held →
      ∃ held', state'.sequences.get? generation = some held' ∧ held ≤ held')
    (active bytes : ℕ) : Onward sender (sender.put epoch state' active bytes) := by
  refine ⟨fun _ hused => hused, fun other found hother => .inr ?_⟩
  rcases get?_insert_eq_some.mp hother with ⟨rfl, rfl⟩ | ⟨-, hother⟩
  · exact ⟨state, hknown, hgenerations, hsequences⟩
  · exact ⟨found, hother, fun _ _ h => h, fun _ held h => ⟨held, h, le_rfl⟩⟩

theorem Onward.set (hknown : sender.epochs.get? epoch = some state)
    (hlive : ∀ done, state.generations.get? generation ≠ some (some done)) (outcome : Option Done)
    (active bytes : ℕ) :
    Onward sender (sender.put epoch (state.set generation outcome) active bytes) := by
  refine .put hknown (state.set generation outcome) (fun g done hdone => ?_)
    (fun _ held h => ⟨held, h, le_rfl⟩) active bytes
  have hne : g ≠ generation := by
    rintro rfl
    exact hlive done hdone
  rwa [SentEpoch.set, get?_insert_of_ne hne]

variable {call : SenderCall} {answer : Response}

theorem heard_ignored (h : answer ≠ .took) {known : Option (EpochPlan × OrderedMap ℕ (Option Done))} :
    heard epoch known (call, answer) = known := by
  cases answer with
  | took => exact absurd rfl h
  | _ => cases call <;> rfl

theorem known_insert {state' : SentEpoch} (h : sender'.epochs = sender.epochs.insert epoch state')
    (other : ℕ) : sender'.known other =
      if epoch = other then some (state'.plan, state'.generations) else sender.known other := by
  unfold Sender.known
  rw [h]
  split_ifs with heq
  · rw [heq, get?_insert_self, Option.map_some]
  · rw [get?_insert_of_ne (Ne.symm heq)]

theorem known_set (hknown : sender.epochs.get? epoch = some state) (outcome : Option Done)
    (active bytes other : ℕ) :
    (sender.put epoch (state.set generation outcome) active bytes).known other =
      if epoch = other then
        (sender.known other).map fun (plan, begun) => (plan, begun.insert generation outcome)
      else sender.known other := by
  rw [known_insert rfl]
  split_ifs with heq
  · rw [← heq, Sender.known, hknown]
    rfl
  · rfl

section

variable (h : Balanced sender)
include h

theorem Served.same (hanswer : answer ≠ .took) : Served sender call sender answer :=
  ⟨h, .refl sender, fun _ => rfl, fun htook => absurd htook hanswer,
    fun _ => (heard_ignored hanswer).symm⟩

theorem open_served {plan : EpochPlan} (hopen : sender.open plan = .ok sender') :
    Served sender (.open plan) sender' .took := by
  obtain ⟨hbalanced, hlater, hnew, hused, -⟩ := open_later h hopen
  unfold Sender.open at hopen
  split_ifs at hopen
  obtain rfl := Except.ok.inj hopen
  refine ⟨hbalanced, ⟨hlater.used, fun epoch state' hstate => ?_⟩, fun hno => absurd rfl hno,
    fun _ => ⟨hnew, hused⟩, fun epoch => ?_⟩
  · rcases get?_insert_eq_some.mp hstate with ⟨rfl, -⟩ | ⟨-, hstate⟩
    · exact .inl hnew
    · exact .inr ⟨state', hstate, fun _ _ h => h, fun _ held h => ⟨held, h, le_rfl⟩⟩
  · rw [known_insert rfl]
    rfl

theorem close_served (epoch : ℕ) (hcall : call = .refused epoch ∨ call = .close epoch) :
    ∃ sender' known,
      sender.close epoch = some (sender', known) ∧ Served sender call sender' (.ofBool known) := by
  obtain ⟨sender', known, hclose, hbalanced, hlater, hcases⟩ := close_later h epoch
  refine ⟨sender', known, hclose, ?_⟩
  rcases hcases with ⟨rfl, rfl⟩ | ⟨rfl, hepochs⟩
  · exact .same h nofun
  · refine ⟨hbalanced, ⟨hlater.used, fun other found hother => .inr ?_⟩, fun hno => absurd rfl hno,
      fun _ => ?_, fun other => ?_⟩
    · rw [hepochs] at hother
      exact ⟨found, (get?_erase_eq_some.mp hother).2, fun _ _ h => h,
        fun _ held h => ⟨held, h, le_rfl⟩⟩
    · rcases hcall with rfl | rfl <;> trivial
    · have hheard : heard other (sender.known other) (call, .ofBool true) =
          if epoch = other then none else sender.known other := by
        rcases hcall with rfl | rfl <;> rfl
      rw [hheard, Sender.known, hepochs]
      split_ifs with heq
      · rw [heq, get?_erase_self, Option.map_none]
      · rw [get?_erase_of_ne (Ne.symm heq), Sender.known]

theorem state_served (epoch generation : ℕ) (report : Report) :
    ∃ sender' answer, sender.settle (sender.state epoch generation report) = some (sender', answer) ∧
      Served sender (.state epoch generation report) sender' answer := by
  unfold state
  cases hknown : sender.epochs.get? epoch with
  | none => exact ⟨sender, .ignored, rfl, .same h nofun⟩
  | some known =>
  by_cases hholds : known.plan.holds generation = true
  swap
  · simp only [hholds]
    exact ⟨sender, _, rfl, .same h nofun⟩
  simp only [hholds, not_true_eq_false, if_false, EpochPlan.sentSourceCount_eq hholds]
  split_ifs with hbad hlive hstale
  iterate 3 exact ⟨sender, _, rfl, .same h nofun⟩
  have hnewer : ∀ held, known.sequences.get? generation = some held → held < report.sequence := by
    intro held hheld
    simpa [hheld] using hstale
  let known' : SentEpoch :=
    ⟨known.plan, known.generations, known.sequences.insert generation report.sequence⟩
  refine ⟨_, .took, rfl,
    h.put hknown known' rfl (fun g => h.begun epoch known g hknown) rfl rfl h.bounded,
    .put hknown known' (fun _ _ hdone => hdone) (fun g held hheld => ?_) _ _,
    fun hno => absurd rfl hno, fun _ => ⟨.inr ⟨known, hknown, hnewer⟩, known',
      get?_insert_self, get?_insert_self⟩, fun other => ?_⟩
  · by_cases heq : g = generation
    · subst heq
      exact ⟨_, get?_insert_self, (hnewer held hheld).le⟩
    · exact ⟨held, by rwa [get?_insert_of_ne heq], le_rfl⟩
  · rw [known_insert rfl]
    change _ = sender.known other
    split_ifs with heq
    · rw [← heq, Sender.known, hknown]
      rfl
    · rfl

theorem done_served (epoch generation : ℕ) (done : Done) :
    ∃ sender' answer, sender.settle (sender.done epoch generation done) = some (sender', answer) ∧
      Served sender (.done epoch generation done) sender' answer := by
  cases hknown : sender.epochs.get? epoch with
  | none => exact ⟨sender, .ignored, by simp [Sender.done, hknown]; rfl, .same h nofun⟩
  | some state =>
  by_cases hholds : state.plan.holds generation = true
  swap
  · exact ⟨sender, .error .invalidSymbol, by simp [Sender.done, hknown, hholds]; rfl, .same h nofun⟩
  match hget : state.generations.get? generation with
  | none => exact ⟨sender, .ignored, by simp [Sender.done, hknown, hholds, hget]; rfl, .same h nofun⟩
  | some (some earlier) =>
    by_cases heq : earlier = done
    · exact ⟨sender, .ignored, by simp [Sender.done, hknown, hholds, hget, heq]; rfl, .same h nofun⟩
    · exact ⟨sender, .error .invalidSymbol, by simp [Sender.done, hknown, hholds, hget, heq]; rfl,
        .same h nofun⟩
  | some none =>
    have hagree : ∀ found, sender.epochs.get? epoch = some found →
        found.generations.get? generation = some (some done) ∨
        found.generations.get? generation = some none := by
      intro found hfound
      obtain rfl := Option.some.inj (hknown.symm.trans hfound)
      exact .inr hget
    obtain ⟨sender', live, hdone, hbalanced, -⟩ := done_noted h hagree
    refine ⟨sender', .ofBool live, by rw [hdone]; rfl, ?_⟩
    simp only [Sender.done, hknown, hholds, not_true_eq_false, if_false, hget] at hdone
    split at hdone
    · obtain ⟨rfl, rfl⟩ := Prod.mk.inj (Except.ok.inj hdone)
      refine ⟨hbalanced, .set hknown (fun done hsome => ?_) _ _ _, fun hno => absurd rfl hno,
        fun _ => trivial, known_set hknown _ _ _⟩
      rw [hget] at hsome
      cases hsome
    · cases hdone

theorem call_served (call : SenderCall) :
    ∃ sender' answer, sender.call call = some (sender', answer) ∧
      Served sender call sender' answer := by
  cases call with
  | credit credit =>
    have hbalanced := h.credit credit
    rw [call]
    unfold Sender.credit at hbalanced ⊢
    split_ifs at hbalanced ⊢
    · exact ⟨sender, .ignored, rfl, .same h nofun⟩
    · exact ⟨_, .took, rfl, hbalanced, ⟨fun _ hused => hused, (Onward.refl sender).kept⟩,
        fun hno => absurd rfl hno, fun _ => trivial, fun _ => rfl⟩
  | «open» plan =>
    rw [call]
    cases hopen : sender.open plan with
    | ok sender' => exact ⟨sender', .took, rfl, open_served h hopen⟩
    | error error => exact ⟨sender, .error error, rfl, .same h nofun⟩
  | begin epoch generation =>
    rw [call]
    rcases begin_later h epoch generation with
      ⟨error, hbegin⟩ | ⟨sender', hbegin, hbalanced, -, state, active, bytes, hknown, hnone, rfl⟩
    · exact ⟨sender, .error error, by rw [hbegin]; rfl, .same h nofun⟩
    · exact ⟨_, .took, by rw [hbegin]; rfl, hbalanced, .set hknown (by simp [hnone]) none _ _,
        fun hno => absurd rfl hno, fun _ => trivial, known_set hknown none _ _⟩
  | state epoch generation report => exact state_served h epoch generation report
  | done epoch generation done => exact done_served h epoch generation done
  | refused epoch =>
    obtain ⟨sender', known, hclose, hserved⟩ := close_served h epoch (.inl rfl)
    exact ⟨sender', .ofBool known, by rw [call, refused, hclose]; rfl, hserved⟩
  | close epoch =>
    obtain ⟨sender', known, hclose, hserved⟩ := close_served h epoch (.inr rfl)
    exact ⟨sender', .ofBool known, by rw [call, hclose]; rfl, hserved⟩

end

/-- A sequence that is acceptable after a call was so before it. -/
theorem Onward.fresh (h : Onward sender sender') {sequence : ℕ}
    (hfresh : sender'.Fresh epoch generation sequence) : sender.Fresh epoch generation sequence := by
  rcases hfresh with hunused | ⟨state', hstate, hbelow⟩
  · exact .inl fun hused => hunused (h.used epoch hused)
  · rcases h.kept epoch state' hstate with hunused | ⟨state, hknown, -, hsequences⟩
    · exact .inl hunused
    · refine .inr ⟨state, hknown, fun held hheld => ?_⟩
      obtain ⟨held', hheld', hle⟩ := hsequences generation held hheld
      exact hle.trans_lt (hbelow held' hheld')

theorem Onward.settled (h : Onward sender sender') {done : Done}
    (hsettled : sender.Settled epoch generation done) : sender'.Settled epoch generation done := by
  refine ⟨h.used epoch hsettled.1, fun state' hstate => ?_⟩
  rcases h.kept epoch state' hstate with hunused | ⟨state, hknown, hgenerations, -⟩
  · exact absurd hsettled.1 hunused
  · exact hgenerations generation done (hsettled.2 state hknown)

/-- What holds of the answers to any calls. -/
structure Course (sender sender' : Sender) (log : List (SenderCall × Response)) : Prop where
  balanced : Balanced sender'
  unused : ∀ epoch ∈ opened log, ¬ sender.Used epoch
  once : (opened log).Nodup
  fresh : ∀ epoch generation, ∀ sequence ∈ accepted epoch generation log,
    sender.Fresh epoch generation sequence
  rising : ∀ epoch generation, (accepted epoch generation log).Pairwise (· < ·)
  settled : ∀ epoch generation done, sender.Settled epoch generation done →
    sender'.Settled epoch generation done
  heard : ∀ epoch, sender'.known epoch = log.foldl (heard epoch) (sender.known epoch)

theorem Course.nil (h : Balanced sender) : Course sender sender [] :=
  ⟨h, nofun, .nil, nofun, fun _ _ => .nil, fun _ _ _ hsettled => hsettled, fun _ => rfl⟩

variable {log : List (SenderCall × Response)} {last : Sender}

theorem Course.opened_cons (hserved : Served sender call sender' answer)
    (hcourse : Course sender' last log) :
    (∀ epoch ∈ opened ((call, answer) :: log), ¬ sender.Used epoch) ∧
      (opened ((call, answer) :: log)).Nodup := by
  have hrest : ∀ epoch ∈ opened log, ¬ sender.Used epoch := fun epoch hmem hused =>
    hcourse.unused epoch hmem (hserved.onward.used epoch hused)
  by_cases htook : ∃ plan, call = .open plan ∧ answer = .took
  · obtain ⟨plan, rfl, rfl⟩ := htook
    obtain ⟨hnew, hused⟩ := hserved.taken rfl
    have hlist : opened ((.open plan, .took) :: log) = plan.epoch :: opened log := rfl
    rw [hlist, forall_mem_cons, nodup_cons]
    exact ⟨⟨hnew, hrest⟩, fun hmem => hcourse.unused _ hmem hused, hcourse.once⟩
  · have hlist : opened ((call, answer) :: log) = opened log := by
      refine filterMap_cons_none ?_
      split
      next plan heq =>
        obtain ⟨rfl, rfl⟩ := Prod.mk.inj heq
        exact absurd ⟨plan, rfl, rfl⟩ htook
      next => rfl
    rw [hlist]
    exact ⟨hrest, hcourse.once⟩

theorem Course.accepted_cons (hserved : Served sender call sender' answer)
    (hcourse : Course sender' last log) (epoch generation : ℕ) :
    (∀ sequence ∈ accepted epoch generation ((call, answer) :: log),
      sender.Fresh epoch generation sequence) ∧
    (accepted epoch generation ((call, answer) :: log)).Pairwise (· < ·) := by
  have hrest : ∀ sequence ∈ accepted epoch generation log,
      sender.Fresh epoch generation sequence := fun sequence hmem =>
    hserved.onward.fresh (hcourse.fresh epoch generation sequence hmem)
  by_cases htook : ∃ report, call = .state epoch generation report ∧ answer = .took
  · obtain ⟨report, rfl, rfl⟩ := htook
    obtain ⟨hnew, state', hstate, hheld⟩ := hserved.taken rfl
    have hlist : accepted epoch generation ((.state epoch generation report, .took) :: log) =
        report.sequence :: accepted epoch generation log :=
      filterMap_cons_some (if_pos ⟨rfl, rfl⟩)
    rw [hlist, forall_mem_cons, pairwise_cons]
    refine ⟨⟨hnew, hrest⟩, fun sequence hmem => ?_, hcourse.rising epoch generation⟩
    rcases hcourse.fresh epoch generation sequence hmem with hunused | ⟨found, hfound, hbelow⟩
    · exact absurd (hserved.balanced.used epoch state' hstate) hunused
    · obtain rfl := Option.some.inj (hstate.symm.trans hfound)
      exact hbelow _ hheld
  · have hlist : accepted epoch generation ((call, answer) :: log) =
        accepted epoch generation log := by
      refine filterMap_cons_none ?_
      split
      next report heq =>
        obtain ⟨rfl, rfl⟩ := Prod.mk.inj heq
        exact if_neg fun ⟨he, hg⟩ => htook ⟨report, by rw [he, hg], rfl⟩
      next => rfl
    rw [hlist]
    exact ⟨hrest, hcourse.rising epoch generation⟩

theorem calls_course (h : Balanced sender) (calls : List SenderCall) :
    ∃ last log, sender.calls calls = some (last, log) ∧ Course sender last log := by
  induction calls generalizing sender with
  | nil => exact ⟨sender, [], rfl, .nil h⟩
  | cons call calls ih =>
    obtain ⟨next, answer, hcall, hserved⟩ := call_served h call
    obtain ⟨last, log, hcalls, hcourse⟩ := ih hserved.balanced
    refine ⟨last, (call, answer) :: log, ?_, hcourse.balanced,
      (hcourse.opened_cons hserved).1, (hcourse.opened_cons hserved).2,
      fun epoch generation => (hcourse.accepted_cons hserved epoch generation).1,
      fun epoch generation => (hcourse.accepted_cons hserved epoch generation).2,
      fun epoch generation done hsettled =>
        hcourse.settled epoch generation done (hserved.onward.settled hsettled), fun epoch => ?_⟩
    · rw [Sender.calls, hcall, Option.bind_eq_bind, Option.bind_some]
      dsimp only
      rw [hcalls]
      rfl
    · rw [foldl_cons, ← hserved.heard epoch, hcourse.heard epoch]

end Calls

theorem Balanced.new : Balanced Sender.new :=
  ⟨nofun, nofun, rfl, rfl, Nat.zero_le _⟩

/-- However a fresh sender is called: no call panics, its epochs hold what the accepted calls opened,
began and ended, the counters are those of the live generations of these epochs, no identifier is
opened twice, sequences rise, recorded outcomes stay until the epoch is closed, and a call that takes
nothing changes nothing. -/
theorem sender_accounting (calls : List SenderCall) :
    ∃ sender log, Sender.new.calls calls = some (sender, log) ∧
      (∀ epoch, sender.known epoch = log.foldl (heard epoch) none) ∧
      sender.activeGenerations = sender.epochs.total SentEpoch.live ∧
      sender.unretiredBytes =
        (sender.epochs.total fun state => state.live * state.plan.generationBytes) ∧
      sender.activeGenerations ≤ u64Max ∧ sender.unretiredBytes ≤ u64Max ∧
      (opened log).Nodup ∧
      (∀ epoch generation, (accepted epoch generation log).Pairwise (· < ·)) ∧
      (∀ epoch generation done, sender.outcome epoch generation = some (some done) →
        ∀ later, ∃ last log', sender.calls later = some (last, log') ∧
          (last.outcome epoch generation = some (some done) ∨ last.epochs.get? epoch = none)) ∧
      ∀ call, ∃ next answer, sender.call call = some (next, answer) ∧
        (answer ≠ .took → next = sender) := by
  obtain ⟨sender, log, hcalls, hcourse⟩ := calls_course .new calls
  have hbalanced := hcourse.balanced
  refine ⟨sender, log, hcalls, hcourse.heard, hbalanced.active, hbalanced.unretired,
    hbalanced.active_le.trans hbalanced.bounded, hbalanced.bounded, hcourse.once, hcourse.rising,
    fun epoch generation done houtcome later => ?_, fun call => ?_⟩
  · obtain ⟨state, hstate, hdone⟩ := Option.bind_eq_some_iff.mp houtcome
    have hsettled : sender.Settled epoch generation done := by
      refine ⟨hbalanced.used epoch state hstate, fun found hfound => ?_⟩
      obtain rfl := Option.some.inj (hstate.symm.trans hfound)
      exact hdone
    obtain ⟨last, log', hlater, hafter⟩ := calls_course hbalanced later
    refine ⟨last, log', hlater, ?_⟩
    cases hlast : last.epochs.get? epoch with
    | none => exact .inr rfl
    | some found =>
      refine .inl (Option.bind_eq_some_iff.mpr ⟨found, hlast, ?_⟩)
      exact (hafter.settled epoch generation done hsettled).2 found hlast
  · obtain ⟨next, answer, hcall, hserved⟩ := call_served hbalanced call
    exact ⟨next, answer, hcall, hserved.unchanged⟩

end ObjectTransfer.Fec
