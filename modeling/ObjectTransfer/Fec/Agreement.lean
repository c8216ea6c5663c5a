import ObjectTransfer.Fec.Session

/-! # Honest peers agree

The invariant that ties what is in flight to both tables. Identifiers are never reused, so what a
frame says about an epoch stays true of the sender's table until the sender closes the epoch; a
generation ends once at the receiver, and its outcome is recorded by the sender or on its way.
-/

namespace ObjectTransfer.Fec
open Foundations Codec List OrderedMap

def Forward.opens : Forward → Option ℕ
  | .epochOpen plan => some plan.epoch
  | .epochClose _ => none

/-- What holds between the two tables and the channels. -/
structure Linked (session : Session) : Prop where
  opens : ∀ plan, .epochOpen plan ∈ session.forward → session.sender.Used plan.epoch ∧
    (∀ sent, session.sender.epochs.get? plan.epoch = some sent → sent.plan = plan) ∧
    session.receiver.epochs.get? plan.epoch = none ∧
    ∀ result ∈ session.results, result.1.1 ≠ plan.epoch
  distinct : (session.forward.filterMap Forward.opens).Nodup
  held : ∀ epoch state, session.receiver.epochs.get? epoch = some state →
    session.sender.Used epoch ∧
    (∀ sent, session.sender.epochs.get? epoch = some sent → sent.plan = state.plan) ∧
    ∀ generation, (state.live.get? generation).isSome → Begun session.sender epoch generation
  symbols : ∀ datagram ∈ session.datagrams, session.sender.Used datagram.epoch ∧
    Begun session.sender datagram.epoch datagram.generation
  states : ∀ epoch generation report, .state epoch generation report ∈ session.backward →
    session.sender.Used epoch ∧ ∀ sent, session.sender.epochs.get? epoch = some sent →
      sent.plan.holds generation = true ∧ Reported sent.plan generation report
  dones : ∀ epoch generation done, .done epoch generation (Done.outcome done) ∈ session.backward →
    ((epoch, generation), done) ∈ session.results
  ended : ∀ epoch generation done, ((epoch, generation), done) ∈ session.results →
    session.sender.Used epoch ∧
    (∀ state, session.receiver.epochs.get? epoch = some state →
      state.isDone generation = some true) ∧
    ∀ sent, session.sender.epochs.get? epoch = some sent →
      sent.generations.get? generation = some (some done) ∨
      sent.generations.get? generation = some none ∧
        .done epoch generation done.outcome ∈ session.backward
  once : (session.results.map Prod.fst).Nodup
  recorded : ∀ epoch sent generation done, session.sender.epochs.get? epoch = some sent →
    sent.generations.get? generation = some (some done) →
    ((epoch, generation), done) ∈ session.results

variable {plan : EpochPlan} {datagram : Datagram} {epoch generation : ℕ}

section Sender

variable {session : Session} {sender' : Sender}

theorem Later.begun (h : Later session.sender sender') (hused : session.sender.Used epoch)
    (hbegun : Begun session.sender epoch generation) : Begun sender' epoch generation := by
  intro sent' hsent'
  rcases h.kept epoch sent' hsent' with ⟨hnew, -⟩ | ⟨sent, hsent, -, hkept⟩
  · exact absurd hused hnew
  · rcases hkept generation with heq | ⟨-, heq⟩
    · rw [heq]
      exact hbegun sent hsent
    · rw [heq]
      rfl

theorem Later.same (h : Later session.sender sender') (hused : session.sender.Used epoch)
    {sent' : SentEpoch} (hsent' : sender'.epochs.get? epoch = some sent') :
    ∃ sent, session.sender.epochs.get? epoch = some sent ∧ sent'.plan = sent.plan ∧
      ∀ generation outcome, sent.generations.get? generation = some outcome →
        sent'.generations.get? generation = some outcome := by
  rcases h.kept epoch sent' hsent' with ⟨hnew, -⟩ | ⟨sent, hsent, hplan, hkept⟩
  · exact absurd hused hnew
  · refine ⟨sent, hsent, hplan, fun generation outcome hsome => ?_⟩
    rcases hkept generation with heq | ⟨heq, -⟩
    · rw [heq, hsome]
    · rw [hsome] at heq
      cases heq

theorem Linked.later (h : Linked session) (hlater : Later session.sender sender') :
    Linked { session with sender := sender' } where
  opens plan hplan := by
    obtain ⟨hused, hsame, habsent, hresults⟩ := h.opens plan hplan
    refine ⟨hlater.used _ hused, fun sent' hsent' => ?_, habsent, hresults⟩
    obtain ⟨sent, hsent, heq, -⟩ := hlater.same hused hsent'
    exact heq.trans (hsame sent hsent)
  distinct := h.distinct
  held epoch state hstate := by
    obtain ⟨hused, hsame, hlive⟩ := h.held epoch state hstate
    refine ⟨hlater.used _ hused, fun sent' hsent' => ?_, fun generation hsome =>
      hlater.begun hused (hlive generation hsome)⟩
    obtain ⟨sent, hsent, heq, -⟩ := hlater.same hused hsent'
    exact heq.trans (hsame sent hsent)
  symbols datagram hmem := by
    obtain ⟨hused, hbegun⟩ := h.symbols datagram hmem
    exact ⟨hlater.used _ hused, hlater.begun hused hbegun⟩
  states epoch generation report hmem := by
    obtain ⟨hused, hreported⟩ := h.states epoch generation report hmem
    refine ⟨hlater.used _ hused, fun sent' hsent' => ?_⟩
    obtain ⟨sent, hsent, heq, -⟩ := hlater.same hused hsent'
    rw [heq]
    exact hreported sent hsent
  dones := h.dones
  ended epoch generation done hmem := by
    obtain ⟨hused, hdone, hsent⟩ := h.ended epoch generation done hmem
    refine ⟨hlater.used _ hused, hdone, fun sent' hsent' => ?_⟩
    obtain ⟨sent, hget, -, hkept⟩ := hlater.same hused hsent'
    exact (hsent sent hget).imp (hkept _ _) (And.imp_left (hkept _ _))
  once := h.once
  recorded epoch sent' generation done hsent' hsome := by
    rcases hlater.kept epoch sent' hsent' with ⟨-, hnone⟩ | ⟨sent, hsent, -, hkept⟩
    · rw [hnone generation] at hsome
      cases hsome
    · rcases hkept generation with heq | ⟨-, heq⟩
      · rw [heq] at hsome
        exact h.recorded epoch sent generation done hsent hsome
      · rw [heq] at hsome
        cases hsome

theorem Linked.announce (h : Linked session) (hlater : Later session.sender sender')
    (hnew : ¬ session.sender.Used plan.epoch) (hused : sender'.Used plan.epoch)
    (hplan : ∀ sent, sender'.epochs.get? plan.epoch = some sent → sent.plan = plan) :
    Linked { session with sender := sender', forward := session.forward ++ [.epochOpen plan] } := by
  have h' := h.later hlater
  have habsent : session.receiver.epochs.get? plan.epoch = none := by
    cases hget : session.receiver.epochs.get? plan.epoch with
    | none => rfl
    | some state => exact absurd (h.held plan.epoch state hget).1 hnew
  refine { h' with opens := fun other hother => ?_, distinct := ?_ }
  · rcases mem_append.mp hother with hmem | hmem
    · exact h'.opens other hmem
    · obtain rfl : other = plan := by simpa using hmem
      refine ⟨hused, hplan, habsent, fun result hresult heq => hnew ?_⟩
      rw [← heq]
      exact (h.ended result.1.1 result.1.2 result.2 hresult).1
  · rw [filterMap_append, nodup_append]
    refine ⟨h.distinct, by simp [Forward.opens], fun a ha b hb => ?_⟩
    obtain rfl : b = plan.epoch := by simpa [Forward.opens] using hb
    rintro rfl
    obtain ⟨frame, hframe, hopens⟩ := mem_filterMap.mp ha
    cases frame with
    | epochClose => cases hopens
    | epochOpen other =>
      have heq : other.epoch = plan.epoch := Option.some.inj hopens
      exact hnew (heq ▸ (h.opens other hframe).1)

theorem Linked.closing (h : Linked session) (epoch : ℕ) :
    Linked { session with forward := session.forward ++ [.epochClose epoch] } := by
  refine { h with opens := fun plan hplan => h.opens plan ?_, distinct := ?_ }
  · simpa using hplan
  · have hnone : [Forward.epochClose epoch].filterMap Forward.opens = [] := rfl
    simpa only [filterMap_append, hnone, append_nil] using h.distinct

theorem Linked.send (h : Linked session) (hbalanced : Balanced session.sender)
    (hbegun : (session.sender.outcome datagram.epoch datagram.generation).isSome) :
    Linked { session with datagrams := session.datagrams ++ [datagram] } := by
  refine { h with symbols := fun other hother => ?_ }
  rcases mem_append.mp hother with hmem | hmem
  · exact h.symbols other hmem
  · obtain rfl := mem_singleton.mp hmem
    cases hknown : session.sender.epochs.get? other.epoch with
    | none => simp [Sender.outcome, hknown] at hbegun
    | some sent =>
      refine ⟨hbalanced.used _ sent hknown, fun sent' hsent' => ?_⟩
      obtain rfl := Option.some.inj (hknown.symm.trans hsent')
      simpa [Sender.outcome, hknown] using hbegun

end Sender

variable {sender' : Sender} {done : Done}

section Frames

variable {session : Session} {backward : List Backward} {frame : Backward}

/-- A frame that carries no outcome of a generation is taken from the channel. -/
theorem Linked.drop (h : Linked session) (hhead : session.backward = frame :: backward)
    (hquiet : ∀ epoch generation done, frame ≠ .done epoch generation (Done.outcome done)) :
    Linked { session with backward } := by
  have hmem : ∀ other, other ∈ backward → other ∈ session.backward := fun other hother =>
    hhead ▸ mem_cons_of_mem _ hother
  refine { h with
    states := fun epoch generation report hstate =>
      h.states epoch generation report (hmem _ hstate)
    dones := fun epoch generation done hdone => h.dones epoch generation done (hmem _ hdone)
    ended := fun epoch generation done hresult => ?_ }
  obtain ⟨hused, hfinished, hsent⟩ := h.ended epoch generation done hresult
  refine ⟨hused, hfinished, fun sent hget => (hsent sent hget).imp_right (And.imp_right ?_)⟩
  intro hflight
  rw [hhead, mem_cons] at hflight
  rcases hflight with heq | hflight
  · exact absurd heq.symm (hquiet _ _ _)
  · exact hflight

/-- A frame that carries no outcome of a generation is put into the channel. -/
theorem Linked.push (h : Linked session)
    (hstate : ∀ epoch generation report, frame = .state epoch generation report →
      session.sender.Used epoch ∧ ∀ sent, session.sender.epochs.get? epoch = some sent →
        sent.plan.holds generation = true ∧ Reported sent.plan generation report)
    (hquiet : ∀ epoch generation done, frame ≠ .done epoch generation (Done.outcome done)) :
    Linked { session with backward := session.backward ++ [frame] } := by
  refine { h with
    states := fun epoch generation report hmem => ?_
    dones := fun epoch generation done hmem => ?_
    ended := fun epoch generation done hresult => ?_ }
  · rcases mem_append.mp hmem with hmem | hmem
    · exact h.states epoch generation report hmem
    · exact hstate epoch generation report (mem_singleton.mp hmem).symm
  · rcases mem_append.mp hmem with hmem | hmem
    · exact h.dones epoch generation done hmem
    · exact absurd (mem_singleton.mp hmem).symm (hquiet _ _ _)
  · obtain ⟨hused, hfinished, hsent⟩ := h.ended epoch generation done hresult
    exact ⟨hused, hfinished, fun sent hget => (hsent sent hget).imp_right
      (And.imp_right (mem_append_left _))⟩

theorem outcome_injective : Function.Injective Done.outcome := by
  intro a b h
  cases a <;> cases b <;> first | rfl | cases h

theorem Linked.unique (h : Linked session) {key : ℕ × ℕ} {done done' : Done}
    (hdone : (key, done) ∈ session.results) (hdone' : (key, done') ∈ session.results) :
    done = done' :=
  congrArg Prod.snd (inj_on_of_nodup_map h.once hdone hdone' rfl)

theorem Linked.noted (h : Linked session)
    (hhead : session.backward = .done epoch generation done.outcome :: backward)
    (hnoted : Noted session.sender epoch generation done sender') :
    Linked { session with backward, sender := sender' } := by
  have hresult : ((epoch, generation), done) ∈ session.results :=
    h.dones epoch generation done (hhead ▸ mem_cons_self ..)
  have hmem : ∀ other, other ∈ backward → other ∈ session.backward := fun other hother =>
    hhead ▸ mem_cons_of_mem _ hother
  have hbegun : ∀ epoch' generation', Begun session.sender epoch' generation' →
      Begun sender' epoch' generation' := by
    intro epoch' generation' hbegun sent' hsent'
    obtain ⟨sent, hsent, -, hkept⟩ := hnoted.kept epoch' sent' hsent'
    rw [hkept generation']
    split_ifs
    · rfl
    · exact hbegun sent hsent
  have hplan : ∀ epoch' sent', sender'.epochs.get? epoch' = some sent' →
      ∃ sent, session.sender.epochs.get? epoch' = some sent ∧ sent'.plan = sent.plan := by
    intro epoch' sent' hsent'
    obtain ⟨sent, hsent, hplan, -⟩ := hnoted.kept epoch' sent' hsent'
    exact ⟨sent, hsent, hplan⟩
  refine ⟨fun plan hopen => ?_, h.distinct, fun epoch' state hstate => ?_, fun datagram hsymbol => ?_,
    fun epoch' generation' report hstate => ?_, fun epoch' generation' done' hdone =>
    h.dones epoch' generation' done' (hmem _ hdone), fun epoch' generation' done' hended => ?_,
    h.once, fun epoch' sent' generation' done' hsent' hsome => ?_⟩
  · obtain ⟨hused, hsame, habsent, hresults⟩ := h.opens plan hopen
    refine ⟨hnoted.used _ hused, fun sent' hsent' => ?_, habsent, hresults⟩
    obtain ⟨sent, hsent, heq⟩ := hplan _ sent' hsent'
    exact heq.trans (hsame sent hsent)
  · obtain ⟨hused, hsame, hlive⟩ := h.held epoch' state hstate
    refine ⟨hnoted.used _ hused, fun sent' hsent' => ?_, fun g hsome => hbegun _ _ (hlive g hsome)⟩
    obtain ⟨sent, hsent, heq⟩ := hplan _ sent' hsent'
    exact heq.trans (hsame sent hsent)
  · obtain ⟨hused, hsent⟩ := h.symbols datagram hsymbol
    exact ⟨hnoted.used _ hused, hbegun _ _ hsent⟩
  · obtain ⟨hused, hreported⟩ := h.states epoch' generation' report (hmem _ hstate)
    refine ⟨hnoted.used _ hused, fun sent' hsent' => ?_⟩
    obtain ⟨sent, hsent, heq⟩ := hplan _ sent' hsent'
    rw [heq]
    exact hreported sent hsent
  · obtain ⟨hused, hfinished, hsent⟩ := h.ended epoch' generation' done' hended
    refine ⟨hnoted.used _ hused, hfinished, fun sent' hsent' => ?_⟩
    obtain ⟨sent, hget, -, hkept⟩ := hnoted.kept epoch' sent' hsent'
    rw [hkept generation']
    split_ifs with heq
    · obtain ⟨rfl, rfl⟩ := heq
      exact .inl (by rw [h.unique hresult hended])
    · refine (hsent sent hget).imp_right (And.imp_right fun hflight => ?_)
      rw [hhead, mem_cons] at hflight
      rcases hflight with hcon | hflight
      · obtain ⟨rfl, rfl, -⟩ := Backward.done.inj hcon
        exact absurd ⟨rfl, rfl⟩ heq
      · exact hflight
  · obtain ⟨sent, hget, -, hkept⟩ := hnoted.kept epoch' sent' hsent'
    rw [hkept generation'] at hsome
    split_ifs at hsome with heq
    · obtain ⟨rfl, rfl⟩ := heq
      obtain rfl : done = done' := by simpa using hsome
      exact hresult
    · exact h.recorded epoch' sent generation' done' hget hsome

end Frames

variable {state : Epoch} {answer : Answer}

section Receiver

variable {session : Session} {receiver receiver' : Receiver}

/-- What a call does to the epochs a receiver has open, when it opens none. -/
structure After (receiver receiver' : Receiver) (touched : ℕ → ℕ → Prop) : Prop where
  kept : ∀ epoch state', receiver'.epochs.get? epoch = some state' →
    ∃ state, receiver.epochs.get? epoch = some state ∧ state'.plan = state.plan ∧
      (∀ generation, state.isDone generation = some true →
        state'.isDone generation = some true) ∧
      ∀ generation, (state'.live.get? generation).isSome →
        (state.live.get? generation).isSome ∨ touched epoch generation

variable {touched : ℕ → ℕ → Prop}

theorem Linked.after (h : Linked session) (hafter : After session.receiver receiver' touched)
    (htouched : ∀ epoch generation, touched epoch generation →
      Begun session.sender epoch generation) : Linked { session with receiver := receiver' } := by
  refine { h with
    opens := fun plan hplan => ?_
    held := fun epoch state' hstate' => ?_
    ended := fun epoch generation done hresult => ?_ }
  · obtain ⟨hused, hsame, habsent, hresults⟩ := h.opens plan hplan
    refine ⟨hused, hsame, ?_, hresults⟩
    cases hget : receiver'.epochs.get? plan.epoch with
    | none => rfl
    | some state' =>
      obtain ⟨state, hstate, -⟩ := hafter.kept plan.epoch state' hget
      rw [habsent] at hstate
      cases hstate
  · obtain ⟨state, hstate, hplan, -, hlive⟩ := hafter.kept epoch state' hstate'
    obtain ⟨hused, hsame, hbegun⟩ := h.held epoch state hstate
    refine ⟨hused, fun sent hsent => (hsame sent hsent).trans hplan.symm, fun generation hsome => ?_⟩
    exact (hlive generation hsome).elim (hbegun generation) (htouched epoch generation)
  · obtain ⟨hused, hfinished, hsent⟩ := h.ended epoch generation done hresult
    refine ⟨hused, fun state' hstate' => ?_, hsent⟩
    obtain ⟨state, hstate, -, hdone, -⟩ := hafter.kept epoch state' hstate'
    exact hdone generation (hfinished state hstate)

theorem Linked.settle (h : Linked session) (done : Done)
    (hknown : session.receiver.epochs.get? epoch = some state)
    (hdone : state.isDone generation = some true)
    (hnew : ∀ result ∈ session.results, result.1 ≠ (epoch, generation))
    (hbegun : Begun session.sender epoch generation) :
    Linked (session.settle epoch generation done) := by
  obtain ⟨hused, -, -⟩ := h.held epoch state hknown
  refine ⟨fun plan hplan => ?_, h.distinct, h.held, h.symbols, fun epoch' generation' report hmem => ?_,
    fun epoch' generation' done' hmem => ?_, fun epoch' generation' done' hmem => ?_, ?_,
    fun epoch' sent generation' done' hsent hsome => ?_⟩
  · obtain ⟨hplanUsed, hsame, habsent, hresults⟩ := h.opens plan hplan
    refine ⟨hplanUsed, hsame, habsent, fun result hresult => ?_⟩
    rcases mem_append.mp hresult with hresult | hresult
    · exact hresults result hresult
    · obtain rfl := mem_singleton.mp hresult
      rintro rfl
      rw [habsent] at hknown
      cases hknown
  · rcases mem_append.mp hmem with hmem | hmem
    · exact h.states epoch' generation' report hmem
    · simp at hmem
  · rcases mem_append.mp hmem with hmem | hmem
    · exact mem_append_left _ (h.dones epoch' generation' done' hmem)
    · obtain ⟨rfl, rfl, heq⟩ := Backward.done.inj (mem_singleton.mp hmem)
      obtain rfl := outcome_injective heq
      exact mem_append_right _ (mem_singleton.mpr rfl)
  · rcases mem_append.mp hmem with hmem | hmem
    · obtain ⟨hresultUsed, hfinished, hsent⟩ := h.ended epoch' generation' done' hmem
      exact ⟨hresultUsed, hfinished, fun sent hget => (hsent sent hget).imp_right
        (And.imp_right (mem_append_left _))⟩
    · obtain ⟨hkey, rfl⟩ := Prod.mk.inj (mem_singleton.mp hmem)
      obtain ⟨rfl, rfl⟩ := Prod.mk.inj hkey
      refine ⟨hused, fun state' hstate' => ?_, fun sent hsent => .inr ⟨?_, ?_⟩⟩
      · obtain rfl := Option.some.inj (hknown.symm.trans hstate')
        exact hdone
      · obtain ⟨outcome, houtcome⟩ := Option.isSome_iff_exists.mp (hbegun sent hsent)
        cases outcome with
        | none => exact houtcome
        | some earlier =>
          exact absurd rfl (hnew _ (h.recorded epoch' sent generation' earlier hsent houtcome))
      · exact mem_append_right _ (mem_singleton.mpr rfl)
  · rw [Session.settle, map_append, nodup_append]
    refine ⟨h.once, by simp, fun key hkey other hother => ?_⟩
    obtain rfl : other = (epoch, generation) := by simpa using hother
    obtain ⟨result, hresult, rfl⟩ := mem_map.mp hkey
    exact hnew result hresult
  · exact mem_append_left _ (h.recorded epoch' sent generation' done' hsent hsome)

theorem After.insert {state state' : Epoch} (hknown : receiver.epochs.get? epoch = some state)
    (hepochs : receiver'.epochs = receiver.epochs.insert epoch state')
    (hplan : state'.plan = state.plan) (hdone : ∀ generation, state.isDone generation = some true →
      state'.isDone generation = some true)
    (hlive : ∀ generation, (state'.live.get? generation).isSome →
      (state.live.get? generation).isSome ∨ touched epoch generation) :
    After receiver receiver' touched := by
  refine ⟨fun other found hfound => ?_⟩
  rw [hepochs, get?_insert_eq_some] at hfound
  rcases hfound with ⟨rfl, rfl⟩ | ⟨-, hfound⟩
  · exact ⟨state, hknown, hplan, hdone, hlive⟩
  · exact ⟨found, hfound, rfl, fun _ h => h, fun _ h => .inl h⟩

theorem SymbolStep.after {epoch generation esi : ℕ} {answer : Symbol} (h : Accounted receiver)
    (hstep : SymbolStep receiver epoch generation esi receiver' answer) :
    After receiver receiver' fun e g => e = epoch ∧ g = generation := by
  cases hstep with
  | dropped => exact ⟨fun _ state hstate => ⟨state, hstate, rfl, fun _ h => h, fun _ h => .inl h⟩⟩
  | stored credit state counters first slot held known =>
    exact .insert known rfl rfl (fun _ h => h)
      (fun g hsome => (isSome_insert hsome).imp_right fun heq => ⟨rfl, heq⟩)
  | ended credit state counters first spent answer held known counted holds =>
    exact .insert known rfl rfl
      (fun g => Epoch.isDone_marked_mono (h.mapped epoch state known) holds)
      (fun g hsome => .inl (isSome_erase hsome))

theorem CallStep.after {call : Call} (h : Accounted receiver)
    (hstep : CallStep receiver call receiver' answer) (hopen : ∀ plan, call ≠ .open plan) :
    After receiver receiver' fun e g => ∃ esi bytes, call = .symbol e g esi bytes := by
  have hrefl : After receiver receiver fun e g => ∃ esi bytes, call = .symbol e g esi bytes :=
    ⟨fun _ state hstate => ⟨state, hstate, rfl, fun _ h => h, fun _ h => .inl h⟩⟩
  cases hstep with
  | idle => exact hrefl
  | credited => exact ⟨hrefl.kept⟩
  | opened plan => exact absurd rfl (hopen plan)
  | symbol epoch generation esi bytes _ answer step =>
    refine ⟨fun e state' hstate' => ?_⟩
    obtain ⟨state, hstate, hplan, hdone, hlive⟩ := (step.after h).kept e state' hstate'
    refine ⟨state, hstate, hplan, hdone, fun g hsome => (hlive g hsome).imp_right ?_⟩
    rintro ⟨rfl, rfl⟩
    exact ⟨esi, bytes, rfl⟩
  | reported epoch generation state slot slot' report known present =>
    refine .insert known rfl rfl (fun _ h => h) (fun g hsome => .inl ?_)
    rcases isSome_insert hsome with hsome | rfl
    · exact hsome
    · rw [present]
      rfl
  | abandoned epoch generation state slot known present =>
    exact .insert known rfl rfl
      (fun g => Epoch.isDone_marked_mono (h.mapped epoch state known)
        (h.live epoch state generation slot known present).holds)
      (fun g hsome => .inl (isSome_erase hsome))
  | closed =>
    exact ⟨fun other found hfound => ⟨found, (get?_erase_eq_some.mp hfound).2, rfl,
      fun _ h => h, fun _ h => .inl h⟩⟩

variable {forward : List Forward}

theorem Linked.heard {frame : Forward} (h : Linked session)
    (hhead : session.forward = frame :: forward) : Linked { session with forward } := by
  refine { h with
    opens := fun plan hplan => h.opens plan (hhead ▸ mem_cons_of_mem _ hplan)
    distinct := ?_ }
  have hdistinct := h.distinct
  rw [hhead, filterMap_cons] at hdistinct
  cases hopens : frame.opens with
  | none => simpa only [hopens] using hdistinct
  | some =>
    rw [hopens] at hdistinct
    exact (nodup_cons.mp hdistinct).2

theorem Linked.opened (h : Linked session) (hhead : session.forward = .epochOpen plan :: forward)
    (hepochs : receiver'.epochs = session.receiver.epochs.insert plan.epoch (.fresh plan)) :
    Linked { session with forward, receiver := receiver' } := by
  have h' := h.heard hhead
  obtain ⟨hused, hsame, habsent, hresults⟩ := h.opens plan (hhead ▸ mem_cons_self ..)
  have hdistinct := h.distinct
  have hopens : Forward.opens (.epochOpen plan) = some plan.epoch := rfl
  rw [hhead, filterMap_cons_some hopens, nodup_cons] at hdistinct
  refine { h' with
    opens := fun other hother => ?_
    held := fun epoch state hstate => ?_
    ended := fun epoch generation done hresult => ?_ }
  · obtain ⟨hotherUsed, hotherSame, hotherAbsent, hotherResults⟩ := h'.opens other hother
    have hne : other.epoch ≠ plan.epoch := fun heq =>
      hdistinct.1 (heq ▸ mem_filterMap.mpr ⟨_, hother, rfl⟩)
    refine ⟨hotherUsed, hotherSame, ?_, hotherResults⟩
    rwa [hepochs, get?_insert_of_ne hne]
  · rw [hepochs, get?_insert_eq_some] at hstate
    rcases hstate with ⟨rfl, rfl⟩ | ⟨-, hstate⟩
    · exact ⟨hused, hsame, fun generation hsome => by simp [Epoch.fresh] at hsome⟩
    · exact h.held epoch state hstate
  · obtain ⟨hresultUsed, hfinished, hsent⟩ := h.ended epoch generation done hresult
    refine ⟨hresultUsed, fun state hstate => hfinished state ?_, hsent⟩
    rw [hepochs, get?_insert_of_ne (hresults _ hresult)] at hstate
    exact hstate

theorem open_of_new (habsent : receiver.epochs.get? plan.epoch = none) :
    receiver.open plan = (receiver, .ok .refused) ∨
      receiver.open plan =
        ({ receiver with epochs := receiver.epochs.insert plan.epoch (.fresh plan) },
          .ok .opened) := by
  unfold Receiver.open
  rw [habsent]
  cases hheld : receiver.creditHeld with
  | none => exact .inl rfl
  | some =>
    simp only
    split_ifs
    · exact .inl rfl
    · exact .inr rfl

end Receiver

/-- The state of a session of honest peers after `n` acts. -/
structure Honest (session : Session) (n : ℕ) : Prop where
  accounted : Accounted session.receiver
  numbered : Numbered session.receiver n
  balanced : Balanced session.sender
  linked : Linked session

section Acts

variable {session : Session} {n : ℕ}

theorem Numbered.mono {receiver : Receiver} {m : ℕ} (h : Numbered receiver n) (hle : n ≤ m) :
    Numbered receiver m := fun epoch state generation slot hknown hslot =>
  (h epoch state generation slot hknown hslot).trans hle

variable {generation epoch : ℕ}

section

variable (h : Honest session n)
include h

theorem Honest.next : Honest session (n + 1) :=
  { h with numbered := h.numbered.mono n.le_succ }

theorem Honest.call {call : Call} {receiver' : Receiver}
    (hstep : CallStep session.receiver call receiver' answer) (hopen : ∀ plan, call ≠ .open plan)
    (htouched : ∀ epoch generation esi bytes, call = .symbol epoch generation esi bytes →
      Begun session.sender epoch generation) :
    Honest { session with receiver := receiver' } (n + 1) := by
  refine ⟨hstep.accounted h.accounted, hstep.numbered h.numbered, h.balanced,
    h.linked.after (hstep.after h.accounted hopen) ?_⟩
  rintro epoch generation ⟨esi, bytes, heq⟩
  exact htouched epoch generation esi bytes heq

theorem Honest.later (hbalanced : Balanced sender')
    (hlater : Later session.sender sender') : Honest { session with sender := sender' } (n + 1) :=
  { h.next with balanced := hbalanced, linked := h.linked.later hlater }

theorem Honest.closed (epoch : ℕ) :
    ∃ session', session.closed epoch (session.sender.close epoch) = .ok session' ∧
      Honest session' (n + 1) := by
  obtain ⟨sender', known, heq, hbalanced, hlater, -⟩ := close_later h.balanced epoch
  have h' := h.later hbalanced hlater
  rw [heq]
  cases known with
  | false => exact ⟨_, rfl, h'⟩
  | true => exact ⟨_, rfl, { h' with linked := h'.linked.closing epoch }⟩

theorem Honest.owe {report : Report}
    (hknown : session.receiver.epochs.get? epoch = some state)
    (hholds : state.plan.holds generation = true)
    (hreported : Reported state.plan generation report) :
    ∃ session', session.owe epoch generation report = .ok session' ∧ Honest session' n ∧
      session'.receiver = session.receiver ∧ session'.sender = session.sender ∧
      session'.results = session.results := by
  obtain ⟨bytes, hbytes⟩ := encodeGenState_stateOf hreported epoch
  obtain ⟨hused, hsame, -⟩ := h.linked.held epoch state hknown
  refine ⟨{ session with backward := session.backward ++ [.state epoch generation report] },
    by rw [Session.owe, hbytes], { h with linked := h.linked.push ?_ (by simp) }, rfl, rfl, rfl⟩
  rintro epoch' generation' report' heq
  obtain ⟨rfl, rfl, rfl⟩ := Backward.state.inj heq
  refine ⟨hused, fun sent hsent => ?_⟩
  rw [hsame sent hsent]
  exact ⟨hholds, hreported⟩

end

theorem Linked.unsettled (h : Linked session)
    (hknown : session.receiver.epochs.get? epoch = some state)
    (hrunning : ¬ Settled session.receiver epoch generation) :
    ∀ result ∈ session.results, result.1 ≠ (epoch, generation) := by
  rintro ⟨key, done⟩ hresult rfl
  exact hrunning ⟨state, hknown, (h.ended epoch generation done hresult).2.1 state hknown⟩

section

variable (h : Honest session n)
include h

theorem Honest.settle (done : Done) (hdone : Settled session.receiver epoch generation)
    (hnew : ∀ result ∈ session.results, result.1 ≠ (epoch, generation))
    (hbegun : Begun session.sender epoch generation) :
    Honest (session.settle epoch generation done) n := by
  obtain ⟨state, hstate, hbit⟩ := hdone
  exact { h with linked := h.linked.settle done hstate hbit hnew hbegun }

theorem Honest.report [Gf.Simd] (epoch generation : ℕ) :
    (∃ session', session.act (.report epoch generation) = .ok session' ∧ Honest session' (n + 1)) ∨
      session.act (.report epoch generation) = .error .panic ∧ Exhausted session.receiver := by
  rcases report_step h.accounted epoch generation with ⟨receiver', report, heq, hstep⟩ | ⟨heq, hpanic⟩
  swap
  · exact .inr ⟨by simp [Session.act, heq], hpanic⟩
  have h' := h.call hstep (by simp) (by simp)
  cases report with
  | none => exact .inl ⟨_, by simp only [Session.act, heq], h'⟩
  | some =>
    simp only [Session.act, heq]
    cases hstep with
    | idle call answer idle => cases idle
    | reported _ _ state slot slot' _ known present live numbered reported =>
      obtain ⟨session', howe, hsession, -⟩ := h'.owe get?_insert_self live.holds reported
      exact .inl ⟨session', howe, hsession⟩

theorem Honest.abandon [Gf.Simd] (epoch generation : ℕ) :
    ∃ session', session.act (.abandon epoch generation) = .ok session' ∧
      Honest session' (n + 1) := by
  obtain ⟨receiver', live, heq, hstep⟩ := abandon_step h.accounted epoch generation
  have h' := h.call hstep (by simp) (by simp)
  simp only [Session.act, heq]
  cases live with
  | false => exact ⟨_, rfl, h'⟩
  | true =>
    obtain ⟨hrunning, hdone⟩ := hstep.ends h.accounted rfl
    cases hstep with
    | idle call answer idle => cases idle
    | abandoned _ _ state slot known present =>
      have hbegun := (h.linked.held epoch state known).2.2 generation (by rw [present]; rfl)
      exact ⟨_, rfl, h'.settle .abandoned hdone (h.linked.unsettled known hrunning) hbegun⟩

theorem Honest.hear :
    ∃ session', session.hear = .ok session' ∧ Honest session' (n + 1) := by
  unfold Session.hear
  cases hforward : session.forward with
  | nil => exact ⟨session, rfl, h.next⟩
  | cons frame =>
    have hheard := h.linked.heard hforward
    cases frame with
    | epochOpen plan =>
      obtain ⟨-, -, habsent, -⟩ := h.linked.opens plan (hforward ▸ mem_cons_self ..)
      rcases open_of_new habsent with heq | heq
      · simp only [heq]
        exact ⟨_, rfl, { h.next with
          linked := hheard.push (by simp) (fun _ _ done => by cases done <;> simp [Done.outcome]) }⟩
      · simp only [heq]
        have hstep : CallStep session.receiver (.open plan) _ _ := .opened plan habsent
        exact ⟨_, rfl, hstep.accounted h.accounted, hstep.numbered h.numbered, h.balanced,
          h.linked.opened hforward rfl⟩
    | epochClose epoch =>
      obtain ⟨receiver', known, heq, hstep⟩ := close_step h.accounted epoch
      simp only [heq]
      exact ⟨_, rfl, hstep.accounted h.accounted, hstep.numbered h.numbered, h.balanced,
        hheard.after (hstep.after h.accounted (by simp)) (by simp)⟩

theorem Honest.ended {backward : List Backward}
    (hhead : session.backward = .done epoch generation done.outcome :: backward) :
    ∃ session', { session with backward }.ended epoch generation done = .ok session' ∧
      Honest session' (n + 1) := by
  have hresult := h.linked.dones epoch generation done (hhead ▸ mem_cons_self ..)
  obtain ⟨sender', live, heq, hbalanced, hnoted⟩ := done_noted h.balanced fun sent hsent =>
    ((h.linked.ended epoch generation done hresult).2.2 sent hsent).imp_right And.left
  refine ⟨{ session with backward, sender := sender' }, ?_, h.accounted,
    h.numbered.mono n.le_succ, hbalanced, h.linked.noted hhead hnoted⟩
  simp only [Session.ended, heq]

theorem Honest.learn :
    ∃ session', session.learn = .ok session' ∧ Honest session' (n + 1) := by
  unfold Session.learn
  cases hbackward : session.backward with
  | nil => exact ⟨session, rfl, h.next⟩
  | cons frame backward =>
    cases frame with
    | credit credit =>
      exact ⟨_, rfl, { h.next with
        balanced := h.balanced.credit credit
        linked := (h.linked.drop hbackward (by simp)).later (credit_later session.sender credit) }⟩
    | state epoch generation report =>
      obtain ⟨-, hreport⟩ :=
        h.linked.states epoch generation report (hbackward ▸ mem_cons_self ..)
      obtain ⟨sender', news, heq, hbalanced, hlater⟩ := state_later h.balanced hreport
      simp only [heq]
      exact ⟨_, rfl, { h.next with
        balanced := hbalanced, linked := (h.linked.drop hbackward (by simp)).later hlater }⟩
    | done epoch generation outcome =>
      cases outcome with
      | decoded | abandoned => exact h.ended hbackward
      | refused =>
        have hquiet : Honest { session with backward } n :=
          { h with
            linked := h.linked.drop hbackward fun _ _ done => by cases done <;> simp [Done.outcome] }
        exact hquiet.closed epoch

end

theorem Honest.new : Honest .new 0 where
  accounted := .new
  numbered := by simp [Numbered, Session.new, Receiver.new]
  balanced := by
    refine ⟨?_, ?_, rfl, rfl, Nat.zero_le _⟩
    · simp [Session.new, Sender.new]
    · simp [Session.new, Sender.new]
  linked := by
    refine ⟨?_, nodup_nil, ?_, ?_, ?_, ?_, ?_, nodup_nil, ?_⟩ <;>
      simp [Session.new, Receiver.new, Sender.new]

variable [Gf.Simd]

theorem Honest.receive (h : Honest session n)
    (hsent : datagram ∈ session.datagrams) (stated : Bool) :
    (∃ session', session.receive datagram stated = .ok session' ∧ Honest session' (n + 1)) ∨
      session.receive datagram stated = .error .panic ∧ Exhausted session.receiver := by
  obtain ⟨epoch, generation, esi, bytes⟩ := datagram
  obtain ⟨-, hbegun⟩ := h.linked.symbols _ hsent
  unfold Session.receive
  rcases h.accounted.symbol_step epoch generation esi bytes with
    ⟨receiver', answer, heq, hstep⟩ | ⟨heq, hpanic⟩
  swap
  · exact .inr ⟨by simp only [heq], hpanic⟩
  have hcall : CallStep session.receiver (.symbol epoch generation esi bytes) receiver'
      (.symbol answer) := .symbol epoch generation esi bytes receiver' answer hstep
  have h' : Honest { session with receiver := receiver' } (n + 1) := by
    refine h.call hcall (by simp) fun _ _ _ _ hsame => ?_
    obtain ⟨rfl, rfl, -, -⟩ := Call.symbol.inj hsame
    exact hbegun
  simp only [heq]
  cases hstep with
  | dropped | stored => exact .inl ⟨_, rfl, h'⟩
  | ended credit state counters first spent answer held known counted holds running charged
      covered ending =>
    cases ending with
    | decoded =>
      obtain ⟨hrunning, hdone⟩ := hcall.ends h.accounted rfl
      exact .inl ⟨_, rfl, h'.settle .decoded hdone (h.linked.unsettled known hrunning) hbegun⟩
    | abandoned report reported =>
      obtain ⟨hrunning, hdone⟩ := hcall.ends h.accounted rfl
      have hnew := h.linked.unsettled known hrunning
      cases stated with
      | false => exact .inl ⟨_, rfl, h'.settle .abandoned hdone hnew hbegun⟩
      | true =>
        obtain ⟨session', howe, hsession, hreceiver, hsender, hresults⟩ :=
          h'.owe get?_insert_self holds reported
        refine .inl ⟨session'.settle epoch generation .abandoned, ?_,
          hsession.settle .abandoned (hreceiver ▸ hdone) (hresults ▸ hnew) (hsender ▸ hbegun)⟩
        simp only [howe, if_true]
        rfl

/-- Every act of honest peers succeeds; only a report past `u64::MAX` panics. -/
theorem Honest.act (h : Honest session n) (act : Act) :
    (∃ session', session.act act = .ok session' ∧ Honest session' (n + 1)) ∨
      session.act act = .error .panic ∧ Exhausted session.receiver := by
  cases act with
  | «open» plan =>
    cases hopen : session.sender.open plan with
    | error => exact .inl ⟨session, by simp [Session.act, hopen], h.next⟩
    | ok =>
      obtain ⟨hbalanced, hlater, hnew, hused, hplan⟩ := open_later h.balanced hopen
      simp only [Session.act, hopen]
      exact .inl ⟨_, rfl, { h.next with
        balanced := hbalanced, linked := h.linked.announce hlater hnew hused hplan }⟩
  | begin epoch generation =>
    rcases begin_later h.balanced epoch generation with ⟨e, heq⟩ | ⟨sender', heq, hbalanced, hlater, -⟩
    · exact .inl ⟨session, by simp [Session.act, heq], h.next⟩
    · exact .inl ⟨_, by simp only [Session.act, heq], h.later hbalanced hlater⟩
  | send datagram =>
    by_cases hbegun : (session.sender.outcome datagram.epoch datagram.generation).isSome = true
    · simp only [Session.act, if_pos hbegun]
      exact .inl ⟨_, rfl, { h.next with linked := h.linked.send h.balanced hbegun }⟩
    · exact .inl ⟨session, by simp only [Session.act, if_neg hbegun], h.next⟩
  | close epoch => exact .inl (h.closed epoch)
  | credit credit =>
    have hstep := credit_step session.receiver credit
    have h' := h.call hstep (by simp) (by simp)
    cases hcredit : session.receiver.credit credit with
    | mk receiver' installed =>
      rw [hcredit] at h'
      cases installed with
      | false => exact .inl ⟨session, by simp only [Session.act, hcredit], h.next⟩
      | true =>
        simp only [Session.act, hcredit]
        exact .inl ⟨_, rfl, { h' with linked := h'.linked.push (by simp) (by simp) }⟩
  | report epoch generation => exact h.report epoch generation
  | abandon epoch generation => exact .inl (h.abandon epoch generation)
  | hear => exact .inl h.hear
  | learn => exact .inl h.learn
  | receive datagram stated =>
    by_cases hsent : datagram ∈ session.datagrams
    · simp only [Session.act, if_pos hsent]
      exact h.receive hsent stated
    · exact .inl ⟨session, by simp only [Session.act, if_neg hsent], h.next⟩

theorem acts_concat (acts : List Act) (act : Act) :
    Session.acts (acts ++ [act]) = Session.acts acts >>= fun session => session.act act := by
  simp [Session.acts, foldlM_append]

/-- A session of honest peers never ends in a fault, short of `u64::MAX` acts. -/
theorem acts_honest (acts : List Act) :
    (∃ session, Session.acts acts = .ok session ∧ Honest session acts.length) ∨
      Session.acts acts = .error .panic ∧ u64Max < acts.length := by
  induction acts using reverseRecOn with
  | nil => exact .inl ⟨.new, rfl, .new⟩
  | append_singleton acts act ih =>
    rw [acts_concat, length_append, length_singleton]
    rcases ih with ⟨session, heq, h⟩ | ⟨heq, hlong⟩
    · rw [heq, ok_bind]
      refine (h.act act).imp_right fun hpanic => ⟨hpanic.1, ?_⟩
      obtain ⟨epoch, state, generation, slot, hknown, hlive, hlast⟩ := hpanic.2
      have := h.numbered epoch state generation slot hknown hlive
      omega
    · rw [heq, error_bind]
      exact .inr ⟨rfl, by omega⟩

/-- Whatever honest peers do and however the channels interleave, no open, state, done or report is
ever an error: the only fault is a panic after more than `u64::MAX` acts. A generation ends at most
once at the receiver, the sender records nothing but the receiver's results, and a result whose
`GEN_DONE` has reached the sender of a still open epoch is the outcome recorded there. -/
theorem honest_peers_agree (acts : List Act) :
    (∀ fault, Session.acts acts = .error fault → fault = .panic ∧ u64Max < acts.length) ∧
    ∀ session, Session.acts acts = .ok session →
      (session.results.map Prod.fst).Nodup ∧
      (∀ epoch generation done, session.sender.outcome epoch generation = some (some done) →
        ((epoch, generation), done) ∈ session.results) ∧
      ∀ epoch generation done, ((epoch, generation), done) ∈ session.results →
        (session.sender.epochs.get? epoch).isSome →
        .done epoch generation (Done.outcome done) ∉ session.backward →
        session.sender.outcome epoch generation = some (some done) := by
  rcases acts_honest acts with ⟨session, heq, h⟩ | ⟨heq, hlong⟩
  · rw [heq]
    refine ⟨fun fault hfault => (by cases hfault), fun session' hsession => ?_⟩
    obtain rfl := Except.ok.inj hsession
    refine ⟨h.linked.once, fun epoch generation done houtcome => ?_,
      fun epoch generation done hresult hopen hdelivered => ?_⟩
    · obtain ⟨sent, hsent, hdone⟩ := Option.bind_eq_some_iff.mp houtcome
      exact h.linked.recorded epoch sent generation done hsent hdone
    · obtain ⟨sent, hsent⟩ := Option.isSome_iff_exists.mp hopen
      rcases (h.linked.ended epoch generation done hresult).2.2 sent hsent with hdone | ⟨-, hflight⟩
      · exact Option.bind_eq_some_iff.mpr ⟨sent, hsent, hdone⟩
      · exact absurd hflight hdelivered
  · rw [heq]
    exact ⟨fun fault hfault => ⟨(Except.error.inj hfault).symm, hlong⟩, fun _ hsession => by
      cases hsession⟩

end Acts

section Sample

attribute [local instance] scalarMachine

/-- A generation is begun, one symbol of it arrives twice, and the receiver gives up on it. -/
def abandonedActs : List Act :=
  [.credit smallCredit, .learn, .open shortPlan, .begin 3 0, .send ⟨3, 0, 2, [7, 7]⟩, .hear,
    .receive ⟨3, 0, 2, [7, 7]⟩ true, .report 3 0, .abandon 3 0, .receive ⟨3, 0, 2, [7, 7]⟩ true,
    .learn, .learn]

theorem honest_peers_agree_on_abandoned :
    ∃ session, Session.acts abandonedActs = .ok session ∧
      session.results = [((3, 0), .abandoned)] ∧
      session.sender.outcome 3 0 = some (some .abandoned) := by
  obtain ⟨session, hsession, hresults, hopen, hbackward⟩ : ∃ session,
      Session.acts abandonedActs = .ok session ∧ session.results = [((3, 0), .abandoned)] ∧
      (session.sender.epochs.get? 3).isSome ∧ session.backward = [] :=
    ⟨_, rfl, rfl, rfl, rfl⟩
  obtain ⟨-, hagree⟩ := honest_peers_agree abandonedActs
  obtain ⟨-, -, hdelivered⟩ := hagree session hsession
  exact ⟨session, hsession, hresults, hdelivered 3 0 .abandoned (by simp [hresults]) hopen
    (by simp [hbackward])⟩

end Sample

end ObjectTransfer.Fec
