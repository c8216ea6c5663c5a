import ObjectTransfer.Sessions.Moves

/-! # The authentication gate

A run of the state machine is kept with its steps, the latest first. A server that asks for a
capability is ready only by granting the request it accepted last and has not answered; a client is
ready only by a challenge that asks for none or by the acceptance of its one outstanding request.
-/

namespace ObjectTransfer.Sessions
open Foundations Codec List

structure Step where
  before : Negotiation
  call : Call

namespace Step

def outcome (step : Step) : Except Error Accepted := (step.before.call step.call).1

def after (step : Step) : Negotiation := (step.before.call step.call).2

/-- The request that an attempt is made with: accepted on a server, sent on a client. -/
def asked (step : Step) : Option SessionOpen :=
  match step.call, step.outcome with
  | .acceptControl frame, .ok .authorizationRequired =>
    (step.before.readFrame frame).bind fun read => (decodeSessionOpen read.2).toOption
  | .present request, .ok _ => some request
  | _, _ => none

/-- Whether an attempt is answered: decided on a server, an answer read on a client. -/
def answered (step : Step) : Bool :=
  match step.call, step.outcome with
  | .grant _, .ok _ | .refuse _ _, .ok _ => true
  | .acceptControl frame, .ok _ =>
    (step.before.readFrame frame).any fun read =>
      read.1 = FrameType.sessionAccept ∨ read.1 = FrameType.sessionReject
  | _, _ => false

def BecomesReady (step : Step) : Prop := step.before.isReady = false ∧ step.after.isReady = true

def setsHello (step : Step) : Bool := step.before.peerHello ≠ step.after.peerHello

def setsSettings (step : Step) : Bool := step.before.peerSettings ≠ step.after.peerSettings

def setsChallenge (step : Step) : Bool :=
  (step.before.challenge, step.before.challengeRead) ≠ (step.after.challenge, step.after.challengeRead)

end Step

/-- The requests of all attempts, the latest first. -/
def attempts (steps : List Step) : List SessionOpen := steps.filterMap Step.asked

def unanswered (steps : List Step) : List SessionOpen := attempts (since Step.answered steps)

/-- A state machine with the steps that led to it, the latest first. -/
structure Traced where
  negotiation : Negotiation
  steps : List Step

namespace Traced

def advance (t : Traced) (c : Call) : Traced :=
  ⟨(t.negotiation.call c).2, ⟨t.negotiation, c⟩ :: t.steps⟩

def of (start : Negotiation) (calls : List Call) : Traced := run advance ⟨start, []⟩ calls

end Traced

/-- Only a client presents, and only a server grants and refuses. -/
def Call.Permitted (role : EndpointRole) : Call → Prop
  | .present _ => role = .client
  | .grant _ | .refuse _ _ => role = .server
  | _ => True

/-! ## What one step does to the attempts -/

inductive Effect (step : Step) : Prop
  | quiet (hasked : step.asked = none) (hanswered : step.answered = false)
      (hopened : step.after.opened = step.before.opened)
      (hattempted : step.after.attempted = step.before.attempted)
  | ask {request : SessionOpen} (hasked : step.asked = some request)
      (hanswered : step.answered = false) (hbefore : step.before.opened = none)
      (hafter : step.after.opened = some request)
      (hattempted : step.after.attempted = step.before.attempted ++ [request.sessionId])
      (hroom : step.before.attempted.length < maxAuthenticationAttempts)
      (hfresh : request.sessionId ∉ step.before.attempted)
      (hanswers : Answers step.before.challenge request)
  | answer (hasked : step.asked = none) (hanswered : step.answered = true)
      (hopened : step.after.opened = none)
      (hattempted : step.after.attempted = step.before.attempted)

theorem step_effect (step : Step) : Effect step := by
  obtain ⟨n, c⟩ := step
  have hmove := n.call_move c
  generalize hresult : n.call c = result at hmove
  obtain ⟨outcome, next⟩ := result
  have houtcome : Step.outcome ⟨n, c⟩ = outcome := congrArg Prod.fst hresult
  have hafter : Step.after ⟨n, c⟩ = next := congrArg Prod.snd hresult
  have hquiet (hcall : ∀ request, Step.asked ⟨n, c⟩ ≠ some request)
      (hanswered : Step.answered ⟨n, c⟩ = false) (hopened : next.opened = n.opened)
      (hattempted : next.attempted = n.attempted) : Effect ⟨n, c⟩ :=
    .quiet (Option.eq_none_iff_forall_ne_some.mpr hcall) hanswered (by rw [hafter, hopened])
      (by rw [hafter, hattempted])
  cases hmove with
  | failed =>
    refine hquiet ?_ ?_ rfl rfl <;> cases c <;> simp [Step.asked, Step.answered, houtcome]
  | skipped hframe =>
    refine hquiet (by simp [Step.asked, houtcome]) ?_ rfl rfl
    simp only [Step.answered, houtcome, Option.any_eq_false, Prod.forall]
    intro frameType payload hread
    rw [hframe frameType payload hread]
    rfl
  | application hread hother =>
    refine hquiet (by simp [Step.asked, houtcome]) ?_ rfl rfl
    simp only [Step.answered, houtcome, hread, Option.any_some, decide_eq_false_iff_not]
    rintro (rfl | rfl) <;> exact hother (by decide)
  | reserved | offered =>
    refine hquiet ?_ ?_ rfl rfl <;> simp [Step.asked, Step.answered]
  | settings hread hstate hnone hsettings hconsumed =>
    cases outcome with
    | error => refine hquiet ?_ ?_ rfl rfl <;> simp [Step.asked, Step.answered, houtcome]
    | ok accepted =>
      obtain rfl := hconsumed accepted rfl
      refine hquiet ?_ ?_ rfl rfl <;> simp +decide [Step.asked, Step.answered, houtcome, hread]
  | hello hread | answered hread | acknowledged hread | concluded hread | challenged hread =>
    refine hquiet ?_ ?_ rfl rfl <;> simp +decide [Step.asked, Step.answered, houtcome, hread]
  | accepted hread | rejected hread =>
    refine .answer ?_ ?_ (by rw [hafter]) (by rw [hafter]) <;>
      simp +decide [Step.asked, Step.answered, houtcome, hread]
  | requested hread hrole hstate hopened hroom hrequest hfresh hanswers =>
    refine .ask ?_ ?_ hopened (by rw [hafter]) (by rw [hafter]) hroom hfresh hanswers <;>
      simp +decide [Step.asked, Step.answered, houtcome, hread, hrequest, Except.toOption]
  | presented hrole hstate hopened hroom hfresh hanswers =>
    refine .ask ?_ ?_ hopened (by rw [hafter]) (by rw [hafter]) hroom hfresh hanswers <;>
      simp [Step.asked, Step.answered, houtcome]
  | granted | refused =>
    refine .answer ?_ ?_ (by rw [hafter]) (by rw [hafter]) <;>
      simp [Step.asked, Step.answered, houtcome]
  | closed hcall =>
    rcases hcall with rfl | rfl <;> refine hquiet ?_ ?_ rfl rfl <;>
      simp [Step.asked, Step.answered]

/-! ## What one step does to the rest of the state -/

/-- How a client comes to be ready. -/
def ClientConcludes (step : Step) (outstanding : List SessionOpen) : Prop :=
  ∃ frame payload, step.call = .acceptControl frame ∧
    ((∃ context, step.before.readFrame frame = some (FrameType.authContext, payload) ∧
        decodeAuthContext payload = .ok context ∧ context.formats = []) ∨
      ∃ accept request, step.before.readFrame frame = some (FrameType.sessionAccept, payload) ∧
        decodeSessionAccept payload = .ok accept ∧ outstanding = [request] ∧
        accept.sessionId = request.sessionId)

variable {step : Step}

theorem step_ready (h : step.BecomesReady) :
    (∃ scope request, step.call = .grant scope ∧ step.before.opened = some request) ∨
      step.before.role = .server ∧ step.before.challenge.formats = [] ∨
      step.before.role = .client ∧ ClientConcludes step step.before.opened.toList := by
  obtain ⟨hbefore, hready⟩ := h
  obtain ⟨n, c⟩ := step
  have hmove := n.call_move c
  change (n.call c).2.isReady = true at hready
  change n.state.isReady = false at hbefore
  generalize n.call c = result at hmove hready
  obtain ⟨outcome, next⟩ := result
  cases hmove with
  | answered hread hrole hstate hnone hsettings hnext =>
    refine .inr (.inl ⟨hrole, ?_⟩)
    by_contra hformats
    simp [Negotiation.isReady, hnext, hformats, State.isReady] at hready
  | concluded hread hrole hstate hunread hcontext hformats =>
    exact .inr (.inr ⟨hrole, _, _, rfl, .inl ⟨_, hread, hcontext, hformats⟩⟩)
  | accepted hread hrole hstate hopened haccept hsame =>
    refine .inr (.inr ⟨hrole, _, _, rfl, .inr ⟨_, _, hread, haccept, ?_, hsame⟩⟩)
    rw [hopened, Option.toList_some]
  | granted hopened => exact .inl ⟨_, _, rfl, hopened⟩
  | _ => simp_all [Negotiation.isReady, State.isReady]

/-- What stays and what is set once. -/
structure Frozen (n next : Negotiation) : Prop where
  role : next.role = n.role
  peerHello : next.peerHello = n.peerHello ∨ n.peerHello = none ∧ next.peerHello.isSome = true
  peerSettings : next.peerSettings = n.peerSettings ∨
    n.peerSettings = none ∧ next.peerSettings.isSome = true
  challenge : (next.challenge, next.challengeRead) = (n.challenge, n.challengeRead) ∨
    n.role = .client ∧ n.challengeRead = false ∧ next.challengeRead = true

theorem call_frozen (n : Negotiation) (c : Call) : Frozen n (n.call c).2 := by
  have hmove := n.call_move c
  generalize n.call c = result at hmove
  obtain ⟨outcome, next⟩ := result
  cases hmove with
  | hello hread hstate hnone => exact ⟨rfl, .inr ⟨hnone, rfl⟩, .inl rfl, .inl rfl⟩
  | settings hread hstate hnone | answered hread hrole hstate hnone =>
    exact ⟨rfl, .inl rfl, .inr ⟨hnone, rfl⟩, .inl rfl⟩
  | concluded hread hrole hstate hunread | challenged hread hrole hunread =>
    exact ⟨rfl, .inl rfl, .inl rfl, .inr ⟨hrole, hunread, rfl⟩⟩
  | _ => exact ⟨rfl, .inl rfl, .inl rfl, .inl rfl⟩

/-! ## Every run -/

/-- What a step of a run from `start` had to satisfy, given the steps before it. -/
structure Gated (start : Negotiation) (earlier : List Step) (step : Step) : Prop where
  /-- A server that asks for a capability is ready by granting the latest request, which it had not
  answered, which answers its challenge and whose identifier is new. -/
  server : start.role = .server → start.challenge.formats ≠ [] → step.BecomesReady →
    ∃ scope request others, step.call = .grant scope ∧ unanswered earlier = [request] ∧
      attempts earlier = request :: others ∧ Answers start.challenge request ∧
      request.sessionId ∉ others.map (·.sessionId)
  /-- A client is ready by a challenge that names no format or by the acceptance of its one
  outstanding request. -/
  client : start.role = .client → step.BecomesReady → ClientConcludes step (unanswered earlier)

/-- What the state says about attempts reads off the steps. -/
structure Tallies (t : Traced) : Prop where
  attempted : t.negotiation.attempted = ((attempts t.steps).map (·.sessionId)).reverse
  distinct : ((attempts t.steps).map (·.sessionId)).Nodup
  room : (attempts t.steps).length ≤ maxAuthenticationAttempts
  opened : unanswered t.steps = t.negotiation.opened.toList
  newest : ∀ request, t.negotiation.opened = some request →
    ∃ others, attempts t.steps = request :: others

/-- How the state of a run from `start` reads off its steps. -/
structure Sound (start : Negotiation) (t : Traced) : Prop extends Tallies t where
  role : t.negotiation.role = start.role
  challenge : start.role = .server → t.negotiation.challenge = start.challenge
  answers : start.role = .server → ∀ request ∈ attempts t.steps, Answers start.challenge request
  helloOnce : (t.steps.filter Step.setsHello).length ≤
    if t.negotiation.peerHello.isSome then 1 else 0
  settingsOnce : (t.steps.filter Step.setsSettings).length ≤
    if t.negotiation.peerSettings.isSome then 1 else 0
  challengeOnce : (t.steps.filter Step.setsChallenge).length ≤
    if t.negotiation.challengeRead then 1 else 0
  gated : Justified (Gated start) t.steps

section Runs

variable {start : Negotiation} {t : Traced} {c : Call}

theorem gated_step (h : Sound start t) (hpermitted : c.Permitted start.role) :
    Gated start t.steps ⟨t.negotiation, c⟩ := by
  constructor
  · intro hserver hformats hready
    obtain ⟨scope, request, hcall, hopened⟩ | ⟨-, hnone⟩ | ⟨hclient, -⟩ := step_ready hready
    · obtain ⟨others, hothers⟩ := h.newest request hopened
      have hdistinct := h.distinct
      rw [hothers, map_cons, nodup_cons] at hdistinct
      refine ⟨scope, request, others, hcall, ?_, hothers, ?_, hdistinct.1⟩
      · rw [h.opened, hopened, Option.toList_some]
      · exact h.answers hserver request (by simp [hothers])
    · exact absurd (h.challenge hserver ▸ hnone) hformats
    · rw [h.role, hserver] at hclient
      cases hclient
  · intro hclient hready
    obtain ⟨scope, request, hcall, hopened⟩ | ⟨hserver, -⟩ | ⟨-, hconcludes⟩ := step_ready hready
    · dsimp only at hcall
      rw [hcall, hclient] at hpermitted
      cases hpermitted
    · rw [h.role, hclient] at hserver
      cases hserver
    · rw [h.opened]
      exact hconcludes

variable {steps : List Step}

theorem attempts_cons_none (h : step.asked = none) :
    attempts (step :: steps) = attempts steps := filterMap_cons_none h

theorem attempts_cons_some {request : SessionOpen}
    (h : step.asked = some request) : attempts (step :: steps) = request :: attempts steps :=
  filterMap_cons_some h

theorem tallies_advance (h : Tallies t) (c : Call) : Tallies (t.advance c) := by
  have hsteps : (t.advance c).steps = ⟨t.negotiation, c⟩ :: t.steps := rfl
  have hafter : (t.advance c).negotiation = Step.after ⟨t.negotiation, c⟩ := rfl
  -- The three facts about all attempts stay with them.
  have hsame (hattempts : attempts (t.advance c).steps = attempts t.steps)
      (hattempted : (t.advance c).negotiation.attempted = t.negotiation.attempted) :
      (t.advance c).negotiation.attempted =
        ((attempts (t.advance c).steps).map (·.sessionId)).reverse ∧
      ((attempts (t.advance c).steps).map (·.sessionId)).Nodup ∧
      (attempts (t.advance c).steps).length ≤ maxAuthenticationAttempts := by
    rw [hattempts, hattempted]
    exact ⟨h.attempted, h.distinct, h.room⟩
  cases step_effect ⟨t.negotiation, c⟩ with
  | quiet hasked hanswered hopened hattempted =>
    have hattempts : attempts (t.advance c).steps = attempts t.steps := attempts_cons_none hasked
    obtain ⟨h1, h2, h3⟩ := hsame hattempts hattempted
    rw [← hafter] at hopened
    refine ⟨h1, h2, h3, ?_, ?_⟩
    · rw [unanswered, hsteps, since_cons hanswered, attempts_cons_none hasked, ← unanswered, hopened,
        h.opened]
    · rw [hattempts, hopened]
      exact h.newest
  | ask hasked hanswered hbefore hopened hattempted hroom hfresh =>
    have hattempts : attempts (t.advance c).steps = _ :: attempts t.steps :=
      attempts_cons_some hasked
    rw [← hafter] at hopened hattempted
    rw [h.attempted] at hattempted hroom hfresh
    rw [length_reverse, length_map] at hroom
    rw [mem_reverse] at hfresh
    refine ⟨?_, ?_, ?_, ?_, ?_⟩
    · rw [hattempted, hattempts, map_cons, reverse_cons]
    · rw [hattempts, map_cons, nodup_cons]
      exact ⟨hfresh, h.distinct⟩
    · rw [hattempts, length_cons]
      exact hroom
    · rw [unanswered, hsteps, since_cons hanswered, attempts_cons_some hasked, ← unanswered, h.opened,
        hbefore, hopened]
      rfl
    · intro request hsome
      rw [hopened] at hsome
      cases hsome
      exact ⟨_, hattempts⟩
  | answer hasked hanswered hopened hattempted =>
    obtain ⟨h1, h2, h3⟩ := hsame (attempts_cons_none hasked) hattempted
    rw [← hafter] at hopened
    refine ⟨h1, h2, h3, ?_, ?_⟩
    · rw [unanswered, hsteps, since_mark hanswered, hopened]
      rfl
    · intro request hsome
      rw [hopened] at hsome
      cases hsome

/-- A field that was empty and is set, or stays, is set at most once. -/
theorem once_step {sets : Step → Bool} {before after : Bool}
    (h : (steps.filter sets).length ≤ if before then 1 else 0)
    (hstep : sets step = false ∧ after = before ∨ before = false ∧ after = true) :
    ((step :: steps).filter sets).length ≤ if after then 1 else 0 := by
  rcases hstep with ⟨hsets, rfl⟩ | ⟨rfl, rfl⟩
  · rwa [filter_cons_of_neg (by simp [hsets])]
  · have hle := length_filter_le sets [step]
    rw [← singleton_append, filter_append, length_append]
    simp only [length_singleton, Bool.false_eq_true, if_false, if_true] at hle h ⊢
    omega

theorem sound_advance (h : Sound start t) (hpermitted : c.Permitted start.role) :
    Sound start (t.advance c) := by
  have hfrozen := call_frozen t.negotiation c
  constructor
  case toTallies => exact tallies_advance h.toTallies c
  case role => exact hfrozen.role.trans h.role
  case challenge =>
    intro hserver
    obtain hsame | ⟨hclient, -⟩ := hfrozen.challenge
    · exact (Prod.mk.inj hsame).1.trans (h.challenge hserver)
    · rw [h.role, hserver] at hclient
      cases hclient
  case answers =>
    intro hserver request hmem
    cases step_effect ⟨t.negotiation, c⟩ with
    | ask hasked _ _ _ _ _ _ hanswers =>
      rw [Traced.advance, attempts_cons_some hasked, mem_cons] at hmem
      obtain rfl | hmem := hmem
      · exact h.challenge hserver ▸ hanswers
      · exact h.answers hserver request hmem
    | quiet hasked | answer hasked =>
      rw [Traced.advance, attempts_cons_none hasked] at hmem
      exact h.answers hserver request hmem
  case helloOnce =>
    apply once_step h.helloOnce
    obtain hsame | ⟨hnone, hsome⟩ := hfrozen.peerHello
    · exact .inl ⟨by simp [Step.setsHello, Step.after, hsame], by rw [Traced.advance, hsame]⟩
    · exact .inr ⟨by rw [hnone]; rfl, hsome⟩
  case settingsOnce =>
    apply once_step h.settingsOnce
    obtain hsame | ⟨hnone, hsome⟩ := hfrozen.peerSettings
    · exact .inl ⟨by simp [Step.setsSettings, Step.after, hsame], by rw [Traced.advance, hsame]⟩
    · exact .inr ⟨by rw [hnone]; rfl, hsome⟩
  case challengeOnce =>
    apply once_step h.challengeOnce
    obtain hsame | ⟨-, hunread, hread⟩ := hfrozen.challenge
    · exact .inl ⟨by simp [Step.setsChallenge, Step.after, hsame], (Prod.mk.inj hsame).2⟩
    · exact .inr ⟨hunread, hread⟩
  case gated => exact ⟨gated_step h hpermitted, h.gated⟩

/-- A negotiation as the constructors make it. -/
def Negotiation.Fresh (n : Negotiation) : Prop :=
  ∃ role localSettings extensions challenge presenting,
    n = .new role localSettings extensions challenge presenting

theorem sound_fresh (h : start.Fresh) : Sound start ⟨start, []⟩ := by
  obtain ⟨role, localSettings, extensions, challenge, presenting, rfl⟩ := h
  exact ⟨⟨rfl, nodup_nil, Nat.zero_le _, rfl, by rintro _ ⟨⟩⟩, rfl, fun _ => rfl,
    by rintro _ _ ⟨⟩, Nat.zero_le _, Nat.zero_le _, Nat.zero_le _, trivial⟩

theorem sound_run (h : Sound start t) {calls : List Call}
    (hpermitted : ∀ c ∈ calls, c.Permitted start.role) : Sound start (run Traced.advance t calls) := by
  induction calls generalizing t with
  | nil => exact h
  | cons c calls ih =>
    rw [forall_mem_cons] at hpermitted
    exact ih (sound_advance h hpermitted.1) hpermitted.2

end Runs

end ObjectTransfer.Sessions
