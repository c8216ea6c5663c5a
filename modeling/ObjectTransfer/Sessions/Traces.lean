import ObjectTransfer.Sessions.Agreement
import ObjectTransfer.Sessions.Calls

/-! # The gate on every trace

A run of a session has a run of the negotiation behind it, at every point of the run. So the gate of
the negotiation is the gate of the session, and what surfaces and what is handed over follow it.
-/

namespace ObjectTransfer.Sessions
open Foundations Codec Stateful List

structure GateHolds (start : Negotiation) (calls : List Call) : Prop where
  gated : Justified (Gated start) (Traced.of start calls).steps
  threeAttempts : start.role = .server → (attempts (Traced.of start calls).steps).length ≤ 3
  helloOnce : ((Traced.of start calls).steps.filter Step.setsHello).length ≤ 1
  settingsOnce : ((Traced.of start calls).steps.filter Step.setsSettings).length ≤ 1
  challengeOnce : ((Traced.of start calls).steps.filter Step.setsChallenge).length ≤ 1

theorem gateHolds_of_fresh {start : Negotiation} {calls : List Call} (hstart : start.Fresh)
    (hpermitted : ∀ c ∈ calls, c.Permitted start.role) : GateHolds start calls := by
  have hsound := sound_run (sound_fresh hstart) hpermitted
  have hone (b : Bool) : (if b then 1 else 0) ≤ 1 := by split_ifs <;> omega
  exact ⟨hsound.gated, fun _ => hsound.room, hsound.helloOnce.trans (hone _),
    hsound.settingsOnce.trans (hone _), hsound.challengeOnce.trans (hone _)⟩

namespace Session

variable {α : Type} [TransportAdapter α]

/-- The calls of the negotiation behind the calls of a session. The two agree after every call, and
every frame read was delivered, in that order. -/
structure Behind (start : Session (Recorded α)) (calls : List (SessionCall α))
    (inner : List (List Call)) : Prop where
  makes : List.Forall₂ SessionCall.Makes calls inner
  agrees : ∀ k, (start.after (calls.take k)).negotiation =
    start.negotiation.after (inner.take k).flatten
  delivered : ∀ k, ∃ records,
    (start.after (calls.take k)).adapter.log = start.adapter.log ++ records ∧
      ((inner.take k).flatten.filterMap Call.frame).Sublist (records.filterMap Record.delivered)

def handed (s : Session (Recorded α)) (c : SessionCall α) : List Outgoing :=
  ((s.step c).adapter.log.drop s.adapter.log.length).filterMap Record.submitted

/-- What a call may surface and hand over. -/
structure PlaneGated (s : Session (Recorded α)) (c : SessionCall α) : Prop where
  surfaced : ∀ event, (c.method.call s).1 = .ok (some (some event)) → event.isData = true →
    (s.step c).isReady = true
  handed : ∀ frame ∈ s.handed c, c.isSend = true ∧ s.isReady = true ∨
    ∃ bytes, frame = .control bytes ∧ ExchangeFrame bytes

/-- A session as the constructors make it, over an adapter with nothing recorded. -/
def Fresh (s : Session (Recorded α)) : Prop :=
  ∃ adapter localSettings extensions authentication,
    s = client ⟨adapter, []⟩ localSettings extensions authentication ∨
      s = server ⟨adapter, []⟩ localSettings extensions authentication

def QueuesExchange (s : Session (Recorded α)) : Prop := ∀ bytes ∈ s.outbound, ExchangeFrame bytes

/-! ## One call -/

theorem step_behind (s : Session (Recorded α)) (c : SessionCall α) :
    ∃ calls records, c.Makes calls ∧ (s.step c).negotiation = s.negotiation.after calls ∧
      (s.step c).adapter.log = s.adapter.log ++ records ∧
      (calls.filterMap Call.frame).Sublist (records.filterMap Record.delivered) := by
  cases hsend : c.isSend with
  | false =>
    obtain ⟨calls, records, hmakes, hframes, h⟩ := step_advance hsend s
    exact ⟨calls, records, hmakes, h.negotiation, h.log, hframes⟩
  | true =>
    obtain ⟨hnegotiation, -, records, hlog, -⟩ := step_hands hsend s
    refine ⟨[], records, ?_, hnegotiation, hlog, nil_sublist _⟩
    cases c with
    | sendControl | sendControlShared | sendReliable | sendReliableShared | sendDatagram => rfl
    | _ => cases hsend

variable {s : Session (Recorded α)}

theorem step_queues (c : SessionCall α) (h : s.QueuesExchange) : (s.step c).QueuesExchange := by
  cases hsend : c.isSend with
  | false =>
    obtain ⟨calls, records, -, -, hadvance⟩ := step_advance hsend s
    intro bytes hbytes
    have hqueued : bytes ∈ s.outbound ++ emitted s.negotiation calls := by
      rw [hadvance.queue]
      exact mem_append_right _ hbytes
    exact forall_mem_append.mpr ⟨h, emitted_exchange _ _⟩ bytes hqueued
  | true =>
    rw [QueuesExchange, (step_hands hsend s).outbound]
    exact h

theorem step_plane (c : SessionCall α) (h : s.QueuesExchange) : PlaneGated s c := by
  constructor
  · intro event hresult hdata
    cases c with
    | poll fuel =>
      have hcall : (poll fuel).call s = (.ok (some (some event)), s.step (.poll fuel)) :=
        Prod.ext hresult rfl
      exact poll_surfaces fuel s _ _ hcall event rfl hdata
    | _ =>
      have hsilent (m : Method (Recorded α) Unit) :
          ((silently m).call s).1 ≠ .ok (some (some event)) := by
        intro hok
        have hnone : Returns (fun result _ => result = none) (silently m) :=
          .after fun _ => .pure fun _ => rfl
        cases hnone s _ _ (Prod.ext hok rfl)
      exact absurd hresult (hsilent _)
  · intro frame hframe
    cases hsend : c.isSend with
    | false =>
      obtain ⟨calls, records, -, -, hadvance⟩ := step_advance hsend s
      rw [handed, hadvance.log, drop_left] at hframe
      obtain ⟨bytes, hbytes, rfl⟩ := hadvance.handed frame hframe
      exact .inr ⟨bytes, rfl, forall_mem_append.mpr ⟨h, emitted_exchange _ _⟩ bytes hbytes⟩
    | true =>
      refine .inl ⟨rfl, ?_⟩
      by_contra hready
      rw [handed, step_unready hsend (by simpa using hready), drop_length] at hframe
      cases hframe

/-! ## Every run -/

theorem exists_behind (start : Session (Recorded α)) (calls : List (SessionCall α)) :
    ∃ inner, Behind start calls inner := by
  induction calls generalizing start with
  | nil => exact ⟨[], .nil, by simp [after, Negotiation.after], fun k => ⟨[], by simp [after], by simp⟩⟩
  | cons c calls ih =>
    obtain ⟨made, records, hmakes, hnegotiation, hlog, hframes⟩ := step_behind start c
    obtain ⟨inner, hinner⟩ := ih (start.step c)
    refine ⟨made :: inner, .cons hmakes hinner.makes, ?_, ?_⟩
    · intro k
      cases k with
      | zero => rfl
      | succ k =>
        have hagrees := hinner.agrees k
        rw [hnegotiation, Negotiation.after, Negotiation.after, ← run_append] at hagrees
        exact hagrees
    · intro k
      cases k with
      | zero => exact ⟨[], by simp [after], by simp⟩
      | succ k =>
        obtain ⟨later, hlater, hsublist⟩ := hinner.delivered k
        refine ⟨records ++ later, ?_, ?_⟩
        · rw [hlog, append_assoc] at hlater
          exact hlater
        · rw [take_succ_cons, flatten_cons, filterMap_append, filterMap_append]
          exact hframes.append hsublist

variable {start : Session (Recorded α)}

theorem Behind.permitted {calls : List (SessionCall α)}
    {inner : List (List Call)} {role : EndpointRole} (h : Behind start calls inner)
    (hpermitted : ∀ c ∈ calls, c.Permitted role) : ∀ c ∈ inner.flatten, c.Permitted role := by
  have hmakes := h.makes
  clear h
  induction hmakes with
  | nil => simp
  | cons hmake _ ih =>
    rw [forall_mem_cons] at hpermitted
    exact forall_mem_append.mpr ⟨hmake.permitted hpermitted.1, ih hpermitted.2⟩

omit [TransportAdapter α] in
theorem Fresh.negotiation (h : s.Fresh) : s.negotiation.Fresh := by
  obtain ⟨adapter, localSettings, extensions, authentication, rfl | rfl⟩ := h
  · cases authentication with
    | presenting | notRequired | capability => exact ⟨_, _, _, _, _, rfl⟩
  · exact ⟨_, _, _, _, _, rfl⟩

omit [TransportAdapter α] in
theorem Fresh.queues (h : s.Fresh) : s.QueuesExchange := by
  obtain ⟨adapter, localSettings, extensions, authentication, rfl | rfl⟩ := h <;> rintro _ ⟨⟩

theorem after_queues (h : start.QueuesExchange)
    (calls : List (SessionCall α)) : (start.after calls).QueuesExchange :=
  run_invariant (fun _ c hs => step_queues c hs) h calls

end Session

/-- The authentication gate holds on every trace of a negotiation and of a session. -/
theorem authentication_gate :
    (∀ (start : Negotiation) (calls : List Call), start.Fresh →
      (∀ c ∈ calls, c.Permitted start.role) → GateHolds start calls) ∧
    ∀ (α : Type) [TransportAdapter α] (start : Session (Recorded α)) (calls : List (SessionCall α)),
      start.Fresh → (∀ c ∈ calls, c.Permitted start.negotiation.role) →
      (∃ inner, Session.Behind start calls inner ∧ GateHolds start.negotiation inner.flatten) ∧
      ∀ c, Session.PlaneGated (start.after calls) c := by
  constructor
  · intro start calls hstart hpermitted
    exact gateHolds_of_fresh hstart hpermitted
  · intro α _ start calls hstart hpermitted
    obtain ⟨inner, hinner⟩ := Session.exists_behind start calls
    refine ⟨⟨inner, hinner, gateHolds_of_fresh hstart.negotiation (hinner.permitted hpermitted)⟩, ?_⟩
    intro c
    exact Session.step_plane c (Session.after_queues hstart.queues calls)

/-- A carrier that reports the listed events and takes every frame. -/
structure Script where
  events : List Event

instance : TransportAdapter Script where
  channelBinding _ := .ok (.replicate 32 0)
  sendControl _ a := (.ok (), a)
  sendControlShared _ a := (.ok (), a)
  sendReliable _ _ a := (.ok (), a)
  sendReliableShared _ _ a := (.ok (), a)
  sendDatagram _ _ a := (.ok (), a)
  flush a := (.ok (), a)
  poll a := (a.events.head?, ⟨a.events.tail⟩)
  close _ a := (.ok (), a)
  receiveLimits _ := none
  setControlPayloadLimit _ a := (.ok (), a)

/-- What a client sends that offers, is answered and asks. -/
def askingFrames : List Bytes :=
  sampleBegun.toServer ++
    replyOf ((sampleBegun.runs World.deliveries).client.call (.present sampleRequest)).1

/-- A server reads it and grants the request. -/
def askedCalls : List Call := .begin :: askingFrames.map .acceptControl ++ [.grant [3]]

def askedSession : Session (Recorded Script) :=
  (Session.server ⟨⟨.connected 0 :: askingFrames.map .control⟩, []⟩ .default ∅
    (.capability sampleChallenge)).after [.begin, .poll 1, .poll 4, .grant [3]]

theorem authentication_gate_granted :
    attempts (Traced.of sampleSetup.serverStart askedCalls).steps = [sampleRequest] ∧
      (sampleSetup.serverStart.after askedCalls).isReady = true ∧
      GateHolds sampleSetup.serverStart askedCalls ∧
      askedSession.isReady = true ∧ ∀ c, Session.PlaneGated askedSession c := by
  refine ⟨by decide +kernel, by decide +kernel, ?_, by decide +kernel, ?_⟩
  · refine authentication_gate.1 _ _ ⟨_, _, _, _, _, rfl⟩ ?_
    intro c hc
    simp only [askedCalls, cons_append, mem_cons, mem_append, mem_map, not_mem_nil, or_false] at hc
    obtain rfl | ⟨frame, -, rfl⟩ | rfl := hc <;> trivial
  · refine (authentication_gate.2 Script _ _ ⟨_, _, _, _, .inr rfl⟩ ?_).2
    simp only [forall_mem_cons]
    exact ⟨trivial, trivial, trivial, rfl, by simp⟩

end ObjectTransfer.Sessions
