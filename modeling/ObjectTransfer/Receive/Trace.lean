import ObjectTransfer.Foundations.History
import ObjectTransfer.Foundations.Runs
import ObjectTransfer.Ranges.Authentic
import ObjectTransfer.Receive.Receiver

/-! # Runs of a receiver

A run is a list of calls with the answers the sinks gave. Its history records what a run did to the
subjects: transfers opened, ranges written, placed and admitted, records accepted, and subjects
verified. Whatever a call is, it makes one of a few moves on the part of the state that decides
which subjects are verified.
-/

namespace ObjectTransfer.Receive
open Foundations Streaming Codec Ranges Transport ReliableReceiver

variable {σ : Type}

/-- A range written to a sink, with the proof that was checked for it. -/
structure Placement (σ : Type) where
  subject : SubjectId
  write : Write σ
  proof : Bytes

namespace Placement

def offset (placement : Placement σ) : ℕ := placement.write.range.coveredOffset

def data (placement : Placement σ) : Bytes := placement.write.range.data

/-- The first and the exclusive last byte. -/
def span (placement : Placement σ) : ℕ × ℕ :=
  (placement.offset, placement.offset + placement.data.length)

/-- What `writeTo` returns for a placement outside the receiver. -/
def witness (placement : Placement σ) : WrittenRange :=
  ⟨placement.subject, placement.offset, placement.data.length⟩

end Placement

inductive Event (σ : Type) where
  /-- Range state was opened for a subject. -/
  | opened (subject : SubjectId) (sink : σ)
  /-- The receiver wrote a range and booked it. -/
  | wrote (placement : Placement σ)
  /-- A range was written outside the receiver. -/
  | placed (placement : Placement σ)
  /-- A range written outside the receiver was booked. -/
  | admitted (placement : Placement σ)
  /-- A stream was opened for a subject. -/
  | started (subject : SubjectId)
  | accepted (subject : SubjectId) (record : Bytes)
  /-- The subject became verified by its ranges. -/
  | completed (subject : SubjectId)
  /-- The subject became verified by its stream. -/
  | finished (subject : SubjectId)

/-- A range proved against its subject. Only a successful check makes one. -/
structure ProvedRange [Blake3] [Sha256] where
  subject : SubjectId
  bundle : ProofBundle
  records : List DataRecord
  range : VerifiedRange
  proved : verifyTypedBundle subject bundle records = .ok range

def ProvedRange.placement [Blake3] [Sha256] (proved : ProvedRange) (sink : σ) : Placement σ :=
  ⟨proved.subject, ⟨sink, proved.range⟩, proved.bundle.proof⟩

/-- The receiver, the witnesses of ranges written outside it that were not admitted yet, and the
history. -/
structure System (σ : Type) where
  receiver : ReliableReceiver σ
  witnesses : List (WrittenRange × Placement σ)
  log : List (Event σ)

/-- The calls of a receiver. Where a call may write, `taken` is the sink's answer; a written range is
admitted by its place among the outstanding witnesses. -/
inductive Call (σ : Type) [Blake3] [Sha256] where
  | recoverAccounting
  | connected (connection : ℕ)
  | disconnected (connection : ℕ)
  | acknowledged
  | observePathStats (stats : PathStats)
  | begin (subject : SubjectId)
  | beginRanges (subject : SubjectId) (sink : σ)
  | receiveRange (subject : SubjectId) (coveredOffset : ℕ) (data proof : Bytes) (taken : Bool)
  | receiveTypedBundle (subject : SubjectId) (bundle : ProofBundle) (records : List DataRecord)
      (taken : Bool)
  | writeTo (proved : ProvedRange) (sink : σ) (taken : Bool)
  | admitVerifiedRange (proved : ProvedRange) (taken : Bool)
  | admitWrittenRange (index : ℕ)
  | finishRanges (subject : SubjectId)
  | abandonRanges (subject : SubjectId)
  | receive (subject : SubjectId) (record : Bytes)
  | finish (subject : SubjectId)

namespace System
variable [Blake3] [Sha256]

/-- The system after a call on the receiver, with the events of a call that returned a value. -/
def after {α : Type} (s : System σ) (outcome : ReliableReceiver σ × Except (Abort Error) α)
    (events : α → List (Event σ)) : System σ × Except (Abort Error) Unit :=
  match outcome.2 with
  | .ok value => ({ s with receiver := outcome.1, log := events value ++ s.log }, .ok ())
  | .error error => ({ s with receiver := outcome.1 }, .error error)

def wrote (subject : SubjectId) (proof : Bytes) (write : Option (Write σ)) : List (Event σ) :=
  write.toList.map fun write => .wrote ⟨subject, write, proof⟩

def call (s : System σ) : Call σ → System σ × Except (Abort Error) Unit
  | .recoverAccounting => ({ s with receiver := s.receiver.recoverAccounting.1 }, .ok ())
  | .connected connection => ({ s with receiver := s.receiver.connected connection }, .ok ())
  | .disconnected connection => ({ s with receiver := s.receiver.disconnected connection }, .ok ())
  | .acknowledged => ({ s with receiver := s.receiver.acknowledged }, .ok ())
  | .observePathStats stats => ({ s with receiver := s.receiver.observePathStats stats }, .ok ())
  | .begin subject =>
    s.after (s.receiver.begin subject) fun _ =>
      if s.receiver.isVerified subject then [] else [.started subject]
  | .beginRanges subject sink =>
    s.after (s.receiver.beginRanges subject sink) fun _ =>
      if s.receiver.isVerified subject then [] else [.opened subject sink]
  | .receiveRange subject coveredOffset data proof taken =>
    s.after (s.receiver.receiveRange subject coveredOffset data proof taken) (wrote subject proof)
  | .receiveTypedBundle subject bundle records taken =>
    s.after (s.receiver.receiveTypedBundle subject bundle records taken)
      (wrote subject bundle.proof)
  | .writeTo proved sink taken =>
    match Receive.writeTo proved.range taken with
    | .ok witness =>
      ({ s with
        witnesses := (witness, proved.placement sink) :: s.witnesses
        log := .placed (proved.placement sink) :: s.log }, .ok ())
    | .error error => (s, .error error)
  | .admitVerifiedRange proved taken =>
    s.after (s.receiver.admitVerifiedRange proved.range taken)
      (wrote proved.subject proved.bundle.proof)
  | .admitWrittenRange index =>
    match s.witnesses[index]? with
    | none => (s, .ok ())
    | some (witness, placement) =>
      let outcome := s.receiver.admitWrittenRange witness
      { s with witnesses := s.witnesses.eraseIdx index }.after outcome fun _ =>
        -- a replay books nothing, and neither does a subject that is verified already
        match s.receiver.check witness.subject witness.coveredOffset witness.bytes with
        | .ok (some _) => if s.receiver.isVerified witness.subject then [] else [.admitted placement]
        | _ => []
  | .finishRanges subject =>
    s.after (s.receiver.finishRanges subject) fun _ =>
      if s.receiver.isVerified subject then [] else [.completed subject]
  | .abandonRanges subject => ({ s with receiver := (s.receiver.abandonRanges subject).1 }, .ok ())
  | .receive subject record =>
    s.after (s.receiver.receive subject record) fun _ => [.accepted subject record]
  | .finish subject =>
    s.after (s.receiver.finish subject) fun _ =>
      if s.receiver.isVerified subject then [] else [.finished subject]

def step (s : System σ) (c : Call σ) : System σ := (s.call c).1

end System

/-- A receiver nothing has been received by. -/
def System.Initial (s : System σ) : Prop :=
  ∃ limit target most, ReliableReceiver.new limit target most = .ok s.receiver ∧
    s.witnesses = [] ∧ s.log = []

/-! ## Proved ranges -/

variable {proof : Bytes}

section Proved

/-- The proof held for the range of the subject's object. -/
def Proved [Blake3] [Sha256] (subject : SubjectId) (range : VerifiedRange) (proof : Bytes) : Prop :=
  ∃ object, objectId subject = .ok object ∧
    verifyRange object range.coveredOffset range.data proof = .ok range

variable {subject : SubjectId} {range : VerifiedRange} {object : ObjectId}

theorem objectId_eq_ok : objectId subject = .ok object ↔
    subject.suite ≠ 0 ∧ object = ⟨subject.suite, subject.root, subject.length⟩ := by
  simp only [objectId, bind_eq_ok, pure_eq_ok, SubjectId.isMarker]
  constructor
  · rintro ⟨⟨⟩, hsuite, rfl⟩
    exact ⟨by simpa using hsuite, rfl⟩
  · rintro ⟨hsuite, rfl⟩
    exact ⟨(), by simpa using hsuite, rfl⟩

/-- The subject of a subject's object is that subject. -/
theorem subjectId_of_objectId (h : objectId subject = .ok object) :
    subjectId object = .ok subject := by
  obtain ⟨hsuite, rfl⟩ := objectId_eq_ok.mp h
  obtain ⟨hzero, -⟩ | hvalid := subject.formed
  · exact absurd hzero hsuite
  · rw [subjectId, dif_pos hvalid]

variable [Blake3] [Sha256]

theorem Proved.subjectId (h : Proved subject range proof) :
    subjectId range.object = .ok subject := by
  obtain ⟨object, hobject, hverify⟩ := h
  obtain ⟨-, -, hrange⟩ := verifyRange_eq_ok.mp hverify
  rw [hrange]
  exact subjectId_of_objectId hobject

theorem checkRangeProof_proved {offset : ℕ} {data proof : Bytes}
    (h : checkRangeProof subject offset data proof = .ok range) : Proved subject range proof := by
  simp only [checkRangeProof, bind_eq_ok, mapError_eq_ok] at h
  obtain ⟨-, -, object, hobject, hverify⟩ := h
  obtain ⟨-, -, hrange⟩ := verifyRange_eq_ok.mp hverify
  refine ⟨object, hobject, ?_⟩
  rw [← hverify, hrange]

variable {bundle : ProofBundle} {records : List DataRecord}

theorem verifyTypedBundle_eq_ok : verifyTypedBundle subject bundle records = .ok range ↔
    ∃ object, objectId subject = .ok object ∧
      verifyTypedBundleRef object bundle records = .ok range := by
  simp only [verifyTypedBundle, bind_eq_ok, mapError_eq_ok]

theorem verifyTypedBundle_proved (h : verifyTypedBundle subject bundle records = .ok range) :
    Proved subject range bundle.proof := by
  simp only [verifyTypedBundle_eq_ok, verifyTypedBundleRef, bind_eq_ok] at h
  obtain ⟨object, hobject, validated, -, data, -, hverify⟩ := h
  obtain ⟨-, -, hrange⟩ := verifyRange_eq_ok.mp hverify
  refine ⟨object, hobject, ?_⟩
  rw [← hverify, hrange]

end Proved

/-! ## Moves -/

/-- The part of the receiver that decides which subjects are verified. -/
structure Core (σ : Type) where
  active : OrderedMap SubjectId ActiveObject
  rangeActive : OrderedMap SubjectId (RangeState σ)
  verified : Finset SubjectId

def ReliableReceiver.core (receiver : ReliableReceiver σ) : Core σ :=
  ⟨receiver.active, receiver.rangeActive, receiver.verified⟩

namespace Core

/-- A new range of `bytes` bytes at `offset` is booked for an open subject. -/
structure Books (c c' : Core σ) (subject : SubjectId) (sink : σ) (offset bytes : ℕ) : Prop where
  unverified : subject ∉ c.verified
  booked : ∃ active booking, c.rangeActive.get? subject = some active ∧ active.sink = sink ∧
    active.coverage.check offset bytes = .ok (.new booking) ∧
    c' = ⟨c.active, c.rangeActive.insert subject
      { active with coverage := active.coverage.commit booking }, c.verified⟩

end Core

variable {result : Except (Abort Error) (ReliableReceiver σ)}

namespace ReliableReceiver
variable {receiver receiver' : ReliableReceiver σ} {α : Type}

theorem core_reserve {bytes : ℕ} (h : receiver.reserve bytes = .ok receiver') :
    receiver'.core = receiver.core := by
  simp only [reserve, bind_eq_ok, pure_eq_ok] at h
  obtain ⟨staging, -, rfl⟩ := h
  rfl

/-- Holding bytes for a call does not change what the call does. -/
theorem holding_core {P : Core σ → Except (Abort Error) α → Prop} {hold : Option ℕ}
    {body : ReliableReceiver σ → ReliableReceiver σ × Except (Abort Error) α}
    (refused : ∀ error, P receiver.core (.error error))
    (held : ∀ held : ReliableReceiver σ, held.core = receiver.core →
      P (body held).1.core (body held).2) :
    P (receiver.holding hold body).1.core (receiver.holding hold body).2 := by
  cases hold with
  | none => exact held _ rfl
  | some bytes =>
    cases hreserve : receiver.reserve bytes with
    | error error =>
      simp only [holding, hreserve]
      exact refused error
    | ok charged =>
      simp only [holding, hreserve]
      exact held charged (core_reserve hreserve)

theorem settle_core {P : Core σ → Except (Abort Error) Unit → Prop}
    (refused : ∀ error, result = .error error → P receiver.core (.error error))
    (settled : ∀ receiver', result = .ok receiver' → P receiver'.core (.ok ())) :
    P (receiver.settle result).1.core (receiver.settle result).2 := by
  cases result with
  | error error => exact refused error rfl
  | ok receiver' => exact settled receiver' rfl

variable {offset bytes : ℕ} {subject : SubjectId}

theorem core_commit {active : RangeState σ} {booking : Cover.Booking}
    (hverified : subject ∉ receiver.verified)
    (hcheck : receiver.check subject offset bytes = .ok (some (active, booking))) :
    receiver.core.Books (receiver.commit subject active booking).core subject active.sink
      offset bytes := by
  simp only [check, bind_eq_ok, okOr_eq_ok, mapError_eq_ok] at hcheck
  obtain ⟨active', hactive, answer, hcheck, hanswer⟩ := hcheck
  cases answer with
  | replay => cases hanswer
  | new booking' =>
    cases hanswer
    exact ⟨hverified, active, booking, hactive, rfl, hcheck, rfl⟩

/-- Either the state is as before, or the sink took the range and it is booked. -/
def RangeOutcome (c : Core σ) (range : VerifiedRange) (c' : Core σ)
    (result : Except (Abort Error) (Option (Write σ))) : Prop :=
  match result with
  | .ok (some write) => write.range = range ∧ ∃ subject, subjectId range.object = .ok subject ∧
      c.Books c' subject write.sink range.coveredOffset range.data.length
  | _ => c' = c

theorem insertCheckedRange_outcome (range : VerifiedRange) (callerReserved taken : Bool) :
    RangeOutcome receiver.core range (receiver.insertCheckedRange range callerReserved taken).1.core
      (receiver.insertCheckedRange range callerReserved taken).2 := by
  rw [insertCheckedRange]
  split
  · rfl
  · next subject hsubject =>
    split
    · rfl
    · next hverified =>
      split
      · rfl
      · rfl
      · next active booking hcheck =>
        apply holding_core (P := RangeOutcome receiver.core range)
        · intro error
          rfl
        · intro held hcore
          cases taken with
          | false => exact hcore
          | true =>
            have hsame : held.verified = receiver.verified ∧
                held.rangeActive = receiver.rangeActive :=
              ⟨congrArg Core.verified hcore, congrArg Core.rangeActive hcore⟩
            refine ⟨rfl, subject, hsubject, ?_⟩
            rw [← hcore]
            apply core_commit (by rwa [hsame.1])
            rw [← hcheck, check, check, hsame.2]

section Proved
variable [Blake3] [Sha256] {c c' : Core σ} {subject : SubjectId} {proof : Bytes}

/-- Either the state is as before, or a proved range of the subject was written and is booked. -/
def WriteOutcome (c : Core σ) (subject : SubjectId) (proof : Bytes) (c' : Core σ)
    (result : Except (Abort Error) (Option (Write σ))) : Prop :=
  match result with
  | .ok (some write) => Proved subject write.range proof ∧
      c.Books c' subject write.sink write.range.coveredOffset write.range.data.length
  | _ => c' = c

theorem RangeOutcome.write {range : VerifiedRange} {result : Except (Abort Error) (Option (Write σ))}
    (hproved : Proved subject range proof) (h : RangeOutcome c range c' result) :
    WriteOutcome c subject proof c' result := by
  cases result with
  | error => exact h
  | ok write =>
    cases write with
    | none => exact h
    | some =>
      obtain ⟨rfl, subject', hsubject, hbooks⟩ := h
      cases hproved.subjectId.symm.trans hsubject
      exact ⟨hproved, hbooks⟩

theorem receiveVerifiedRange_outcome (offset : ℕ) (data : Bytes) (callerReserved taken : Bool) :
    WriteOutcome receiver.core subject proof
      (receiver.receiveVerifiedRange subject offset data proof callerReserved taken).1.core
      (receiver.receiveVerifiedRange subject offset data proof callerReserved taken).2 := by
  rw [receiveVerifiedRange]
  split
  · rfl
  · split
    · rfl
    · next range hrange =>
      exact (insertCheckedRange_outcome range callerReserved taken).write
        (checkRangeProof_proved hrange)

theorem receiveTypedBundle_outcome (bundle : ProofBundle) (records : List DataRecord)
    (taken : Bool) :
    WriteOutcome receiver.core subject bundle.proof
      (receiver.receiveTypedBundle subject bundle records taken).1.core
      (receiver.receiveTypedBundle subject bundle records taken).2 := by
  rw [receiveTypedBundle]
  split
  · rfl
  · next validated hvalidated =>
    apply holding_core (P := WriteOutcome receiver.core subject bundle.proof)
    · intro error
      rfl
    · intro held hcore
      rw [← hcore]
      split
      · rfl
      · exact receiveVerifiedRange_outcome _ _ _ _

theorem admitVerifiedRange_outcome (proved : ProvedRange) (taken : Bool) :
    WriteOutcome receiver.core proved.subject proved.bundle.proof
      (receiver.admitVerifiedRange proved.range taken).1.core
      (receiver.admitVerifiedRange proved.range taken).2 :=
  (insertCheckedRange_outcome proved.range false taken).write
    (verifyTypedBundle_proved proved.proved)

end Proved

end ReliableReceiver

/-- What the runs are about. -/
structure View (σ : Type) where
  core : Core σ
  witnesses : List (WrittenRange × Placement σ)
  log : List (Event σ)

def System.view (s : System σ) : View σ := ⟨s.receiver.core, s.witnesses, s.log⟩

section Moves
variable [Blake3] [Sha256]

/-- Everything a call can do to the subjects and the history. -/
inductive Move : View σ → View σ → Prop where
  | idle (v : View σ) : Move v v
  | opens (v : View σ) (subject : SubjectId) (sink : σ) (reservation : ℕ)
      (unverified : subject ∉ v.core.verified) (nonempty : subject.length ≠ 0) :
      Move v ⟨⟨v.core.active, v.core.rangeActive.insert subject
        ⟨.forObject subject.length.toNat, sink, reservation⟩, v.core.verified⟩, v.witnesses,
        .opened subject sink :: v.log⟩
  | writes (v : View σ) (placement : Placement σ) (core : Core σ)
      (proved : Proved placement.subject placement.write.range placement.proof)
      (books : v.core.Books core placement.subject placement.write.sink placement.offset
        placement.data.length) :
      Move v ⟨core, v.witnesses, .wrote placement :: v.log⟩
  | places (v : View σ) (placement : Placement σ)
      (proved : Proved placement.subject placement.write.range placement.proof) :
      Move v ⟨v.core, (placement.witness, placement) :: v.witnesses, .placed placement :: v.log⟩
  | admits (v : View σ) (index : ℕ) (witness : WrittenRange) (placement : Placement σ) (sink : σ)
      (core : Core σ) (found : v.witnesses[index]? = some (witness, placement))
      (books : v.core.Books core witness.subject sink witness.coveredOffset witness.bytes) :
      Move v ⟨core, v.witnesses.eraseIdx index, .admitted placement :: v.log⟩
  /-- A witness is spent on a range that needs no booking or gets none. -/
  | discards (v : View σ) (index : ℕ) : Move v ⟨v.core, v.witnesses.eraseIdx index, v.log⟩
  | abandons (v : View σ) (subject : SubjectId) :
      Move v ⟨⟨v.core.active, v.core.rangeActive.erase subject, v.core.verified⟩, v.witnesses,
        v.log⟩
  | completes (v : View σ) (subject : SubjectId) (state : RangeState σ)
      (found : v.core.rangeActive.get? subject = some state)
      (complete : state.coverage.isComplete subject.length.toNat = true) :
      Move v ⟨⟨v.core.active, v.core.rangeActive.erase subject, insert subject v.core.verified⟩,
        v.witnesses, .completed subject :: v.log⟩
  | starts (v : View σ) (subject : SubjectId) (named : Suite) (reservation : ℕ)
      (hsuite : suite subject = .ok named) :
      Move v ⟨⟨v.core.active.insert subject ⟨.new named, 0, reservation⟩, v.core.rangeActive,
        v.core.verified⟩, v.witnesses, .started subject :: v.log⟩
  | accepts (v : View σ) (subject : SubjectId) (record : Bytes) (active : ActiveObject)
      (verifier : StreamVerifier) (found : v.core.active.get? subject = some active)
      (within : active.received + record.length ≤ subject.length.toNat)
      (updated : active.verifier.update record = .ok verifier) :
      Move v ⟨⟨v.core.active.insert subject
        ⟨verifier, active.received + record.length, active.reservation⟩, v.core.rangeActive,
        v.core.verified⟩, v.witnesses, .accepted subject record :: v.log⟩
  | drops (v : View σ) (subject : SubjectId) :
      Move v ⟨⟨v.core.active.erase subject, v.core.rangeActive, v.core.verified⟩, v.witnesses,
        v.log⟩
  | finishes (v : View σ) (subject : SubjectId) (active : ActiveObject)
      (found : v.core.active.get? subject = some active)
      (checked : checkFinished subject active = .ok ()) :
      Move v ⟨⟨v.core.active.erase subject, v.core.rangeActive, insert subject v.core.verified⟩,
        v.witnesses, .finished subject :: v.log⟩

namespace System
variable {s : System σ} {subject : SubjectId}

/-- A call on the receiver makes a move when its outcome does, and a failed one when it left a state
that can be moved to without an event. -/
theorem after_move {α : Type} {outcome : ReliableReceiver σ × Except (Abort Error) α}
    {events : α → List (Event σ)}
    (returned : ∀ value, outcome.2 = .ok value →
      Move s.view ⟨outcome.1.core, s.witnesses, events value ++ s.log⟩)
    (failed : ∀ error, outcome.2 = .error error →
      Move s.view ⟨outcome.1.core, s.witnesses, s.log⟩) :
    Move s.view (s.after outcome events).1.view := by
  cases hresult : outcome.2 with
  | ok value =>
    simp only [after, hresult]
    exact returned value hresult
  | error error =>
    simp only [after, hresult]
    exact failed error hresult

theorem write_move {outcome : ReliableReceiver σ × Except (Abort Error) (Option (Write σ))}
    (h : ReliableReceiver.WriteOutcome s.receiver.core subject proof outcome.1.core outcome.2) :
    Move s.view (s.after outcome (wrote subject proof)).1.view := by
  apply after_move
  · intro write hresult
    rw [hresult] at h
    cases write with
    | none =>
      rw [show outcome.1.core = s.receiver.core from h]
      exact .idle _
    | some write => exact .writes s.view ⟨subject, write, proof⟩ outcome.1.core h.1 h.2
  · intro error hresult
    rw [hresult] at h
    rw [show outcome.1.core = s.receiver.core from h]
    exact .idle _

/-- A call that leaves a verified subject alone and otherwise changes nothing when it fails. -/
theorem settle_move {event : Event σ}
    (settled : subject ∉ s.receiver.verified → ∀ receiver', result = .ok receiver' →
      Move s.view ⟨receiver'.core, s.witnesses, event :: s.log⟩) :
    Move s.view (s.after
      (if subject ∈ s.receiver.verified then (s.receiver, .ok ()) else s.receiver.settle result)
      fun _ => if s.receiver.isVerified subject then [] else [event]).1.view := by
  by_cases hverified : subject ∈ s.receiver.verified
  · simp only [if_pos hverified, isVerified, decide_eq_true hverified]
    exact .idle _
  · simp only [if_neg hverified, isVerified, decide_eq_false hverified]
    cases hresult : result with
    | error => exact .idle _
    | ok receiver' => exact settled hverified receiver' hresult

theorem begin_move : Move s.view (s.step (.begin subject)).view := by
  refine settle_move fun hverified receiver' hresult => ?_
  simp only [bind_eq_ok, pure_eq_ok] at hresult
  obtain ⟨-, -, named, hsuite, held, hheld, rfl⟩ := hresult
  have hcore := core_reserve hheld
  have hmove := Move.starts s.view subject named verifierReservation hsuite
  rw [System.view, ← hcore] at hmove ⊢
  exact hmove

theorem beginRanges_move (sink : σ) : Move s.view (s.step (.beginRanges subject sink)).view := by
  refine settle_move fun hverified receiver' hresult => ?_
  simp only [bind_eq_ok, rejectIf_eq_ok, pure_eq_ok] at hresult
  obtain ⟨-, -, -, -, -, hnonempty, held, hheld, rfl⟩ := hresult
  have hcore := core_reserve hheld
  have hmove := Move.opens s.view subject sink verifierReservation hverified hnonempty
  rw [System.view, ← hcore] at hmove ⊢
  exact hmove

theorem finishRanges_move : Move s.view (s.step (.finishRanges subject)).view := by
  refine settle_move fun hverified receiver' hresult => ?_
  simp only [bind_eq_ok, okOr_eq_ok, rejectIf_eq_ok, pure_eq_ok] at hresult
  obtain ⟨state, hstate, -, hcomplete, rfl⟩ := hresult
  exact .completes s.view subject state hstate (by simpa using hcomplete)

theorem writeTo_move (proved : ProvedRange) (sink : σ) (taken : Bool) :
    Move s.view (s.step (.writeTo proved sink taken)).view := by
  have hproved := verifyTypedBundle_proved proved.proved
  cases hwrite : writeTo proved.range taken with
  | error =>
    simp only [step, call, hwrite]
    exact .idle _
  | ok =>
    simp only [step, call, hwrite]
    simp only [writeTo, bind_eq_ok, hproved.subjectId, Except.ok.injEq, pure_eq_ok] at hwrite
    obtain ⟨-, -, _, rfl, rfl⟩ := hwrite
    exact .places s.view (proved.placement sink) hproved

theorem admitWrittenRange_move (index : ℕ) :
    Move s.view (s.step (.admitWrittenRange index)).view := by
  cases hfound : s.witnesses[index]? with
  | none =>
    simp only [step, call, hfound]
    exact .idle _
  | some entry =>
    obtain ⟨witness, placement⟩ := entry
    simp only [step, call, hfound, admitWrittenRange]
    by_cases hverified : witness.subject ∈ s.receiver.verified
    · simp only [if_pos hverified, isVerified, decide_eq_true hverified]
      cases s.receiver.check witness.subject witness.coveredOffset witness.bytes with
      | error => exact .discards s.view index
      | ok answer => cases answer <;> exact .discards s.view index
    · simp only [if_neg hverified, isVerified, decide_eq_false hverified]
      cases hcheck : s.receiver.check witness.subject witness.coveredOffset witness.bytes with
      | error => exact .discards s.view index
      | ok answer =>
        cases answer with
        | none => exact .discards s.view index
        | some booked =>
          exact .admits s.view index witness placement booked.1.sink _ hfound
            (core_commit hverified hcheck)

theorem abandonRanges_move : Move s.view (s.step (.abandonRanges subject)).view := by
  simp only [step, call, abandonRanges]
  cases s.receiver.rangeActive.get? subject with
  | none => exact .idle _
  | some => exact .abandons s.view subject

theorem receive_move (record : Bytes) : Move s.view (s.step (.receive subject record)).view := by
  let P : Core σ → Except (Abort Error) Unit → Prop := fun core result =>
    Move s.view ⟨core, s.witnesses,
      match result with
      | .ok _ => .accepted subject record :: s.log
      | .error _ => s.log⟩
  have hmove : P (s.receiver.receive subject record).1.core (s.receiver.receive subject record).2 := by
    rw [receive]
    split
    · exact .idle _
    · exact .idle _
    · apply holding_core
      · intro error
        exact .idle _
      · intro held hcore
        apply settle_core (P := P)
        · intro error _
          rw [hcore]
          exact .idle _
        · intro receiver' hresult
          simp only [bind_eq_ok, okOr_eq_ok, checkedAdd_eq_some, rejectIf_eq_ok, mapError_eq_ok,
            pure_eq_ok] at hresult
          obtain ⟨active, hactive, _, ⟨-, rfl⟩, -, hwithin, verifier, hupdate, rfl⟩ := hresult
          change Move ⟨s.receiver.core, s.witnesses, s.log⟩ _
          rw [← hcore]
          exact .accepts _ subject record active verifier hactive (by omega) hupdate
  apply after_move
  · intro value hresult
    rw [hresult] at hmove
    exact hmove
  · intro error hresult
    rw [hresult] at hmove
    exact hmove

theorem finish_move : Move s.view (s.step (.finish subject)).view := by
  simp only [step, call, finish]
  by_cases hverified : subject ∈ s.receiver.verified
  · simp only [if_pos hverified, isVerified, decide_eq_true hverified]
    exact .idle _
  · simp only [if_neg hverified, isVerified, decide_eq_false hverified]
    cases hactive : s.receiver.active.get? subject with
    | none => exact .idle _
    | some active =>
      dsimp only
      cases hchecked : checkFinished subject active with
      | error => exact .drops s.view subject
      | ok => exact .finishes s.view subject active hactive hchecked

theorem step_move (s : System σ) (c : Call σ) : Move s.view (s.step c).view := by
  cases c with
  | recoverAccounting =>
    simp only [step, call, recoverAccounting]
    split <;> exact .idle _
  | connected | disconnected | acknowledged => exact .idle _
  | observePathStats =>
    simp only [step, call, observePathStats]
    split <;> exact .idle _
  | begin => exact begin_move
  | beginRanges subject sink => exact beginRanges_move sink
  | receiveRange subject offset data proof taken =>
    exact write_move (receiveVerifiedRange_outcome offset data false taken)
  | receiveTypedBundle subject bundle records taken =>
    exact write_move (receiveTypedBundle_outcome bundle records taken)
  | writeTo proved sink taken => exact writeTo_move proved sink taken
  | admitVerifiedRange proved taken =>
    exact write_move (admitVerifiedRange_outcome proved taken)
  | admitWrittenRange index => exact admitWrittenRange_move index
  | finishRanges => exact finishRanges_move
  | abandonRanges => exact abandonRanges_move
  | receive subject record => exact receive_move record
  | finish => exact finish_move

end System

end Moves

end ObjectTransfer.Receive
