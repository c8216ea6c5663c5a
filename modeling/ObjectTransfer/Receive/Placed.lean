import ObjectTransfer.Cover.Ledger
import ObjectTransfer.Receive.Trace

/-! # Verified subjects are proved and placed

In every run a subject verified by its ranges is covered by ranges that were proved and written, and
one verified by its stream has the accepted records as its bytes. The bookkeeping of an open subject
is the ledger of the ranges booked since it was opened.
-/

namespace ObjectTransfer.Receive
open Foundations Streaming Codec Ranges Transport Proof List OrderedMap ReliableReceiver

variable {σ : Type}

/-! ## What the history says about a subject -/

namespace Event

def opens (subject : SubjectId) : Event σ → Bool
  | opened subject' _ => subject' = subject
  | _ => false

def starts (subject : SubjectId) : Event σ → Bool
  | started subject' => subject' = subject
  | _ => false

def write? (subject : SubjectId) : Event σ → Option (Placement σ)
  | wrote placement => if placement.subject = subject then some placement else none
  | _ => none

def booking? (subject : SubjectId) : Event σ → Option (Placement σ)
  | wrote placement => if placement.subject = subject then some placement else none
  | admitted placement => if placement.subject = subject then some placement else none
  | _ => none

/-- The range of the subject that some sink took. -/
def placement? (subject : SubjectId) : Event σ → Option (Placement σ)
  | wrote placement => if placement.subject = subject then some placement else none
  | placed placement => if placement.subject = subject then some placement else none
  | _ => none

def record? (subject : SubjectId) : Event σ → Option Bytes
  | accepted subject' record => if subject' = subject then some record else none
  | _ => none

end Event

def written (subject : SubjectId) (log : List (Event σ)) : List (Placement σ) :=
  (since (Event.opens subject) log).filterMap (Event.write? subject)

def booked (subject : SubjectId) (log : List (Event σ)) : List (Placement σ) :=
  (since (Event.opens subject) log).filterMap (Event.booking? subject)

/-- The ranges sinks took since the subject was opened, from the receiver or outside it. -/
def placedSince (subject : SubjectId) (log : List (Event σ)) : List (Placement σ) :=
  (since (Event.opens subject) log).filterMap (Event.placement? subject)

/-- The bytes of the records accepted since the subject's stream was opened. -/
def streamed (subject : SubjectId) (log : List (Event σ)) : Bytes :=
  ((since (Event.starts subject) log).filterMap (Event.record? subject)).reverse.flatten

def coveredBy (placements : List (Placement σ)) : Finset ℕ :=
  cover (placements.map Placement.span)

variable {subject other : SubjectId} {log : List (Event σ)} {event : Event σ} {sink : σ}

theorem booked_opened : booked subject (.opened subject sink :: log) = [] := by
  rw [booked, since_mark (by simp [Event.opens])]
  rfl

theorem booked_cons (h : event.opens subject = false) :
    booked subject (event :: log) = (event.booking? subject).toList ++ booked subject log := by
  rw [booked, booked, since_cons h, filterMap_cons]
  cases event.booking? subject <;> rfl

theorem written_sublist : (written subject log).Sublist (booked subject log) := by
  apply filterMap_sublist
  intro event placement h
  cases event with
  | wrote => exact h
  | _ => cases h

theorem streamed_started : streamed subject (.started subject :: log) = [] := by
  rw [streamed, since_mark (by simp [Event.starts])]
  rfl

theorem streamed_cons (h : event.starts subject = false) :
    streamed subject (event :: log) =
      streamed subject log ++ ((event.record? subject).toList).flatten := by
  rw [streamed, streamed, since_cons h, filterMap_cons]
  cases event.record? subject <;> simp

theorem SubjectId.length_le (subject : SubjectId) : subject.length.toNat ≤ isizeMax := by
  obtain ⟨-, hlength⟩ | hvalid := subject.formed
  · rw [hlength]
    exact Nat.zero_le _
  · rw [ObjectId.validate, rejectIf_eq_ok] at hvalid
    exact Nat.le_of_not_lt fun hlong => hvalid (.inr hlong)

/-! ## The bookkeeping of one subject -/

variable {active : ActiveObject} {state : RangeState σ} {placement : Placement σ}

/-- The event says nothing about the subject's ranges. -/
def Event.RangeFree (event : Event σ) (subject : SubjectId) : Prop :=
  event.opens subject = false ∧ event.booking? subject = none

/-- The event says nothing about the subject's stream. -/
def Event.StreamFree (event : Event σ) (subject : SubjectId) : Prop :=
  event.starts subject = false ∧ event.record? subject = none

theorem booked_free (h : event.RangeFree subject) :
    booked subject (event :: log) = booked subject log := by
  rw [booked_cons h.1, h.2]
  rfl

theorem streamed_free (h : event.StreamFree subject) :
    streamed subject (event :: log) = streamed subject log := by
  rw [streamed_cons h.1, h.2]
  simp

theorem mem_booked (h : placement ∈ booked subject log) :
    placement.subject = subject ∧ (.wrote placement ∈ since (Event.opens subject) log ∨
      .admitted placement ∈ since (Event.opens subject) log) := by
  obtain ⟨event, hevent, hbooking⟩ := mem_filterMap.mp h
  cases event with
  | wrote =>
    obtain ⟨hsubject, hsame⟩ := Option.ite_none_right_eq_some.mp hbooking
    cases hsame
    exact ⟨hsubject, .inl hevent⟩
  | admitted =>
    obtain ⟨hsubject, hsame⟩ := Option.ite_none_right_eq_some.mp hbooking
    cases hsame
    exact ⟨hsubject, .inr hevent⟩
  | _ => cases hbooking

theorem mem_placedSince (hsubject : placement.subject = subject)
    (h : .wrote placement ∈ since (Event.opens subject) log ∨
      .placed placement ∈ since (Event.opens subject) log) :
    placement ∈ placedSince subject log := by
  obtain h | h := h <;> exact mem_filterMap.mpr ⟨_, h, if_pos hsubject⟩

/-- The range state of an open subject is the ledger of what was booked since. -/
structure Tracks (subject : SubjectId) (state : RangeState σ) (log : List (Event σ)) : Prop where
  ledger : Cover.Ledger ⟨state.coverage, [], (booked subject log).map Placement.span⟩
  registered : log.find? (Event.opens subject) = some (.opened subject state.sink)

theorem Tracks.frame (h : Tracks subject state log)
    (free : event.RangeFree subject) : Tracks subject state (event :: log) where
  ledger := by
    rw [booked_free free]
    exact h.ledger
  registered := by
    rw [find?_cons_of_neg (by simp [free.1])]
    exact h.registered

/-- A booking keeps the ledger of the subject and is apart from everything booked before. -/
theorem Tracks.book {booking : Cover.Booking} (h : Tracks placement.subject state log)
    (hcheck : state.coverage.check placement.offset placement.data.length = .ok (.new booking))
    (hopens : event.opens placement.subject = false)
    (hbooking : event.booking? placement.subject = some placement) :
    Tracks placement.subject { state with coverage := state.coverage.commit booking }
      (event :: log) ∧
    ∀ other ∈ booked placement.subject log,
      Disjoint (Finset.Ico placement.span.1 placement.span.2)
        (Finset.Ico other.span.1 other.span.2) := by
  obtain ⟨hpos, hend, hextents, hreserved, rfl⟩ := h.ledger.check_new hcheck
  refine ⟨⟨?_, ?_⟩, ?_⟩
  · have hledger := h.ledger.commit hpos hend hextents hreserved
    rw [booked_cons hopens, hbooking]
    exact hledger
  · rw [find?_cons_of_neg (by simp [hopens])]
    exact h.registered
  · intro other hother
    rw [h.ledger.committed] at hextents
    apply hextents.mono_right
    intro x hx
    rw [Finset.mem_Ico] at hx
    exact mem_cover.mpr ⟨other.span, mem_map_of_mem hother, hx⟩

/-- Coverage that counts the subject's length covers the subject. -/
theorem Tracks.complete (h : Tracks subject state log)
    (hinside : ∀ placement ∈ booked subject log, placement.span.2 ≤ subject.length.toNat)
    (hcomplete : state.coverage.isComplete subject.length.toNat = true) :
    coveredBy (booked subject log) = Finset.range subject.length.toNat := by
  have hbytes : state.coverage.bytes = subject.length.toNat := by
    simpa [Cover.Coverage.isComplete] using hcomplete
  have hcount := h.ledger.bytes
  rw [h.ledger.committed] at hcount
  apply Finset.eq_of_subset_of_card_le
  · exact cover_subset_range (forall_mem_map.mpr hinside)
  · rw [Finset.card_range, ← hbytes]
    exact hcount.le

theorem new_pending (named : Suite) : (StreamVerifier.new named).pending.length < groupSize :=
  groupSize_pos

/-! ## The invariant -/

section Sound
variable [Blake3] [Sha256]

/-- What each event of a history rests on. -/
def Grounded (earlier : List (Event σ)) : Event σ → Prop
  | .wrote placement => Proved placement.subject placement.write.range placement.proof ∧
      earlier.find? (Event.opens placement.subject) =
        some (.opened placement.subject placement.write.sink)
  | .placed placement => Proved placement.subject placement.write.range placement.proof
  | .admitted placement => .placed placement ∈ earlier
  | .completed subject =>
    coveredBy (booked subject earlier) = Finset.range subject.length.toNat
  | .finished subject => (streamed subject earlier).length = subject.length.toNat ∧
      ∃ named, suite subject = .ok named ∧ root named (streamed subject earlier) = .ok subject.root
  | _ => True

/-- The stream of an open subject has taken the records accepted since. -/
structure Streams (subject : SubjectId) (active : ActiveObject) (log : List (Event σ)) : Prop where
  received : active.received = (streamed subject log).length
  within : active.received ≤ subject.length.toNat
  verifier : ∃ named, suite subject = .ok named ∧
    (StreamVerifier.new named).update (streamed subject log) = .ok active.verifier

structure Sound (v : View σ) : Prop where
  ranges : ∀ subject state, v.core.rangeActive.get? subject = some state →
    Tracks subject state v.log
  streams : ∀ subject active, v.core.active.get? subject = some active →
    Streams subject active v.log
  apart : ∀ subject, (booked subject v.log).Pairwise fun a b =>
    Disjoint (Finset.Ico a.span.1 a.span.2) (Finset.Ico b.span.1 b.span.2)
  witnesses : ∀ entry ∈ v.witnesses, entry.1 = entry.2.witness ∧
    Event.placed entry.2 ∈ v.log
  verified : ∀ subject, subject ∈ v.core.verified ↔
    .completed subject ∈ v.log ∨ .finished subject ∈ v.log
  grounded : Justified Grounded v.log

/-! ## Steps -/

variable {v : View σ} {core : Core σ} {verifier : StreamVerifier} {record proof : Bytes}
variable {range : VerifiedRange} {named : Suite} {s : System σ}

omit [Blake3] in
theorem Streams.frame (h : Streams subject active log)
    (free : event.StreamFree subject) : Streams subject active (event :: log) where
  received := by
    rw [streamed_free free]
    exact h.received
  within := h.within
  verifier := by
    rw [streamed_free free]
    exact h.verifier

variable (event) in
/-- Events that are about no subject's ranges keep what is tracked. -/
theorem Sound.ranges_frame (h : Sound v) (free : ∀ subject, event.RangeFree subject) :
    (∀ subject state, v.core.rangeActive.get? subject = some state →
      Tracks subject state (event :: v.log)) ∧
    ∀ subject, (booked subject (event :: v.log)).Pairwise fun a b =>
      Disjoint (Finset.Ico a.span.1 a.span.2) (Finset.Ico b.span.1 b.span.2) := by
  refine ⟨fun subject state hstate => (h.ranges subject state hstate).frame (free subject), ?_⟩
  intro subject
  rw [booked_free (free subject)]
  exact h.apart subject

variable (event) in
theorem Sound.streams_frame (h : Sound v)
    (free : ∀ subject, event.StreamFree subject) : ∀ subject active,
      v.core.active.get? subject = some active → Streams subject active (event :: v.log) :=
  fun subject active hactive => (h.streams subject active hactive).frame (free subject)

theorem Sound.witnesses_frame (h : Sound v) : ∀ entry ∈ v.witnesses,
    entry.1 = entry.2.witness ∧ Event.placed entry.2 ∈ event :: v.log :=
  fun entry hentry => ⟨(h.witnesses entry hentry).1, .tail _ (h.witnesses entry hentry).2⟩

variable (event) in
theorem Sound.book (h : Sound v)
    (books : v.core.Books core placement.subject sink placement.offset placement.data.length)
    (hopens : ∀ subject, event.opens subject = false)
    (hbooking : ∀ subject, event.booking? subject =
      if placement.subject = subject then some placement else none) :
    (∀ subject state, core.rangeActive.get? subject = some state →
      Tracks subject state (event :: v.log)) ∧
    (∀ subject, (booked subject (event :: v.log)).Pairwise fun a b =>
      Disjoint (Finset.Ico a.span.1 a.span.2) (Finset.Ico b.span.1 b.span.2)) ∧
    v.log.find? (Event.opens placement.subject) = some (.opened placement.subject sink) ∧
    core.active = v.core.active ∧ core.verified = v.core.verified := by
  obtain ⟨-, active, booking, hactive, rfl, hcheck, rfl⟩ := books
  have htracks := h.ranges placement.subject active hactive
  obtain ⟨hnew, hdisjoint⟩ := htracks.book hcheck (hopens _) ((hbooking _).trans (if_pos rfl))
  have hfree {subject : SubjectId} (hne : placement.subject ≠ subject) :
      event.RangeFree subject := ⟨hopens subject, (hbooking subject).trans (if_neg hne)⟩
  refine ⟨fun subject state hstate => ?_, fun subject => ?_, htracks.registered, rfl, rfl⟩
  · obtain ⟨rfl, rfl⟩ | ⟨hne, hstate⟩ := get?_insert_eq_some.mp hstate
    · exact hnew
    · exact (h.ranges subject state hstate).frame (hfree hne.symm)
  · by_cases hsubject : placement.subject = subject
    · subst hsubject
      rw [booked_cons (hopens _), (hbooking _).trans (if_pos rfl)]
      exact pairwise_cons.mpr ⟨hdisjoint, h.apart _⟩
    · rw [booked_free (hfree hsubject)]
      exact h.apart subject

omit [Blake3] in
theorem Streams.accept (h : Streams subject active log)
    (hwithin : active.received + record.length ≤ subject.length.toNat)
    (hupdate : active.verifier.update record = .ok verifier) :
    Streams subject ⟨verifier, active.received + record.length, active.reservation⟩
      (.accepted subject record :: log) := by
  have hstreamed : streamed subject (.accepted subject record :: log) =
      streamed subject log ++ record := by
    rw [streamed_cons rfl]
    simp [Event.record?]
  obtain ⟨named, hsuite, hverifier⟩ := h.verifier
  refine ⟨?_, hwithin, named, hsuite, ?_⟩
  · rw [hstreamed, length_append, h.received]
  · have hlength : subject.length.toNat ≤ u64Max := Nat.le_of_lt_succ subject.length.toNat_lt
    have hfit : (StreamVerifier.new named).length + (streamed subject log ++ record).length ≤
        u64Max := by
      rw [length_append, ← h.received]
      change 0 + _ ≤ _
      omega
    rw [hstreamed, ← StreamVerifier.update_update (new_pending named) _ _ hfit, hverifier]
    exact hupdate

theorem Streams.finish (h : Streams subject active log)
    (hchecked : checkFinished subject active = .ok ()) :
    (streamed subject log).length = subject.length.toNat ∧
      ∃ named, suite subject = .ok named ∧ root named (streamed subject log) = .ok subject.root := by
  simp only [checkFinished, bind_eq_ok, rejectIf_eq_ok, not_not, mapError_eq_ok] at hchecked
  obtain ⟨-, hlength, named, hsuite, verified, hfinish, -⟩ := hchecked
  obtain ⟨-, -, hdigest⟩ := StreamVerifier.finish_eq_ok.mp ⟨verified, hfinish⟩
  obtain ⟨named', hsuite', hverifier⟩ := h.verifier
  cases hsuite.symm.trans hsuite'
  refine ⟨h.received ▸ hlength, named, hsuite, ?_⟩
  rw [root, hverifier]
  exact hdigest

theorem Proved.inside (h : Proved subject range proof) :
    range.coveredOffset + range.data.length ≤ subject.length.toNat := by
  obtain ⟨object, hobject, hverify⟩ := h
  obtain ⟨-, rfl⟩ := objectId_eq_ok.mp hobject
  obtain ⟨⟨stop, hgeometry⟩, -, -⟩ := verifyRange_eq_ok.mp hverify
  simp only [checkRangeGeometry, checkedOffset, bind_eq_ok, okOr_eq_ok, checkedAdd_eq_some,
    rejectIf_eq_ok, pure_eq_ok] at hgeometry
  obtain ⟨-, -, _, ⟨-, rfl⟩, -, hinside, -⟩ := hgeometry
  omega

/-- Every booked range was proved and written. -/
theorem booked_grounded (h : Justified Grounded log)
    (hbooked : placement ∈ booked subject log) : placement.subject = subject ∧
      (.wrote placement ∈ since (Event.opens subject) log ∨ .placed placement ∈ log) ∧
      Proved subject placement.write.range placement.proof := by
  obtain ⟨rfl, hwrote | hadmitted⟩ := mem_booked hbooked
  · obtain ⟨_, -, hproved, -⟩ := h.of_mem (mem_of_mem_since hwrote)
    exact ⟨rfl, .inl hwrote, hproved⟩
  · obtain ⟨earlier, hearlier, hplaced⟩ := h.of_mem (mem_of_mem_since hadmitted)
    obtain ⟨_, -, hproved⟩ := h.of_mem (hearlier hplaced)
    exact ⟨rfl, .inr (hearlier hplaced), hproved⟩

/-! ## Runs -/

theorem Sound.opens (h : Sound v) (reservation : ℕ) :
    Sound ⟨⟨v.core.active, v.core.rangeActive.insert subject
      ⟨.forObject subject.length.toNat, sink, reservation⟩, v.core.verified⟩, v.witnesses,
      .opened subject sink :: v.log⟩ := by
  have hfree {other : SubjectId} (hne : other ≠ subject) :
      Event.RangeFree (.opened subject sink) other := by
    refine ⟨?_, rfl⟩
    simp [Event.opens, hne.symm]
  constructor
  case ranges =>
    intro other state hstate
    obtain ⟨rfl, rfl⟩ | ⟨hne, hstate⟩ := get?_insert_eq_some.mp hstate
    · refine ⟨?_, find?_cons_of_pos (by simp [Event.opens])⟩
      rw [booked_opened]
      exact (Cover.System.Initial.forObject _).ledger
    · exact (h.ranges other state hstate).frame (hfree hne)
  case streams => exact h.streams_frame _ fun _ => ⟨rfl, rfl⟩
  case apart =>
    intro other
    by_cases hother : other = subject
    · subst hother
      rw [booked_opened]
      exact List.Pairwise.nil
    · rw [booked_free (hfree hother)]
      exact h.apart other
  case witnesses => exact h.witnesses_frame
  case verified => simpa using h.verified
  case grounded => exact ⟨trivial, h.grounded⟩

theorem Sound.writes (h : Sound v)
    (proved : Proved placement.subject placement.write.range placement.proof)
    (books : v.core.Books core placement.subject placement.write.sink placement.offset
      placement.data.length) : Sound ⟨core, v.witnesses, .wrote placement :: v.log⟩ := by
  obtain ⟨hranges, hapart, hregistered, hactive, hverified⟩ :=
    h.book (.wrote placement) books (fun _ => rfl) fun _ => rfl
  constructor
  case ranges => exact hranges
  case streams =>
    rw [hactive]
    exact h.streams_frame _ fun _ => ⟨rfl, rfl⟩
  case apart => exact hapart
  case witnesses => exact h.witnesses_frame
  case verified =>
    rw [hverified]
    simpa using h.verified
  case grounded => exact ⟨⟨proved, hregistered⟩, h.grounded⟩

theorem Sound.places (h : Sound v)
    (proved : Proved placement.subject placement.write.range placement.proof) :
    Sound ⟨v.core, (placement.witness, placement) :: v.witnesses, .placed placement :: v.log⟩ := by
  obtain ⟨hranges, hapart⟩ := h.ranges_frame (.placed placement) fun _ => ⟨rfl, rfl⟩
  constructor
  case ranges => exact hranges
  case streams => exact h.streams_frame _ fun _ => ⟨rfl, rfl⟩
  case apart => exact hapart
  case witnesses =>
    exact forall_mem_cons.mpr ⟨⟨rfl, .head _⟩, h.witnesses_frame⟩
  case verified => simpa using h.verified
  case grounded => exact ⟨proved, h.grounded⟩

theorem Sound.admits (h : Sound v) {index : ℕ} {witness : WrittenRange}
    (found : v.witnesses[index]? = some (witness, placement))
    (books : v.core.Books core witness.subject sink witness.coveredOffset witness.bytes) :
    Sound ⟨core, v.witnesses.eraseIdx index, .admitted placement :: v.log⟩ := by
  obtain ⟨(rfl : witness = placement.witness), hplaced⟩ :=
    h.witnesses _ (mem_of_getElem? found)
  obtain ⟨hranges, hapart, -, hactive, hverified⟩ :=
    h.book (.admitted placement) books (fun _ => rfl) fun _ => rfl
  constructor
  case ranges => exact hranges
  case streams =>
    rw [hactive]
    exact h.streams_frame _ fun _ => ⟨rfl, rfl⟩
  case apart => exact hapart
  case witnesses =>
    exact fun entry hentry => h.witnesses_frame entry (mem_of_mem_eraseIdx hentry)
  case verified =>
    rw [hverified]
    simpa using h.verified
  case grounded => exact ⟨hplaced, h.grounded⟩

theorem Sound.completes (h : Sound v) (found : v.core.rangeActive.get? subject = some state)
    (complete : state.coverage.isComplete subject.length.toNat = true) :
    Sound ⟨⟨v.core.active, v.core.rangeActive.erase subject, insert subject v.core.verified⟩,
      v.witnesses, .completed subject :: v.log⟩ := by
  obtain ⟨hranges, hapart⟩ := h.ranges_frame (.completed subject) fun _ => ⟨rfl, rfl⟩
  constructor
  case ranges =>
    intro other state hstate
    exact hranges other state (get?_erase_eq_some.mp hstate).2
  case streams => exact h.streams_frame _ fun _ => ⟨rfl, rfl⟩
  case apart => exact hapart
  case witnesses => exact h.witnesses_frame
  case verified =>
    intro other
    simp [h.verified other, or_assoc]
  case grounded =>
    refine ⟨(h.ranges subject state found).complete ?_ complete, h.grounded⟩
    intro placement hplacement
    exact (booked_grounded h.grounded hplacement).2.2.inside

theorem Sound.starts (h : Sound v) (reservation : ℕ) (hsuite : suite subject = .ok named) :
    Sound ⟨⟨v.core.active.insert subject ⟨.new named, 0, reservation⟩, v.core.rangeActive,
      v.core.verified⟩, v.witnesses, .started subject :: v.log⟩ := by
  obtain ⟨hranges, hapart⟩ := h.ranges_frame (.started subject) fun _ => ⟨rfl, rfl⟩
  constructor
  case ranges => exact hranges
  case streams =>
    intro other active hactive
    obtain ⟨rfl, rfl⟩ | ⟨hne, hactive⟩ := get?_insert_eq_some.mp hactive
    · refine ⟨?_, Nat.zero_le _, named, hsuite, ?_⟩
      · rw [streamed_started]
        rfl
      · rw [streamed_started]
        exact (StreamVerifier.updateAll_eq (new_pending named) [] (Nat.zero_le _)).symm
    · refine (h.streams other active hactive).frame ⟨?_, rfl⟩
      simp [Event.starts, hne.symm]
  case apart => exact hapart
  case witnesses => exact h.witnesses_frame
  case verified => simpa using h.verified
  case grounded => exact ⟨trivial, h.grounded⟩

theorem Sound.accepts (h : Sound v) (found : v.core.active.get? subject = some active)
    (within : active.received + record.length ≤ subject.length.toNat)
    (updated : active.verifier.update record = .ok verifier) :
    Sound ⟨⟨v.core.active.insert subject
      ⟨verifier, active.received + record.length, active.reservation⟩, v.core.rangeActive,
      v.core.verified⟩, v.witnesses, .accepted subject record :: v.log⟩ := by
  obtain ⟨hranges, hapart⟩ :=
    h.ranges_frame (.accepted subject record) fun _ => ⟨rfl, rfl⟩
  constructor
  case ranges => exact hranges
  case streams =>
    intro other active' hactive
    obtain ⟨rfl, rfl⟩ | ⟨hne, hactive⟩ := get?_insert_eq_some.mp hactive
    · exact (h.streams _ active found).accept within updated
    · refine (h.streams other active' hactive).frame ⟨rfl, ?_⟩
      simp [Event.record?, hne.symm]
  case apart => exact hapart
  case witnesses => exact h.witnesses_frame
  case verified => simpa using h.verified
  case grounded => exact ⟨trivial, h.grounded⟩

theorem Sound.finishes (h : Sound v) (found : v.core.active.get? subject = some active)
    (checked : checkFinished subject active = .ok ()) :
    Sound ⟨⟨v.core.active.erase subject, v.core.rangeActive, insert subject v.core.verified⟩,
      v.witnesses, .finished subject :: v.log⟩ := by
  obtain ⟨hranges, hapart⟩ := h.ranges_frame (.finished subject) fun _ => ⟨rfl, rfl⟩
  have hstreams := h.streams_frame (.finished subject) fun _ => ⟨rfl, rfl⟩
  constructor
  case ranges => exact hranges
  case streams =>
    intro other active hactive
    exact hstreams other active (get?_erase_eq_some.mp hactive).2
  case apart => exact hapart
  case witnesses => exact h.witnesses_frame
  case verified =>
    intro other
    simp [h.verified other, or_left_comm]
  case grounded => exact ⟨(h.streams subject active found).finish checked, h.grounded⟩

theorem Sound.move {v v' : View σ} (h : Sound v) (hmove : Move v v') : Sound v' := by
  cases hmove with
  | idle => exact h
  | opens subject sink reservation => exact h.opens reservation
  | writes placement core proved books => exact h.writes proved books
  | places placement proved => exact h.places proved
  | admits index witness placement sink core found books => exact h.admits found books
  | discards =>
    exact { h with
      witnesses := fun entry hentry => h.witnesses entry (mem_of_mem_eraseIdx hentry) }
  | abandons =>
    exact { h with
      ranges := fun other state hstate =>
        h.ranges other state (get?_erase_eq_some.mp hstate).2 }
  | completes subject state found complete => exact h.completes found complete
  | starts subject named reservation hsuite => exact h.starts reservation hsuite
  | accepts subject record active verifier found within updated =>
    exact h.accepts found within updated
  | drops =>
    exact { h with
      streams := fun other active hactive =>
        h.streams other active (get?_erase_eq_some.mp hactive).2 }
  | finishes subject active found checked => exact h.finishes found checked

theorem Initial.sound (h : s.Initial) : Sound s.view := by
  obtain ⟨limit, target, most, hnew, hwitnesses, hlog⟩ := h
  simp only [new, bind_eq_ok, pure_eq_ok] at hnew
  obtain ⟨staging, -, hreceiver⟩ := hnew
  rw [System.view, ← hreceiver, hwitnesses, hlog]
  constructor <;> simp [core, booked, since, Justified]

theorem step_sound (h : Sound s.view) (c : Call σ) : Sound (s.step c).view :=
  h.move (System.step_move s c)

theorem run_sound (h : s.Initial) (calls : List (Call σ)) : Sound (run System.step s calls).view :=
  run_invariant (P := fun s : System σ => Sound s.view) (fun _ c hs => step_sound hs c)
    (Initial.sound h) calls

/-! ## Main result -/

/-- A proved range holds the bytes of the object its subject names. -/
theorem Proved.authentic (hsplit : Bao64.SplitRoot) (h : Proved subject range proof) {D : Bytes}
    (hobject : Identifies ⟨subject.suite, subject.root, subject.length⟩ named D)
    (free : CollisionFree named D range.coveredOffset range.data proof) :
    slice? D range.coveredOffset (range.coveredOffset + range.data.length) = some range.data := by
  have hinside := h.inside
  obtain ⟨object, hobjectId, hverify⟩ := h
  obtain ⟨-, rfl⟩ := objectId_eq_ok.mp hobjectId
  obtain ⟨⟨stop, hgeometry⟩, ⟨named', hnamed, hproof⟩, -⟩ := verifyRange_eq_ok.mp hverify
  simp only [hobject.suite, suiteOf_identifier] at hnamed
  obtain rfl := Option.some.inj hnamed
  have hlength : subject.length.toNat = D.length := hobject.length
  have hnonempty : range.data.length ≠ 0 := by
    simp only [checkRangeGeometry, bind_eq_ok, rejectIf_eq_ok] at hgeometry
    obtain ⟨-, hbytes, -⟩ := hgeometry
    exact fun hzero => hbytes (.inl hzero)
  rw [hlength] at hproof hinside
  refine verifySuite_sound hsplit ?_ (hlength ▸ subject.length_le) hobject.root free hproof
  exact ne_nil_of_length_pos (by omega)

namespace System
variable {error : Abort Error}

omit [Blake3] [Sha256] in
theorem after_error {α : Type} {outcome : ReliableReceiver σ × Except (Abort Error) α}
    {events : α → List (Event σ)} (h : (s.after outcome events).2 = .error error) :
    outcome.2 = .error error ∧ (s.after outcome events).1.receiver = outcome.1 := by
  cases hresult : outcome.2 with
  | ok => simp [after, hresult] at h
  | error =>
    simp only [after, hresult] at h ⊢
    cases h
    exact ⟨rfl, trivial⟩

omit [Blake3] [Sha256] in
/-- A call that changes nothing when it fails, or leaves a verified subject alone. -/
theorem settle_error {result : Except (Abort Error) (ReliableReceiver σ)}
    {events : Unit → List (Event σ)}
    (h : (s.after (if subject ∈ s.receiver.verified then (s.receiver, .ok ())
      else s.receiver.settle result) events).2 = .error error) :
    (s.after (if subject ∈ s.receiver.verified then (s.receiver, .ok ())
      else s.receiver.settle result) events).1.receiver = s.receiver := by
  obtain ⟨hresult, hreceiver⟩ := after_error h
  rw [hreceiver]
  split at hresult
  · cases hresult
  · next hverified =>
    rw [if_neg hverified]
    cases result with
    | ok => cases hresult
    | error => rfl

omit [Blake3] in
theorem receive_rangeActive (receiver : ReliableReceiver σ) (record : Bytes) :
    (receiver.receive subject record).1.rangeActive = receiver.rangeActive := by
  rw [receive]
  split
  · rfl
  · rfl
  · apply holding_core (P := fun core _ => core.rangeActive = receiver.rangeActive)
    · intro error
      rfl
    · intro held hcore
      have hsame : held.rangeActive = receiver.rangeActive := congrArg Core.rangeActive hcore
      apply settle_core (P := fun core _ => core.rangeActive = receiver.rangeActive)
      · intro error _
        exact hsame
      · intro receiver' hresult
        simp only [bind_eq_ok, pure_eq_ok] at hresult
        obtain ⟨_, -, _, -, -, -, _, -, rfl⟩ := hresult
        exact hsame

theorem finish_rangeActive (receiver : ReliableReceiver σ) :
    (receiver.finish subject).1.rangeActive = receiver.rangeActive := by
  rw [finish]
  split
  · rfl
  · split
    · rfl
    · next active _ => cases checkFinished subject active <;> rfl

theorem write_error {outcome : ReliableReceiver σ × Except (Abort Error) (Option (Write σ))}
    (h : ReliableReceiver.WriteOutcome s.receiver.core subject proof outcome.1.core outcome.2)
    (herror : (s.after outcome (wrote subject proof)).2 = .error error) :
    (s.after outcome (wrote subject proof)).1.receiver.rangeActive = s.receiver.rangeActive := by
  obtain ⟨hresult, hreceiver⟩ := after_error herror
  rw [hresult] at h
  rw [hreceiver]
  exact congrArg Core.rangeActive h

theorem call_error (s : System σ) (c : Call σ) (h : (s.call c).2 = .error error) :
    (s.step c).receiver.rangeActive = s.receiver.rangeActive := by
  cases c with
  | recoverAccounting | connected | disconnected | acknowledged | observePathStats
  | abandonRanges => cases h
  | begin | beginRanges | finishRanges =>
    exact congrArg rangeActive (settle_error h)
  | receiveRange subject offset data proof taken =>
    exact write_error (receiveVerifiedRange_outcome offset data false taken) h
  | receiveTypedBundle subject bundle records taken =>
    exact write_error (receiveTypedBundle_outcome bundle records taken) h
  | writeTo =>
    simp only [step, call] at h ⊢
    split <;> rfl
  | admitVerifiedRange proved taken =>
    exact write_error (admitVerifiedRange_outcome proved taken) h
  | admitWrittenRange =>
    simp only [step, call] at h ⊢
    split
    · rfl
    · next witness placement hfound =>
      rw [hfound] at h
      exact congrArg rangeActive (settle_error h)
  | receive subject record =>
    rw [step, call, (after_error h).2]
    exact receive_rangeActive s.receiver record
  | finish =>
    rw [step, call, (after_error h).2]
    exact finish_rangeActive s.receiver

end System

theorem Move.verified_subset {v v' : View σ} (h : Move v v') : v.core.verified ⊆ v'.core.verified := by
  cases h with
  | writes placement core proved books | admits index witness placement sink core found books =>
    obtain ⟨-, active, booking, -, -, -, rfl⟩ := books
    exact Finset.Subset.refl _
  | completes | finishes => exact Finset.subset_insert _ _
  | _ => exact Finset.Subset.refl _

/-- In every run a subject is verified by its ranges only when the ranges booked since it was opened
cover it, each proved and written to a sink, and by its stream only when the records accepted since
it was opened have its length and root. -/
theorem verified_proved_and_placed (hsplit : Bao64.SplitRoot) {s₀ : System σ}
    (hinitial : s₀.Initial) (calls : List (Call σ)) : let s := run System.step s₀ calls
    (∀ subject, s.receiver.isVerified subject = true ↔
      .completed subject ∈ s.log ∨ .finished subject ∈ s.log) ∧
    (∀ later earlier subject, s.log = later ++ .completed subject :: earlier →
      coveredBy (booked subject earlier) = Finset.range subject.length.toNat ∧
      (∀ placement ∈ booked subject earlier,
        (.wrote placement ∈ since (Event.opens subject) earlier ∨ .placed placement ∈ earlier) ∧
        ∀ named D, Identifies ⟨subject.suite, subject.root, subject.length⟩ named D →
          CollisionFree named D placement.offset placement.data placement.proof →
          slice? D placement.offset (placement.offset + placement.data.length) =
            some placement.data) ∧
      ((∀ placement, .admitted placement ∈ since (Event.opens subject) earlier →
          .placed placement ∈ since (Event.opens subject) earlier) →
        Finset.range subject.length.toNat ⊆ coveredBy (placedSince subject earlier))) ∧
    (∀ later earlier subject, s.log = later ++ .finished subject :: earlier →
      (streamed subject earlier).length = subject.length.toNat ∧ ∃ named,
        suite subject = .ok named ∧ root named (streamed subject earlier) = .ok subject.root) ∧
    (∀ c error, (s.call c).2 = .error error →
      (s.step c).receiver.rangeActive = s.receiver.rangeActive) ∧
    (∀ subject, (written subject s.log).Pairwise fun a b =>
      Disjoint (Finset.Ico a.span.1 a.span.2) (Finset.Ico b.span.1 b.span.2)) ∧
    ∀ c subject, s.receiver.isVerified subject = true →
      (s.step c).receiver.isVerified subject = true := by
  intro s
  have hsound : Sound s.view := run_sound hinitial calls
  refine ⟨fun subject => ?_, fun later earlier subject hlog => ?_, fun later earlier subject hlog => ?_,
    fun c error => s.call_error c, fun subject => (hsound.apart subject).sublist written_sublist,
    fun c subject hverified => ?_⟩
  · exact decide_eq_true_iff.trans (hsound.verified subject)
  · have hgrounded : Justified Grounded (later ++ .completed subject :: earlier) :=
      hlog ▸ hsound.grounded
    have hcover : coveredBy (booked subject earlier) = Finset.range subject.length.toNat :=
      hgrounded.at
    refine ⟨hcover, fun placement hplacement => ?_, fun hplaced => ?_⟩
    · obtain ⟨-, hwritten, hproved⟩ := booked_grounded hgrounded.before hplacement
      exact ⟨hwritten, fun named D hobject free => hproved.authentic hsplit hobject free⟩
    · rw [← hcover]
      apply cover_mono
      intro span hspan
      obtain ⟨placement, hplacement, rfl⟩ := mem_map.mp hspan
      obtain ⟨hsubject, hwindow⟩ := mem_booked hplacement
      exact mem_map_of_mem (mem_placedSince hsubject (hwindow.imp_right (hplaced placement)))
  · have hgrounded : Justified Grounded (later ++ .finished subject :: earlier) :=
      hlog ▸ hsound.grounded
    exact hgrounded.at
  · have hmove := (System.step_move s c).verified_subset
    exact decide_eq_true (hmove (of_decide_eq_true hverified))

end Sound

/-! ## A subject of one byte and one of two groups -/

section Sample

attribute [local instance] Bao64.sampleBlake3 Bao64.sampleSha256

def byteSubject : SubjectId := ⟨1, Block.ofBytes 32 [7], 1, .inr (by decide)⟩

def byteBundle : ProofBundle := sampleBundle ⟨1, Block.ofBytes 32 [7], 1⟩ 0 1 1 []

def byteRange : VerifiedRange := ⟨byteBundle.object, 0, [7]⟩

theorem root_byte : Bao64.root [7] = some (Block.ofBytes 32 [7]) := by
  rw [Bao64.root, root_blake3 (by decide)]
  rfl

theorem verifyRange_byte : verifyRange byteBundle.object 0 [7] [] = .ok byteRange := by
  refine verifyRange_eq_ok.mpr ⟨⟨1, by decide⟩, ⟨.blake3Bao64, rfl, ?_⟩, rfl⟩
  change Bao64.verify (Block.ofBytes 32 [7]) 1 0 [7] [] = .ok ()
  have hcover : checkCover groupSize 1 0 1 = .ok (0, 1) := by decide
  rw [Bao64.verify, show ([7] : Bytes).length = 1 from rfl, hcover, ok_bind, dif_pos (by decide),
    root_byte]
  rfl

def byteProved : ProvedRange where
  subject := byteSubject
  bundle := byteBundle
  records := [sampleRecord 0 0 1 7]
  range := byteRange
  proved := by
    have hcarries : Carries [7] byteBundle [sampleRecord 0 0 1 7] :=
      ⟨rfl, forall_mem_singleton.mpr (sampleRecord_taken 7 rfl (by decide)), rfl, ⟨rfl, trivial⟩, rfl⟩
    have hverify := hcarries.verify_eq (by decide) (by decide) (.refl _)
    exact verifyTypedBundle_eq_ok.mpr ⟨_, rfl, hverify.trans verifyRange_byte⟩

def freshStaging : StagingCapacity := ⟨⟨131072, 0, false⟩, 131072, 131072⟩

def fresh : System ℕ := ⟨⟨freshStaging, .empty, .empty, ∅, ∅, 0, 0⟩, [], []⟩

theorem fresh_initial : fresh.Initial := ⟨131072, 131072, 131072, rfl, rfl, rfl⟩

/-- A range written before its subject was opened is admitted afterwards, and the subject is verified
with nothing written since. -/
theorem verified_without_write_since_opening :
    let s := run System.step fresh [.writeTo byteProved 0 true, .beginRanges byteSubject 1,
      .admitWrittenRange 0, .finishRanges byteSubject]
    fresh.Initial ∧ s.receiver.isVerified byteSubject = true ∧
      ∃ earlier, s.log = .completed byteSubject :: earlier ∧
        placedSince byteSubject earlier = [] ∧ byteSubject.length = 1 := by
  intro s
  have hlog : s.log = [.completed byteSubject, .admitted (byteProved.placement 0),
      .opened byteSubject 1, .placed (byteProved.placement 0)] := rfl
  have hverified : s.receiver.verified = {byteSubject} := rfl
  refine ⟨fresh_initial, ?_, _, hlog, ?_, rfl⟩
  · rw [isVerified, hverified]
    exact decide_eq_true (Finset.mem_singleton_self _)
  · rw [placedSince, since_cons rfl, since_mark (by simp [Event.opens])]
    rfl

def sampleSubject : SubjectId := ⟨1, Block.ofBytes 32 [4], 65537, .inr (by decide)⟩

/-- The first group, whose second record arrived first. -/
def firstProved : ProvedRange where
  subject := sampleSubject
  bundle := groupBundle 0 65536 2
  records := firstRecords.reverse
  range := ⟨sampleIdentity, 0, replicate groupSize 7⟩
  proved := verifyTypedBundle_eq_ok.mpr
    ⟨_, rfl, verify_firstRecords firstRecords.reverse_perm⟩

/-- The byte that is left of the second group. -/
def lastProved : ProvedRange where
  subject := sampleSubject
  bundle := groupBundle 65536 1 1
  records := [sampleRecord 0 65536 1 7]
  range := ⟨sampleIdentity, 65536, [7]⟩
  proved := by
    have hcarries : Carries Bao64.sampleObject (groupBundle 65536 1 1) [sampleRecord 0 65536 1 7] :=
      ⟨rfl, forall_mem_singleton.mpr (sampleRecord_taken 7 rfl (by decide)), rfl, ⟨rfl, trivial⟩,
        Bao64.slice_sample (n := 1) le_rfl⟩
    have hverify := hcarries.verify_eq Bao64.sampleObject_length_le
      (groupBundle_valid (by decide) (by decide)) (.refl _)
    exact verifyTypedBundle_eq_ok.mpr
      ⟨_, rfl, hverify.trans (verifyRange_sample (n := 1) Bao64.cover_sample)⟩

/-- The first group is written outside the receiver and admitted after the second, which the receiver
writes itself. -/
def sampleCalls : List (Call ℕ) :=
  [.beginRanges sampleSubject 1, .writeTo firstProved 0 true, .admitVerifiedRange lastProved true,
    .admitWrittenRange 0, .finishRanges sampleSubject]

theorem sampleCalls_log : (run System.step fresh sampleCalls).log =
    [.completed sampleSubject, .admitted (firstProved.placement 0), .wrote (lastProved.placement 1),
      .placed (firstProved.placement 0), .opened sampleSubject 1] := by
  have hplaced : writeTo firstProved.range true = .ok ⟨sampleSubject, 0, 65536⟩ := by
    have hlength : firstProved.range.data.length = 65536 := length_replicate
    rw [writeTo, hlength]
    rfl
  have hwrite (s : System ℕ) : s.step (.writeTo firstProved 0 true) = { s with
      witnesses := (⟨sampleSubject, 0, 65536⟩, firstProved.placement 0) :: s.witnesses
      log := .placed (firstProved.placement 0) :: s.log } := by
    simp only [System.step, System.call, hplaced]
  rw [sampleCalls, run, foldl_cons, foldl_cons, hwrite]
  rfl

/-- Both groups of the object, one of them through `writeTo`. -/
theorem verified_proved_and_placed_two_ranges :
    Bao64.SplitRoot ∧ fresh.Initial ∧
      (run System.step fresh sampleCalls).receiver.isVerified sampleSubject = true ∧
      Identifies sampleIdentity .blake3Bao64 Bao64.sampleObject ∧
      ∀ placement ∈ [firstProved.placement 0, lastProved.placement 1],
        CollisionFree .blake3Bao64 Bao64.sampleObject placement.offset placement.data
          placement.proof ∧
        slice? Bao64.sampleObject placement.offset (placement.offset + placement.data.length) =
          some placement.data := by
  obtain ⟨hverified, hranges, -⟩ :=
    verified_proved_and_placed Bao64.splitRoot_sample fresh_initial sampleCalls
  have hmem : .completed sampleSubject ∈ (run System.step fresh sampleCalls).log := by
    rw [sampleCalls_log]
    exact .head _
  obtain ⟨-, hplaced, -⟩ := hranges [] _ sampleSubject sampleCalls_log
  change ∀ placement ∈ [firstProved.placement 0, lastProved.placement 1], _ at hplaced
  have hfree : ∀ placement ∈ [firstProved.placement 0, lastProved.placement 1],
      CollisionFree .blake3Bao64 Bao64.sampleObject placement.offset placement.data
        placement.proof := by
    have hfirst := Bao64.collisionFree_sample cover_first le_rfl
    rw [length_replicate] at hfirst
    exact forall_mem_cons.mpr ⟨hfirst, forall_mem_singleton.mpr
      (Bao64.collisionFree_sample (n := 1) Bao64.cover_sample (by decide))⟩
  exact ⟨Bao64.splitRoot_sample, fresh_initial, (hverified sampleSubject).mpr (.inl hmem),
    identifies_sample, fun placement h => ⟨hfree placement h,
      (hplaced placement h).2 _ _ identifies_sample (hfree placement h)⟩⟩

end Sample

end ObjectTransfer.Receive
