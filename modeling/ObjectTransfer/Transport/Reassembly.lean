import ObjectTransfer.Codec.EnvelopeCorrect
import ObjectTransfer.Foundations.Segments
import ObjectTransfer.Transport.Framing

/-! # Reassembly against the stream

The frames of a stream are those its scan cuts off. The reading loop is compared with that scan by
the bytes of the unfinished frame it has seen: they are in the buffer, or a skipped frame's count
says how many are still to come.
-/

namespace ObjectTransfer.Transport
open Foundations Codec List Framing

/-! ## The front of a stream -/

/-- What an envelope says about the frame it begins. -/
def toFront (envelope : FrameEnvelope) : Front := ⟨envelope.totalLength, !envelope.skipped⟩

def streamLimits (kind : StreamKind) (control : ℕ) : DecodeLimits := ⟨kind.payloadLimit control, 1⟩

def streamFront (kind : StreamKind) (control : ℕ) (input : Bytes) :
    Except FrameFault (Option Front) :=
  (envelope (new kind () control : Framing Unit Unit) (streamLimits kind control)
    control input).map (Option.map toFront)

variable {β η : Type} {kind : StreamKind} {control : ℕ} {framing : Framing β η}

theorem envelope_front (hkind : framing.kind = kind) (input : Bytes) :
    (framing.envelope (streamLimits kind control) control input).map (Option.map toFront) =
      streamFront kind control input := by
  unfold streamFront envelope
  rw [hkind]
  rfl

variable {input : Bytes} {unit : Front}

theorem streamFront_eq_some :
    streamFront kind control input = .ok (some unit) ↔ ∃ envelope,
      peekEnvelope input (streamLimits kind control) = .ok envelope ∧
      envelope.totalLength ≤ kind.partialFrameLimit control ∧ unit = toFront envelope := by
  unfold streamFront envelope
  cases hpeek : peekEnvelope input (streamLimits kind control) with
  | error error => cases error <;> simp [Except.map]
  | ok envelope =>
    by_cases hlarge : envelope.totalLength > kind.partialFrameLimit control
    · have hlarge' : ¬ envelope.totalLength ≤ kind.partialFrameLimit control := by omega
      simp [new, hlarge, hlarge', Except.map]
    · have hsmall : envelope.totalLength ≤ kind.partialFrameLimit control := by omega
      simp [new, hlarge, hsmall, Except.map, eq_comm]

theorem streamFront_eq_none :
    streamFront kind control input = .ok none ↔
      Undecided (peekEnvelope input (streamLimits kind control)) := by
  unfold streamFront envelope Undecided
  cases hpeek : peekEnvelope input (streamLimits kind control) with
  | error error => cases error <;> simp [Except.map, waits_error, DecodeError.Pending]
  | ok =>
    simp only [not_waits_ok, iff_false]
    split <;> simp [Except.map]

variable {limits : DecodeLimits}

theorem peekEnvelope_append_any (h : ¬ Undecided (peekEnvelope input limits)) (more : Bytes) :
    peekEnvelope (input ++ more) limits = peekEnvelope input limits := by
  cases hlimits : validateLimits limits with
  | ok => exact peekEnvelope_append hlimits h more
  | error => rw [peekEnvelope, peekEnvelope, parseEnvelopePrefix, parseEnvelopePrefix, hlimits,
      error_bind, error_bind]

variable {count : ℕ}

theorem decodeVarint_take {value width : ℕ} (h : decodeVarint input = .ok (value, width))
    (hcount : width ≤ count) : decodeVarint (input.take count) = .ok (value, width) := by
  have hpos := decodeVarint_width_pos h
  obtain ⟨first, rest, rfl, hwidth, hle, rfl⟩ := decodeVarint_eq_ok.mp h
  obtain ⟨count, rfl⟩ : ∃ less, count = less + 1 := ⟨count - 1, by omega⟩
  rw [length_cons] at hle
  refine decodeVarint_eq_ok.mpr ⟨first, rest.take count, rfl, hwidth, ?_, ?_⟩
  · simp only [take_succ_cons, length_cons, length_take]
    omega
  · rw [take_take, min_eq_left (by omega)]

variable {envelope : FrameEnvelope}

/-- A frame's own bytes show its envelope. -/
theorem peekEnvelope_take (h : peekEnvelope input limits = .ok envelope) :
    peekEnvelope (input.take envelope.totalLength) limits = .ok envelope := by
  have hlimits : validateLimits limits = .ok () := by
    obtain ⟨⟨⟩, hlimits, -⟩ := bind_eq_ok.mp h
    exact hlimits
  obtain ⟨frameType, typeWidth, payloadLength, lengthWidth, htype, hlength, hbound, hknown, htotal,
    rfl⟩ := (peekEnvelope_eq_ok hlimits).mp h
  refine (peekEnvelope_eq_ok hlimits).mpr ⟨frameType, typeWidth, payloadLength, lengthWidth, ?_, ?_,
    hbound, hknown, htotal, rfl⟩
  · exact decodeVarint_take htype (by simp only; omega)
  · rw [drop_take]
    exact decodeVarint_take hlength (by simp only; omega)

theorem streamFront_framed (kind : StreamKind) (control : ℕ) : Framed (streamFront kind control) where
  settles input more hdecided := by
    rw [ne_eq, streamFront_eq_none] at hdecided
    unfold streamFront envelope
    rw [peekEnvelope_append_any hdecided]
  own input unit hunit := by
    rw [hunit]
    obtain ⟨envelope, hpeek, hsmall, rfl⟩ := streamFront_eq_some.mp hunit
    exact streamFront_eq_some.mpr ⟨envelope, peekEnvelope_take hpeek, hsmall, rfl⟩
  pos input unit hunit := by
    obtain ⟨envelope, hpeek, -, rfl⟩ := streamFront_eq_some.mp hunit
    exact peekEnvelope_total_pos hpeek

/-- The front a stream reads, by what its envelope function returns. -/
theorem streamFront_of_envelope (hkind : framing.kind = kind) {found : Option FrameEnvelope}
    (h : framing.envelope (streamLimits kind control) control input = .ok found) :
    streamFront kind control input = .ok (found.map toFront) := by
  rw [← envelope_front hkind, h]
  rfl

theorem streamFront_of_fault (hkind : framing.kind = kind) {fault : FrameFault}
    (h : framing.envelope (streamLimits kind control) control input = .error fault) :
    streamFront kind control input = .error fault := by
  rw [← envelope_front hkind, h]
  rfl

theorem envelope_pos_of (h : streamFront kind control input = .ok ((some envelope).map toFront)) :
    0 < (toFront envelope).length :=
  (streamFront_framed kind control).pos input _ h

/-! ## The loop -/

/-- The input ends exactly where a header ends that earlier input began. -/
def HeaderEnds (kind : StreamKind) (control : ℕ) (seen input : Bytes) : Prop :=
  seen ≠ [] ∧ input ≠ [] ∧ streamFront kind control (seen ++ input.dropLast) = .ok none ∧
    streamFront kind control (seen ++ input) ≠ .ok none

/-- The stream stands behind `seen`, the bytes of an unfinished frame. -/
structure Reads (kind : StreamKind) (control : ℕ) (framing : Framing β η) (seen : Bytes) : Prop where
  kind_eq : framing.kind = kind
  control_eq : framing.controlLimit = control
  holds : framing.discarding = 0 ∧ framing.pending = seen ∧
      (∀ unit, streamFront kind control seen = .ok (some unit) → seen.length ≤ unit.length) ∨
    0 < framing.discarding ∧ framing.pending = [] ∧ seen ≠ [] ∧
      streamFront kind control seen = .ok (some ⟨seen.length + framing.discarding, false⟩)

variable {seen : Bytes}

theorem Reads.isAssembling_iff (h : Reads kind control framing seen) :
    framing.isAssembling = false ↔ seen = [] := by
  unfold isAssembling
  cases h.holds with
  | inl hpending =>
    obtain ⟨hzero, hpending, -⟩ := hpending
    simp [hzero, hpending]
  | inr hdiscarding =>
    obtain ⟨hpos, hpending, hseen, -⟩ := hdiscarding
    simp [hpending, hseen]
    omega

/-- What reading `input` behind `seen` gives: the scan of both, except that a header which ends with
the input is not looked at. -/
def Digests (kind : StreamKind) (control : ℕ) (seen input : Bytes)
    (segments : Segments UInt8 FrameFault) : Prop :=
  input = [] ∧ segments = ⟨[], seen, none⟩ ∨
  HeaderEnds kind control seen input ∧ segments = ⟨[], seen ++ input, none⟩ ∨
  input ≠ [] ∧ ¬ HeaderEnds kind control seen input ∧
    segments = scan (streamFront kind control) (seen ++ input)

theorem not_headerEnds_nil (input : Bytes) : ¬ HeaderEnds kind control [] input := fun h => h.1 rfl

theorem not_headerEnds_of_decided (h : streamFront kind control seen ≠ .ok none) (input : Bytes) :
    ¬ HeaderEnds kind control seen input := by
  rintro ⟨-, -, hmore, -⟩
  rw [(streamFront_framed kind control).settles seen _ h] at hmore
  exact h hmore

/-- Behind a decided front, or at a frame boundary, reading is scanning. -/
theorem Digests.of_decided (hseen : seen = [] ∨ streamFront kind control seen ≠ .ok none)
    (hinput : input ≠ []) :
    Digests kind control seen input (scan (streamFront kind control) (seen ++ input)) := by
  refine .inr (.inr ⟨hinput, ?_, rfl⟩)
  cases hseen with
  | inl hnil => rw [hnil]; exact not_headerEnds_nil input
  | inr hdecided => exact not_headerEnds_of_decided hdecided input

variable {segments : Segments UInt8 FrameFault}

/-- At a frame boundary reading is scanning, whether or not there is input. -/
theorem digests_nil_iff :
    Digests kind control [] input segments ↔ segments = scan (streamFront kind control) input := by
  constructor
  · rintro (⟨rfl, rfl⟩ | ⟨hends, -⟩ | ⟨-, -, rfl⟩)
    · exact scan_nil.symm
    · exact absurd hends (not_headerEnds_nil input)
    · rfl
  · rintro rfl
    by_cases hinput : input = []
    · exact .inl ⟨hinput, by rw [hinput, scan_nil]⟩
    · exact Digests.of_decided (.inl rfl) hinput

/-- A budget that never refuses. -/
structure Ample (β : Type) {η : Type} [AssemblyBudget β η] : Prop where
  reserve : ∀ (budget : β) bytes, (AssemblyBudget.reserve budget bytes).isSome
  grow : ∀ (budget : β) hold bytes, (AssemblyBudget.grow budget hold bytes).isSome

section Loop
variable [AssemblyBudget β η]

theorem Ample.charge (hample : Ample β) (framing : Framing β η) (growth : ℕ) :
    (framing.charge growth).isSome := by
  unfold Framing.charge
  split
  · exact hample.grow _ _ _
  · exact hample.reserve _ _

theorem holdBytes_ok (hample : Ample β) (framing : Framing β η) (bytes : Bytes)
    (frameLength : Option ℕ) : ∃ held, framing.holdBytes bytes frameLength = (held, .ok ()) ∧
      held.pending = framing.pending ++ bytes ∧ held.discarding = framing.discarding ∧
      held.kind = framing.kind ∧ held.controlLimit = framing.controlLimit := by
  unfold holdBytes
  dsimp only
  split
  · exact ⟨_, rfl, rfl, rfl, rfl, rfl⟩
  · split
    · rename_i hnone
      exact absurd (hample.charge framing _) (by rw [hnone]; exact Bool.false_ne_true)
    · exact ⟨_, rfl, rfl, rfl, rfl, rfl⟩

def collect (frames : List Bytes) (frame : Bytes) : List Bytes × Except FrameFault Unit :=
  (frames ++ [frame], .ok ())

omit [AssemblyBudget β η] in
theorem emitThen_collect (framing : Framing β η) (frames : List Bytes) (frame input : Bytes) :
    emitThen collect framing frames frame input =
      (framing, frames ++ [frame], .next input) := rfl

/-- A pass over `input` behind `seen` does its part of the digest. -/
def Explained (kind : StreamKind) (control : ℕ) (frames : List Bytes) (seen input : Bytes) :
    Framing β η × List Bytes × Pass → Prop
  | (framing, after, .done) => after = frames ∧ ∃ tail, Reads kind control framing tail ∧
      Digests kind control seen input ⟨[], tail, none⟩
  | (_, after, .fault fault) => after = frames ∧ ∃ tail,
      Digests kind control seen input ⟨[], tail, some fault⟩
  | (framing, after, .next rest) => ∃ tail units, Reads kind control framing tail ∧
      after = frames ++ units ∧ ∀ segments, Digests kind control tail rest segments →
        Digests kind control seen input (segments.behind units)

variable {frames : List Bytes}

theorem holdRest_explained (hample : Ample β)
    (hreads : Reads kind control framing []) (frameLength : Option ℕ)
    (hscan : scan (streamFront kind control) input = ⟨[], input, none⟩)
    (hlength : ∀ unit, streamFront kind control input = .ok (some unit) → input.length ≤ unit.length) :
    Explained kind control frames [] input (framing.holdRest frames input frameLength) := by
  obtain ⟨held, hheld, hpending, hdiscarding, hkind, hcontrol⟩ :=
    holdBytes_ok hample framing input frameLength
  have hidle : framing.discarding = 0 ∧ framing.pending = [] := by
    cases hreads.holds with
    | inl h => exact ⟨h.1, h.2.1⟩
    | inr h => exact absurd rfl h.2.2.1
  unfold holdRest
  rw [hheld]
  refine ⟨rfl, input, ⟨by rw [hkind, hreads.kind_eq], by rw [hcontrol, hreads.control_eq], .inl ?_⟩, ?_⟩
  · exact ⟨by rw [hdiscarding, hidle.1], by rw [hpending, hidle.2, nil_append], hlength⟩
  · rw [digests_nil_iff, hscan]

theorem direct_explained (hample : Ample β)
    (hreads : Reads kind control framing []) (hinput : input ≠ []) :
    Explained kind control frames [] input
      (framing.direct collect (streamLimits kind control) control frames input) := by
  have hidle : framing.discarding = 0 ∧ framing.pending = [] := by
    cases hreads.holds with
    | inl h => exact ⟨h.1, h.2.1⟩
    | inr h => exact absurd rfl h.2.2.1
  unfold direct
  cases henvelope : framing.envelope (streamLimits kind control) control input with
  | error =>
    have hfront := streamFront_of_fault hreads.kind_eq henvelope
    exact ⟨rfl, input, by rw [digests_nil_iff, scan_of_fault hinput hfront]⟩
  | ok found =>
    have hfront := streamFront_of_envelope hreads.kind_eq henvelope
    cases found with
    | none =>
      apply holdRest_explained hample hreads none (scan_of_more hfront)
      intro unit hunit
      rw [hfront] at hunit
      cases hunit
    | some =>
      dsimp only
      have hpos := envelope_pos_of hfront
      split
      · rename_i hshort
        have hscan := scan_of_short hfront hshort
        split
        · rename_i hskipped
          refine ⟨rfl, input, ⟨hreads.kind_eq, hreads.control_eq, .inr ?_⟩, ?_⟩
          · refine ⟨by simp only; omega, hidle.2, hinput, ?_⟩
            rw [hfront]
            simp [toFront, hskipped]
            omega
          · rw [digests_nil_iff, hscan]
        · apply holdRest_explained hample hreads _ hscan
          intro unit hunit
          rw [hfront] at hunit
          cases hunit
          exact hshort.le
      · rename_i hlong
        have hscan := scan_of_unit hfront hpos (not_lt.mp hlong)
        split
        · rename_i hskipped
          refine ⟨[], [], hreads, by simp, ?_⟩
          intro segments hsegments
          rw [digests_nil_iff] at hsegments ⊢
          rw [hsegments, hscan]
          simp [toFront, hskipped]
        · rename_i hkept
          refine ⟨[], [_], hreads, rfl, ?_⟩
          intro segments hsegments
          rw [digests_nil_iff] at hsegments ⊢
          rw [hsegments, hscan]
          simp [toFront, hkept]

/-- The rest of a frame whose envelope is known, from the front of the input. -/
theorem Digests.completes (hunit : streamFront kind control seen = .ok (some unit))
    (hseen : seen.length ≤ unit.length) (hinput : input ≠ [])
    (hle : unit.length - seen.length ≤ input.length)
    (hrest : Digests kind control [] (input.drop (unit.length - seen.length)) segments) :
    Digests kind control seen input
      (segments.behind (if unit.kept then [seen ++ input.take (unit.length - seen.length)] else [])) := by
  have hframed := streamFront_framed kind control
  have hdecided : streamFront kind control seen ≠ .ok none := by rw [hunit]; simp
  rw [digests_nil_iff] at hrest
  have hfront : streamFront kind control (seen ++ input.take (unit.length - seen.length)) =
      .ok (some unit) := by
    rw [hframed.settles seen _ hdecided, hunit]
  have hlength : (seen ++ input.take (unit.length - seen.length)).length = unit.length := by
    rw [length_append, length_take_of_le hle]
    omega
  have hscan := hframed.scan_unit_append hfront hlength (input.drop (unit.length - seen.length))
  rw [append_assoc, take_append_drop] at hscan
  rw [hrest, ← hscan]
  exact Digests.of_decided (.inr hdecided) hinput

/-- A frame whose envelope is known and that the input does not complete. -/
theorem Digests.lacks (hunit : streamFront kind control seen = .ok (some unit))
    (hinput : input ≠ []) (hshort : (seen ++ input).length < unit.length) :
    Digests kind control seen input ⟨[], seen ++ input, none⟩ := by
  have hdecided : streamFront kind control seen ≠ .ok none := by rw [hunit]; simp
  have hfront : streamFront kind control (seen ++ input) = .ok (some unit) := by
    rw [(streamFront_framed kind control).settles seen _ hdecided, hunit]
  rw [← scan_of_short hfront hshort]
  exact Digests.of_decided (.inr hdecided) hinput

/-- One more byte of a header that is still arriving. -/
theorem Digests.byte (hseen : seen ≠ []) (hmore : streamFront kind control seen = .ok none)
    (hinput : input ≠ [])
    (hrest : Digests kind control (seen ++ input.take 1) (input.drop 1) segments) :
    Digests kind control seen input segments := by
  obtain ⟨first, rest, rfl⟩ := exists_cons_of_ne_nil hinput
  simp only [take_succ_cons, take_zero, drop_succ_cons, drop_zero] at hrest
  have hsplit (more : Bytes) : seen ++ [first] ++ more = seen ++ first :: more := by simp
  rcases hrest with ⟨rfl, rfl⟩ | ⟨⟨-, hne, hbefore, hafter⟩, rfl⟩ | ⟨hne, hends, rfl⟩
  · by_cases hends : streamFront kind control (seen ++ [first]) = .ok none
    · refine .inr (.inr ⟨hinput, ?_, (scan_of_more hends).symm⟩)
      rintro ⟨-, -, -, hdecided⟩
      exact hdecided hends
    · exact .inr (.inl ⟨⟨hseen, hinput, by simpa using hmore, hends⟩, rfl⟩)
  · rw [hsplit] at hbefore hafter
    refine .inr (.inl ⟨⟨hseen, hinput, ?_, hafter⟩, by rw [hsplit]⟩)
    rwa [dropLast_cons_of_ne_nil hne]
  · refine .inr (.inr ⟨hinput, ?_, by rw [hsplit]⟩)
    rintro ⟨-, -, hbefore, hafter⟩
    rw [dropLast_cons_of_ne_nil hne, ← hsplit] at hbefore
    rw [← hsplit] at hafter
    exact hends ⟨by simp, hne, hbefore, hafter⟩

theorem resume_explained (hample : Ample β) (hreads : Reads kind control framing seen)
    (hidle : framing.discarding = 0) (hseen : seen ≠ []) (hinput : input ≠ []) :
    Explained kind control frames seen input
      (framing.resume collect (streamLimits kind control) control frames input) := by
  have hframed := streamFront_framed kind control
  obtain ⟨hpending, hlength⟩ : framing.pending = seen ∧ ∀ unit,
      streamFront kind control seen = .ok (some unit) → seen.length ≤ unit.length := by
    cases hreads.holds with
    | inl h => exact h.2
    | inr h => exact absurd hidle h.1.ne'
  unfold resume
  rw [hpending]
  cases henvelope : framing.envelope (streamLimits kind control) control seen with
  | error =>
    have hfront := streamFront_of_fault hreads.kind_eq henvelope
    refine ⟨rfl, seen ++ input, ?_⟩
    rw [← hframed.scan_fault_append hseen hfront input]
    exact Digests.of_decided (.inr (by rw [hfront]; simp)) hinput
  | ok found =>
    have hfront := streamFront_of_envelope hreads.kind_eq henvelope
    cases found with
    | none =>
      obtain ⟨held, hheld, hbuffer, hdiscarding, hkind, hcontrol⟩ :=
        holdBytes_ok hample framing (input.take 1) none
      simp only [hheld]
      refine ⟨seen ++ input.take 1, [], ⟨by rw [hkind, hreads.kind_eq],
        by rw [hcontrol, hreads.control_eq], .inl ⟨by rw [hdiscarding, hidle], by rw [hbuffer, hpending],
        ?_⟩⟩, by simp, ?_⟩
      · intro unit hunit
        apply hframed.length_le_of_dropLast hunit
        obtain ⟨first, rest, rfl⟩ := exists_cons_of_ne_nil hinput
        simpa using hfront
      · intro segments hsegments
        exact Digests.byte hseen hfront hinput hsegments
    | some envelope =>
      have hunit : streamFront kind control seen = .ok (some (toFront envelope)) := hfront
      have hle : seen.length ≤ envelope.totalLength := hlength _ hunit
      dsimp only
      split
      · rename_i hskipped
        by_cases hcomplete : envelope.totalLength - seen.length ≤ input.length
        · rw [min_eq_left hcomplete, Nat.sub_self]
          refine ⟨[], [], ⟨hreads.kind_eq, hreads.control_eq, .inl ⟨rfl, rfl, by simp⟩⟩, by simp, ?_⟩
          intro segments hsegments
          have hdigest := Digests.completes hunit hle hinput hcomplete hsegments
          simpa [toFront, hskipped] using hdigest
        · rw [min_eq_right (by omega), drop_length]
          have hdecided : streamFront kind control seen ≠ .ok none := by rw [hunit]; simp
          refine ⟨seen ++ input, [], ⟨hreads.kind_eq, hreads.control_eq, .inr ⟨?_, rfl, by simp [hseen],
            ?_⟩⟩, by simp, ?_⟩
          · simp only [release]
            omega
          · rw [hframed.settles seen _ hdecided, hunit]
            simp [toFront, hskipped, release]
            omega
          · rintro segments (⟨-, rfl⟩ | ⟨⟨-, hne, -⟩, -⟩ | ⟨hne, -⟩)
            · apply Digests.lacks hunit hinput
              rw [length_append]
              simp only [toFront]
              omega
            · exact absurd rfl hne
            · exact absurd rfl hne
      · rename_i hkept
        obtain ⟨held, hheld, hbuffer, hdiscarding, hkind, hcontrol⟩ := holdBytes_ok hample framing
          (input.take (min (envelope.totalLength - seen.length) input.length)) (some envelope.totalLength)
        simp only [hheld, hbuffer, hpending]
        by_cases hcomplete : envelope.totalLength - seen.length ≤ input.length
        · rw [min_eq_left hcomplete, if_neg (by
            rw [length_append, length_take_of_le hcomplete]
            omega), emitThen_collect]
          refine ⟨[], [_], ⟨by rw [release, hkind, hreads.kind_eq],
            by rw [release, hcontrol, hreads.control_eq],
            .inl ⟨by rw [release, hdiscarding, hidle], rfl, by simp⟩⟩, rfl, ?_⟩
          intro segments hsegments
          have hdigest := Digests.completes hunit hle hinput hcomplete hsegments
          simpa [toFront, hkept] using hdigest
        · have hshort : (seen ++ input).length < envelope.totalLength := by
            rw [length_append]
            omega
          rw [min_eq_right (by omega), take_length, if_pos hshort]
          have hdecided : streamFront kind control seen ≠ .ok none := by rw [hunit]; simp
          refine ⟨rfl, seen ++ input, ⟨by rw [hkind, hreads.kind_eq], by rw [hcontrol, hreads.control_eq],
            .inl ⟨by rw [hdiscarding, hidle], ?_, ?_⟩⟩, Digests.lacks hunit hinput hshort⟩
          · rw [hbuffer, hpending, min_eq_right (by omega), take_length]
          · intro unit hother
            rw [hframed.settles seen _ hdecided, hunit] at hother
            cases hother
            exact hshort.le

omit [AssemblyBudget β η] in
/-- A pass that first counts down a skipped frame, and then reads at its end. -/
theorem Explained.after_skip {result : Framing β η × List Bytes × Pass}
    (hunit : streamFront kind control seen = .ok (some ⟨seen.length + count, false⟩))
    (hinput : input ≠ []) (hle : count ≤ input.length)
    (h : Explained kind control frames [] (input.drop count) result) :
    Explained kind control frames seen input result := by
  have hdigest {segments} (hrest : Digests kind control [] (input.drop count) segments) :
      Digests kind control seen input segments := by
    rw [← Nat.add_sub_cancel_left (n := seen.length) (m := count)] at hrest hle
    exact Digests.completes hunit (Nat.le_add_right _ _) hinput hle hrest
  obtain ⟨framing, after, pass⟩ := result
  cases pass with
  | done =>
    obtain ⟨rfl, tail, hreads, hrest⟩ := h
    exact ⟨rfl, tail, hreads, hdigest hrest⟩
  | fault =>
    obtain ⟨rfl, tail, hrest⟩ := h
    exact ⟨rfl, tail, hdigest hrest⟩
  | next =>
    obtain ⟨tail, units, hreads, rfl, hrest⟩ := h
    exact ⟨tail, units, hreads, rfl, fun segments hsegments => hdigest (hrest segments hsegments)⟩

theorem pass_idle (hidle : framing.discarding = 0) (limits : DecodeLimits) (frames : List Bytes)
    (input : Bytes) :
    framing.pass collect limits control frames input =
      if input = [] then (framing, frames, .done)
      else if framing.pending ≠ [] then framing.resume collect limits control frames input
      else framing.direct collect limits control frames input := by
  cases framing
  subst hidle
  simp [Framing.pass]

theorem pass_explained (hample : Ample β) (frames : List Bytes) (input : Bytes)
    (hreads : Reads kind control framing seen) :
    Explained kind control frames seen input
      (framing.pass collect (streamLimits kind control) control frames input) := by
  cases hreads.holds with
  | inl hpending =>
    obtain ⟨hidle, hbuffer, -⟩ := hpending
    rw [pass_idle hidle, hbuffer]
    by_cases hinput : input = []
    · rw [if_pos hinput]
      exact ⟨rfl, seen, hreads, .inl ⟨hinput, rfl⟩⟩
    · rw [if_neg hinput]
      by_cases hseen : seen = []
      · subst hseen
        exact direct_explained hample hreads hinput
      · rw [if_pos hseen]
        exact resume_explained hample hreads hidle hseen hinput
  | inr hdiscarding =>
    obtain ⟨hpos, hbuffer, hseen, hfront⟩ := hdiscarding
    unfold Framing.pass
    dsimp only
    by_cases hshort : input.length < framing.discarding
    · rw [min_eq_right hshort.le, if_pos (.inl (by omega))]
      refine ⟨rfl, seen ++ input, ⟨hreads.kind_eq, hreads.control_eq, .inr ⟨by simp only; omega, hbuffer,
        by simp [hseen], ?_⟩⟩, ?_⟩
      · rw [(streamFront_framed kind control).settles seen _ (by rw [hfront]; simp), hfront]
        simp only [length_append, Except.ok.injEq, Option.some.injEq, Front.mk.injEq, and_true]
        omega
      · by_cases hinput : input = []
        · exact .inl ⟨hinput, by simp [hinput]⟩
        · apply Digests.lacks hfront hinput
          rw [length_append]
          simp only
          omega
    · have hinput : input ≠ [] := by
        rintro rfl
        rw [length_nil] at hshort
        omega
      rw [min_eq_left (by omega), Nat.sub_self]
      have hidle : Reads kind control { framing with discarding := 0 } [] :=
        ⟨hreads.kind_eq, hreads.control_eq, .inl ⟨rfl, hbuffer, by simp⟩⟩
      apply Explained.after_skip hfront hinput (by omega)
      by_cases hrest : input.drop framing.discarding = []
      · rw [if_pos (.inr hrest)]
        exact ⟨rfl, [], hidle, by rw [digests_nil_iff, hrest, scan_nil]⟩
      · rw [if_neg (by simp [hrest]), if_neg (by simp [hbuffer])]
        exact direct_explained hample hidle hrest

/-- The loop over one piece of the stream. -/
theorem acceptFrom_digests (hample : Ample β) (framing : Framing β η) (frames : List Bytes)
    (seen input : Bytes) (hreads : Reads kind control framing seen) :
    ∃ segments after, Digests kind control seen input segments ∧
      (framing.acceptFrom collect (streamLimits kind control) control frames input) =
        (after, frames ++ segments.units, match segments.fault with
          | none => .ok ()
          | some fault => .error fault) ∧
      (segments.fault = none → Reads kind control after segments.tail) := by
  induction hmeasure : framing.remaining input using Nat.strong_induction_on
    generalizing framing frames seen input with
  | _ measure ih =>
    have hpass := pass_explained hample frames input hreads
    unfold acceptFrom
    split
    · rename_i after found hresult
      rw [hresult] at hpass
      obtain ⟨rfl, tail, htail, hdigest⟩ := hpass
      exact ⟨_, after, hdigest, by simp, fun _ => htail⟩
    · rename_i after found fault hresult
      rw [hresult] at hpass
      obtain ⟨rfl, tail, hdigest⟩ := hpass
      exact ⟨_, after, hdigest, by simp, by simp⟩
    · rename_i next found rest hresult
      rw [hresult] at hpass
      obtain ⟨tail, units, htail, rfl, hdigest⟩ := hpass
      have hless := pass_next collect hresult
      obtain ⟨segments, after, hrest, hloop, hafter⟩ :=
        ih _ (hmeasure ▸ hless) next (frames ++ units) tail rest htail rfl
      refine ⟨segments.behind units, after, hdigest segments hrest, ?_, hafter⟩
      rw [hloop, append_assoc]
      rfl

end Loop

end ObjectTransfer.Transport
