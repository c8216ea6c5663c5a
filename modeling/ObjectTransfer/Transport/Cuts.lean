import ObjectTransfer.Transport.Reassembly

/-! # A stream fed in pieces

A run over the pieces of a stream agrees with the scan of their concatenation, except where a header
that one piece began ends together with a later piece: the loop takes such a header's last byte and
returns without looking at it. If the frame has no payload it is complete and not handed over; if it
is refused the refusal is not reported.
-/

namespace ObjectTransfer.Transport
open Foundations Codec List

variable {β η : Type} {kind : StreamKind} {control : ℕ}

/-- A reassembly run: the stream, the frames handed over and the fault that ended it. -/
structure Fed (β η : Type) where
  framing : Framing β η
  frames : List Bytes
  fault : Option FrameFault

/-- Feed one more piece, unless the run has faulted. -/
def Fed.feed [AssemblyBudget β η] (fed : Fed β η) (chunk : Bytes) : Fed β η :=
  match fed.fault with
  | some _ => fed
  | none =>
    match fed.framing.accept collect fed.frames chunk with
    | (framing, frames, .ok ()) => ⟨framing, frames, none⟩
    | (framing, frames, .error fault) => ⟨framing, frames, some fault⟩

/-- The run of a fresh stream over the given pieces. -/
def feedAll [AssemblyBudget β η] (kind : StreamKind) (control : ℕ) (budget : β)
    (chunks : List Bytes) : Fed β η :=
  chunks.foldl Fed.feed ⟨Framing.new kind budget control, [], none⟩

/-- The frames of a stream, what is left behind them, and the fault in it. -/
def framesOf (kind : StreamKind) (control : ℕ) (stream : Bytes) : Segments UInt8 FrameFault :=
  scan (streamFront kind control) stream

/-- The run stands where the segments say. -/
structure Fed.Matches (kind : StreamKind) (control : ℕ) (fed : Fed β η)
    (segments : Segments UInt8 FrameFault) : Prop where
  frames_eq : fed.frames = segments.units
  fault_eq : fed.fault = segments.fault
  reads : segments.fault = none → Reads kind control fed.framing segments.tail

/-- The last piece that holds any bytes ends exactly where a header ends that the pieces before it
began; `header` is that header. -/
def HeldBack (kind : StreamKind) (control : ℕ) (chunks : List Bytes) (header : Bytes) : Prop :=
  ∃ before chunk after, chunks = before ++ chunk :: after ∧ after.flatten = [] ∧
    (framesOf kind control before.flatten).fault = none ∧
    HeaderEnds kind control (framesOf kind control before.flatten).tail chunk ∧
    header = (framesOf kind control before.flatten).tail ++ chunk

/-- A header held back belongs to a frame without payload: the frame is complete. -/
def HoldsFrame (kind : StreamKind) (control : ℕ) (chunks : List Bytes) : Prop :=
  ∃ header kept, HeldBack kind control chunks header ∧
    streamFront kind control header = .ok (some ⟨header.length, kept⟩)

/-- A header held back is one this stream refuses. -/
def HoldsFault (kind : StreamKind) (control : ℕ) (chunks : List Bytes) : Prop :=
  ∃ header fault, HeldBack kind control chunks header ∧
    streamFront kind control header = .error fault

/-- The header is decided by its last byte. -/
structure JustEnds (kind : StreamKind) (control : ℕ) (header : Bytes) : Prop where
  ne_nil : header ≠ []
  before : streamFront kind control header.dropLast = .ok none
  decided : streamFront kind control header ≠ .ok none

variable {chunks : List Bytes} {header : Bytes}

theorem HeldBack.justEnds
    (h : HeldBack kind control chunks header) : JustEnds kind control header := by
  obtain ⟨before, chunk, after, -, -, -, hends, rfl⟩ := h
  refine ⟨by simp [hends.1], ?_, hends.2.2.2⟩
  rw [dropLast_append_of_ne_nil hends.2.1]
  exact hends.2.2.1

/-- A header that just ends and begins a complete frame is the whole of it. -/
theorem JustEnds.scan_of_complete (h : JustEnds kind control header) {unit : Front}
    (hunit : streamFront kind control header = .ok (some unit)) (hle : unit.length ≤ header.length) :
    unit.length = header.length ∧
      framesOf kind control header = ⟨if unit.kept then [header] else [], [], none⟩ := by
  have hframed := streamFront_framed kind control
  have hlength := hframed.length_le_of_dropLast hunit h.before
  have hscan := hframed.scan_unit_append hunit (by omega) []
  rw [append_nil, scan_nil] at hscan
  refine ⟨by omega, ?_⟩
  rw [framesOf, hscan, Segments.behind, append_nil]

theorem heldBack_append_nil :
    HeldBack kind control (chunks ++ [[]]) header ↔ HeldBack kind control chunks header := by
  constructor
  · rintro ⟨before, chunk, after, hchunks, hafter, hfault, hends, rfl⟩
    cases after using reverseRecOn with
    | nil =>
      rw [append_singleton_inj] at hchunks
      exact absurd hchunks.2.symm hends.2.1
    | append_singleton after =>
      rw [← cons_append, ← append_assoc, append_singleton_inj] at hchunks
      rw [flatten_append, append_eq_nil_iff] at hafter
      exact ⟨before, chunk, after, hchunks.1, hafter.1, hfault, hends, rfl⟩
  · rintro ⟨before, chunk, after, rfl, hafter, hfault, hends, rfl⟩
    exact ⟨before, chunk, after ++ [[]], by simp, by simpa using hafter, hfault, hends, rfl⟩

theorem heldBack_append {chunk header : Bytes} (hchunk : chunk ≠ []) :
    HeldBack kind control (chunks ++ [chunk]) header ↔
      (framesOf kind control chunks.flatten).fault = none ∧
      HeaderEnds kind control (framesOf kind control chunks.flatten).tail chunk ∧
      header = (framesOf kind control chunks.flatten).tail ++ chunk := by
  constructor
  · rintro ⟨before, other, after, hchunks, hafter, hfault, hends, rfl⟩
    cases after using reverseRecOn with
    | nil =>
      obtain ⟨rfl, rfl⟩ := append_singleton_inj.mp hchunks
      exact ⟨hfault, hends, rfl⟩
    | append_singleton =>
      rw [← cons_append, ← append_assoc, append_singleton_inj] at hchunks
      rw [flatten_append, append_eq_nil_iff] at hafter
      exact absurd (hchunks.2.trans (by simpa using hafter.2)) hchunk
  · rintro ⟨hfault, hends, rfl⟩
    exact ⟨chunks, chunk, [], rfl, rfl, hfault, hends, rfl⟩

section Runs
variable [AssemblyBudget β η]

theorem feedAll_append (budget : β) (chunks : List Bytes) (chunk : Bytes) :
    feedAll kind control budget (chunks ++ [chunk]) =
      (feedAll kind control budget chunks).feed chunk := by
  simp [feedAll]

variable {fed : Fed β η}

theorem feed_of_fault {fault : FrameFault} (h : fed.fault = some fault) (chunk : Bytes) :
    fed.feed chunk = fed := by
  simp [Fed.feed, h]

variable {seen : Bytes}

theorem feed_digests (hample : Ample β) (hfault : fed.fault = none)
    (hreads : Reads kind control fed.framing seen) (chunk : Bytes) :
    ∃ segments, Digests kind control seen chunk segments ∧
      (fed.feed chunk).Matches kind control (segments.behind fed.frames) := by
  obtain ⟨segments, after, hdigest, haccept, hafter⟩ :=
    acceptFrom_digests hample fed.framing fed.frames seen chunk hreads
  refine ⟨segments, hdigest, ?_⟩
  unfold Fed.feed
  rw [hfault]
  unfold streamLimits at haccept
  simp only [Framing.accept, hreads.kind_eq, hreads.control_eq, haccept]
  cases hsegments : segments.fault with
  | none => exact ⟨rfl, hsegments.symm, hafter⟩
  | some =>
    refine ⟨rfl, hsegments.symm, fun hnone => ?_⟩
    rw [Segments.behind, hsegments] at hnone
    cases hnone

/-- Where a run stands: at the scan of what was fed, or at a header held back. -/
def Stands (kind : StreamKind) (control : ℕ) (chunks : List Bytes) (fed : Fed β η) : Prop :=
  (∃ header, HeldBack kind control chunks header ∧ fed.fault = none ∧
    Reads kind control fed.framing header ∧
    ∀ more, framesOf kind control (chunks.flatten ++ more) =
      (framesOf kind control (header ++ more)).behind fed.frames) ∨
  (∀ header, ¬ HeldBack kind control chunks header) ∧
    fed.Matches kind control (framesOf kind control chunks.flatten)

omit [AssemblyBudget β η] in
/-- What follows a header held back is read at a decided front, so no header is held back next. -/
theorem JustEnds.not_again {stream header : Bytes} {frames : List Bytes}
    (h : JustEnds kind control header)
    (hscan : framesOf kind control stream = (framesOf kind control header).behind frames)
    (chunk : Bytes) :
    ¬ ((framesOf kind control stream).fault = none ∧
      HeaderEnds kind control (framesOf kind control stream).tail chunk) := by
  rintro ⟨hfault, hends⟩
  rw [hscan] at hfault hends
  cases hfront : streamFront kind control header with
  | error =>
    rw [framesOf, scan_of_fault h.ne_nil hfront] at hfault
    cases hfault
  | ok found =>
    cases found with
    | none => exact h.decided hfront
    | some unit =>
      by_cases hle : unit.length ≤ header.length
      · rw [(h.scan_of_complete hfront hle).2] at hends
        exact not_headerEnds_nil chunk hends
      · rw [framesOf, scan_of_short hfront (by omega)] at hends
        exact not_headerEnds_of_decided h.decided chunk hends

omit [AssemblyBudget β η] in
theorem Digests.eq_scan {input : Bytes} {segments : Segments UInt8 FrameFault}
    (h : Digests kind control seen input segments) (hinput : input ≠ [])
    (hends : ¬ HeaderEnds kind control seen input) :
    segments = framesOf kind control (seen ++ input) := by
  rcases h with ⟨hnil, -⟩ | ⟨h, -⟩ | ⟨-, -, rfl⟩
  · exact absurd hnil hinput
  · exact absurd h hends
  · rfl

theorem feed_nil (hample : Ample β) (hfault : fed.fault = none)
    (hreads : Reads kind control fed.framing seen) :
    (fed.feed []).Matches kind control ⟨fed.frames, seen, none⟩ := by
  obtain ⟨segments, hdigest, hmatches⟩ := feed_digests hample hfault hreads []
  rcases hdigest with ⟨-, rfl⟩ | ⟨⟨-, hne, -⟩, -⟩ | ⟨hne, -⟩
  · simpa [Segments.behind] using hmatches
  · exact absurd rfl hne
  · exact absurd rfl hne

theorem Stands.feed_nil (hample : Ample β)
    (h : Stands kind control chunks fed) : Stands kind control (chunks ++ [[]]) (fed.feed []) := by
  have hflatten : (chunks ++ [[]]).flatten = chunks.flatten := by simp
  unfold Stands
  rw [hflatten]
  simp only [heldBack_append_nil]
  rcases h with ⟨header, hheld, hfault, hreads, hscan⟩ | ⟨hheld, hmatches⟩
  · have hsame := Transport.feed_nil hample hfault hreads
    refine .inl ⟨header, hheld, hsame.fault_eq, hsame.reads rfl, ?_⟩
    rwa [hsame.frames_eq]
  · refine .inr ⟨hheld, ?_⟩
    cases hfault : fed.fault with
    | some => rwa [feed_of_fault hfault]
    | none =>
      have hnone : (framesOf kind control chunks.flatten).fault = none := by
        rw [← hmatches.fault_eq, hfault]
      have hsame := Transport.feed_nil hample hfault (hmatches.reads hnone)
      exact ⟨by rw [hsame.frames_eq, hmatches.frames_eq], by rw [hsame.fault_eq, hnone],
        fun _ => hsame.reads rfl⟩

theorem Stands.feed (hample : Ample β) (h : Stands kind control chunks fed) {chunk : Bytes}
    (hchunk : chunk ≠ []) : Stands kind control (chunks ++ [chunk]) (fed.feed chunk) := by
  have hframed := streamFront_framed kind control
  have hflatten : (chunks ++ [chunk]).flatten = chunks.flatten ++ chunk := by simp
  unfold Stands
  rw [hflatten]
  simp only [heldBack_append hchunk]
  rcases h with ⟨header, hheld, hfault, hreads, hscan⟩ | ⟨hheld, hmatches⟩
  · -- The header held back is looked at now, and the piece is read behind it.
    have hends := hheld.justEnds
    have hnot := hends.not_again (by simpa using hscan []) chunk
    refine .inr ⟨fun other hother => hnot ⟨hother.1, hother.2.1⟩, ?_⟩
    obtain ⟨segments, hdigest, hmatches⟩ := feed_digests hample hfault hreads chunk
    rw [hscan chunk, ← hdigest.eq_scan hchunk (not_headerEnds_of_decided hends.decided chunk)]
    exact hmatches
  · cases hfault : fed.fault with
    | some fault =>
      have hsome : (framesOf kind control chunks.flatten).fault = some fault := by
        rw [← hmatches.fault_eq, hfault]
      obtain ⟨hunits, hstays⟩ := (hframed.scan_append _ chunk).2 _ hsome
      refine .inr ⟨fun other hother => ?_, ?_⟩
      · rw [hsome] at hother
        cases hother.1
      · rw [feed_of_fault hfault]
        refine ⟨hmatches.frames_eq.trans hunits.symm, by rw [hfault]; exact hstays.symm, fun hnone => ?_⟩
        rw [framesOf, hstays] at hnone
        cases hnone
    | none =>
      have hnone : (framesOf kind control chunks.flatten).fault = none := by
        rw [← hmatches.fault_eq, hfault]
      have hreads := hmatches.reads hnone
      have hcut (more : Bytes) : framesOf kind control (chunks.flatten ++ more) =
          (framesOf kind control ((framesOf kind control chunks.flatten).tail ++ more)).behind
            fed.frames := by
        rw [hmatches.frames_eq]
        exact (hframed.scan_append _ more).1 hnone
      obtain ⟨segments, hdigest, hfed⟩ := feed_digests hample hfault hreads chunk
      by_cases hends : HeaderEnds kind control (framesOf kind control chunks.flatten).tail chunk
      · refine .inl ⟨_, ⟨hnone, hends, rfl⟩, ?_⟩
        obtain rfl : segments = ⟨[], (framesOf kind control chunks.flatten).tail ++ chunk, none⟩ := by
          rcases hdigest with ⟨hnil, -⟩ | ⟨-, rfl⟩ | ⟨-, hnot, -⟩
          · exact absurd hnil hchunk
          · rfl
          · exact absurd hends hnot
        refine ⟨hfed.fault_eq, hfed.reads rfl, ?_⟩
        intro more
        rw [hfed.frames_eq, append_assoc, hcut, append_assoc]
        simp [Segments.behind]
      · refine .inr ⟨fun other hother => hends hother.2.1, ?_⟩
        rw [hcut, ← hdigest.eq_scan hchunk hends]
        exact hfed

theorem feedAll_stands (hample : Ample β) (kind : StreamKind) (control : ℕ) (budget : β)
    (chunks : List Bytes) : Stands kind control chunks (feedAll kind control budget chunks) := by
  induction chunks using reverseRecOn with
  | nil =>
    refine .inr ⟨?_, ?_⟩
    · rintro header ⟨before, chunk, after, hchunks, -⟩
      simp at hchunks
    · rw [flatten_nil, framesOf, scan_nil]
      exact ⟨rfl, rfl, fun _ => ⟨rfl, rfl, .inl ⟨rfl, rfl, by simp⟩⟩⟩
  | append_singleton chunks chunk ih =>
    rw [feedAll_append]
    by_cases hchunk : chunk = []
    · rw [hchunk]
      exact ih.feed_nil hample
    · exact ih.feed hample hchunk

omit [AssemblyBudget β η] in
theorem not_heldBack_nil (header : Bytes) : ¬ HeldBack kind control [] header := by
  rintro ⟨before, chunk, after, hchunks, -⟩
  simp at hchunks

omit [AssemblyBudget β η] in
/-- A stream fed in one piece holds no header back. -/
theorem not_heldBack_single (stream header : Bytes) : ¬ HeldBack kind control [stream] header := by
  by_cases hstream : stream = []
  · rw [hstream, ← nil_append [[]], heldBack_append_nil]
    exact not_heldBack_nil header
  · rw [← nil_append [stream], heldBack_append hstream]
    rintro ⟨-, hends, -⟩
    rw [flatten_nil, framesOf, scan_nil] at hends
    exact not_headerEnds_nil stream hends

omit [AssemblyBudget β η] in
theorem HeldBack.unique {header other : Bytes} (h : HeldBack kind control chunks header)
    (hother : HeldBack kind control chunks other) : header = other := by
  induction chunks using reverseRecOn with
  | nil => exact absurd h (not_heldBack_nil header)
  | append_singleton chunks chunk ih =>
    by_cases hchunk : chunk = []
    · rw [hchunk, heldBack_append_nil] at h hother
      exact ih h hother
    · rw [heldBack_append hchunk] at h hother
      rw [h.2.2, hother.2.2]

/-- A run whose last header is held back has handed over what the scan has before it. -/
theorem HeldBack.run (hample : Ample β) (budget : β) (h : HeldBack kind control chunks header) :
    (feedAll kind control budget chunks).fault = none ∧
      (feedAll kind control budget chunks).framing.isAssembling = true ∧
      framesOf kind control chunks.flatten =
        (framesOf kind control header).behind (feedAll kind control budget chunks).frames := by
  rcases feedAll_stands hample kind control budget chunks with
    ⟨other, hheld, hfault, hreads, hscan⟩ | ⟨hnone, -⟩
  · obtain rfl := h.unique hheld
    refine ⟨hfault, ?_, by simpa using hscan []⟩
    rw [← Bool.not_eq_false, hreads.isAssembling_iff]
    exact h.justEnds.ne_nil
  · exact absurd h (hnone header)

/-- A header held back that is neither refused nor a whole frame is an unfinished one. -/
theorem HeldBack.unfinished (h : HeldBack kind control chunks header)
    (hframe : ¬ HoldsFrame kind control chunks) (hfault : ¬ HoldsFault kind control chunks) :
    framesOf kind control header = ⟨[], header, none⟩ := by
  cases hfront : streamFront kind control header with
  | error fault => exact absurd ⟨header, fault, h, hfront⟩ hfault
  | ok found =>
    cases found with
    | none => exact scan_of_more hfront
    | some unit =>
      apply scan_of_short hfront
      by_contra hle
      have hlength := (h.justEnds.scan_of_complete hfront (by omega)).1
      apply hframe
      refine ⟨header, unit.kept, h, ?_⟩
      rw [hfront, ← hlength]

/-- What a run over the pieces of a stream is to show: after every piece the complete frames of what
was fed and whether it ends on a boundary, and in the end what one call shows. -/
structure Reassembles (kind : StreamKind) (control : ℕ) (budget : β) (chunks : List Bytes) : Prop where
  frames : ∀ fed, fed <+: chunks →
    (feedAll kind control budget fed).frames = (framesOf kind control fed.flatten).units
  boundary : ∀ fed, fed <+: chunks → (feedAll kind control budget fed).fault = none →
    ((feedAll kind control budget fed).framing.isAssembling = false ↔
      (framesOf kind control fed.flatten).tail = [])
  whole : (feedAll kind control budget chunks).fault =
      (feedAll kind control budget [chunks.flatten]).fault ∧
    (feedAll kind control budget chunks).frames =
      (feedAll kind control budget [chunks.flatten]).frames

theorem feedAll_single (hample : Ample β) (kind : StreamKind) (control : ℕ) (budget : β)
    (stream : Bytes) :
    (feedAll kind control budget [stream]).Matches kind control (framesOf kind control stream) := by
  rcases feedAll_stands hample kind control budget [stream] with ⟨header, hheld, -⟩ | ⟨-, hmatches⟩
  · exact absurd hheld (not_heldBack_single stream header)
  · simpa using hmatches

theorem HoldsFrame.not_reassembles (hample : Ample β) (budget : β) {chunks fed : List Bytes}
    (hfed : fed <+: chunks) (h : HoldsFrame kind control fed) :
    ¬ Reassembles kind control budget chunks := by
  intro hall
  obtain ⟨header, kept, hheld, hfront⟩ := h
  obtain ⟨hfault, hassembling, hscan⟩ := hheld.run hample budget
  have hboundary := hall.boundary fed hfed hfault
  rw [hscan, (hheld.justEnds.scan_of_complete hfront le_rfl).2, hassembling] at hboundary
  exact absurd (hboundary.mpr rfl) (by simp)

theorem HoldsFault.not_reassembles (hample : Ample β) (budget : β)
    (h : HoldsFault kind control chunks) : ¬ Reassembles kind control budget chunks := by
  intro hall
  obtain ⟨header, fault, hheld, hfront⟩ := h
  obtain ⟨hfault, -, hscan⟩ := hheld.run hample budget
  have hwhole := hall.whole.1
  rw [hfault, (feedAll_single hample kind control budget _).fault_eq, hscan, framesOf,
    scan_of_fault hheld.justEnds.ne_nil hfront] at hwhole
  cases hwhole

/-- Up to a header that is refused, what was handed over is what the scan has. -/
theorem frames_after (hample : Ample β) (budget : β) {fed : List Bytes}
    (hframe : ¬ HoldsFrame kind control fed) :
    (feedAll kind control budget fed).frames = (framesOf kind control fed.flatten).units ∧
      ((feedAll kind control budget fed).fault = none →
        ((feedAll kind control budget fed).framing.isAssembling = false ↔
          (framesOf kind control fed.flatten).tail = [])) := by
  rcases feedAll_stands hample kind control budget fed with ⟨header, hheld, -⟩ | ⟨-, hmatches⟩
  · obtain ⟨-, hassembling, hscan⟩ := hheld.run hample budget
    have htail : (framesOf kind control header).units = [] ∧
        (framesOf kind control header).tail = header := by
      by_cases hrefused : HoldsFault kind control fed
      · obtain ⟨other, fault, hother, hfront⟩ := hrefused
        obtain rfl := hheld.unique hother
        rw [framesOf, scan_of_fault hheld.justEnds.ne_nil hfront]
        exact ⟨rfl, rfl⟩
      · rw [hheld.unfinished hframe hrefused]
        exact ⟨rfl, rfl⟩
    rw [hscan, hassembling]
    simp [Segments.behind, htail, hheld.justEnds.ne_nil]
  · refine ⟨hmatches.frames_eq, fun hfault => ?_⟩
    exact (hmatches.reads (by rw [← hmatches.fault_eq, hfault])).isAssembling_iff

/-- A run over the pieces of a stream reassembles it exactly when no piece ends together with the
header of a frame without payload that an earlier piece began, and the last bytes fed do not end
together with such a header that is refused. -/
theorem reassembles_iff (hample : Ample β) (kind : StreamKind) (control : ℕ) (budget : β)
    (chunks : List Bytes) :
    Reassembles kind control budget chunks ↔
      (∀ fed, fed <+: chunks → ¬ HoldsFrame kind control fed) ∧ ¬ HoldsFault kind control chunks := by
  constructor
  · intro hall
    exact ⟨fun fed hfed hframe => hframe.not_reassembles hample budget hfed hall,
      fun hfault => hfault.not_reassembles hample budget hall⟩
  · rintro ⟨hframe, hfault⟩
    refine ⟨fun fed hfed => (frames_after hample budget (hframe fed hfed)).1,
      fun fed hfed => (frames_after hample budget (hframe fed hfed)).2, ?_⟩
    have hsingle := feedAll_single hample kind control budget chunks.flatten
    rw [hsingle.fault_eq, hsingle.frames_eq]
    refine ⟨?_, (frames_after hample budget (hframe chunks (prefix_refl _))).1⟩
    rcases feedAll_stands hample kind control budget chunks with ⟨header, hheld, hnone, -⟩ | ⟨-, hmatches⟩
    · obtain ⟨-, -, hscan⟩ := hheld.run hample budget
      rw [hnone, hscan, hheld.unfinished (hframe chunks (prefix_refl _)) hfault]
      rfl
    · exact hmatches.fault_eq

end Runs

/-- A budget without bound. -/
inductive Unbounded where
  | unbounded

instance : AssemblyBudget Unbounded Unit where
  reserve budget _ := some ((), budget)
  grow budget _ _ := some ((), budget)
  dropped budget _ := budget

theorem unbounded_ample : Ample Unbounded := ⟨fun _ _ => rfl, fun _ _ _ => rfl⟩

/-- A settings acknowledgement whose two bytes arrive apart. -/
theorem acknowledgement_heldBack : HeldBack .control 1024 [[0x05], [0x00]] [0x05, 0x00] := by
  have hmore : streamFront .control 1024 [0x05] = .ok none := by rfl
  have htail : framesOf .control 1024 [[0x05]].flatten = ⟨[], [0x05], none⟩ := scan_of_more hmore
  refine ⟨[[0x05]], [0x00], [], rfl, rfl, by rw [htail], ?_, by rw [htail]; rfl⟩
  rw [htail]
  exact ⟨by simp, by simp, hmore, by decide⟩

/-- The acknowledgement is complete after its second byte and is not handed over; fed in one piece it
is. -/
theorem split_acknowledgement_not_delivered :
    (feedAll .control 1024 Unbounded.unbounded [[0x05], [0x00]]).frames = [] ∧
      (feedAll .control 1024 Unbounded.unbounded [[0x05], [0x00]]).framing.isAssembling = true ∧
      (feedAll .control 1024 Unbounded.unbounded [[0x05, 0x00]]).frames = [[0x05, 0x00]] ∧
      ¬ Reassembles .control 1024 Unbounded.unbounded [[0x05], [0x00]] := by
  have hfront : streamFront .control 1024 [0x05, 0x00] = .ok (some ⟨2, true⟩) := by rfl
  have hwhole : framesOf .control 1024 [0x05, 0x00] = ⟨[[0x05, 0x00]], [], none⟩ :=
    (acknowledgement_heldBack.justEnds.scan_of_complete hfront le_rfl).2
  obtain ⟨hfault, hassembling, hscan⟩ :=
    acknowledgement_heldBack.run unbounded_ample Unbounded.unbounded
  have hsingle := feedAll_single unbounded_ample .control 1024 Unbounded.unbounded [0x05, 0x00]
  refine ⟨?_, hassembling, by rw [hsingle.frames_eq, hwhole], ?_⟩
  · have hunits := congrArg Segments.units hscan
    simpa [hwhole, Segments.behind] using hunits
  · exact HoldsFrame.not_reassembles unbounded_ample _ (prefix_refl _)
      ⟨_, true, acknowledgement_heldBack, hfront⟩

/-- A settings frame cut inside its payload. -/
theorem reassembles_iff_cut_payload :
    Reassembles .control 1024 Unbounded.unbounded [[0x03, 0x01], [0x00]] := by
  have hheld (fed : List Bytes) (hfed : fed <+: [[0x03, 0x01], [0x00]]) (header : Bytes) :
      ¬ HeldBack .control 1024 fed header := by
    simp only [prefix_cons_iff, prefix_nil] at hfed
    obtain rfl | ⟨_, rfl, rfl | ⟨_, rfl, rfl⟩⟩ := hfed
    · exact not_heldBack_nil header
    · exact not_heldBack_single _ header
    · have hfront : streamFront .control 1024 [0x03, 0x01] = .ok (some ⟨3, true⟩) := by rfl
      have htail : framesOf .control 1024 [[0x03, 0x01]].flatten = ⟨[], [0x03, 0x01], none⟩ :=
        scan_of_short hfront (by decide)
      change ¬ HeldBack .control 1024 ([[0x03, 0x01]] ++ [[0x00]]) header
      rw [heldBack_append (by simp), htail]
      rintro ⟨-, hends, -⟩
      exact not_headerEnds_of_decided (by rw [hfront]; simp) _ hends
  refine (reassembles_iff unbounded_ample .control 1024 Unbounded.unbounded _).mpr ⟨?_, ?_⟩
  · rintro fed hfed ⟨header, kept, h, -⟩
    exact hheld fed hfed header h
  · rintro ⟨header, fault, h, -⟩
    exact hheld _ (prefix_refl _) header h

end ObjectTransfer.Transport
