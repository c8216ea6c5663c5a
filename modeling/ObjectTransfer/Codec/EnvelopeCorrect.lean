import ObjectTransfer.Codec.Envelope
import ObjectTransfer.Foundations.Incremental

/-! # Framing is incremental and lossless

What the envelope reader decides does not change with the bytes that follow, and a run of encoded
frames decodes to those frames.
-/

namespace ObjectTransfer.Codec
open Foundations List

variable {limits : DecodeLimits}

/-- The error asks for more bytes. -/
def DecodeError.Pending (error : DecodeError) : Prop :=
  ∃ needed available, error = .incomplete needed available

/-- The result is not a decision: it asks for more bytes. -/
def Undecided {α : Type} (result : Except DecodeError α) : Prop := Waits DecodeError.Pending result

/-! ## Variable-length integers -/

theorem top_bits (byte : UInt8) : (byte >>> 6).toNat = byte.toNat / 64 := by
  simp [Nat.shiftRight_eq_div_pow]

theorem value_bits (byte : UInt8) : (byte &&& 0x3f).toNat = byte.toNat % 64 := by
  exact Nat.and_two_pow_sub_one_eq_mod byte.toNat 6

variable {input : Bytes}

theorem decodeVarint_error {error : DecodeError} (h : decodeVarint input = .error error) :
    error.Pending := by
  cases input with
  | nil =>
    cases h
    exact ⟨_, _, rfl⟩
  | cons =>
    simp only [decodeVarint] at h
    split at h
    · cases h
      exact ⟨_, _, rfl⟩
    · cases h

variable {value width : ℕ}

theorem decodeVarint_width_le (h : decodeVarint input = .ok (value, width)) :
    width ≤ input.length := by
  obtain ⟨first, rest, -, -, hle, -⟩ := decodeVarint_eq_ok.mp h
  exact hle

theorem decodeVarint_append (h : decodeVarint input = .ok (value, width))
    (more : Bytes) : decodeVarint (input ++ more) = .ok (value, width) := by
  obtain ⟨first, rest, rfl, hwidth, hle, rfl⟩ := decodeVarint_eq_ok.mp h
  rw [length_cons] at hle
  refine decodeVarint_eq_ok.mpr ⟨first, rest ++ more, rfl, hwidth, ?_, ?_⟩
  · simp only [cons_append, length_cons, length_append]
    omega
  · rw [take_append_of_le_length (by omega)]

theorem decodeVarint_concludes : Concludes DecodeError.Pending decodeVarint := by
  intro input more hdecided
  cases hread : decodeVarint input with
  | error =>
    rw [hread, waits_error] at hdecided
    exact absurd (decodeVarint_error hread) hdecided
  | ok => exact decodeVarint_append hread more

theorem decodeVarint_answerable : Answerable DecodeError.Pending decodeVarint := by
  intro input
  -- Eight more bytes make any first byte's width available.
  have hread : ∃ result, decodeVarint (input ++ replicate 8 0) = .ok result := by
    obtain ⟨first, rest, hinput⟩ : ∃ first rest, input ++ replicate 8 0 = first :: rest :=
      exists_cons_of_ne_nil (by simp)
    have hlength : 8 ≤ (input ++ replicate 8 (0 : UInt8)).length := by simp
    have hwidth : 2 ^ (first >>> 6).toNat ≤ 2 ^ 3 := by
      apply Nat.pow_le_pow_right (by omega)
      have := first.toNat_lt
      rw [top_bits]
      omega
    exact ⟨_, decodeVarint_eq_ok.mpr ⟨first, rest, hinput, rfl, by omega, rfl⟩⟩
  obtain ⟨result, hread⟩ := hread
  refine ⟨replicate 8 0, ?_⟩
  rw [hread]
  exact not_waits_ok result

/-- The form of width `2 ^ k`: its two top bits say `k`, the others hold the value. -/
def varintForm (k value : ℕ) : Bytes := beBytes (2 ^ k) (value + k * 64 * 256 ^ (2 ^ k - 1))

theorem decodeVarint_form {k value : ℕ} (hk : k < 4) (hvalue : value < 64 * 256 ^ (2 ^ k - 1))
    (rest : Bytes) : decodeVarint (varintForm k value ++ rest) = .ok (value, 2 ^ k) := by
  obtain ⟨n, hn⟩ : ∃ n, 2 ^ k = n + 1 := ⟨2 ^ k - 1, by have := Nat.two_pow_pos k; omega⟩
  rw [hn, Nat.add_sub_cancel] at hvalue
  have hpos : 0 < 256 ^ n := Nat.pow_pos (by omega)
  have hquotient : (value + k * 64 * 256 ^ n) / 256 ^ n = value / 256 ^ n + k * 64 :=
    Nat.add_mul_div_right _ _ hpos
  have hhigh : value / 256 ^ n < 64 := (Nat.div_lt_iff_lt_mul hpos).mpr hvalue
  have hfirst : (UInt8.ofNat (value / 256 ^ n + k * 64)).toNat = value / 256 ^ n + k * 64 := by
    apply UInt8.toNat_ofNat_of_lt'
    change _ < 256
    omega
  have htop : (UInt8.ofNat (value / 256 ^ n + k * 64) >>> 6).toNat = k := by
    rw [top_bits, hfirst, Nat.add_mul_div_right _ _ (by omega), Nat.div_eq_of_lt hhigh, zero_add]
  have hlow : (UInt8.ofNat (value / 256 ^ n + k * 64) &&& 0x3f).toNat = value / 256 ^ n := by
    rw [value_bits, hfirst, Nat.add_mul_mod_self_right, Nat.mod_eq_of_lt hhigh]
  have hform : varintForm k value = UInt8.ofNat (value / 256 ^ n + k * 64) ::
      beBytes n (value + k * 64 * 256 ^ n) := by
    rw [varintForm, hn, Nat.add_sub_cancel, beBytes, hquotient]
  rw [decodeVarint_eq_ok, hform, cons_append]
  refine ⟨_, _, rfl, by rw [htop], ?_, ?_⟩
  · simp [hn]
  · rw [hn, Nat.add_sub_cancel, take_left' (beBytes_length n _), foldl_be_split, hlow,
      beBytes_length, ofBe_beBytes_mod, Nat.add_mul_mod_self_right, Nat.div_add_mod']

theorem varintForm_length (k value : ℕ) : (varintForm k value).length = 2 ^ k := beBytes_length _ _

variable {value : ℕ}

/-- Every integer in range has a form, and it is the one written. -/
theorem encodeVarint_form (h : value ≤ maxQuicVarint) :
    ∃ k < 4, encodeVarint value = .ok (varintForm k value) ∧ value < 64 * 256 ^ (2 ^ k - 1) := by
  unfold maxQuicVarint at h
  unfold encodeVarint varintForm maxQuicVarint
  rw [if_neg (by omega)]
  split
  · exact ⟨0, by omega, rfl, by omega⟩
  · split
    · exact ⟨1, by omega, rfl, by omega⟩
    · split
      · exact ⟨2, by omega, rfl, by omega⟩
      · exact ⟨3, by omega, rfl, by omega⟩

theorem encodeVarint_ok_iff :
    (∃ bytes, encodeVarint value = .ok bytes) ↔ value ≤ maxQuicVarint := by
  constructor
  · rintro ⟨bytes, h⟩
    by_contra hlarge
    rw [encodeVarint, if_pos (by omega)] at h
    cases h
  · intro h
    obtain ⟨k, -, hform, -⟩ := encodeVarint_form h
    exact ⟨_, hform⟩

variable {bytes : Bytes}

theorem varint_length_le (h : encodeVarint value = .ok bytes) : bytes.length ≤ 8 := by
  obtain ⟨k, hk, hform, -⟩ := encodeVarint_form (encodeVarint_ok_iff.mp ⟨bytes, h⟩)
  rw [hform] at h
  cases h
  rw [varintForm_length]
  exact Nat.pow_le_pow_right (by omega) (Nat.le_of_lt_succ hk)

theorem decodeVarint_encoded (h : encodeVarint value = .ok bytes)
    (rest : Bytes) : decodeVarint (bytes ++ rest) = .ok (value, bytes.length) := by
  obtain ⟨k, hk, hform, hvalue⟩ := encodeVarint_form (encodeVarint_ok_iff.mp ⟨bytes, h⟩)
  rw [hform] at h
  cases h
  rw [decodeVarint_form hk hvalue, varintForm_length]

/-! ## Envelopes -/

/-- What the envelope reader does once both integers are read. -/
def admitEnvelope (limits : DecodeLimits) (kind length : ℕ × ℕ) :
    Except DecodeError FrameEnvelope := do
  let knownLimit := registeredPayloadLimit kind.1
  let limit := min (knownLimit.getD limits.maxUnknownPayload) hardMaxFramePayload
  rejectIf (length.1 > limit) (.frameTooLarge kind.1 length.1 limit)
  rejectIf (knownLimit = none ∧ isCritical kind.1) (.unknownCritical kind.1)
  let headerLength ← okOr (checkedAdd kind.2 length.2) (.lengthOverflow length.1)
  let totalLength ← okOr (checkedAdd headerLength length.1) (.lengthOverflow length.1)
  return { frameType := kind.1, payloadLength := length.1, headerLength, totalLength,
           skipped := knownLimit.isNone || isGrease kind.1 }

theorem peekEnvelope_eq (hlimits : validateLimits limits = .ok ()) :
    (peekEnvelope · limits) = fun input => decodeVarint input >>= fun kind =>
      decodeVarint (input.drop kind.2) >>= fun length => admitEnvelope limits kind length := by
  funext input
  rw [peekEnvelope, parseEnvelopePrefix, hlimits, ok_bind]
  rfl

theorem admitEnvelope_decided (kind length : ℕ × ℕ) :
    ¬ Undecided (admitEnvelope limits kind length) := by
  rintro ⟨error, h, needed, available, rfl⟩
  simp only [admitEnvelope, bind_eq_error, rejectIf_eq_error, okOr_eq_error, reduceCtorEq,
    and_false, false_or, pure, Except.pure, exists_false] at h

theorem readLength_concludes (kind : ℕ × ℕ) : Concludes DecodeError.Pending fun input =>
    decodeVarint input >>= fun length => admitEnvelope limits kind length :=
  decodeVarint_concludes.andThen

section

variable (hlimits : validateLimits limits = .ok ())
include hlimits

theorem peekEnvelope_concludes :
    Concludes DecodeError.Pending (peekEnvelope · limits) := by
  rw [peekEnvelope_eq hlimits]
  exact decodeVarint_concludes.bind (fun _ _ _ => decodeVarint_width_le) readLength_concludes

theorem peekEnvelope_append (h : ¬ Undecided (peekEnvelope input limits)) (more : Bytes) :
    peekEnvelope (input ++ more) limits = peekEnvelope input limits :=
  peekEnvelope_concludes hlimits input more h

theorem peekEnvelope_answerable :
    Answerable DecodeError.Pending (peekEnvelope · limits) := by
  rw [peekEnvelope_eq hlimits]
  have hlength (kind : ℕ × ℕ) : Answerable DecodeError.Pending fun input =>
      decodeVarint input >>= fun length => admitEnvelope limits kind length :=
    decodeVarint_answerable.andThen (admitEnvelope_decided kind)
  exact decodeVarint_answerable.bind decodeVarint_concludes (fun _ _ _ => decodeVarint_width_le) hlength

end

def payloadBound (limits : DecodeLimits) (frameType : ℕ) : ℕ :=
  min ((registeredPayloadLimit frameType).getD limits.maxUnknownPayload) hardMaxFramePayload

variable {envelope : FrameEnvelope}

theorem peekEnvelope_eq_ok (hlimits : validateLimits limits = .ok ()) :
    peekEnvelope input limits = .ok envelope ↔ ∃ frameType typeWidth payloadLength lengthWidth,
      decodeVarint input = .ok (frameType, typeWidth) ∧
      decodeVarint (input.drop typeWidth) = .ok (payloadLength, lengthWidth) ∧
      payloadLength ≤ payloadBound limits frameType ∧
      ¬ (registeredPayloadLimit frameType = none ∧ isCritical frameType) ∧
      typeWidth + lengthWidth + payloadLength ≤ u64Max ∧
      envelope = ⟨frameType, payloadLength, typeWidth + lengthWidth,
        typeWidth + lengthWidth + payloadLength,
        (registeredPayloadLimit frameType).isNone || isGrease frameType⟩ := by
  rw [congrFun (peekEnvelope_eq hlimits) input]
  simp only [admitEnvelope, bind_eq_ok, rejectIf_eq_ok, okOr_eq_ok, checkedAdd_eq_some, pure_eq_ok,
    Prod.exists]
  constructor
  · rintro ⟨frameType, typeWidth, htype, payloadLength, lengthWidth, hlength, ⟨⟩, hbound, ⟨⟩, hknown,
      header, ⟨-, rfl⟩, total, ⟨htotal, rfl⟩, rfl⟩
    exact ⟨frameType, typeWidth, payloadLength, lengthWidth, htype, hlength, not_lt.mp hbound, hknown,
      htotal, rfl⟩
  · rintro ⟨frameType, typeWidth, payloadLength, lengthWidth, htype, hlength, hbound, hknown, htotal,
      rfl⟩
    exact ⟨frameType, typeWidth, htype, payloadLength, lengthWidth, hlength, (), not_lt.mpr hbound, (),
      hknown, _, ⟨by omega, rfl⟩, _, ⟨htotal, rfl⟩, rfl⟩

def FrameEnvelope.deliver (envelope : FrameEnvelope) (input : Bytes) : DecodedFrame :=
  if envelope.skipped then .skippedOptional envelope.frameType envelope.payloadLength
  else .known envelope.frameType ((input.take envelope.totalLength).drop envelope.headerLength)

theorem decodeOne_eq (input : Bytes) : decodeOne input limits =
    peekEnvelope input limits >>= fun envelope =>
      if input.length < envelope.totalLength then
        .error (.incomplete envelope.totalLength input.length)
      else .ok (envelope.deliver input, envelope.totalLength) := by
  rw [decodeOne, peekEnvelope]
  congr 1
  funext envelope
  by_cases hshort : input.length < envelope.totalLength
  · rw [rejectIf_pos hshort, if_pos hshort, error_bind]
  · rw [rejectIf_neg hshort, if_neg hshort, ok_bind, FrameEnvelope.deliver]
    split <;> rfl

theorem decodeOne_eq_ok {frame : DecodedFrame} {total : ℕ} :
    decodeOne input limits = .ok (frame, total) ↔ ∃ envelope,
      peekEnvelope input limits = .ok envelope ∧ total ≤ input.length ∧
        frame = envelope.deliver input ∧ total = envelope.totalLength := by
  rw [decodeOne_eq, bind_eq_ok]
  refine exists_congr fun envelope => and_congr_right fun _ => ?_
  split
  · simp only [reduceCtorEq, false_iff]
    rintro ⟨hle, -, rfl⟩
    omega
  · simp only [Except.ok.injEq, Prod.mk.injEq]
    constructor
    · rintro ⟨rfl, rfl⟩
      exact ⟨by omega, rfl, rfl⟩
    · rintro ⟨-, rfl, rfl⟩
      exact ⟨rfl, rfl⟩

theorem deliver_append (envelope : FrameEnvelope) (h : envelope.totalLength ≤ input.length)
    (more : Bytes) : envelope.deliver (input ++ more) = envelope.deliver input := by
  unfold FrameEnvelope.deliver
  rw [take_append_of_le_length h]

section

variable (hlimits : validateLimits limits = .ok ())
include hlimits

theorem decodeOne_concludes :
    Concludes DecodeError.Pending (decodeOne · limits) := by
  intro input more hdecided
  cases hpeek : peekEnvelope input limits with
  | error =>
    simp only [decodeOne_eq, hpeek, error_bind, waits_error] at hdecided
    have hsame : peekEnvelope (input ++ more) limits = peekEnvelope input limits := by
      apply peekEnvelope_append hlimits
      rwa [hpeek, Undecided, waits_error]
    simp only [decodeOne_eq, hsame, hpeek, error_bind]
  | ok envelope =>
    have hsame : peekEnvelope (input ++ more) limits = peekEnvelope input limits := by
      apply peekEnvelope_append hlimits
      rw [hpeek]
      exact not_waits_ok envelope
    have hle : ¬ input.length < envelope.totalLength := by
      intro hshort
      simp only [decodeOne_eq, hpeek, ok_bind, if_pos hshort, waits_error] at hdecided
      exact hdecided ⟨_, _, rfl⟩
    have hle' : ¬ (input ++ more).length < envelope.totalLength := by
      rw [length_append]
      omega
    simp only [decodeOne_eq, hsame, hpeek, ok_bind, if_neg hle, if_neg hle',
      deliver_append envelope (not_lt.mp hle) more]

/-- A frame whose envelope is known is decided once its payload has arrived. -/
theorem decodeOne_answerable :
    Answerable DecodeError.Pending (decodeOne · limits) := by
  intro input
  obtain ⟨head, hhead⟩ := peekEnvelope_answerable hlimits input
  cases hpeek : peekEnvelope (input ++ head) limits with
  | error =>
    refine ⟨head, ?_⟩
    simpa only [decodeOne_eq, hpeek, error_bind, waits_error] using hhead
  | ok envelope =>
    let payload : Bytes := replicate envelope.totalLength 0
    refine ⟨head ++ payload, ?_⟩
    have hsame : peekEnvelope (input ++ head ++ payload) limits = .ok envelope := by
      rw [← hpeek]
      exact peekEnvelope_append hlimits hhead payload
    have hle : ¬ (input ++ head ++ payload).length < envelope.totalLength := by
      simp only [payload, length_append, length_replicate]
      omega
    simp only [← append_assoc, decodeOne_eq, hsame, ok_bind, if_neg hle]
    exact not_waits_ok _

theorem deliver_describes
    (hpeek : peekEnvelope input limits = .ok envelope) (hle : envelope.totalLength ≤ input.length) :
    (envelope.deliver input).frameType = envelope.frameType ∧
      (envelope.deliver input).payloadLength = envelope.payloadLength := by
  obtain ⟨frameType, typeWidth, payloadLength, lengthWidth, -, -, -, -, -, rfl⟩ :=
    (peekEnvelope_eq_ok hlimits).mp hpeek
  unfold FrameEnvelope.deliver
  split
  · exact ⟨rfl, rfl⟩
  · refine ⟨rfl, ?_⟩
    simp only [DecodedFrame.payloadLength, length_drop, length_take]
    simp only at hle
    omega

end

/-! ## Encoded frames -/

variable {frameType : ℕ}

theorem encodeFrame_ok {payload output : Bytes}
    (h : (encodeFrame frameType payload output).2 = .ok ()) :
    ∃ kind length, encodeVarint frameType = .ok kind ∧ encodeVarint payload.length = .ok length ∧
      payload.length ≤ min ((registeredPayloadLimit frameType).getD defaultMaxUnknownPayload)
        hardMaxFramePayload ∧
      (encodeFrame frameType payload output).1 = output ++ kind ++ length ++ payload := by
  simp only [encodeFrame] at h ⊢
  by_cases hbound : payload.length > min ((registeredPayloadLimit frameType).getD
      defaultMaxUnknownPayload) hardMaxFramePayload
  · simp only [if_pos hbound, reduceCtorEq] at h
  · simp only [if_neg hbound] at h ⊢
    cases hkind : encodeVarint frameType with
    | error => simp only [hkind, reduceCtorEq] at h
    | ok kind =>
      cases hlength : encodeVarint payload.length with
      | error => simp only [hkind, hlength, reduceCtorEq] at h
      | ok length => exact ⟨kind, length, rfl, rfl, not_lt.mp hbound, rfl⟩

/-- What a receiver is given of a frame: a registered one whole, any other only as skipped. -/
def delivered (frame : ℕ × Bytes) : DecodedFrame :=
  if (registeredPayloadLimit frame.1).isSome then .known frame.1 frame.2
  else .skippedOptional frame.1 frame.2.length

theorem frameRegistry_not_grease : ∀ entry ∈ frameRegistry, isGrease entry.1 = false := by
  decide

theorem isGrease_of_registered (h : (registeredPayloadLimit frameType).isSome) :
    isGrease frameType = false := by
  obtain ⟨limit, hlimit⟩ := Option.isSome_iff_exists.mp h
  obtain ⟨before, after, hsplit, -⟩ := lookup_eq_some_iff.mp hlimit
  apply frameRegistry_not_grease (frameType, limit)
  rw [hsplit]
  simp

/-- The frame is one a receiver under `limits` takes or skips. -/
structure Carried (limits : DecodeLimits) (frame : ℕ × Bytes) : Prop where
  accepted : (encodeFrame frame.1 frame.2 []).2 = .ok ()
  known_or_even : (registeredPayloadLimit frame.1).isSome ∨ frame.1 % 2 = 0
  unknown_le : registeredPayloadLimit frame.1 = none → frame.2.length ≤ limits.maxUnknownPayload

variable {frame : ℕ × Bytes}

theorem peekEnvelope_encoded (hlimits : validateLimits limits = .ok ())
    (h : Carried limits frame) {kind length : Bytes} (hkind : encodeVarint frame.1 = .ok kind)
    (hlength : encodeVarint frame.2.length = .ok length)
    (hbound : frame.2.length ≤ min ((registeredPayloadLimit frame.1).getD defaultMaxUnknownPayload)
      hardMaxFramePayload) (rest : Bytes) :
    peekEnvelope (kind ++ length ++ rest) limits = .ok ⟨frame.1, frame.2.length,
      kind.length + length.length, kind.length + length.length + frame.2.length,
      (registeredPayloadLimit frame.1).isNone || isGrease frame.1⟩ := by
  have hfits : kind.length + length.length + frame.2.length ≤ u64Max := by
    have hkindWidth := varint_length_le hkind
    have hlengthWidth := varint_length_le hlength
    have hhard := le_trans hbound (min_le_right _ _)
    unfold hardMaxFramePayload at hhard
    unfold u64Max
    omega
  have hbound' : frame.2.length ≤ payloadBound limits frame.1 := by
    unfold payloadBound
    cases hknown : registeredPayloadLimit frame.1 with
    | none =>
      exact le_min (h.unknown_le hknown) (le_trans hbound (min_le_right _ _))
    | some => rwa [hknown] at hbound
  have hcritical : ¬ (registeredPayloadLimit frame.1 = none ∧ isCritical frame.1) := by
    rintro ⟨hnone, hodd⟩
    cases h.known_or_even with
    | inl hsome => simp [hnone] at hsome
    | inr heven => simp [isCritical, heven] at hodd
  rw [peekEnvelope_eq_ok hlimits]
  refine ⟨frame.1, kind.length, frame.2.length, length.length, ?_, ?_, hbound', hcritical, hfits, rfl⟩
  · rw [append_assoc]
    exact decodeVarint_encoded hkind _
  · rw [append_assoc, drop_left]
    exact decodeVarint_encoded hlength _

def frameBytes (frame : ℕ × Bytes) : Bytes := (encodeFrame frame.1 frame.2 []).1

variable {frames : List (ℕ × Bytes)}

section

variable (hlimits : validateLimits limits = .ok ())
include hlimits

theorem decodeOne_frameBytes
    (h : Carried limits frame) (rest : Bytes) :
    decodeOne (frameBytes frame ++ rest) limits = .ok (delivered frame, (frameBytes frame).length) := by
  obtain ⟨kind, length, hkind, hlength, hbound, hbytes⟩ := encodeFrame_ok h.accepted
  have hframe : frameBytes frame = kind ++ length ++ frame.2 := hbytes
  have hpeek := peekEnvelope_encoded hlimits h hkind hlength hbound (frame.2 ++ rest)
  rw [hframe, decodeOne_eq_ok]
  refine ⟨_, by rw [append_assoc (kind ++ length)]; exact hpeek, ?_, ?_, ?_⟩
  · simp
  · unfold FrameEnvelope.deliver delivered
    by_cases hsome : (registeredPayloadLimit frame.1).isSome
    · have hnone : (registeredPayloadLimit frame.1).isNone = false := by
        rwa [← Option.not_isSome, Bool.not_eq_false']
      simp only [hsome, hnone, isGrease_of_registered hsome, Bool.or_self, Bool.false_eq_true,
        if_false, if_true, DecodedFrame.known.injEq, true_and]
      rw [take_left' (by simp [add_assoc]), drop_left' (by simp)]
    · simp [Option.not_isSome_iff_eq_none.mp hsome]
  · simp [add_assoc]

/-- The loop behind `before`, over what encodes `frames`. -/
theorem decodeAllFrom_frames
    (hcarried : ∀ frame ∈ frames, Carried limits frame) (before : Bytes) (found : List DecodedFrame)
    (hcount : found.length + frames.length ≤ limits.maxFrames)
    (hsize : (before ++ frames.flatMap frameBytes).length ≤ u64Max) :
    decodeAllFrom (before ++ frames.flatMap frameBytes) limits before.length found =
      .ok (found ++ frames.map delivered) := by
  induction frames generalizing before found with
  | nil => rw [decodeAllFrom, if_neg (by simp)]; simp
  | cons frame frames ih =>
    rw [forall_mem_cons] at hcarried
    have hone := decodeOne_frameBytes hlimits hcarried.1 (frames.flatMap frameBytes)
    have hpos := decodeOne_consumed_pos hone
    rw [flatMap_cons] at hsize ⊢
    rw [length_cons] at hcount
    rw [decodeAllFrom, if_pos (by simp; omega), if_neg (by omega)]
    split
    · rename_i error hfail
      rw [drop_left, hone] at hfail
      cases hfail
    · rename_i next consumed hnext
      rw [drop_left, hone] at hnext
      cases hnext
      split
      · rename_i hoverflow
        rw [checkedAdd_of_le (by simp only [length_append] at hsize; omega)] at hoverflow
        cases hoverflow
      · rename_i offset hoffset
        obtain ⟨-, rfl⟩ := checkedAdd_eq_some.mp hoffset
        rw [← append_assoc] at hsize ⊢
        have hrest := ih hcarried.2 (before ++ frameBytes frame) (found ++ [delivered frame])
          (by simp; omega) hsize
        rw [length_append] at hrest
        rw [hrest, map_cons, append_assoc]
        rfl

end

/-- Envelope framing is incremental and lossless. The size condition says that the frames fit one
buffer. -/
theorem framing_incremental_lossless (limits : DecodeLimits)
    (hlimits : validateLimits limits = .ok ()) :
    (∀ input more, ¬ Undecided (decodeOne input limits) →
      decodeOne (input ++ more) limits = decodeOne input limits) ∧
    (∀ input, Undecided (decodeOne input limits) →
      (∀ start, start <+: input → Undecided (decodeOne start limits)) ∧
      ∃ more, ¬ Undecided (decodeOne (input ++ more) limits)) ∧
    (∀ input frameType payloadLength total,
      (∃ frame, decodeOne input limits = .ok (frame, total) ∧ frame.frameType = frameType ∧
        frame.payloadLength = payloadLength) ↔
      ∃ envelope, peekEnvelope input limits = .ok envelope ∧ envelope.frameType = frameType ∧
        envelope.payloadLength = payloadLength ∧ envelope.totalLength = total ∧
        total ≤ input.length) ∧
    ∀ frames : List (ℕ × Bytes), frames.length ≤ limits.maxFrames →
      (∀ frame ∈ frames, Carried limits frame) → (frames.flatMap frameBytes).length ≤ u64Max →
      decodeAll (frames.flatMap frameBytes) limits = .ok (frames.map delivered) := by
  refine ⟨decodeOne_concludes hlimits, ?_, ?_, ?_⟩
  · intro input hundecided
    refine ⟨?_, decodeOne_answerable hlimits input⟩
    intro start hstart
    exact (decodeOne_concludes hlimits).waits_of_shorter hstart hundecided
  · intro input frameType payloadLength total
    constructor
    · rintro ⟨frame, hdecode, rfl, rfl⟩
      obtain ⟨envelope, hpeek, hle, rfl, rfl⟩ := decodeOne_eq_ok.mp hdecode
      obtain ⟨htype, hlength⟩ := deliver_describes hlimits hpeek hle
      exact ⟨envelope, hpeek, htype.symm, hlength.symm, rfl, hle⟩
    · rintro ⟨envelope, hpeek, rfl, rfl, rfl, hle⟩
      exact ⟨envelope.deliver input, decodeOne_eq_ok.mpr ⟨envelope, hpeek, hle, rfl, rfl⟩,
        deliver_describes hlimits hpeek hle⟩
  · intro frames hcount hcarried hsize
    rw [decodeAll, hlimits, ok_bind]
    exact decodeAllFrom_frames hlimits hcarried [] [] (by simpa) hsize

/-- A known frame of three bytes, then a grease frame of one. -/
theorem framing_incremental_lossless_two_frames :
    decodeAll ([(FrameType.hello, [1, 2, 3]), (0x1f00, [9])].flatMap frameBytes) ⟨1024, 2⟩ =
      .ok [.known FrameType.hello [1, 2, 3], .skippedOptional 0x1f00 1] :=
  (framing_incremental_lossless ⟨1024, 2⟩ (by decide)).2.2.2
    [(FrameType.hello, [1, 2, 3]), (0x1f00, [9])] (by decide)
    (by
      simp only [forall_mem_cons, not_mem_nil, false_imp_iff, implies_true, and_true]
      exact ⟨⟨by decide, by decide, by decide⟩, ⟨by decide, by decide, by decide⟩⟩)
    (by decide)

end ObjectTransfer.Codec
