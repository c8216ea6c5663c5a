import ObjectTransfer.Codec.EnvelopeCorrect
import ObjectTransfer.Foundations.Parser

/-! # HELLO and SETTINGS

The two payloads that open a session, both made of variable-length integers. A decoder may accept
more than one form of an integer, so what is shown here is that it reads back what the encoder
wrote.
-/

namespace ObjectTransfer.Codec
open Foundations List

def maxSettingsPerFrame : ℕ := 128

def maxExtensionsPerHello : ℕ := 256

def draftRevision : ℕ := 5

/-! ## Settings -/

structure Settings where
  maxControlFramePayload : ℕ
  maxDataRecordPayload : ℕ
  maxManifestPagePayload : ℕ
  reliableLaneLimit : ℕ
  idleTimeoutMs : ℕ
  deriving DecidableEq, Repr

namespace Settings

def default : Settings where
  maxControlFramePayload := SettingDefault.maxControlFramePayload
  maxDataRecordPayload := SettingDefault.maxDataRecordPayload
  maxManifestPagePayload := SettingDefault.maxManifestPagePayload
  reliableLaneLimit := SettingDefault.reliableLaneLimit
  idleTimeoutMs := SettingDefault.idleTimeoutMs

/-- Registered settings and their values, in identifier order. -/
def advertised (settings : Settings) : List (ℕ × ℕ) :=
  [(SettingId.maxControlFramePayload, settings.maxControlFramePayload),
    (SettingId.maxDataRecordPayload, settings.maxDataRecordPayload),
    (SettingId.maxManifestPagePayload, settings.maxManifestPagePayload),
    (SettingId.reliableLaneLimit, settings.reliableLaneLimit),
    (SettingId.idleTimeoutMs, settings.idleTimeoutMs)]

/-- Write the field a registered setting is carried in. -/
def assign (settings : Settings) (identifier value : ℕ) : Settings :=
  if identifier = SettingId.maxControlFramePayload then
    { settings with maxControlFramePayload := value }
  else if identifier = SettingId.maxDataRecordPayload then
    { settings with maxDataRecordPayload := value }
  else if identifier = SettingId.maxManifestPagePayload then
    { settings with maxManifestPagePayload := value }
  else if identifier = SettingId.reliableLaneLimit then { settings with reliableLaneLimit := value }
  else if identifier = SettingId.idleTimeoutMs then { settings with idleTimeoutMs := value }
  else settings

theorem assign_comm {a b : ℕ} (h : a ≠ b) (settings : Settings) (x y : ℕ) :
    (settings.assign a x).assign b y = (settings.assign b y).assign a x := by
  have hcases (identifier : ℕ) : (∀ settings value, assign settings identifier value = settings) ∨
      identifier ∈ settings.advertised.map Prod.fst := by
    unfold assign
    simp only [advertised, map_cons, map_nil, mem_cons, not_mem_nil, or_false]
    split_ifs <;> simp_all
  rcases hcases a with ha | ha
  · rw [ha, ha]
  rcases hcases b with hb | hb
  · rw [hb, hb]
  -- Two registered settings live in two fields.
  simp only [advertised, map_cons, map_nil, mem_cons, not_mem_nil, or_false] at ha hb
  rcases ha with rfl | rfl | rfl | rfl | rfl <;> rcases hb with rfl | rfl | rfl | rfl | rfl <;>
    first | rfl | exact absurd rfl h

theorem advertised_nodup (settings : Settings) : (settings.advertised.map Prod.fst).Nodup := by
  simp [advertised, SettingId.maxControlFramePayload, SettingId.maxDataRecordPayload,
    SettingId.maxManifestPagePayload, SettingId.reliableLaneLimit, SettingId.idleTimeoutMs]

end Settings

inductive SettingsError where
  | malformed (error : DecodeError)
  | duplicate (identifier : ℕ)
  | unknownCritical (identifier : ℕ)
  | invalidValue (setting value : ℕ)
  | tooMany (limit : ℕ)
  deriving DecidableEq, Repr

def SettingsError.protocolCode : SettingsError → ℕ
  | duplicate _ => ErrorCode.duplicateSetting
  | invalidValue .. | unknownCritical _ => ErrorCode.invalidSetting
  | tooMany _ => ErrorCode.resourceLimit
  | malformed error => error.protocolCode

def settingRange (identifier : ℕ) : Option (ℕ × ℕ) := settingBounds.lookup identifier

def settingInRange (identifier value : ℕ) : Bool :=
  (settingRange identifier).any fun range => decide (range.1 ≤ value ∧ value ≤ range.2)

/-- An unknown optional setting is ignored. -/
def applySetting (settings : Settings) (identifier value : ℕ) : Except SettingsError Settings :=
  if settingInRange identifier value then .ok (settings.assign identifier value)
  else if (settingRange identifier).isSome then .error (.invalidValue identifier value)
  else if isCritical identifier then .error (.unknownCritical identifier)
  else .ok settings

/-- The rest of a payload when `room` more settings may follow those seen. -/
def decodeSettingsFrom : ℕ → Finset ℕ → Settings → Bytes → Except SettingsError Settings
  | _, _, settings, [] => .ok settings
  | 0, _, _, _ :: _ => .error (.tooMany maxSettingsPerFrame)
  | room + 1, seen, settings, first :: rest => do
    let (identifier, identifierWidth) ← (decodeVarint (first :: rest)).mapError .malformed
    let input := (first :: rest).drop identifierWidth
    let (value, valueWidth) ← (decodeVarint input).mapError .malformed
    rejectIf (identifier ∈ seen) (.duplicate identifier)
    let settings ← applySetting settings identifier value
    decodeSettingsFrom room (insert identifier seen) settings (input.drop valueWidth)

def decodeSettings (payload : Bytes) : Except SettingsError Settings :=
  decodeSettingsFrom maxSettingsPerFrame ∅ .default payload

def encodeSetting (setting : ℕ × ℕ) : Except SettingsError Bytes := do
  rejectIf (¬ settingInRange setting.1 setting.2) (.invalidValue setting.1 setting.2)
  let identifier ← (encodeVarint setting.1).mapError .malformed
  let value ← (encodeVarint setting.2).mapError .malformed
  return identifier ++ value

def encodeSettings (settings : Settings) : Except SettingsError Bytes := do
  let written ← settings.advertised.mapM encodeSetting
  return written.flatten

variable {bytes : Bytes}

theorem encodeSetting_eq_ok {setting : ℕ × ℕ} :
    encodeSetting setting = .ok bytes ↔ settingInRange setting.1 setting.2 ∧
      ∃ identifier value, encodeVarint setting.1 = .ok identifier ∧
        encodeVarint setting.2 = .ok value ∧ bytes = identifier ++ value := by
  simp only [encodeSetting, bind_eq_ok, rejectIf_eq_ok, not_not, mapError_eq_ok, pure_eq_ok]
  constructor
  · rintro ⟨_, hrange, identifier, hidentifier, value, hvalue, rfl⟩
    exact ⟨hrange, identifier, value, hidentifier, hvalue, rfl⟩
  · rintro ⟨hrange, identifier, value, hidentifier, hvalue, rfl⟩
    exact ⟨(), hrange, identifier, hidentifier, value, hvalue, rfl⟩

variable {value : ℕ}

/-- Short pieces written one after another. -/
theorem mapM_flatten_le {γ ε : Type} {write : γ → Except ε Bytes} {bound : ℕ} {values : List γ}
    (h : ∀ value ∈ values, ∃ bytes, write value = .ok bytes ∧ bytes.length ≤ bound) :
    ∃ written, values.mapM write = .ok written ∧
      written.flatten.length ≤ values.length * bound := by
  induction values with
  | nil => exact ⟨[], rfl, Nat.zero_le _⟩
  | cons value values ih =>
    rw [forall_mem_cons] at h
    obtain ⟨bytes, hbytes, hlength⟩ := h.1
    obtain ⟨written, hwritten, htotal⟩ := ih h.2
    refine ⟨bytes :: written, ?_, ?_⟩
    · rw [mapM_cons, hbytes, ok_bind, hwritten, ok_bind]
      rfl
    · rw [flatten_cons, length_append, length_cons, Nat.succ_mul]
      omega

theorem encodeVarint_short (h : value ≤ maxQuicVarint) :
    ∃ bytes, encodeVarint value = .ok bytes ∧ bytes.length ≤ 8 := by
  obtain ⟨bytes, hbytes⟩ := encodeVarint_ok_iff.mpr h
  exact ⟨bytes, hbytes, varint_length_le hbytes⟩

variable {identifier value : ℕ}

theorem settingInRange_bounds (h : settingInRange identifier value = true) :
    identifier ≤ maxQuicVarint ∧ value ≤ maxQuicVarint := by
  have hsmall : ∀ entry ∈ settingBounds, entry.1 ≤ maxQuicVarint ∧ entry.2.2 ≤ maxQuicVarint := by
    decide
  obtain ⟨range, hrange, hvalue⟩ := (Option.any_eq_true _ _).mp h
  obtain ⟨before, after, hsplit, -⟩ := lookup_eq_some_iff.mp hrange
  obtain ⟨hidentifier, hlast⟩ := hsmall (identifier, range) (by simp [hsplit])
  exact ⟨hidentifier, (of_decide_eq_true hvalue).2.trans hlast⟩

variable {seen : Finset ℕ} {room : ℕ}

/-- The bytes are an identifier and a value, each in a legal width. -/
def ReadsAs (pair : ℕ × ℕ) (bytes : Bytes) : Prop :=
  ∃ identifier value, bytes = identifier ++ value ∧
    decodeVarint identifier = .ok (pair.1, identifier.length) ∧
    decodeVarint value = .ok (pair.2, value.length)

variable {pairs : List (ℕ × ℕ)} {written : List Bytes}

/-- A pair that no decoder refuses: a setting in range, or an unknown optional one. -/
def Acceptable (pair : ℕ × ℕ) : Prop :=
  settingInRange pair.1 pair.2 = true ∨
    (settingRange pair.1).isSome = false ∧ isCritical pair.1 = false

theorem applySetting_eq_ok {settings next : Settings} :
    applySetting settings identifier value = .ok next ↔ Acceptable (identifier, value) ∧
      next = if settingInRange identifier value then settings.assign identifier value
        else settings := by
  unfold applySetting Acceptable
  split_ifs <;> simp_all [@eq_comm _ next]

theorem decodeSettingsFrom_eq_ok (hread : Forall₂ ReadsAs pairs written)
    (hdistinct : (pairs.map Prod.fst).Nodup) (hseen : ∀ pair ∈ pairs, pair.1 ∉ seen)
    {settings next : Settings} :
    decodeSettingsFrom room seen settings written.flatten = .ok next ↔
      pairs.length ≤ room ∧ (∀ pair ∈ pairs, Acceptable pair) ∧
        (pairs.filter fun pair => settingInRange pair.1 pair.2).foldl
          (fun settings pair => settings.assign pair.1 pair.2) settings = next := by
  induction hread generalizing room seen settings with
  | nil => simp [decodeSettingsFrom]
  | @cons pair bytes pairs written hpair _ ih =>
    obtain ⟨identifier, value, rfl, hidentifier, hvalue⟩ := hpair
    obtain ⟨first, rest, rfl, -⟩ := decodeVarint_eq_ok.mp hidentifier
    rw [flatten_cons, append_assoc, cons_append]
    cases room with
    | zero => simp [decodeSettingsFrom]
    | succ =>
      rw [map_cons, nodup_cons] at hdistinct
      have hnew : pair.1 ∉ seen := hseen pair (by simp)
      have hlater : ∀ later ∈ pairs, later.1 ∉ insert pair.1 seen := by
        intro later hlater
        rw [Finset.mem_insert, not_or]
        refine ⟨fun heq => hdistinct.1 ?_, hseen later (by simp [hlater])⟩
        exact heq ▸ mem_map_of_mem hlater
      rw [decodeSettingsFrom, ← cons_append, decodeVarint_append hidentifier]
      simp only [Except.mapError, ok_bind, drop_left, decodeVarint_append hvalue, rejectIf_neg hnew]
      simp only [bind_eq_ok, applySetting_eq_ok, ih hdistinct.2 hlater, length_cons,
        Nat.succ_le_succ_iff, forall_mem_cons, filter_cons]
      split_ifs <;> simp [and_left_comm, and_assoc]

/-- Registered settings count in any order, and unknown ones not at all. -/
theorem foldl_assign_perm {others : List (ℕ × ℕ)} (hdistinct : (pairs.map Prod.fst).Nodup)
    (hperm : (pairs.filter fun pair => (settingRange pair.1).isSome).Perm
      (others.filter fun pair => (settingRange pair.1).isSome)) (settings : Settings) :
    (pairs.filter fun pair => settingInRange pair.1 pair.2).foldl
        (fun settings pair => settings.assign pair.1 pair.2) settings =
      (others.filter fun pair => settingInRange pair.1 pair.2).foldl
        (fun settings pair => settings.assign pair.1 pair.2) settings := by
  have hregistered (list : List (ℕ × ℕ)) :
      (list.filter fun pair => (settingRange pair.1).isSome).filter
        (fun pair => settingInRange pair.1 pair.2) =
          list.filter fun pair => settingInRange pair.1 pair.2 := by
    rw [filter_filter]
    apply filter_congr
    intro pair _
    cases hrange : settingRange pair.1 <;> simp [settingInRange, hrange]
  rw [← hregistered pairs, ← hregistered others]
  refine (hperm.filter _).foldl_eq' ?_ settings
  intro a ha b hb settings
  by_cases heq : a.1 = b.1
  · obtain rfl := inj_on_of_nodup_map hdistinct (mem_of_mem_filter (mem_of_mem_filter ha))
      (mem_of_mem_filter (mem_of_mem_filter hb)) heq
    rfl
  · exact Settings.assign_comm heq settings a.2 b.2

theorem mapM_encodeSetting (h : pairs.mapM encodeSetting = .ok written) :
    (∀ pair ∈ pairs, settingInRange pair.1 pair.2 = true) ∧ Forall₂ ReadsAs pairs written := by
  induction pairs generalizing written with
  | nil =>
    cases h
    simp
  | cons pair pairs ih =>
    simp only [mapM_cons, bind_eq_ok, encodeSetting_eq_ok, pure_eq_ok] at h
    obtain ⟨_, ⟨hrange, identifier, value, hidentifier, hvalue, rfl⟩, more, hmore, rfl⟩ := h
    have hread := fun {value bytes} (h : encodeVarint value = .ok bytes) => decodeVarint_encoded h []
    simp only [append_nil] at hread
    exact ⟨forall_mem_cons.mpr ⟨hrange, (ih hmore).1⟩,
      .cons ⟨identifier, value, rfl, hread hidentifier, hread hvalue⟩ (ih hmore).2⟩

variable {settings : Settings} {payload : Bytes}

theorem decodeSettings_encoded
    (h : encodeSettings settings = .ok payload) : decodeSettings payload = .ok settings := by
  simp only [encodeSettings, bind_eq_ok, pure_eq_ok] at h
  obtain ⟨written, hwritten, rfl⟩ := h
  obtain ⟨hrange, hread⟩ := mapM_encodeSetting hwritten
  rw [decodeSettings, decodeSettingsFrom_eq_ok hread settings.advertised_nodup (by simp),
    filter_eq_self.mpr hrange]
  exact ⟨by simp [Settings.advertised, maxSettingsPerFrame],
    fun pair hpair => .inl (hrange pair hpair), rfl⟩

def Settings.InRange (settings : Settings) : Prop :=
  ∀ setting ∈ settings.advertised, settingInRange setting.1 setting.2 = true

instance (settings : Settings) : Decidable settings.InRange :=
  inferInstanceAs (Decidable (∀ setting ∈ settings.advertised, _))

theorem encodeSettings_of_inRange (h : settings.InRange) :
    ∃ payload, encodeSettings settings = .ok payload ∧ payload.length ≤ 80 := by
  have hwrite : ∀ setting ∈ settings.advertised,
      ∃ bytes, encodeSetting setting = .ok bytes ∧ bytes.length ≤ 16 := by
    intro setting hsetting
    obtain ⟨hidentifier, hvalue⟩ := settingInRange_bounds (h setting hsetting)
    obtain ⟨identifier, hidentifier, hfirst⟩ := encodeVarint_short hidentifier
    obtain ⟨value, hvalue, hsecond⟩ := encodeVarint_short hvalue
    refine ⟨identifier ++ value, ?_, by rw [length_append]; omega⟩
    exact encodeSetting_eq_ok.mpr ⟨h setting hsetting, identifier, value, hidentifier, hvalue, rfl⟩
  obtain ⟨written, hwritten, hlength⟩ := mapM_flatten_le hwrite
  refine ⟨written.flatten, ?_, hlength⟩
  rw [encodeSettings, hwritten, ok_bind]
  rfl

theorem Settings.InRange.assign (h : settings.InRange)
    (hrange : settingInRange identifier value = true) : (settings.assign identifier value).InRange := by
  unfold Settings.assign
  split_ifs with h1 h2 h3 h4 h5
  all_goals
    simp only [Settings.InRange, Settings.advertised, forall_mem_cons, not_mem_nil,
      false_implies, implies_true, and_true] at h ⊢
  · exact ⟨h1 ▸ hrange, h.2⟩
  · exact ⟨h.1, h2 ▸ hrange, h.2.2⟩
  · exact ⟨h.1, h.2.1, h3 ▸ hrange, h.2.2.2⟩
  · exact ⟨h.1, h.2.1, h.2.2.1, h4 ▸ hrange, h.2.2.2.2⟩
  · exact ⟨h.1, h.2.1, h.2.2.1, h.2.2.2.1, h5 ▸ hrange⟩
  · exact h

theorem applySetting_inRange {settings next : Settings} (h : settings.InRange)
    (happly : applySetting settings identifier value = .ok next) : next.InRange := by
  obtain ⟨-, rfl⟩ := applySetting_eq_ok.mp happly
  split_ifs with hrange
  · exact h.assign hrange
  · exact h

theorem decodeSettingsFrom_inRange {start settings : Settings} (hstart : start.InRange)
    (h : decodeSettingsFrom room seen start payload = .ok settings) : settings.InRange := by
  induction room generalizing seen start payload with
  | zero =>
    cases payload with
    | nil =>
      cases h
      exact hstart
    | cons => cases h
  | succ room ih =>
    cases payload with
    | nil =>
      cases h
      exact hstart
    | cons =>
      simp only [decodeSettingsFrom, bind_eq_ok] at h
      obtain ⟨_, -, _, -, _, -, next, hnext, h⟩ := h
      exact ih (applySetting_inRange hstart hnext) h

theorem decodeSettings_inRange (h : decodeSettings payload = .ok settings) : settings.InRange :=
  decodeSettingsFrom_inRange (by decide) h

theorem Settings.InRange.control (h : settings.InRange) :
    1024 ≤ settings.maxControlFramePayload ∧
      settings.maxControlFramePayload ≤ hardMaxFramePayload := by
  have hrange := h _ (mem_cons_self ..)
  simpa [settingInRange, settingRange, settingBounds, lookup_cons, hardMaxFramePayload] using hrange

/-! ## HELLO -/

inductive EndpointRole where
  | client
  | server
  deriving DecidableEq, Repr

namespace EndpointRole

def toWire : EndpointRole → ℕ
  | client => 0
  | server => 1

def fromWire (value : ℕ) : Option EndpointRole :=
  if value = 0 then some client else if value = 1 then some server else none

theorem eq_client_or_server (role : EndpointRole) : role = client ∨ role = server := by
  cases role <;> simp

@[simp] theorem fromWire_toWire (role : EndpointRole) : fromWire role.toWire = some role := by
  cases role <;> rfl

end EndpointRole

structure Hello where
  draftRevision : ℕ
  endpointRole : EndpointRole
  extensions : Finset ℕ
  deriving DecidableEq

inductive HelloError where
  | malformed (error : DecodeError)
  | unsupportedRevision (revision : ℕ)
  | roleMismatch (expected actual : EndpointRole)
  | duplicateExtension (extension : ℕ)
  | tooManyExtensions (count : ℕ)
  | trailingBytes
  deriving DecidableEq, Repr

def HelloError.protocolCode : HelloError → ℕ
  | unsupportedRevision _ => ErrorCode.unsupportedVersion
  | tooManyExtensions _ => ErrorCode.resourceLimit
  | malformed _ | roleMismatch .. | duplicateExtension _ | trailingBytes => ErrorCode.malformedFrame

def helloVarint : Parser HelloError ℕ := fun input =>
  (decodeVarint input).mapError .malformed |>.map fun (value, width) => (value, input.drop width)

/-- `count` more extensions, none of them among those found. -/
def readExtensions : ℕ → Finset ℕ → Parser HelloError (Finset ℕ)
  | 0, found => pure found
  | count + 1, found => do
    let extension ← helloVarint
    Parser.lift (rejectIf (extension ∈ found) (.duplicateExtension extension))
    readExtensions count (insert extension found)

def decodeHello (payload : Bytes) (expectedRole : EndpointRole) : Except HelloError Hello :=
  Parser.run (do
    let revision ← helloVarint
    Parser.lift (rejectIf (revision ≠ Codec.draftRevision) (.unsupportedRevision revision))
    let role ← helloVarint
    let endpointRole ← Parser.lift (okOr (EndpointRole.fromWire role)
      (.malformed (.valueOutOfRange u64Max)))
    Parser.lift (rejectIf (endpointRole ≠ expectedRole) (.roleMismatch expectedRole endpointRole))
    let count ← helloVarint
    Parser.lift (rejectIf (count > maxExtensionsPerHello) (.tooManyExtensions count))
    let extensions ← readExtensions count ∅
    Parser.finish .trailingBytes
    return ⟨revision, endpointRole, extensions⟩) payload

def writeVarints (values : List ℕ) : Except HelloError Bytes := do
  let written ← values.mapM fun value => (encodeVarint value).mapError .malformed
  return written.flatten

/-- The extensions go out in ascending order, so that one HELLO has one encoding. -/
def encodeHello (hello : Hello) : Except HelloError Bytes := do
  let count := hello.extensions.card
  rejectIf (count > maxExtensionsPerHello) (.tooManyExtensions count)
  writeVarints ([hello.draftRevision, hello.endpointRole.toWire, count] ++
    hello.extensions.sort (· ≤ ·))

theorem helloVarint_encoded (h : encodeVarint value = .ok bytes)
    (rest : Bytes) : helloVarint (bytes ++ rest) = .ok (value, rest) := by
  rw [helloVarint, decodeVarint_encoded h]
  simp [Except.mapError, Except.map]

variable {values : List ℕ}

theorem writeVarints_cons :
    writeVarints (value :: values) = .ok bytes ↔ ∃ first more,
      encodeVarint value = .ok first ∧ writeVarints values = .ok more ∧ bytes = first ++ more := by
  simp only [writeVarints, mapM_cons, bind_eq_ok, mapError_eq_ok, pure_eq_ok]
  constructor
  · rintro ⟨_, ⟨first, hfirst, more, hmore, rfl⟩, rfl⟩
    exact ⟨first, _, hfirst, ⟨more, hmore, rfl⟩, rfl⟩
  · rintro ⟨first, _, hfirst, ⟨more, hmore, rfl⟩, rfl⟩
    exact ⟨_, ⟨first, hfirst, more, hmore, rfl⟩, rfl⟩

theorem readExtensions_written {found : Finset ℕ} (hbytes : writeVarints values = .ok bytes)
    (hdistinct : values.Nodup) (hfound : ∀ value ∈ values, value ∉ found) :
    readExtensions values.length found bytes = .ok (found ∪ values.toFinset, []) := by
  induction values generalizing bytes found with
  | nil =>
    cases hbytes
    simp [readExtensions]
  | cons value values ih =>
    obtain ⟨first, more, hfirst, hmore, rfl⟩ := writeVarints_cons.mp hbytes
    rw [nodup_cons] at hdistinct
    rw [length_cons, readExtensions, Parser.bind_eq_ok]
    refine ⟨value, more, helloVarint_encoded hfirst more, ?_⟩
    rw [Parser.lift_then]
    refine ⟨(), rejectIf_neg (hfound value (by simp)), ?_⟩
    rw [ih hmore hdistinct.2]
    · rw [toFinset_cons, Finset.insert_union, Finset.union_insert]
    · intro other hother
      rw [Finset.mem_insert, not_or]
      exact ⟨fun heq => hdistinct.1 (heq ▸ hother), hfound other (by simp [hother])⟩

theorem encodeHello_of_bounded (hello : Hello) (hrevision : hello.draftRevision = Codec.draftRevision)
    (hcount : hello.extensions.card ≤ maxExtensionsPerHello)
    (hids : ∀ extension ∈ hello.extensions, extension ≤ maxQuicVarint) :
    ∃ payload, encodeHello hello = .ok payload ∧ payload.length ≤ 8 * (3 + maxExtensionsPerHello) := by
  have hwrite : ∀ value ∈ [hello.draftRevision, hello.endpointRole.toWire, hello.extensions.card] ++
      hello.extensions.sort (· ≤ ·), ∃ bytes,
        (encodeVarint value).mapError HelloError.malformed = .ok bytes ∧ bytes.length ≤ 8 := by
    intro value hvalue
    have hsmall : value ≤ maxQuicVarint := by
      simp only [cons_append, nil_append, mem_cons, Finset.mem_sort] at hvalue
      obtain rfl | rfl | rfl | hmem := hvalue
      · rw [hrevision]
        decide
      · cases hello.endpointRole <;> decide
      · exact hcount.trans (by decide)
      · exact hids value hmem
    obtain ⟨bytes, hbytes, hlength⟩ := encodeVarint_short hsmall
    exact ⟨bytes, mapError_eq_ok.mpr hbytes, hlength⟩
  obtain ⟨written, hwritten, hlength⟩ := mapM_flatten_le hwrite
  refine ⟨written.flatten, ?_, hlength.trans ?_⟩
  · rw [encodeHello, rejectIf_neg (not_lt.mpr hcount), ok_bind, writeVarints, hwritten, ok_bind]
    rfl
  · simp only [length_append, length_cons, length_nil, Finset.length_sort]
    omega

/-- A HELLO of this revision is read back by the endpoint that expects its role. -/
theorem decodeHello_encoded {hello : Hello} (hrevision : hello.draftRevision = Codec.draftRevision)
    (h : encodeHello hello = .ok payload) : decodeHello payload hello.endpointRole = .ok hello := by
  simp only [encodeHello, bind_eq_ok, rejectIf_eq_ok, cons_append, nil_append,
    writeVarints_cons] at h
  obtain ⟨_, hcount, revision, _, hrevision', ⟨role, _, hrole, ⟨count, more, hcount', hmore, rfl⟩,
    rfl⟩, rfl⟩ := h
  have hextensions : readExtensions hello.extensions.card ∅ more = .ok (hello.extensions, []) := by
    have hread := readExtensions_written hmore (Finset.sort_nodup _ _)
      (fun value _ => Finset.notMem_empty value)
    rwa [Finset.length_sort, Finset.sort_toFinset, Finset.empty_union] at hread
  simp only [decodeHello, Parser.run_eq_ok, Parser.bind_eq_ok, Parser.lift_eq_ok, rejectIf_eq_ok,
    okOr_eq_ok, Parser.finish_eq_ok, Parser.pure_eq_ok]
  refine ⟨[], _, _, helloVarint_encoded hrevision' _, (), _, ⟨not_not.mpr hrevision, rfl⟩, _, _,
    helloVarint_encoded hrole _, _, _, ⟨EndpointRole.fromWire_toWire _, rfl⟩, (), _,
    ⟨not_not.mpr rfl, rfl⟩, _, _, helloVarint_encoded hcount' _, (), _, ⟨hcount, rfl⟩, _, _,
    hextensions, (), _, ⟨rfl, rfl⟩, rfl⟩

/-- Settings and HELLOs are read back, and the pairs of a SETTINGS payload count in any order and
with any unknown even identifiers among them. -/
theorem opening_payloads_read_back :
    (∀ settings : Settings, settings.InRange → ∃ payload,
      encodeSettings settings = .ok payload ∧ decodeSettings payload = .ok settings) ∧
    (∀ (pairs others : List (ℕ × ℕ)) (written rewritten : List Bytes) (settings : Settings),
      Forall₂ ReadsAs pairs written → Forall₂ ReadsAs others rewritten →
      (pairs.map Prod.fst).Nodup → (others.map Prod.fst).Nodup →
      others.length ≤ maxSettingsPerFrame →
      (pairs.filter fun pair => (settingRange pair.1).isSome).Perm
        (others.filter fun pair => (settingRange pair.1).isSome) →
      (∀ pair ∈ others, settingRange pair.1 = none → pair.1 % 2 = 0) →
      decodeSettings written.flatten = .ok settings →
        decodeSettings rewritten.flatten = .ok settings) ∧
    ∀ hello : Hello, hello.draftRevision = Codec.draftRevision →
      hello.extensions.card ≤ maxExtensionsPerHello →
      (∀ extension ∈ hello.extensions, extension < 2 ^ 62) → ∃ payload,
        encodeHello hello = .ok payload ∧ decodeHello payload hello.endpointRole = .ok hello := by
  refine ⟨?_, ?_, ?_⟩
  · intro settings hrange
    obtain ⟨payload, hpayload, -⟩ := encodeSettings_of_inRange hrange
    exact ⟨payload, hpayload, decodeSettings_encoded hpayload⟩
  · intro pairs others written rewritten settings hread hreread hdistinct hother hroom hperm heven h
    obtain ⟨-, hacceptable, rfl⟩ := (decodeSettingsFrom_eq_ok hread hdistinct (by simp)).mp h
    refine (decodeSettingsFrom_eq_ok hreread hother (by simp)).mpr
      ⟨hroom, ?_, (foldl_assign_perm hdistinct hperm _).symm⟩
    intro pair hpair
    cases hrange : settingRange pair.1 with
    | none => exact .inr (by simp [hrange, isCritical, heven pair hpair hrange])
    | some =>
      have hkept := hperm.mem_iff.mpr (mem_filter.mpr ⟨hpair, by simp [hrange]⟩)
      exact hacceptable pair (mem_of_mem_filter hkept)
  · intro hello hrevision hcount hids
    obtain ⟨payload, hpayload, -⟩ := encodeHello_of_bounded hello hrevision hcount
      fun extension h => Nat.le_pred_of_lt (hids extension h)
    exact ⟨payload, hpayload, decodeHello_encoded hrevision hpayload⟩

/-- A lane limit, alone and after an unknown setting. -/
theorem opening_payloads_read_back_lanes :
    decodeSettings [8, 0, 7, 1] = .ok { Settings.default with reliableLaneLimit := 1 } := by
  have hlanes : ReadsAs (7, 1) [7, 1] := ⟨[7], [1], rfl, rfl, rfl⟩
  have hunknown : ReadsAs (8, 0) [8, 0] := ⟨[8], [0], rfl, rfl, rfl⟩
  exact opening_payloads_read_back.2.1 [(7, 1)] [(8, 0), (7, 1)] [[7, 1]] [[8, 0], [7, 1]] _
    (.cons hlanes .nil) (.cons hunknown (.cons hlanes .nil)) (by decide) (by decide) (by decide)
    (by decide) (by decide) (by decide)

end ObjectTransfer.Codec
