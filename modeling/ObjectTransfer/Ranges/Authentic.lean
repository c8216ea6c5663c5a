import ObjectTransfer.Foundations.Tiling
import ObjectTransfer.Object.Identity
import ObjectTransfer.Ranges.Bundle

/-! # What a verified bundle releases

The records of a verified bundle tile the covered range in whatever order they came, and what they
join to is the object's own bytes there.
-/

namespace ObjectTransfer.Ranges
open Foundations Streaming Proof Codec List OrderedMap

def recordKey (record : DataRecord) : ℕ := record.recordIndex.toNat

def recordSpan (record : DataRecord) : Span :=
  (record.plaintextOffset.toNat, record.plaintextLength.toNat)

structure Taken (bundle : ProofBundle) (record : DataRecord) : Prop where
  valid : record.validate = .ok ()
  bundleId : record.bundleId = bundle.bundleId
  plain : record.compression = 0

section Records

variable {bundle : ProofBundle} {record : DataRecord} {records : List DataRecord}
  {ordered ordered' : OrderedMap ℕ DataRecord}

theorem Taken.length_eq (h : Taken bundle record) :
    record.plaintextLength.toNat = record.encoded.length := by
  have hvalid := h.valid
  simp only [DataRecord.validate, validateDataRecord, validateDataRecordHeader, rejectIf_eq_ok,
    not_or, not_and, not_not] at hvalid
  exact hvalid.2.2.2.2.2.2.2 h.plain

theorem insertRecord_eq_ok : insertRecord bundle ordered record = .ok ordered' ↔
    Taken bundle record ∧ ordered.get? (recordKey record) = none ∧
      ordered' = ordered.insert (recordKey record) record := by
  simp only [insertRecord, bind_eq_ok, mapError_eq_ok, rejectIf_eq_ok, not_not, pure_eq_ok]
  constructor
  · rintro ⟨⟨⟩, hvalid, -, hbundle, -, hplain, -, hfree, rfl⟩
    exact ⟨⟨hvalid, hbundle, hplain⟩, hfree, rfl⟩
  · rintro ⟨htaken, hfree, rfl⟩
    exact ⟨(), htaken.valid, (), htaken.bundleId, (), htaken.plain, (), hfree, rfl⟩

theorem foldlM_insertRecord :
    records.foldlM (insertRecord bundle) ordered = .ok ordered' ↔
      (∀ record ∈ records, Taken bundle record) ∧ (records.map recordKey).Nodup ∧
      (∀ record ∈ records, ordered.get? (recordKey record) = none) ∧
      ordered' = ordered.insertAll recordKey records := by
  induction records generalizing ordered with
  | nil =>
    rw [foldlM_nil, pure_eq_ok]
    simp [insertAll, eq_comm]
  | cons record records ih =>
    rw [foldlM_cons, bind_eq_ok]
    simp only [insertRecord_eq_ok, ih, mem_cons, forall_eq_or_imp, map_cons,
      nodup_cons, insertAll, foldl_cons, mem_map, not_exists, not_and]
    constructor
    · rintro ⟨mid, ⟨htaken, hfree, rfl⟩, hall, hdistinct, hrest, rfl⟩
      simp only [OrderedMap.get?_insert_eq_none] at hrest
      exact ⟨⟨htaken, hall⟩, ⟨fun other hmem => (hrest other hmem).1, hdistinct⟩,
        ⟨hfree, fun other hmem => (hrest other hmem).2⟩, rfl⟩
    · rintro ⟨⟨htaken, hall⟩, ⟨hnew, hdistinct⟩, ⟨hfree, hrest⟩, rfl⟩
      refine ⟨_, ⟨htaken, hfree, rfl⟩, hall, hdistinct, fun other hmem => ?_, rfl⟩
      exact OrderedMap.get?_insert_eq_none.mpr ⟨hnew other hmem, hrest other hmem⟩

theorem assembleNext_eq_ok {data data' : Bytes} {index : ℕ} :
    assembleNext bundle ordered data index = .ok data' ↔
      ∃ record, ordered.get? index = some record ∧
        record.plaintextOffset.toNat = bundle.coveredOffset.toNat + data.length ∧
        bundle.coveredOffset.toNat + data.length ≤ u64Max ∧ data' = data ++ record.encoded := by
  simp only [assembleNext, checkedOffset, bind_eq_ok, okOr_eq_ok, checkedAdd_eq_some,
    rejectIf_eq_ok, not_not, pure_eq_ok]
  constructor
  · rintro ⟨record, hget, _, ⟨hfit, rfl⟩, -, hoffset, rfl⟩
    exact ⟨record, hget, hoffset, hfit, rfl⟩
  · rintro ⟨record, hget, hoffset, hfit, rfl⟩
    exact ⟨record, hget, _, ⟨hfit, rfl⟩, (), hoffset, rfl⟩

/-- The records of the first indices, joined, follow one another from the covered offset on. -/
theorem foldlM_assembleNext {count : ℕ} {data : Bytes}
    (htaken : ∀ k record, ordered.get? k = some record → Taken bundle record)
    (h : (List.range count).foldlM (assembleNext bundle ordered) [] = .ok data) :
    ∃ used : List DataRecord, (List.range count).map ordered.get? = used.map some ∧
      ((used.map recordSpan).map Prod.snd).sum = data.length ∧
      EndToEnd bundle.coveredOffset.toNat (used.map recordSpan) := by
  induction count generalizing data with
  | zero =>
    obtain rfl := Except.ok.inj h
    exact ⟨[], rfl, rfl, trivial⟩
  | succ count ih =>
    rw [range_succ, List.foldlM_append, bind_eq_ok] at h
    obtain ⟨before, hbefore, hlast⟩ := h
    rw [foldlM_cons, bind_eq_ok] at hlast
    obtain ⟨after, hafter, hdata⟩ := hlast
    obtain rfl := Except.ok.inj hdata
    obtain ⟨used, hused, hlength, hspans⟩ := ih hbefore
    obtain ⟨record, hget, hoffset, -, rfl⟩ := assembleNext_eq_ok.mp hafter
    have hrecord : (recordSpan record).2 = record.encoded.length := (htaken _ _ hget).length_eq
    refine ⟨used ++ [record], ?_, ?_, ?_⟩
    · rw [range_succ, map_append, hused, map_append, map_singleton, hget, map_singleton]
    · simp only [map_append, map_singleton, sum_append, sum_singleton, hlength,
        hrecord, length_append]
    · rw [map_append, map_singleton, endToEnd_concat]
      exact ⟨hspans, by rw [hlength]; exact hoffset⟩

/-- As many records as indices are used, each at its own: none is left over. -/
theorem used_perm {used : List DataRecord} (hdistinct : (records.map recordKey).Nodup)
    (hused : (List.range records.length).map
      (empty.insertAll recordKey records).get? = used.map some) :
    used.Perm records := by
  have hlength : used.length = records.length := by
    simpa using (congrArg length hused).symm
  have hat : ∀ i record, used[i]? = some record → record ∈ records ∧ recordKey record = i := by
    intro i record hi
    have hlt : i < records.length := hlength ▸ (List.getElem?_eq_some_iff.mp hi).1
    have hget := congrArg (·[i]?) hused
    simp only [getElem?_map, getElem?_range hlt, hi, Option.map_some, Option.some.injEq] at hget
    simpa using (OrderedMap.get?_insertAll hdistinct).mp hget
  have hnodup : used.Nodup := by
    rw [nodup_iff_getElem?_ne_getElem?]
    intro i j hij hj heq
    have hi := getElem?_eq_getElem (hij.trans hj)
    have hsame := (hat i _ hi).2.symm.trans (hat j _ (heq ▸ hi)).2
    omega
  have hsubset : used ⊆ records := by
    intro record hmem
    obtain ⟨i, hi⟩ := mem_iff_getElem?.mp hmem
    exact (hat i record hi).1
  exact (hnodup.subperm hsubset).perm_of_length_le hlength.ge

end Records

section Verified

variable {object : ObjectId} {bundle : ProofBundle} {records : List DataRecord}

theorem validateProofBundle_ok (h : bundle.validate = .ok ()) :
    0 < bundle.object.length.toNat ∧ bundle.object.length.toNat ≤ isizeMax := by
  simp only [ProofBundle.validate, validateProofBundle, validateProofBundleWithProofLen,
    ObjectId.validate, bind_eq_ok, rejectIf_eq_ok, not_or] at h
  obtain ⟨-, ⟨-, hlimit⟩, -, ⟨hpos, -⟩, -⟩ := h
  refine ⟨?_, not_lt.mp hlimit⟩
  rw [Nat.pos_iff_ne_zero]
  intro hzero
  exact hpos (UInt64.toNat_inj.mp hzero)

variable {validated : ValidatedBundle}

/-- What the identity and record checks establish, and that they do not look at the order. -/
theorem validateTypedBundleRef_eq_ok :
    validateTypedBundleRef object bundle records = .ok validated ↔
      bundle.validate = .ok () ∧ bundle.object = object ∧
      bundle.dataRecordCount.toNat = records.length ∧
      (∀ record ∈ records, Taken bundle record) ∧ (records.map recordKey).Nodup ∧
      validated = ⟨bundle, empty.insertAll recordKey records⟩ := by
  have hsame : bundle.object = object ↔ bundle.object.suite = object.suite ∧
      bundle.object.root = object.root ∧ bundle.object.length = object.length := by
    obtain ⟨_, _, _⟩ := object
    cases hb : bundle.object
    simp
  simp only [validateTypedBundleRef, bind_eq_ok, mapError_eq_ok, rejectIf_eq_ok, not_or, not_not,
    pure_eq_ok, foldlM_insertRecord, hsame]
  constructor
  · rintro ⟨⟨⟩, hvalid, -, ⟨hsuite, hroot, hlength, hcount⟩, ordered,
      ⟨htaken, hdistinct, -, rfl⟩, rfl⟩
    exact ⟨hvalid, ⟨hsuite, hroot, hlength⟩, hcount, htaken, hdistinct, rfl⟩
  · rintro ⟨hvalid, ⟨hsuite, hroot, hlength⟩, hcount, htaken, hdistinct, rfl⟩
    exact ⟨(), hvalid, (), ⟨hsuite, hroot, hlength, hcount⟩, _,
      ⟨htaken, hdistinct, fun _ _ => rfl, rfl⟩, rfl⟩

theorem assemble_tiles {data : Bytes} (hcount : bundle.dataRecordCount.toNat = records.length)
    (htaken : ∀ record ∈ records, Taken bundle record) (hdistinct : (records.map recordKey).Nodup)
    (h : assembleOrdered bundle (empty.insertAll recordKey records) = .ok data) :
    data.length = bundle.coveredLength.toNat ∧
      Tiles (records.map recordSpan) bundle.coveredOffset.toNat bundle.coveredLength.toNat := by
  simp only [assembleOrdered, bind_eq_ok, rejectIf_eq_ok, not_not, pure_eq_ok] at h
  obtain ⟨-, -, joined, hjoined, -, hlength, rfl⟩ := h
  rw [hcount] at hjoined
  have hlooked : ∀ k record, (empty.insertAll recordKey records).get? k = some record →
      Taken bundle record := by
    intro k record hget
    rcases (OrderedMap.get?_insertAll hdistinct).mp hget with ⟨hmem, -⟩ | ⟨-, hnone⟩
    · exact htaken record hmem
    · cases hnone
  obtain ⟨used, hused, hsum, hspans⟩ := foldlM_assembleNext hlooked hjoined
  have htiles := hspans.tiles
  rw [hsum, hlength] at htiles
  exact ⟨hlength, htiles.perm ((used_perm hdistinct hused).symm.map _)⟩

theorem validateTypedBundleRef_perm {records' : List DataRecord} (hperm : records'.Perm records)
    (h : validateTypedBundleRef object bundle records = .ok validated) :
    validateTypedBundleRef object bundle records' = .ok validated := by
  obtain ⟨hvalid, hobject, hcount, htaken, hdistinct, rfl⟩ := validateTypedBundleRef_eq_ok.mp h
  refine validateTypedBundleRef_eq_ok.mpr ⟨hvalid, hobject, by rw [hcount, hperm.length_eq],
    fun record hmem => htaken record (hperm.mem_iff.mp hmem),
    (hperm.map recordKey).nodup_iff.mpr hdistinct, ?_⟩
  rw [insertAll_perm hdistinct hperm]

/-- The records a sender cuts the covered bytes into, in the order of their indices. -/
structure Carries (D : Bytes) (bundle : ProofBundle) (used : List DataRecord) : Prop where
  count : bundle.dataRecordCount.toNat = used.length
  taken : ∀ record ∈ used, Taken bundle record
  keys : used.map recordKey = range used.length
  ends : EndToEnd bundle.coveredOffset.toNat (used.map recordSpan)
  bytes : slice? D bundle.coveredOffset.toNat
    (bundle.coveredOffset.toNat + bundle.coveredLength.toNat) = some (used.flatMap (·.encoded))

variable {used : List DataRecord} {D : Bytes}

theorem sum_recordSpan (htaken : ∀ record ∈ used, Taken bundle record) :
    ((used.map recordSpan).map Prod.snd).sum = (used.flatMap (·.encoded)).length := by
  rw [length_flatMap, map_map]
  exact congrArg sum (map_congr_left fun record hmem => (htaken record hmem).length_eq)

theorem foldlM_assembleNext_used {ordered : OrderedMap ℕ DataRecord}
    (htaken : ∀ record ∈ used, Taken bundle record) (hkeys : used.map recordKey = range used.length)
    (hends : EndToEnd bundle.coveredOffset.toNat (used.map recordSpan))
    (hfit : bundle.coveredOffset.toNat + (used.flatMap (·.encoded)).length ≤ u64Max)
    (hget : ∀ record ∈ used, ordered.get? (recordKey record) = some record) :
    (range used.length).foldlM (assembleNext bundle ordered) [] =
      .ok (used.flatMap (·.encoded)) := by
  -- The fold goes through the indices upwards, so the last record is split off.
  induction used using reverseRecOn with
  | nil => rfl
  | append_singleton used record ih =>
    simp only [map_append, map_singleton, length_append, length_singleton, range_succ,
      flatMap_append, flatMap_singleton, endToEnd_concat, forall_mem_append, forall_mem_singleton]
      at htaken hkeys hends hfit hget ⊢
    obtain ⟨hkeys, hkey⟩ := append_inj' hkeys rfl
    rw [sum_recordSpan htaken.1] at hends
    rw [List.foldlM_append, ih htaken.1 hkeys hends.1 (by omega) hget.1, ok_bind, foldlM_cons,
      assembleNext_eq_ok.mpr ⟨record, singleton_inj.mp hkey ▸ hget.2, hends.2, by omega, rfl⟩]
    rfl

theorem checkRangeGeometry_eq_ok {objectLength offset bytes stop : ℕ} (hfit : objectLength ≤ u64Max) :
    checkRangeGeometry objectLength offset bytes = .ok stop ↔ bytes ≤ maxProofRangeBytes ∧
      Cover groupSize objectLength offset bytes ∧ offset + bytes = stop := by
  have hunit : rangeUnitBytes = groupSize := rfl
  simp only [checkRangeGeometry, checkedOffset, bind_eq_ok, rejectIf_eq_ok, okOr_eq_ok,
    checkedAdd_eq_some, pure_eq_ok, hunit]
  constructor
  · rintro ⟨-, hsize, _, ⟨-, rfl⟩, -, hin, -, hclosed, rfl⟩
    have haligned : offset % groupSize = 0 := by omega
    have hmod : (offset + bytes) % groupSize = bytes % groupSize := by
      rw [Nat.add_mod, haligned, zero_add, Nat.mod_mod]
    exact ⟨by omega, ⟨haligned, by omega, by omega, by omega⟩, rfl⟩
  · rintro ⟨hsize, cover, rfl⟩
    have hin := cover.inside
    have hpos := cover.nonempty
    have hclosed := cover.closed
    have haligned := cover.aligned
    have hmod : (offset + bytes) % groupSize = bytes % groupSize := by
      rw [Nat.add_mod, haligned, zero_add, Nat.mod_mod]
    exact ⟨(), by omega, _, ⟨by omega, rfl⟩, (), by omega, (), by omega, rfl⟩

/-- What a bundle with all its records comes down to, in whatever order they are. -/
theorem Carries.verify_eq [Blake3] [Sha256] (h : Carries D bundle used) (hlen : D.length ≤ isizeMax)
    (hvalid : bundle.validate = .ok ()) (hperm : records.Perm used) :
    verifyTypedBundleRef bundle.object bundle records =
      verifyRange bundle.object bundle.coveredOffset.toNat (used.flatMap (·.encoded))
        bundle.proof := by
  have hnodup : (used.map recordKey).Nodup := h.keys ▸ nodup_range
  have hchecked := validateTypedBundleRef_perm hperm (validateTypedBundleRef_eq_ok.mpr
    ⟨hvalid, rfl, h.count, h.taken, hnodup, rfl⟩)
  have hlength := slice?_length h.bytes
  have hin := (slice?_eq_some.mp h.bytes).2.1
  have hfit := le_u64Max_of_le_isizeMax hlen
  have hjoined := foldlM_assembleNext_used h.taken h.keys h.ends (by omega)
    fun record hmem => (OrderedMap.get?_insertAll (m := .empty) hnodup).mpr (.inl ⟨hmem, rfl⟩)
  rw [verifyTypedBundleRef, hchecked, ok_bind, ValidatedBundle.assemble, assembleOrdered]
  dsimp only
  rw [rejectIf_neg (by omega), ok_bind, h.count, hjoined, ok_bind, rejectIf_neg (by omega)]
  rfl

end Verified

section Authentic

variable [Blake3] [Sha256]

structure Identifies (object : ObjectId) (named : Suite) (D : Bytes) : Prop where
  suite : object.suite.toNat = named.identifier
  root : Object.proofRoot named D = some object.root
  length : object.length.toNat = D.length

/-- No two of the inputs a suite hashes for the object and for a presented range collide. -/
def CollisionFree : Suite → Bytes → ℕ → Bytes → Bytes → Prop
  | .blake3Bao64 => Bao64.CollisionFree
  | .sha256Bep52 => Bep52.CollisionFree

variable {data proof : Bytes} {offset : ℕ}

theorem verifySuite_sound (hsplit : Bao64.SplitRoot) {suite : Suite} {D : Bytes} (hne : D ≠ [])
    (hlen : D.length ≤ isizeMax) {root : Digest} (hroot : Object.proofRoot suite D = some root)
    (free : CollisionFree suite D offset data proof)
    (h : verifySuite suite root D.length offset data proof = .ok ()) :
    slice? D offset (offset + data.length) = some data := by
  cases suite with
  | blake3Bao64 =>
    obtain rfl := Option.some.inj ((Bao64.root_eq_hash hlen).symm.trans hroot)
    exact (Bao64.verify_sound hne hlen hsplit free h).2.1
  | sha256Bep52 => exact (Bep52.verify_sound hne hlen hroot free h).2.1

theorem verifyRange_eq_ok {object : ObjectId}
    {verified : VerifiedRange} : verifyRange object offset data proof = .ok verified ↔
      (∃ stop, checkRangeGeometry object.length.toNat offset data.length = .ok stop) ∧
      (∃ suite, suiteOf object.suite.toNat = some suite ∧
        verifySuite suite object.root object.length.toNat offset data proof = .ok ()) ∧
      verified = ⟨object, offset, data⟩ := by
  simp only [verifyRange, bind_eq_ok, okOr_eq_ok, mapError_eq_ok, pure_eq_ok]
  constructor
  · rintro ⟨stop, hgeometry, suite, hsuite, ⟨⟩, hproof, rfl⟩
    exact ⟨⟨stop, hgeometry⟩, ⟨suite, hsuite, hproof⟩, rfl⟩
  · rintro ⟨⟨stop, hgeometry⟩, ⟨suite, hsuite, hproof⟩, rfl⟩
    exact ⟨stop, hgeometry, suite, hsuite, (), hproof, rfl⟩

omit [Blake3] [Sha256] in
theorem suiteOf_identifier (suite : Suite) : suiteOf suite.identifier = some suite := by
  cases suite <;> rfl

end Authentic

/-- A verified bundle releases the object's own bytes at the covered range. Its records tile that
range, and any order of them is verified alike. -/
theorem verified_bundle_authentic [Blake3] [Sha256] (hsplit : Bao64.SplitRoot) {suite : Suite}
    {D : Bytes} {object : ObjectId} (hobject : Identifies object suite D) {bundle : ProofBundle}
    {records : List DataRecord} {verified : VerifiedRange}
    (h : verifyTypedBundleRef object bundle records = .ok verified) :
    (CollisionFree suite D bundle.coveredOffset.toNat verified.data bundle.proof →
      slice? D bundle.coveredOffset.toNat
        (bundle.coveredOffset.toNat + bundle.coveredLength.toNat) = some verified.data) ∧
      Tiles (records.map recordSpan) bundle.coveredOffset.toNat bundle.coveredLength.toNat ∧
      (records.map recordKey).Nodup ∧
      ∀ records' : List DataRecord, records'.Perm records →
        verifyTypedBundleRef object bundle records' = .ok verified := by
  have hverify := h
  simp only [verifyTypedBundleRef, bind_eq_ok] at hverify
  obtain ⟨validated, hvalidated, data, hdata, hrange⟩ := hverify
  obtain ⟨hvalid, hsame, hcount, htaken, hdistinct, rfl⟩ :=
    validateTypedBundleRef_eq_ok.mp hvalidated
  obtain ⟨hlength, htiles⟩ := assemble_tiles hcount htaken hdistinct hdata
  obtain ⟨-, ⟨named, hnamed, hproof⟩, rfl⟩ := verifyRange_eq_ok.mp hrange
  rw [hobject.suite, suiteOf_identifier] at hnamed
  obtain rfl := Option.some.inj hnamed
  obtain ⟨hne, hlen⟩ : D ≠ [] ∧ D.length ≤ isizeMax := by
    have hbounds := validateProofBundle_ok hvalid
    rw [hsame, hobject.length] at hbounds
    exact ⟨ne_nil_of_length_pos hbounds.1, hbounds.2⟩
  rw [hobject.length] at hproof
  refine ⟨fun free => ?_, htiles, hdistinct, fun records' hperm => ?_⟩
  · rw [← hlength]
    exact verifySuite_sound hsplit hne hlen hobject.root free hproof
  · rw [verifyTypedBundleRef, validateTypedBundleRef_perm hperm hvalidated, ← h,
      verifyTypedBundleRef, hvalidated]

section Sample

attribute [local instance] Bao64.sampleBlake3 Bao64.sampleSha256

def sampleIdentity : ObjectId := ⟨1, Block.ofBytes 32 [4], 65537⟩

def sampleRecord (index offset length : UInt64) (byte : UInt8) : DataRecord where
  bundleId := Block.ofBytes 16 [5]
  recordIndex := index
  plaintextOffset := offset
  plaintextLength := length
  compression := 0
  encoded := replicate length.toNat byte

def sampleBundle (object : ObjectId) (offset length count : UInt64) (proof : Bytes) :
    ProofBundle where
  requestId := Block.ofBytes 16 [6]
  bundleId := Block.ofBytes 16 [5]
  object := object
  requestedOffset := offset
  requestedLength := length
  coveredOffset := offset
  coveredLength := length
  dataRecordCount := count
  totalPlaintextLength := length
  proof := proof

theorem sampleRecord_taken {index offset length : UInt64} (byte : UInt8) {bundle : ProofBundle}
    (hbundle : bundle.bundleId = Block.ofBytes 16 [5])
    (hvalid : validateDataRecordHeader ⟨Block.ofBytes 16 [5], index, offset, length, 0,
      length.toNat⟩ = .ok ()) : Taken bundle (sampleRecord index offset length byte) := by
  refine ⟨?_, hbundle.symm, rfl⟩
  rw [← hvalid, DataRecord.validate, validateDataRecord, DataRecord.header]
  simp [sampleRecord]

/-- A group of the two-group object, with the object's proof for it. -/
def groupBundle (offset length count : UInt64) : ProofBundle :=
  sampleBundle sampleIdentity offset length count (Bao64.objectProof Bao64.sampleObject
    (offset.toNat / groupSize) (divCeil (offset.toNat + length.toNat) groupSize))

/-- The first group in two records. -/
def firstRecords : List DataRecord := [sampleRecord 0 0 32768 7, sampleRecord 1 32768 32768 7]

theorem identifies_sample : Identifies sampleIdentity .blake3Bao64 Bao64.sampleObject := by
  refine ⟨rfl, ?_, ?_⟩
  · rw [Object.proofRoot, Bao64.root_eq_hash Bao64.sampleObject_length_le, Bao64.hash_sample]
    rfl
  · rw [Bao64.sampleObject_length]
    rfl

theorem verifyRange_sample {offset n : ℕ} (cover : Cover groupSize Bao64.sampleObject.length offset
    (replicate n (7 : UInt8)).length) :
    verifyRange sampleIdentity offset (replicate n 7) (Bao64.objectProof Bao64.sampleObject
      (offset / groupSize) (divCeil (offset + n) groupSize)) =
        .ok ⟨sampleIdentity, offset, replicate n 7⟩ := by
  have hin := cover.inside
  have hverify := Bao64.verify_complete Bao64.sampleObject_ne_nil Bao64.sampleObject_length_le cover
    Bao64.splitRoot_sample
  rw [Bao64.sampleObject_length] at hin cover
  rw [Bao64.hash_sample, Bao64.sampleObject_length, length_replicate] at hverify
  have hsize : (replicate n (7 : UInt8)).length ≤ maxProofRangeBytes := by
    unfold groupSize maxProofRangeBytes at *
    omega
  rw [length_replicate] at hin
  exact verifyRange_eq_ok.mpr ⟨⟨_, (checkRangeGeometry_eq_ok (by decide)).mpr ⟨hsize, cover, rfl⟩⟩,
    ⟨.blake3Bao64, rfl, hverify (Bao64.slice_sample hin)⟩, rfl⟩

theorem groupBundle_valid {offset length count : UInt64}
    (hselected : HashTree.selected (Bao64.window (offset.toNat / groupSize)
      (divCeil (offset.toNat + length.toNat) groupSize)) (.node (.leaf 0) (.leaf 1)) = true)
    (hvalid : validateProofBundleWithProofLen (groupBundle offset length count) 64 = .ok ()) :
    (groupBundle offset length count).validate = .ok () := by
  have hproof : (groupBundle offset length count).proof.length = 64 := by
    rw [groupBundle, sampleBundle, Bao64.objectProof_length, Bao64.proofPairs_objectProof,
      Bao64.objectTree_sample, HashTree.proof, if_pos hselected]
    rfl
  rw [ProofBundle.validate, validateProofBundle, hproof, hvalid]

theorem cover_first :
    Cover groupSize Bao64.sampleObject.length 0 (replicate groupSize (7 : UInt8)).length := by
  rw [Bao64.sampleObject_length, length_replicate]
  exact ⟨rfl, groupSize_pos, by omega, .inr (by simp)⟩

theorem firstRecords_data : firstRecords.flatMap (·.encoded) = replicate groupSize 7 := by
  have hsum : 32768 + 32768 = groupSize := by decide
  rw [← hsum, ← replicate_append_replicate, firstRecords, flatMap_cons, flatMap_singleton]
  rfl

theorem firstRecords_carried :
    Carries Bao64.sampleObject (groupBundle 0 65536 2) firstRecords := by
  refine ⟨rfl, ?_, rfl, ⟨rfl, rfl, trivial⟩, ?_⟩
  · simp only [firstRecords, mem_cons, forall_eq_or_imp, not_mem_nil, false_implies, implies_true,
      and_true]
    exact ⟨sampleRecord_taken 7 rfl (by decide), sampleRecord_taken 7 rfl (by decide)⟩
  · rw [firstRecords_data]
    exact Bao64.slice_sample (by decide)

theorem verify_firstRecords {records : List DataRecord} (hperm : records.Perm firstRecords) :
    verifyTypedBundleRef sampleIdentity (groupBundle 0 65536 2) records =
      .ok ⟨sampleIdentity, 0, replicate groupSize 7⟩ := by
  have hvalid : (groupBundle 0 65536 2).validate = .ok () :=
    groupBundle_valid (by decide) (by decide)
  have hverify := firstRecords_carried.verify_eq Bao64.sampleObject_length_le hvalid hperm
  rw [firstRecords_data] at hverify
  exact hverify.trans (verifyRange_sample cover_first)

/-- The second half of the group arrives before the first. -/
theorem verified_bundle_authentic_two_records :
    ∃ verified, Bao64.SplitRoot ∧ Identifies sampleIdentity .blake3Bao64 Bao64.sampleObject ∧
      verifyTypedBundleRef sampleIdentity (groupBundle 0 65536 2) firstRecords.reverse =
        .ok verified ∧
      CollisionFree .blake3Bao64 Bao64.sampleObject 0 verified.data (groupBundle 0 65536 2).proof ∧
      slice? Bao64.sampleObject 0 (0 + 65536) = some verified.data := by
  have hverified := verify_firstRecords firstRecords.reverse_perm
  have hfree := Bao64.collisionFree_sample cover_first le_rfl
  rw [length_replicate] at hfree
  exact ⟨_, Bao64.splitRoot_sample, identifies_sample, hverified, hfree,
    (verified_bundle_authentic Bao64.splitRoot_sample identifies_sample hverified).1 hfree⟩

end Sample

end ObjectTransfer.Ranges
