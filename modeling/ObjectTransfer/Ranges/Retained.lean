import ObjectTransfer.Ranges.Authentic

/-! # Verified bytes under another identity

The groups of a verified range are hashed once and kept. A proof for another object of the suite is
then checked against the kept values, and agrees with a check of the bytes themselves.
-/

variable {root : Digest} {data proof : Bytes}

namespace ObjectTransfer.Proof

variable {objectLen offset : ℕ}

namespace Bao64
open Foundations Streaming

variable [Blake3]

/-- Check positioned group values of an object of several groups. -/
def verifyGroupCvs (expectedRoot : Digest) (objectLen coveredOffset coveredLength : ℕ)
    (cvs : List Digest) (proof : Bytes) : Except (Abort Error) Unit := do
  let units ← checkCover groupSize objectLen coveredOffset coveredLength
  if h : objectLen ≤ groupSize ∨ cvs.length ≠ units.2 - units.1 then .error (.error .outOfBounds)
  else
    verifyTree expectedRoot objectLen units.1 units.2 proof (fun index => cvs[index - units.1]?)
      (rootNode_count_ne_one fun hle => h (.inl hle))

/-- Only the covered leaves are looked at. -/
theorem verifyChild_congr {first stop : ℕ} {leaf leaf' : ℕ → Option Digest}
    (hleaf : ∀ index, first ≤ index → index < stop → leaf index = leaf' index) (node : Node)
    (proof : Bytes) (cursor : ℕ) (expected : Digest) :
    verifyChild node first stop leaf proof cursor expected =
      verifyChild node first stop leaf' proof cursor expected := by
  fun_induction verifyChild node first stop leaf proof cursor expected with
  | case1 node cursor expected hout => rw [verifyChild, if_pos hout]
  | case2 node cursor expected hin hone =>
    have hfirst : first < saturatingAdd node.start node.count := (not_not.mp hin).2
    have hbound : saturatingAdd node.start node.count ≤ node.start + node.count := min_le_left _ _
    rw [verifyChild, if_neg hin, dif_pos hone, hleaf node.start (by omega) (not_not.mp hin).1]
  | case3 node cursor expected hin hmany ihleft ihright =>
    rw [verifyChild, if_neg hin, dif_neg hmany]
    simp only [ihleft, ihright]

variable [Sha256]

theorem verifyGroupCvs_eq (hfit : objectLen ≤ u64Max) (hmany : ¬ objectLen ≤ groupSize) :
    verifyGroupCvs root objectLen offset data.length
        ((List.range (divCeil data.length groupSize)).map fun k =>
          Blake3.chainingValue (offset + groupSize * k) (chunkAt groupSize data k)) proof =
      verify root objectLen offset data proof := by
  rw [verifyGroupCvs, verify]
  cases hunits : checkCover groupSize objectLen offset data.length with
  | error => rfl
  | ok units =>
    obtain ⟨cover, rfl⟩ := (checkCover_eq_ok hfit units).mp hunits
    have hcount := cover.unitCount_eq groupSize_pos
    have hoff := cover.offset_eq
    simp only [ok_bind, List.length_map, List.length_range, hmany, hcount, ne_eq,
      not_true_eq_false, or_false, dif_neg, not_false_eq_true]
    have hleaf : ∀ index, offset / groupSize ≤ index →
        index < divCeil (offset + data.length) groupSize →
        ((List.range (divCeil (offset + data.length) groupSize - offset / groupSize)).map fun k =>
          Blake3.chainingValue (offset + groupSize * k) (chunkAt groupSize data k))[
            index - offset / groupSize]? = presentedCv (offset / groupSize) data index := by
      intro index hlow hhigh
      have hplace : offset + groupSize * (index - offset / groupSize) = groupSize * index := by
        have := Nat.mul_le_mul_left groupSize hlow
        rw [Nat.mul_sub]
        omega
      rw [presentedCv_eq cover ⟨hlow, hhigh⟩, List.getElem?_map, List.getElem?_range (by omega),
        Option.map_some, hplace]
      rfl
    unfold verifyTree
    simp only [verifyChild_congr hleaf]

end Bao64

namespace Bep52
open Foundations Streaming

variable [Sha256]

def verifyPieceHashes (expectedRoot : Digest) (objectLen coveredOffset coveredLength : ℕ)
    (hashes : List Digest) (proof : Bytes) : Except (Abort Error) Unit := do
  let units ← checkCover pieceSize objectLen coveredOffset coveredLength
  rejectIf (objectLen ≤ pieceSize) (.error .outOfBounds)
  verifyHashes expectedRoot objectLen units.1 units.2 hashes proof

theorem verifyPieceHashes_eq [Blake3] (hmany : ¬ objectLen ≤ pieceSize) :
    verifyPieceHashes root objectLen offset data.length (objectHashes data) proof =
      verify root objectLen offset data proof := by
  simp only [verifyPieceHashes, verify, if_neg hmany, rejectIf_neg hmany, objectHashes_eq]
  rfl

end Bep52

end ObjectTransfer.Proof

namespace ObjectTransfer.Ranges
open Foundations Streaming Proof Codec

section Kept

variable [Blake3] [Sha256]

/-- A verified range with the hashes of its groups, and the root of its first group where it starts
the object. -/
structure RetainedRange where
  range : VerifiedRange
  commitments : List Digest
  smallRoot : Option Digest

/-- The groups of a segment, hashed where they sit. -/
def commitmentsAt (suite : Suite) (offset : ℕ) (data : Bytes) (objectLength : ℕ) :
    Except (Abort Proof.Error) (List Digest) :=
  match suite with
  | .blake3Bao64 => Bao64.groupCvsAt offset data objectLength
  | .sha256Bep52 => Bep52.pieceHashesAt offset data objectLength

def verifyCommitments (suite : Suite) (root : Digest) (objectLength coveredOffset coveredLength : ℕ)
    (hashes : List Digest) (proof : Bytes) : Except (Abort Proof.Error) Unit :=
  match suite with
  | .blake3Bao64 =>
    Bao64.verifyGroupCvs root objectLength coveredOffset coveredLength hashes proof
  | .sha256Bep52 =>
    Bep52.verifyPieceHashes root objectLength coveredOffset coveredLength hashes proof

/-- The hashes of some groups; a range outside them is a panic. -/
def hashesIn (hashes : List Digest) (first stop : ℕ) : Option (List Digest) :=
  if first ≤ stop ∧ stop ≤ hashes.length then some ((hashes.drop first).take (stop - first))
  else none

namespace RetainedRange

/-- The source expects the suite to be known and the geometry to be that of a verified range. -/
def new (range : VerifiedRange) : Option RetainedRange := do
  let suite ← suiteOf range.object.suite.toNat
  let commitments ← (commitmentsAt suite range.coveredOffset range.data
    range.object.length.toNat).toOption
  if range.coveredOffset = 0 then
    let root ← Object.proofRoot suite (range.data.take groupSize)
    return ⟨range, commitments, some root⟩
  else return ⟨range, commitments, none⟩

/-- The proof against what was kept for the groups from `relative` to `relativeEnd`. -/
def verifyKept (retained : RetainedRange) (object : ObjectId)
    (coveredOffset coveredLength relative relativeEnd : ℕ) (proof : Bytes) :
    Except (Abort Error) Unit :=
  if object.length.toNat ≤ rangeUnitBytes then
    rejectIf (proof ≠ [] ∨ retained.smallRoot ≠ some object.root) (.error .proofInvalid)
  else do
    let hashes ← okOr (hashesIn retained.commitments (relative / groupSize)
      (divCeil relativeEnd groupSize)) .panic
    let suite := if object.suite = 1 then .blake3Bao64 else .sha256Bep52
    (verifyCommitments suite object.root object.length.toNat coveredOffset coveredLength hashes
      proof).mapError (Abort.map fun _ => .proofInvalid)

def verifyFor (retained : RetainedRange) (object : ObjectId) (coveredOffset coveredLength : ℕ)
    (proof : Bytes) : Except (Abort Error) VerifiedRange := do
  object.validate.mapError fun _ => .error .proofInvalid
  rejectIf (object.suite ≠ retained.range.object.suite) (.error .proofInvalid)
  let coveredEnd ← checkRangeGeometry object.length.toNat coveredOffset coveredLength
  let relative ← okOr (checkedSub coveredOffset retained.range.coveredOffset)
    (.error .lengthExceeded)
  let relativeEnd ← okOr (checkedSub coveredEnd retained.range.coveredOffset) .panic
  let data ← okOr (slice? retained.range.data relative relativeEnd) (.error .lengthExceeded)
  rejectIf (relativeEnd ≠ retained.range.data.length ∧ relativeEnd % groupSize ≠ 0)
    (.error .lengthExceeded)
  retained.verifyKept object coveredOffset coveredLength relative relativeEnd proof
  return ⟨object, coveredOffset, data⟩

/-- The bytes of a cover are kept, and it ends with a group or with what was kept. -/
structure Keeps (retained : RetainedRange) (coveredOffset coveredLength : ℕ) (data : Bytes) :
    Prop where
  after : retained.range.coveredOffset ≤ coveredOffset
  bytes : slice? retained.range.data (coveredOffset - retained.range.coveredOffset)
    (coveredOffset + coveredLength - retained.range.coveredOffset) = some data
  closed : coveredOffset + coveredLength - retained.range.coveredOffset =
      retained.range.data.length ∨
    (coveredOffset + coveredLength - retained.range.coveredOffset) % groupSize = 0

end RetainedRange

def groupHash : Suite → ℕ → Bytes → Digest
  | .blake3Bao64 => Blake3.chainingValue
  | .sha256Bep52 => fun _ => pieceHash

def groupHashes (suite : Suite) (offset : ℕ) (data : Bytes) : List Digest :=
  (List.range (divCeil data.length groupSize)).map fun k =>
    groupHash suite (offset + groupSize * k) (chunkAt groupSize data k)

variable {suite : Suite}

theorem commitmentsAt_eq_ok {offset objectLength : ℕ}
    (hfit : objectLength ≤ u64Max) {hashes : List Digest} :
    commitmentsAt suite offset data objectLength = .ok hashes ↔
      Cover groupSize objectLength offset data.length ∧ groupHashes suite offset data = hashes := by
  cases suite with
  | blake3Bao64 => exact Bao64.groupCvsAt_eq_ok hfit
  | sha256Bep52 => exact Bep52.pieceHashesAt_eq_ok hfit

variable {objectLength offset : ℕ}

theorem verifyCommitments_eq (hfit : objectLength ≤ u64Max) (hmany : ¬ objectLength ≤ groupSize) :
    verifyCommitments suite root objectLength offset data.length (groupHashes suite offset data)
      proof = verifySuite suite root objectLength offset data proof := by
  cases suite with
  | blake3Bao64 => exact Bao64.verifyGroupCvs_eq hfit hmany
  | sha256Bep52 => exact Bep52.verifyPieceHashes_eq hmany

theorem verifySuite_small (hfit : objectLength ≤ u64Max) (hone : objectLength ≤ groupSize)
    (cover : Cover groupSize objectLength offset data.length) :
    verifySuite suite root objectLength offset data proof = .ok () ↔
      proof = [] ∧ Object.proofRoot suite data = some root := by
  have hunits := (checkCover_eq_ok hfit _).mpr ⟨cover, rfl⟩
  cases suite with
  | blake3Bao64 =>
    simp only [verifySuite, Bao64.verify, hunits, ok_bind, dif_pos hone, bind_eq_ok, rejectIf_eq_ok,
      okOr_eq_ok, not_not, Object.proofRoot]
    constructor
    · rintro ⟨-, hproof, actual, hactual, rfl⟩
      exact ⟨hproof, hactual⟩
    · rintro ⟨hproof, hroot⟩
      exact ⟨(), hproof, root, hroot, rfl⟩
  | sha256Bep52 =>
    obtain ⟨hzero, hwhole⟩ := cover.whole hone
    have hpos := cover.nonempty
    have hcount : divCeil objectLength Bep52.pieceSize = 1 := divCeil_eq_one (by omega) hone
    have hstop : divCeil (offset + data.length) groupSize = 1 := by
      rw [hzero, zero_add]
      exact divCeil_eq_one hpos (by omega)
    have hfirst : offset / groupSize = 0 := by rw [hzero, Nat.zero_div]
    have hunits' : checkCover Bep52.pieceSize objectLength offset data.length = .ok (0, 1) := by
      rw [← hfirst, ← hstop]
      exact hunits
    have hone' : objectLength ≤ Bep52.pieceSize := hone
    simp only [verifySuite, Bep52.verify, hunits', ok_bind, if_pos hone', Bep52.verifyHashes, hcount,
      Bep52.decodeRoot, if_pos, bind_eq_ok, rejectIf_eq_ok, okOr_eq_ok, not_not, Object.proofRoot,
      Option.map_eq_some_iff]
    constructor
    · rintro ⟨hashes, ⟨value, hvalue, rfl⟩, actual, ⟨-, hempty, hactual⟩, rfl⟩
      obtain rfl := Option.some.inj hactual
      exact ⟨by simpa using hempty, hvalue⟩
    · rintro ⟨hempty, hroot⟩
      exact ⟨[root], ⟨root, hroot, rfl⟩, root, ⟨(), by simpa using hempty, rfl⟩, rfl⟩

namespace RetainedRange

variable {retained : RetainedRange} {object : ObjectId} {coveredOffset coveredLength : ℕ}

variable {range : VerifiedRange}

theorem new_eq_some (h : new range = some retained) :
    ∃ suite, suiteOf range.object.suite.toNat = some suite ∧
      Cover groupSize range.object.length.toNat range.coveredOffset range.data.length ∧
      retained.range = range ∧
      retained.commitments = groupHashes suite range.coveredOffset range.data ∧
      (range.coveredOffset = 0 →
        retained.smallRoot = Object.proofRoot suite (range.data.take groupSize)) := by
  simp only [new, Option.bind_eq_bind, Option.bind_eq_some_iff] at h
  obtain ⟨suite, hsuite, hashes, hhashes, h⟩ := h
  have hok : commitmentsAt suite range.coveredOffset range.data range.object.length.toNat =
      .ok hashes := by
    cases hcommit : commitmentsAt suite range.coveredOffset range.data
        range.object.length.toNat with
    | error => simp [hcommit, Except.toOption] at hhashes
    | ok =>
      rw [hcommit] at hhashes
      exact congrArg Except.ok (Option.some.inj hhashes)
  have hfit : range.object.length.toNat ≤ u64Max := Nat.le_of_lt_succ range.object.length.toNat_lt
  obtain ⟨cover, rfl⟩ := (commitmentsAt_eq_ok hfit).mp hok
  refine ⟨suite, hsuite, cover, ?_⟩
  split_ifs at h with hzero
  · obtain ⟨root, hroot, h⟩ := Option.bind_eq_some_iff.mp h
    obtain rfl := Option.some.inj h
    exact ⟨rfl, rfl, fun _ => hroot.symm⟩
  · obtain rfl := Option.some.inj h
    exact ⟨rfl, rfl, fun hcon => absurd hcon hzero⟩

/-- The groups of a cover, hashed as part of the kept range. -/
theorem Keeps.hashes (h : retained.Keeps coveredOffset coveredLength data)
    (hrange : retained.range.coveredOffset % groupSize = 0) (hcover : coveredOffset % groupSize = 0)
    (hkept : retained.commitments =
      groupHashes suite retained.range.coveredOffset retained.range.data) :
    hashesIn retained.commitments ((coveredOffset - retained.range.coveredOffset) / groupSize)
        (divCeil (coveredOffset + coveredLength - retained.range.coveredOffset) groupSize) =
      some (groupHashes suite coveredOffset data) := by
  obtain ⟨hafter, hbytes, hclosed⟩ := h
  obtain ⟨hle, hin, rfl⟩ := slice?_eq_some.mp hbytes
  obtain ⟨a, ha⟩ : groupSize ∣ coveredOffset - retained.range.coveredOffset :=
    Nat.dvd_sub (Nat.dvd_of_mod_eq_zero hcover) (Nat.dvd_of_mod_eq_zero hrange)
  generalize hstop : coveredOffset + coveredLength - retained.range.coveredOffset = stop at *
  rw [ha] at hle hbytes ⊢
  have hlength : ((retained.range.data.drop (groupSize * a)).take (stop - groupSize * a)).length =
      stop - groupSize * a := by
    rw [List.length_take, List.length_drop]
    omega
  have hcount : divCeil stop groupSize = a + divCeil (stop - groupSize * a) groupSize := by
    rw [← divCeil_mul_add groupSize_pos, Nat.add_sub_cancel' hle]
  have hall : divCeil stop groupSize ≤ divCeil retained.range.data.length groupSize :=
    divCeil_mono groupSize_pos hin
  rw [Nat.mul_div_cancel_left a groupSize_pos, hashesIn, if_pos, hkept]
  · refine congrArg some (List.ext_getElem? fun k => ?_)
    rw [groupHashes, groupHashes, hlength, List.getElem?_take, List.getElem?_drop,
      List.getElem?_map, List.getElem?_map]
    by_cases hk : k < divCeil (stop - groupSize * a) groupSize
    · have hplace := (lt_divCeil_iff groupSize_pos).mp hk
      rw [if_pos (by omega), List.getElem?_range (by omega), List.getElem?_range hk,
        Option.map_some, Option.map_some]
      have hoffset : retained.range.coveredOffset + groupSize * (a + k) =
          coveredOffset + groupSize * k := by
        rw [mul_add]
        omega
      have hchunk : chunkAt groupSize retained.range.data (a + k) =
          chunkAt groupSize ((retained.range.data.drop (groupSize * a)).take
            (stop - groupSize * a)) k := by
        rw [chunkAt, chunkAt, List.drop_take, List.drop_drop, List.take_take, ← mul_add]
        rcases hclosed with hend | hmod
        · rw [hend, List.take_eq_take_iff, List.length_drop, mul_add]
          omega
        · obtain ⟨b, hb⟩ := Nat.dvd_of_mod_eq_zero hmod
          have hkb : a + k < b := Nat.lt_of_mul_lt_mul_left (a := groupSize) (by
            omega)
          have := Nat.mul_le_mul_left groupSize hkb
          rw [Nat.mul_succ, mul_add] at this
          rw [min_eq_left (by omega)]
      rw [hoffset, hchunk]
    · rw [if_neg (by omega), List.getElem?_eq_none (by simpa using hk)]
      rfl
  · rw [hkept, groupHashes, List.length_map, List.length_range]
    omega

/-- What was kept passes exactly the proofs the bytes pass. -/
theorem Keeps.verifyKept_eq_ok (hnew : new range = some retained)
    (h : retained.Keeps coveredOffset data.length data)
    (hobject : suiteOf object.suite.toNat = some suite)
    (hsuite : object.suite = retained.range.object.suite)
    (cover : Cover groupSize object.length.toNat coveredOffset data.length) :
    retained.verifyKept object coveredOffset data.length
        (coveredOffset - retained.range.coveredOffset)
        (coveredOffset + data.length - retained.range.coveredOffset) proof = .ok () ↔
      verifySuite suite object.root object.length.toNat coveredOffset data proof = .ok () := by
  obtain ⟨suite', hsuite', hcover', rfl, hhashes, hroot⟩ := new_eq_some hnew
  rw [← hsuite, hobject] at hsuite'
  obtain rfl := Option.some.inj hsuite'
  have hfit : object.length.toNat ≤ u64Max := Nat.le_of_lt_succ object.length.toNat_lt
  by_cases hone : object.length.toNat ≤ rangeUnitBytes
  · obtain ⟨hzero, hwhole⟩ := cover.whole hone
    have hpos := cover.nonempty
    obtain ⟨hafter, hbytes, hclosed⟩ := h
    have hstart : retained.range.coveredOffset = 0 := by omega
    rw [hzero, hstart, zero_add, Nat.sub_zero] at hbytes hclosed
    obtain ⟨-, hin, hdata⟩ := slice?_eq_some.mp hbytes
    -- the first group kept is the cover, whether the kept bytes end in it or after it
    have htake : retained.range.data.take groupSize = data := by
      rw [List.drop_zero, Nat.sub_zero] at hdata
      rw [← hdata, List.take_eq_take_iff]
      have hunit : data.length ≤ groupSize := hwhole ▸ hone
      rcases hclosed with hend | hmod
      · omega
      · have := Nat.le_of_dvd hpos (Nat.dvd_of_mod_eq_zero hmod)
        omega
    rw [verifySuite_small hfit hone cover, verifyKept, if_pos hone, rejectIf_eq_ok, hroot hstart,
      htake, not_or, not_not, not_not]
  · have hsuite1 : (if object.suite = 1 then Suite.blake3Bao64 else .sha256Bep52) = suite := by
      rw [suiteOf] at hobject
      split_ifs at hobject with h1 h2
      · rw [if_pos (UInt16.toNat_inj.mp h1)]
        exact Option.some.inj hobject
      · rw [if_neg fun heq => h1 (congrArg UInt16.toNat heq)]
        exact Option.some.inj hobject
    rw [verifyKept, if_neg hone, h.hashes hcover'.aligned cover.aligned hhashes, okOr_some, ok_bind]
    dsimp only
    rw [hsuite1, verifyCommitments_eq hfit hone, mapError_eq_ok]

end RetainedRange

/-- For a valid identity in the suite of the kept range, the kept hashes accept a cover exactly when
its bytes are kept in whole groups and pass with the same proof. -/
theorem retained_agrees_with_bytes {range : VerifiedRange} {retained : RetainedRange}
    (hnew : RetainedRange.new range = some retained) (object : ObjectId)
    (coveredOffset coveredLength : ℕ) (proof : Bytes) (verified : VerifiedRange) :
    retained.verifyFor object coveredOffset coveredLength proof = .ok verified ↔
      object.validate = .ok () ∧ object.suite = range.object.suite ∧
        ∃ data, retained.Keeps coveredOffset coveredLength data ∧
          verifyRange object coveredOffset data proof = .ok verified := by
  have hfit : object.length.toNat ≤ u64Max := Nat.le_of_lt_succ object.length.toNat_lt
  obtain ⟨suite, hsuite, -, rfl, -⟩ := RetainedRange.new_eq_some hnew
  simp only [RetainedRange.verifyFor, bind_eq_ok, mapError_eq_ok, rejectIf_eq_ok, not_not, okOr_eq_ok,
    checkRangeGeometry_eq_ok hfit, verifyRange_eq_ok, pure_eq_ok, checkedSub_eq_some]
  constructor
  · rintro ⟨⟨⟩, hvalid, ⟨⟩, hsame, _, ⟨hsize, cover, rfl⟩, _, ⟨hafter, rfl⟩, _, ⟨-, rfl⟩, data, hbytes,
      ⟨⟩, hclosed, ⟨⟩, hkept, rfl⟩
    have hlength : data.length = coveredLength := by
      rw [slice?_length hbytes]
      omega
    subst hlength
    have hkeeps : retained.Keeps coveredOffset data.length data := ⟨hafter, hbytes, by omega⟩
    rw [← hsame] at hsuite
    exact ⟨hvalid, hsame, data, hkeeps, ⟨_, hsize, cover, rfl⟩,
      ⟨suite, hsuite, (hkeeps.verifyKept_eq_ok hnew hsuite hsame cover).mp hkept⟩, rfl⟩
  · rintro ⟨hvalid, hsame, data, hkeeps, ⟨_, hsize, cover, rfl⟩, ⟨named, hnamed, hproof⟩, rfl⟩
    have hlength : data.length = coveredLength := by
      have := hkeeps.after
      rw [slice?_length hkeeps.bytes]
      omega
    subst hlength
    have hclosed := hkeeps.closed
    have hafter := hkeeps.after
    exact ⟨(), hvalid, (), hsame, _, ⟨hsize, cover, rfl⟩, _, ⟨hafter, rfl⟩, _, ⟨by omega, rfl⟩, data,
      hkeeps.bytes, (), by omega, (),
      (hkeeps.verifyKept_eq_ok hnew hnamed hsame cover).mpr hproof, rfl⟩

/-- A whole object is retained with the hash of each group and the root of its first. -/
theorem new_whole {object : ObjectId} {D : Bytes} (hsuite : suiteOf object.suite.toNat = some suite)
    (hne : D ≠ []) (hlength : object.length.toNat = D.length) {first : Digest}
    (hfirst : Object.proofRoot suite (D.take groupSize) = some first) :
    RetainedRange.new ⟨object, 0, D⟩ = some ⟨⟨object, 0, D⟩, groupHashes suite 0 D, some first⟩ := by
  have hfit : object.length.toNat ≤ u64Max := Nat.le_of_lt_succ object.length.toNat_lt
  have hcover : Cover groupSize object.length.toNat 0 D.length :=
    ⟨Nat.zero_mod _, List.length_pos_iff.mpr hne, by omega, .inl (by omega)⟩
  have hcommit : commitmentsAt suite 0 D object.length.toNat = .ok (groupHashes suite 0 D) :=
    (commitmentsAt_eq_ok hfit).mpr ⟨hcover, rfl⟩
  rw [RetainedRange.new, hsuite, some_bind, hcommit]
  dsimp only
  rw [hfirst]
  rfl

def byteIdentity (suite : UInt16) (root : Digest) : ObjectId := ⟨suite, root, 1⟩

omit [Blake3] [Sha256] in
theorem byteIdentity_cover : Cover groupSize 1 0 [(7 : UInt8)].length :=
  ⟨rfl, Nat.one_pos, le_rfl, .inl rfl⟩

/-- The byte verifies under its root, and is retained. -/
theorem byteIdentity_retained (identifier : UInt16) (hsuite : suiteOf identifier.toNat = some suite)
    (hroot : Object.proofRoot suite [7] = some root) :
    verifyRange (byteIdentity identifier root) 0 [7] [] =
        .ok ⟨byteIdentity identifier root, 0, [7]⟩ ∧
      ∃ retained, RetainedRange.new ⟨byteIdentity identifier root, 0, [7]⟩ = some retained ∧
        retained.Keeps 0 1 [7] := by
  have hlength : (byteIdentity identifier root).length.toNat = 1 := rfl
  refine ⟨verifyRange_eq_ok.mpr ⟨⟨1, ?_⟩, ⟨suite, hsuite, ?_⟩, rfl⟩, _,
    new_whole hsuite (by simp) rfl hroot, Nat.zero_le _, rfl, .inl rfl⟩
  · rw [hlength]
    decide
  · exact (verifySuite_small (by decide) (by decide) byteIdentity_cover).mpr ⟨rfl, hroot⟩

end Kept

section Sample

attribute [local instance] Bao64.sampleBlake3 Bao64.sampleSha256

theorem byteRoot_blake3 : Object.proofRoot .blake3Bao64 [7] = some (Block.ofBytes 32 [7]) :=
  Bao64.root_eq_hash (by decide)

/-- An object of two groups is retained as a whole, and each group is verified once more. -/
theorem retained_agrees_with_bytes_two_ranges : ∃ retained,
    RetainedRange.new ⟨sampleIdentity, 0, Bao64.sampleObject⟩ = some retained ∧
      retained.verifyFor sampleIdentity 0 65536 (groupBundle 0 65536 2).proof =
        .ok ⟨sampleIdentity, 0, List.replicate groupSize 7⟩ ∧
      retained.verifyFor sampleIdentity 65536 1 (groupBundle 65536 1 1).proof =
        .ok ⟨sampleIdentity, 65536, [7]⟩ := by
  have hsuite : suiteOf sampleIdentity.suite.toNat = some .blake3Bao64 := rfl
  have hfirst : (Bao64.sampleObject.take groupSize).length ≤ isizeMax := by
    rw [List.length_take]
    exact (min_le_left _ _).trans (by decide)
  have hnew := new_whole hsuite Bao64.sampleObject_ne_nil identifies_sample.length
    (Bao64.root_eq_hash hfirst)
  refine ⟨_, hnew, ?_, ?_⟩
  · refine (retained_agrees_with_bytes hnew _ _ _ _ _).mpr
      ⟨rfl, rfl, _, ⟨le_rfl, ?_, .inr rfl⟩, verifyRange_sample cover_first⟩
    exact Bao64.slice_sample (by decide)
  · refine (retained_agrees_with_bytes hnew _ _ _ _ _).mpr
      ⟨rfl, rfl, _, ⟨Nat.zero_le _, ?_, .inl ?_⟩, verifyRange_sample (n := 1) Bao64.cover_sample⟩
    · exact Bao64.slice_sample (n := 1) le_rfl
    · exact Bao64.sampleObject_length.symm

/-- Bytes retained under SHA-256 and asked for under BLAKE3: they verify, but not from what was
kept. -/
theorem retained_refuses_other_suite : ∃ range retained object,
    verifyRange range.object 0 [7] [] = .ok range ∧ RetainedRange.new range = some retained ∧
      retained.Keeps 0 1 [7] ∧ verifyRange object 0 [7] [] = .ok ⟨object, 0, [7]⟩ ∧
      retained.verifyFor object 0 1 [] = .error (.error .proofInvalid) := by
  obtain ⟨root, hsha⟩ : ∃ root, Object.proofRoot .sha256Bep52 [7] = some root :=
    ⟨_, Bep52.root_single (D := [7]) nofun (by decide)⟩
  obtain ⟨hrange, retained, hnew, hkeeps⟩ := byteIdentity_retained 2 rfl hsha
  obtain ⟨hverify, -⟩ := byteIdentity_retained 1 rfl byteRoot_blake3
  obtain ⟨-, -, -, hsame, -⟩ := RetainedRange.new_eq_some hnew
  refine ⟨⟨byteIdentity 2 root, 0, [7]⟩, retained, byteIdentity 1 (Block.ofBytes 32 [7]), hrange, hnew,
    hkeeps, hverify, ?_⟩
  have hvalid : (byteIdentity 1 (Block.ofBytes 32 [7])).validate = .ok () := rfl
  have hother : (byteIdentity 1 (Block.ofBytes 32 [7])).suite ≠ (byteIdentity 2 root).suite :=
    (by decide : (1 : UInt16) ≠ 2)
  rw [RetainedRange.verifyFor, hvalid, hsame, rejectIf_pos hother]
  rfl

end Sample

end ObjectTransfer.Ranges
