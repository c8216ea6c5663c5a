import ObjectTransfer.Object.Snapshots
import ObjectTransfer.Ranges.Authentic

/-! # Served ranges are accepted

What a checkpoint proves, sent with the bytes it covers, passes every check of the receiver, in
whatever order the records arrive.
-/

namespace ObjectTransfer.Ranges
open Foundations Streaming Proof Codec List

section Served

variable {bundle : ProofBundle} {used : List DataRecord} {D : Bytes}

theorem validate_range (h : bundle.validate = .ok ()) :
    0 < bundle.requestedLength.toNat ∧
      bundle.requestedOffset.toNat + bundle.requestedLength.toNat ≤ bundle.object.length.toNat ∧
      checkRangeGeometry bundle.object.length.toNat bundle.coveredOffset.toNat
        bundle.coveredLength.toNat =
          .ok (bundle.coveredOffset.toNat + bundle.coveredLength.toNat) := by
  simp only [ProofBundle.validate, validateProofBundle, validateProofBundleWithProofLen,
    bind_eq_ok, rejectIf_eq_ok, okOr_eq_ok, not_or, not_not, checkedMul_eq_some] at h
  obtain ⟨-, -, -, ⟨-, hpos, hrequested, hends, hoffset, -⟩, stop, hstop, _, ⟨-, rfl⟩, hend⟩ := h
  rw [endsPast, hstop, decide_eq_true_eq] at hends
  rw [← UInt64.toNat_inj] at hpos
  rw [checkedAdd_eq_some] at hstop hend
  have hle := le_mul_divCeil (show 0 < groupBytes by decide) stop
  have hlt := mul_divCeil_lt (show 0 < groupBytes by decide) stop
  simp only [checkRangeGeometry, checkedOffset, bind_eq_ok, rejectIf_eq_ok, okOr_eq_ok,
    checkedAdd_eq_some, pure_eq_ok]
  simp only [groupBytes, rangeUnitBytes, maxRequestedRange, maxProofRangeBytes,
    UInt64.toNat_zero] at *
  exact ⟨by omega, by omega, (), by omega, _, ⟨hend.1, rfl⟩, (), by omega, (), by omega, rfl⟩

variable [Blake3] [Sha256] {suite : Suite}

theorem rangeCover_verifies (hsplit : Bao64.SplitRoot) (hne : D ≠ []) (hlen : D.length ≤ isizeMax)
    {root : Digest} (hroot : Object.proofRoot suite D = some root) {offset length : ℕ}
    (hpos : 0 < length) (hin : offset + length ≤ D.length) {cover : RangeCover}
    (hcover : Object.rangeCover suite D offset length = .ok cover) {data : Bytes}
    (hdata : slice? D cover.coveredOffset (cover.coveredOffset + cover.coveredLength) = some data) :
    verifySuite suite root D.length cover.coveredOffset data cover.proof = .ok () := by
  cases suite with
  | blake3Bao64 =>
    obtain ⟨offset', data', haligned, hslice, -, hprove⟩ := (Bao64.proves hlen).widens hpos hin
    rw [Object.rangeCover, hprove] at hcover
    obtain rfl := Except.ok.inj hcover
    obtain rfl := Option.some.inj (hdata.symm.trans hslice)
    obtain rfl := Option.some.inj ((Bao64.root_eq_hash hlen).symm.trans hroot)
    exact Bao64.verify_complete hne hlen haligned hsplit hslice
  | sha256Bep52 =>
    obtain ⟨offset', data', haligned, hslice, -, hprove⟩ := (Bep52.proves hne hlen).widens hpos hin
    rw [Object.rangeCover, hprove] at hcover
    obtain rfl := Except.ok.inj hcover
    obtain rfl := Option.some.inj (hdata.symm.trans hslice)
    exact Bep52.verify_complete hne hlen haligned hroot hslice

/-- What a checkpoint proves of its bytes is accepted with the records of them in any order, and
releases them. -/
theorem served_bundle_verifies (hsplit : Bao64.SplitRoot) {checkpoint : Object.ObjectCheckpoint}
    (hkeeps : checkpoint.Keeps suite D) {object : ObjectId} (hobject : Identifies object suite D)
    (hvalid : bundle.validate = .ok ()) (hsame : bundle.object = object)
    (hcover : checkpoint.prove bundle.requestedOffset.toNat bundle.requestedLength.toNat =
      .ok ⟨bundle.coveredOffset.toNat, bundle.coveredLength.toNat, bundle.proof⟩)
    (hused : Carries D bundle used) {records : List DataRecord} (hperm : records.Perm used) :
    verifyTypedBundleRef object bundle records =
      .ok ⟨object, bundle.coveredOffset.toNat, used.flatMap (·.encoded)⟩ := by
  subst hsame
  obtain ⟨hpos, hin, hgeometry⟩ := validate_range hvalid
  rw [hobject.length] at hin
  have hne : D ≠ [] := ne_nil_of_length_pos (by omega)
  rw [hkeeps.prove_eq, Object.fromProof, mapError_eq_ok] at hcover
  have hverify := rangeCover_verifies hsplit hne hkeeps.limit hobject.root hpos hin hcover
    hused.bytes
  have hlength := slice?_length hused.bytes
  rw [Nat.add_sub_cancel_left] at hlength
  rw [← hlength] at hgeometry
  rw [← hobject.length] at hverify
  rw [hused.verify_eq hkeeps.limit hvalid hperm]
  exact verifyRange_eq_ok.mpr ⟨⟨_, hgeometry⟩, ⟨suite, hobject.suite ▸ suiteOf_identifier suite,
    hverify⟩, rfl⟩

end Served

section Sample

attribute [local instance] Bao64.sampleBlake3 Bao64.sampleSha256

/-- An object of two bytes, each in a record of its own; the second record arrives first. -/
theorem served_bundle_verifies_two_records :
    ∃ (checkpoint : Object.ObjectCheckpoint) (bundle : ProofBundle) (used : List DataRecord),
      Bao64.SplitRoot ∧ checkpoint.Keeps .blake3Bao64 [7, 9] ∧
      Identifies bundle.object .blake3Bao64 [7, 9] ∧ used.length = 2 ∧ Carries [7, 9] bundle used ∧
      verifyTypedBundleRef bundle.object bundle used.reverse = .ok ⟨bundle.object, 0, [7, 9]⟩ := by
  have hlen : [(7 : UInt8), 9].length ≤ groupSize := by decide
  obtain ⟨checkpoint, -, hkeeps⟩ :=
    Object.ObjectCheckpoint.small_keeps Bao64.splitRoot_sample .blake3Bao64 hlen
  let bundle := sampleBundle ⟨1, Block.ofBytes 32 [7, 9], 2⟩ 0 2 2 []
  let used := [sampleRecord 0 0 1 7, sampleRecord 1 1 1 9]
  have hobject : Identifies bundle.object .blake3Bao64 [7, 9] := by
    refine ⟨rfl, ?_, rfl⟩
    rw [Object.proofRoot, Bao64.root_eq_hash (by decide)]
    rfl
  have hcarries : Carries [7, 9] bundle used := by
    refine ⟨rfl, ?_, rfl, ⟨rfl, rfl, trivial⟩, rfl⟩
    simp only [used, forall_mem_cons, not_mem_nil, false_implies, implies_true, and_true]
    exact ⟨sampleRecord_taken 7 rfl (by decide), sampleRecord_taken 9 rfl (by decide)⟩
  have hprove : Bao64.prove [7, 9] 0 [(7 : UInt8), 9].length = _ :=
    Bao64.prove_cover (by decide) ⟨rfl, by decide, by decide, .inl rfl⟩ rfl
  have hcover : checkpoint.prove 0 2 = .ok ⟨0, 2, []⟩ := by
    rw [hkeeps.prove_eq, Object.rangeCover, show Bao64.prove [7, 9] 0 2 = _ from hprove,
      Bao64.objectProof, Bao64.objectTree_leaf (by simp) hlen]
    rfl
  exact ⟨checkpoint, bundle, used, Bao64.splitRoot_sample, hkeeps, hobject, rfl, hcarries,
    served_bundle_verifies Bao64.splitRoot_sample hkeeps hobject
      (show bundle.validate = .ok () by decide) rfl hcover hcarries used.reverse_perm⟩

end Sample

end ObjectTransfer.Ranges
