import ObjectTransfer.Object.Builder
import ObjectTransfer.Proof.Bao64Producers
import ObjectTransfer.Proof.Bep52Producers

/-! # One identity for an object

However its bytes are cut into updates, an object is named by one root: the streaming digest, the
root either builder finishes with and the root of the proof crates are the same.
-/

namespace ObjectTransfer.Object
open Foundations Streaming ProofStore Proof List

variable {value : Digest} {suite : Suite} {group : Bytes} {D : Bytes}

section Feeding

variable {β ρ : Type} [RetainedProofBuilder β ρ]

def pushAll (proof : β) (groups : List Bytes) : Except (Abort Error) β :=
  groups.foldlM (fun proof group => settled (RetainedProofBuilder.push proof group)) proof

variable {groups : List Bytes} {proof proof' : β}

theorem pushAll_cons :
    pushAll proof (group :: groups) = .ok proof' ↔
      ∃ mid, settled (RetainedProofBuilder.push proof group) = .ok mid ∧
        pushAll mid groups = .ok proof' := by
  rw [pushAll, foldlM_cons, bind_eq_ok]
  rfl

variable [Sha256]

namespace Feeding

def feedAll (feeding : Feeding β) (groups : List Bytes) : Except (Abort Error) (Feeding β) :=
  groups.foldlM feedGroup feeding

theorem feedAll_cons (feeding : Feeding β) (group : Bytes) (groups : List Bytes) :
    feeding.feedAll (group :: groups) = feeding.feedGroup group >>= (·.feedAll groups) := by
  rfl

theorem feedGroup_first {stream stream' : StreamVerifier}
    (hupdate : stream.update group = .ok stream')
    (hpush : settled (RetainedProofBuilder.push proof group) = .ok proof') :
    feedGroup ⟨some stream, 0, proof⟩ group = .ok ⟨some stream', 1, proof'⟩ := by
  simp only [feedGroup, if_true, okOr_some, ok_bind, hupdate, hpush]
  rfl

variable {feeding : Feeding β}

/-- After the first group the verifier is let go. -/
theorem feedAll_next (hpos : 0 < feeding.groups) (hfit : feeding.groups + groups.length ≤ u64Max)
    (hpush : pushAll feeding.proof groups = .ok proof') :
    feeding.feedAll groups = .ok ⟨if groups = [] then feeding.verifier else none,
      feeding.groups + groups.length, proof'⟩ := by
  induction groups generalizing feeding with
  | nil =>
    obtain rfl : feeding.proof = proof' := Except.ok.inj hpush
    rfl
  | cons group groups ih =>
    obtain ⟨mid, hmid, hrest⟩ := pushAll_cons.mp hpush
    rw [length_cons] at hfit
    have hgroup : feeding.feedGroup group = .ok ⟨none, feeding.groups + 1, mid⟩ := by
      simp only [feedGroup, if_neg hpos.ne', pure_bind, hmid, ok_bind,
        checkedAdd_of_le (show feeding.groups + 1 ≤ u64Max by omega), okOr_some]
      rfl
    rw [feedAll_cons, hgroup, ok_bind,
      ih (Nat.succ_pos _) (by simp only; omega) hrest]
    simp only [ite_self, length_cons, reduceCtorEq, if_false, add_assoc, add_comm 1]

end Feeding

/-- The groups of an object reach the proof, and the verifier is kept for an object of at most one
group. -/
theorem Feeding.feedAll_chunks [Blake3] (hlen : D.length ≤ isizeMax)
    (hroot : Streaming.root suite D = .ok value) {proof filled : β}
    (hpush : pushAll proof (chunks groupSize D) = .ok filled) :
    ∃ fed, Feeding.feedAll ⟨some (.new suite), 0, proof⟩ (chunks groupSize D) = .ok fed ∧
      fed.proof = filled ∧ (D.length ≤ groupSize →
        ∃ stream, fed.verifier = some stream ∧ stream.digest = .ok value) := by
  by_cases hne : D = []
  · have hdigest : (StreamVerifier.new suite).digest = .ok value := by
      have hnew : (StreamVerifier.new suite).pending.length < groupSize := groupSize_pos
      have hsame : (StreamVerifier.new suite).update [] = .ok (.new suite) :=
        (StreamVerifier.updateAll_eq hnew [] (Nat.zero_le _)).symm
      rwa [hne, Streaming.root, hsame, ok_bind] at hroot
    rw [hne, chunks, length_nil] at hpush ⊢
    obtain rfl : proof = filled := Except.ok.inj hpush
    exact ⟨_, rfl, rfl, fun _ => ⟨_, rfl, hdigest⟩⟩
  have hcount := unitCount_le hlen
  have hgroups := chunks_length groupSize D
  obtain ⟨group, groups, hchunks⟩ : ∃ group groups, chunks groupSize D = group :: groups := by
    apply exists_cons_of_length_pos
    rw [hgroups, lt_divCeil_iff groupSize_pos]
    simpa using length_pos_iff.mpr hne
  have hgroup : group.length ≤ isizeMax := by
    have hflat := congrArg length (chunks_flatten groupSize_pos D)
    rw [hchunks, flatten_cons, length_append] at hflat
    omega
  obtain ⟨value', hvalue'⟩ := root_ok suite hgroup
  obtain ⟨stream, hstream, hdigest⟩ := bind_eq_ok.mp hvalue'
  rw [hchunks] at hpush hgroups ⊢
  rw [length_cons] at hgroups
  obtain ⟨mid, hmid, hrest⟩ := pushAll_cons.mp hpush
  have hfit : 1 + groups.length ≤ u64Max := by
    unfold groupSize at hgroups
    unfold u64Max
    omega
  refine ⟨⟨if groups = [] then some stream else none, 1 + groups.length, filled⟩, ?_, rfl,
    fun hone => ?_⟩
  · rw [Feeding.feedAll_cons, Feeding.feedGroup_first hstream hmid, ok_bind,
      Feeding.feedAll_next (by exact Nat.one_pos) hfit hrest]
  · rw [chunks_of_le hne hone, cons.injEq] at hchunks
    obtain ⟨rfl, rfl⟩ := hchunks
    obtain rfl := Except.ok.inj (hvalue'.symm.trans hroot)
    exact ⟨stream, rfl, hdigest⟩

end Feeding

variable {expectedLength : Option ℕ} {pieces : List Bytes}

section Builder

variable {β ρ : Type} [RetainedProofBuilder β ρ] [Sha256]

namespace ObjectBuilder

variable {builder : ObjectBuilder β}

theorem settled_update (hopen : builder.failure = none) (bytes : Bytes)
    (hmax : builder.length + bytes.length ≤ maxObjectLength)
    (hexpected : ∀ expected ∈ builder.expectedLength, builder.length + bytes.length ≤ expected) :
    settled (builder.update bytes) = do
      let fed ← builder.updateInner bytes
      return { builder with
        toFeeding := fed.1, pending := fed.2, length := builder.length + bytes.length } := by
  have hfit : builder.length + bytes.length ≤ u64Max := by
    unfold maxObjectLength at hmax
    unfold u64Max
    omega
  have hcond : ¬ (maxObjectLength < builder.length + bytes.length ∨
      ∃ expected ∈ builder.expectedLength, expected < builder.length + bytes.length) := by
    rintro (h | ⟨expected, hmem, h⟩)
    · omega
    · have := hexpected expected hmem
      omega
  simp only [update, usable, hopen, checkedAdd_of_le hfit, okOr_some, ok_bind,
    rejectIf_neg hcond, pure, Except.pure]
  rcases builder.updateInner bytes with (error | _) | ⟨feeding, pending⟩ <;> rfl

/-- Updates that fit feed the groups of all the bytes, however they are cut. -/
theorem updateAll_eq (hopen : builder.failure = none)
    (hpending : builder.pending.length < groupSize) (pieces : List Bytes)
    (hmax : builder.length + pieces.flatten.length ≤ maxObjectLength)
    (hexpected : ∀ expected ∈ builder.expectedLength,
      builder.length + pieces.flatten.length ≤ expected) :
    builder.updateAll pieces = do
      let feeding ← builder.toFeeding.feedAll
        (chunksExact groupSize (builder.pending ++ pieces.flatten))
      return { builder with
        toFeeding := feeding
        pending := remainder groupSize (builder.pending ++ pieces.flatten)
        length := builder.length + pieces.flatten.length } := by
  induction pieces generalizing builder with
  | nil =>
    rw [flatten_nil, append_nil, chunksExact_of_lt hpending, remainder_of_lt hpending]
    rfl
  | cons piece pieces ih =>
    simp only [flatten_cons, length_append] at hmax hexpected
    have hpiece := settled_update hopen piece (by omega)
      fun expected hmem => by have := hexpected expected hmem; omega
    rw [updateInner, regroup_eq groupSize_pos hpending, bind_assoc] at hpiece
    rw [updateAll, foldlM_cons, hpiece, flatten_cons, ← append_assoc,
      chunksExact_append (builder.pending ++ piece) _ groupSize_pos,
      remainder_append (builder.pending ++ piece) _ groupSize_pos, Feeding.feedAll,
      List.foldlM_append, bind_assoc, bind_assoc]
    congr 1
    funext feeding
    simp only [pure_bind]
    rw [← updateAll, ih (by exact hopen) (remainder_length_lt groupSize_pos _)
      (by simp only; omega)
      (fun expected hmem => by have := hexpected expected hmem; simp only; omega)]
    simp only [length_append, add_assoc]
    rfl

end ObjectBuilder

/-- A builder over material that takes the groups of an object finishes with the object's root,
whichever side names it. -/
theorem ObjectBuilder.prepare_eq [Blake3] [RetainedProof ρ] (hlen : D.length ≤ isizeMax)
    (hroot : Streaming.root suite D = .ok value) {proof filled : β} {kept : ρ}
    (hpush : pushAll proof (chunks groupSize D) = .ok filled)
    (hfinish : RetainedProofBuilder.finish filled = .ok kept) (htree : RetainedProof.treeRoot kept =
      .ok (if groupSize < D.length then some value else none)) (hpieces : pieces.flatten = D)
    (hexpected : ∀ expected ∈ expectedLength, expected = D.length) :
    ∃ start built, withBuilder suite expectedLength proof = .ok start ∧
      start.updateAll pieces = .ok built ∧
      built.finish = .ok ⟨⟨suite.identifier, value, D.length⟩, kept⟩ := by
  have hmax : D.length ≤ maxObjectLength := hlen
  obtain ⟨fed, hfed, hproof, hverifier⟩ := Feeding.feedAll_chunks hlen hroot hpush
  rw [chunks_eq groupSize_pos, Feeding.feedAll, List.foldlM_append] at hfed
  obtain ⟨mid, hmid, hlast⟩ := bind_eq_ok.mp hfed
  have hrange : ¬ ∃ length ∈ expectedLength, maxObjectLength < length := by
    rintro ⟨length, hmem, h⟩
    rw [hexpected length hmem] at h
    omega
  let start : ObjectBuilder β :=
    { verifier := some (.new suite), groups := 0, proof, suite, expectedLength, length := 0,
      pending := [], failure := none }
  have hstart : start.pending.length < groupSize := groupSize_pos
  have hzero : start.length = 0 := rfl
  refine ⟨start, { start with toFeeding := mid, length := D.length,
                              pending := remainder groupSize D },
    by rw [withBuilder, rejectIf_neg hrange, ok_bind]; rfl, ?_, ?_⟩
  · rw [updateAll_eq rfl hstart pieces (by rw [hzero, hpieces]; omega)
      (fun expected hmem => by rw [hzero, hpieces, hexpected expected hmem]; omega), hzero,
      zero_add, hpieces]
    simp only [Feeding.feedAll, start, nil_append, hmid, ok_bind]
    rfl
  · have hsame : ¬ ∃ expected ∈ expectedLength, expected ≠ D.length := by
      rintro ⟨length, hmem, h⟩
      exact h (hexpected length hmem)
    have hfeeding : feedPending { start with
        toFeeding := mid, length := D.length, pending := remainder groupSize D } = .ok fed := by
      rw [feedPending]
      split_ifs at hlast ⊢
      · exact hlast
      · simpa using hlast
    rw [finish, usable, ok_bind, rejectIf_neg hsame, ok_bind, hfeeding, ok_bind, hproof, hfinish,
      ok_bind, htree, ok_bind]
    split_ifs with hmulti
    · rfl
    · obtain ⟨stream, hstream, hdigest⟩ := hverifier (not_lt.mp hmulti)
      rw [Feeding.root, hstream, okOr_some, ok_bind, hdigest]
      rfl

end Builder

section Material

variable [Blake3] [Sha256]

namespace MemoryProofStore

/-- The store holds the leaves of an object and the tree above them. -/
def Keeps : Suite → Bytes → MemoryProofStore → Prop
  | .blake3Bao64, D, blake3 cvs =>
    if D = [] then cvs.cvs = [] ∧ cvs.length = 0 else cvs.Keeps D
  | .sha256Bep52, D, sha256 pieces => pieces.Keeps D ∧ pieces.layers ≠ []
  | _, _, _ => False

theorem settled_push_blake3 {cvs cvs' : Bao64.GroupCvs} (h : cvs.push group = .ok cvs') :
    settled (push (blake3 cvs) group) = .ok (blake3 cvs') := by
  simp only [push, h]
  rfl

theorem settled_push_sha256 {pieces pieces' : Bep52.PieceHashes}
    (h : pieces.push group = .ok pieces') :
    settled (push (sha256 pieces) group) = .ok (sha256 pieces') := by
  simp only [push, h]
  rfl

variable {D : Bytes} (hlen : D.length ≤ isizeMax)
include hlen

theorem pushAll_chunks (suite : Suite) :
    ∃ filled, pushAll (MemoryProofStore.new suite) (chunks groupSize D) = .ok filled ∧
      filled.sealTree.Keeps suite D := by
  cases suite with
  | blake3Bao64 =>
    by_cases hne : D = []
    · rw [hne]
      exact ⟨_, rfl, rfl, rfl⟩
    · obtain ⟨cvs, hpush, hkeeps⟩ := Bao64.GroupCvs.pushAll_chunks hlen hne
      refine ⟨blake3 cvs, foldlM_ok_map blake3 (fun _ _ _ => settled_push_blake3) hpush, ?_⟩
      rw [sealTree, Keeps, if_neg hne]
      exact hkeeps.sealLevels
  | sha256Bep52 =>
    obtain ⟨pieces, hpush, -, hkeeps⟩ := Bep52.PieceHashes.pushAll_chunks hlen
    exact ⟨sha256 pieces, foldlM_ok_map sha256 (fun _ _ _ => settled_push_sha256) hpush,
      hkeeps.sealLayers, Bep52.layersFrom_ne_nil _⟩

theorem Keeps.treeRoot_eq (hsplit : Bao64.SplitRoot) (hroot : Streaming.root suite D = .ok value)
    {store : MemoryProofStore} (h : store.Keeps suite D) :
    store.treeRoot = .ok (if groupSize < D.length then some value else none) := by
  match suite, store with
  | .blake3Bao64, blake3 cvs =>
    rw [root_blake3 (le_u64Max_of_le_isizeMax hlen)] at hroot
    obtain rfl := Except.ok.inj hroot
    by_cases hne : D = []
    · rw [Keeps, if_pos hne] at h
      rw [treeRoot, Bao64.GroupCvs.treeRoot, h.2, Bao64.treeRootBy_single _ (Nat.zero_le _), hne]
      rfl
    · rw [Keeps, if_neg hne] at h
      rw [treeRoot, h.treeRoot_eq hlen hsplit]
      rfl
  | .sha256Bep52, sha256 pieces =>
    by_cases hne : D = []
    · rw [treeRoot, Bep52.PieceHashes.treeRoot, h.1.hashes, hne]
      rfl
    · rw [treeRoot, h.1.treeRoot_sealed hlen hne h.2, Bep52.root, hroot]
      rfl
  | .blake3Bao64, sha256 _ => exact h.elim
  | .sha256Bep52, blake3 _ => exact h.elim

end MemoryProofStore

theorem ObjectBuilder.prepare_memory (hsplit : Bao64.SplitRoot)
    (hlen : D.length ≤ isizeMax) (hroot : Streaming.root suite D = .ok value)
    (hpieces : pieces.flatten = D) (hexpected : ∀ expected ∈ expectedLength, expected = D.length) :
    ∃ start built kept, ObjectBuilder.new suite expectedLength = .ok start ∧
      start.updateAll pieces = .ok built ∧
      built.finish = .ok ⟨⟨suite.identifier, value, D.length⟩, kept⟩ ∧ kept.Keeps suite D := by
  obtain ⟨filled, hpush, hkeeps⟩ := MemoryProofStore.pushAll_chunks hlen suite
  obtain ⟨start, built, hstart, hbuilt, hfinish⟩ := prepare_eq hlen hroot hpush rfl
    (hkeeps.treeRoot_eq hlen hsplit hroot) hpieces hexpected
  exact ⟨start, built, _, hstart, hbuilt, hfinish, hkeeps⟩

section Stored

open LawfulNodeStorage

variable {σ : Type} [NodeStorage σ] [LawfulNodeStorage σ]

omit [Blake3] [Sha256] [NodeStorage σ] [LawfulNodeStorage σ] in
theorem settled_fromProof {α : Type} (f : σ → α) {pushed : σ × Except (Abort Proof.Error) Unit}
    {after : σ} (h : settled pushed = .ok after) :
    settled (f pushed.1, fromProof pushed.2) = .ok (f after) := by
  obtain ⟨state, error | _⟩ := pushed
  · cases h
  · obtain rfl : state = after := Except.ok.inj h
    rfl

/-- An empty store takes the leaves of an object and the tree above them. -/
theorem StoredProofBuilder.kept (hsplit : Bao64.SplitRoot) (hlen : D.length ≤ isizeMax)
    (hroot : Streaming.root suite D = .ok value) {storage : σ} (hstorage : contents storage = []) :
    ∃ start filled, ∃ kept : StoredProof σ, StoredProofBuilder.new suite storage = .ok start ∧
      pushAll start (chunks groupSize D) = .ok filled ∧ filled.finish = .ok kept ∧
      kept.treeRoot = .ok (if groupSize < D.length then some value else none) := by
  have hrecords : NodeStorage.len storage = .ok 0 := by rw [len_eq, hstorage]; rfl
  cases suite with
  | blake3Bao64 =>
    have hnew : StoredProofBuilder.new .blake3Bao64 storage =
        .ok (.blake3 ⟨storage, 0, 0, false, none⟩) := by
      rw [StoredProofBuilder.new, Bao64.StoredGroupCvs.new_eq hstorage]
      rfl
    rw [root_blake3 (le_u64Max_of_le_isizeMax hlen)] at hroot
    obtain rfl := Except.ok.inj hroot
    by_cases hne : D = []
    · refine ⟨_, _, .blake3 ⟨storage, 0, 0, []⟩, hnew, by rw [hne]; rfl, ?_, ?_⟩
      · simp only [finish, Bao64.StoredGroupCvs.finish, hrecords]
        rw [Bao64.StoredGroupCvs.finishLevels]
        rfl
      · rw [StoredProof.treeRoot, Bao64.SealedGroupCvs.treeRoot,
          Bao64.treeRootBy_single _ (Nat.zero_le _), hne]
        rfl
    · obtain ⟨filled, whole, hpush, hfinish, hkeeps⟩ :=
        Bao64.StoredGroupCvs.pushAll_chunks hlen hne hstorage
      refine ⟨_, .blake3 filled, .blake3 whole, hnew,
        foldlM_ok_map blake3 (fun _ _ _ => settled_fromProof blake3) hpush, ?_, ?_⟩
      · simp only [finish, hfinish]
        rfl
      · rw [StoredProof.treeRoot, hkeeps.treeRoot_eq hlen hsplit]
        rfl
  | sha256Bep52 =>
    have hnew : StoredProofBuilder.new .sha256Bep52 storage =
        .ok (.sha256 ⟨storage, 0, 0, false, none⟩) := by
      rw [StoredProofBuilder.new, Bep52.StoredPieceHashes.new_eq hstorage]
      rfl
    by_cases hne : D = []
    · refine ⟨_, _, .sha256 ⟨storage, 0, 0, []⟩, hnew, by rw [hne]; rfl, ?_, ?_⟩
      · simp only [finish, Bep52.StoredPieceHashes.finish, hrecords]
        rw [Bep52.StoredPieceHashes.finishLayers]
        rfl
      · rw [hne]
        rfl
    · obtain ⟨filled, whole, hpush, hfinish, hkeeps⟩ :=
        Bep52.StoredPieceHashes.pushAll_chunks hlen hne hstorage
      refine ⟨_, .sha256 filled, .sha256 whole, hnew,
        foldlM_ok_map sha256 (fun _ _ _ => settled_fromProof sha256) hpush, ?_, ?_⟩
      · simp only [finish, hfinish]
        rfl
      · rw [StoredProof.treeRoot, hkeeps.treeRoot_eq hlen hne, Bep52.root, hroot]
        rfl

theorem ObjectBuilder.prepare_stored (hsplit : Bao64.SplitRoot) (hlen : D.length ≤ isizeMax)
    (hroot : Streaming.root suite D = .ok value) {storage : σ} (hstorage : contents storage = [])
    (hpieces : pieces.flatten = D) (hexpected : ∀ expected ∈ expectedLength, expected = D.length) :
    ∃ start built, ∃ kept : StoredProof σ,
      ObjectBuilder.withProofStorage suite expectedLength storage = .ok start ∧
      start.updateAll pieces = .ok built ∧
      built.finish = .ok ⟨⟨suite.identifier, value, D.length⟩, kept⟩ := by
  obtain ⟨proof, filled, kept, hproof, hpush, hkept, htree⟩ :=
    StoredProofBuilder.kept hsplit hlen hroot hstorage
  obtain ⟨start, built, hstart, hbuilt, hfinish⟩ :=
    prepare_eq hlen hroot hpush hkept htree hpieces hexpected
  have hrange := hstart
  simp only [withBuilder, bind_eq_ok, rejectIf_eq_ok] at hrange
  refine ⟨start, built, kept, ?_, hbuilt, hfinish⟩
  rw [withProofStorage, rejectIf_neg hrange.choose_spec.1, ok_bind, hproof, ok_bind, hstart]

end Stored

end Material

def proofRoot [Blake3] [Sha256] : Suite → Bytes → Option Digest
  | .blake3Bao64 => Bao64.root
  | .sha256Bep52 => Bep52.root

/-- A byte string has one root, whichever component computes it and however it is cut. -/
theorem streaming_identity [Blake3] [Sha256] (σ : Type) [NodeStorage σ] [LawfulNodeStorage σ]
    (hsplit : Bao64.SplitRoot) (suite : Suite) {D : Bytes} (hlen : D.length ≤ isizeMax) :
    ∃ value, proofRoot suite D = some value ∧
      ∀ pieces : List Bytes, pieces.flatten = D →
        (∃ stream, (StreamVerifier.new suite).updateAll pieces = .ok stream ∧
          stream.digest = .ok value ∧
          ∀ expected, (∃ verified, stream.finish expected = .ok verified) ↔
            expected = ⟨suite, value, D.length⟩) ∧
        ∀ expectedLength, expectedLength = none ∨ expectedLength = some D.length →
          (∃ start built prepared, ObjectBuilder.new suite expectedLength = .ok start ∧
            start.updateAll pieces = .ok built ∧ built.finish = .ok prepared ∧
            prepared.object = ⟨suite.identifier, value, D.length⟩) ∧
          ∀ storage : σ, LawfulNodeStorage.contents storage = [] →
            ∃ start built, ∃ prepared : PreparedObject (StoredProof σ),
              ObjectBuilder.withProofStorage suite expectedLength storage = .ok start ∧
              start.updateAll pieces = .ok built ∧ built.finish = .ok prepared ∧
              prepared.object = ⟨suite.identifier, value, D.length⟩ := by
  obtain ⟨value, hroot⟩ := root_ok suite hlen
  refine ⟨value, ?_, fun pieces hpieces => ⟨?_, fun expectedLength hexpected => ?_⟩⟩
  · cases suite <;> simp only [proofRoot, Bao64.root, Bep52.root, hroot, Except.toOption]
  · have hnew : (StreamVerifier.new suite).pending.length < groupSize := groupSize_pos
    have hfit : (StreamVerifier.new suite).length + pieces.flatten.length ≤ u64Max := by
      rw [hpieces, StreamVerifier.new, zero_add]
      exact le_u64Max_of_le_isizeMax hlen
    obtain ⟨stream, hstream, hdigest⟩ := bind_eq_ok.mp hroot
    obtain ⟨hsuite, hlength, -⟩ := StreamVerifier.update_ok hnew hstream
    refine ⟨stream, by rw [StreamVerifier.updateAll_eq hnew _ hfit, hpieces, hstream], hdigest,
      fun expected => ?_⟩
    rw [StreamVerifier.finish_eq_ok, hsuite, hlength, hdigest, StreamVerifier.new, zero_add]
    obtain ⟨esuite, eroot, elength⟩ := expected
    simp only [Except.ok.injEq, ExpectedObject.mk.injEq]
    tauto
  · have hsame : ∀ expected ∈ expectedLength, expected = D.length := by
      rcases hexpected with rfl | rfl <;> simp
    refine ⟨?_, fun storage hstorage => ?_⟩
    · obtain ⟨start, built, kept, hstart, hbuilt, hfinish, -⟩ :=
        ObjectBuilder.prepare_memory hsplit hlen hroot hpieces hsame
      exact ⟨start, built, _, hstart, hbuilt, hfinish, rfl⟩
    · obtain ⟨start, built, kept, hstart, hbuilt, hfinish⟩ :=
        ObjectBuilder.prepare_stored hsplit hlen hroot hstorage hpieces hsame
      exact ⟨start, built, _, hstart, hbuilt, hfinish, rfl⟩

section Sample

attribute [local instance] Bao64.sampleBlake3 Bao64.sampleSha256

theorem streaming_identity_two_groups :
    Bao64.SplitRoot ∧ Bao64.sampleObject.length ≤ isizeMax ∧
      [[7], [], Bao64.sampleObject.tail].flatten = Bao64.sampleObject ∧
      LawfulNodeStorage.contents (⟨[]⟩ : MemoryNodeStorage) = [] ∧
      ∃ value start built, ∃ prepared : PreparedObject (StoredProof MemoryNodeStorage),
        proofRoot .sha256Bep52 Bao64.sampleObject = some value ∧
        ObjectBuilder.withProofStorage .sha256Bep52 none (⟨[]⟩ : MemoryNodeStorage) = .ok start ∧
        start.updateAll [[7], [], Bao64.sampleObject.tail] = .ok built ∧
        built.finish = .ok prepared ∧ prepared.object = ⟨2, value, groupSize + 1⟩ := by
  have hlen : Bao64.sampleObject.length ≤ isizeMax := by
    rw [Bao64.sampleObject_length]
    decide
  have hpieces : [[7], [], Bao64.sampleObject.tail].flatten = Bao64.sampleObject := by
    simp only [flatten_cons, flatten_nil, append_nil, nil_append]
    rfl
  have hstorage : LawfulNodeStorage.contents (⟨[]⟩ : MemoryNodeStorage) = [] := rfl
  obtain ⟨value, hvalue, hall⟩ :=
    streaming_identity MemoryNodeStorage Bao64.splitRoot_sample .sha256Bep52 hlen
  obtain ⟨-, hbuilders⟩ := hall _ hpieces
  obtain ⟨start, built, prepared, hstart, hbuilt, hfinish, hobject⟩ :=
    (hbuilders none (.inl rfl)).2 _ hstorage
  rw [Bao64.sampleObject_length] at hobject
  exact ⟨Bao64.splitRoot_sample, hlen, hpieces, hstorage, value, start, built, prepared, hvalue,
    hstart, hbuilt, hfinish, hobject⟩

end Sample

end ObjectTransfer.Object
