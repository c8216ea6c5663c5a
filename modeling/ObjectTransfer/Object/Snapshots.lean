import ObjectTransfer.Object.Checkpoint

/-! # Checkpoints answer for the bytes at their time

After any admitted updates a checkpoint names, proves and holds what an object prepared afresh from
the edited bytes does. Every checkpoint along the way keeps doing so for its own bytes.
-/

namespace ObjectTransfer.Object
open Foundations Streaming ProofStore Proof List

variable {α : Type*}

theorem edited_same (fill : α) (l : List α) (start : ℕ) : edited fill l start [] l.length = l := by
  simp [edited]

theorem edited_whole (fill : α) (l part : List α) : edited fill l 0 part part.length = part := by
  rw [edited, splice, take_zero, nil_append, drop_of_length_le, append_nil]
  rw [length_take]
  omega

/-- One update: bytes written at an offset, and the length after it. -/
structure Edit where
  offset : ℕ
  bytes : Bytes
  length : ℕ

def contents (fill : UInt8) (D : Bytes) : List Edit → List Bytes
  | [] => [D]
  | edit :: edits =>
    D :: contents fill (edited fill D edit.offset edit.bytes edit.length) edits

section Admission

variable {previous length offset bytes : ℕ}

/-- What the admission rule asks for. -/
structure Admitted (previous length offset bytes : ℕ) : Prop where
  limit : length ≤ maxObjectLength
  settles : Settles groupSize previous length offset bytes
  crossing : groupSize < length → previous ≤ groupSize → offset = 0
  single : length ≤ groupSize → (length = previous ∧ bytes = 0) ∨ bytes = length

theorem validateUpdate_ok (h : validateUpdate previous length offset bytes = .ok ()) :
    Admitted previous length offset bytes := by
  simp only [validateUpdate, bind_eq_ok, rejectIf_eq_ok, okOr_eq_ok, checkedAdd_eq_some] at h
  obtain ⟨-, hlimit, stop, ⟨-, rfl⟩, -, hrange, -, hgrow, -, hcut, -, hcross, hsingle⟩ := h
  have hfloor := Nat.div_mul_le_self previous proofLeafSize
  change _ / groupSize * groupSize ≤ _ at hfloor
  simp only [proofLeafSize] at hrange hgrow hcut hcross hsingle
  refine ⟨by omega, ⟨by omega, by omega, by omega, fun hlt => ?_, fun hlt => by omega⟩,
    fun h1 h2 => by omega, fun h1 => by omega⟩
  omega

/-- A byte of the new object is neither kept nor supplied. -/
def Unspecified (previous length offset bytes : ℕ) : Prop :=
  ∃ p, previous ≤ p ∧ p < length ∧ ¬ (offset ≤ p ∧ p < offset + bytes)

/-- A leaf of the new object is written to or ends elsewhere than before, and is not supplied as a
whole. -/
def Unhashed (previous length offset bytes : ℕ) : Prop :=
  ∃ j, groupSize * j < length ∧
    ((∃ p, groupSize * j ≤ p ∧ p < groupSize * (j + 1) ∧ offset ≤ p ∧ p < offset + bytes) ∨
      min (groupSize * (j + 1)) length ≠ min (groupSize * (j + 1)) previous) ∧
    ¬ (offset ≤ groupSize * j ∧ min (groupSize * (j + 1)) length ≤ offset + bytes)

/-- The updates a checkpoint turns down though nothing is missing: no bytes at an offset inside a
group, and one full group that is grown from its end or cut back to without being supplied. -/
def Unserved (previous length offset bytes : ℕ) : Prop :=
  (offset % groupSize ≠ 0 ∧ bytes = 0) ∨
    (previous = groupSize ∧ offset = groupSize ∧ groupSize < length) ∨
    (length = groupSize ∧ groupSize < previous ∧ bytes = 0)

theorem unhashed_of_offset (hrange : offset + bytes ≤ length) (halign : offset % groupSize ≠ 0)
    (hbytes : bytes ≠ 0) : Unhashed previous length offset bytes := by
  have hdiv := Nat.div_add_mod offset groupSize
  have hmod := Nat.mod_lt offset groupSize_pos
  refine ⟨offset / groupSize, by omega, .inl ⟨offset, by omega, ?_, le_rfl, by omega⟩, by omega⟩
  rw [Nat.mul_succ]
  omega

theorem unhashed_of_stop (hrange : offset + bytes < length) (halign : offset % groupSize = 0)
    (hbytes : bytes % groupSize ≠ 0) : Unhashed previous length offset bytes := by
  have hdiv := Nat.div_add_mod (offset + bytes) groupSize
  have hmod := Nat.mod_lt (offset + bytes) groupSize_pos
  have hstop : (offset + bytes) % groupSize = bytes % groupSize := by
    rw [Nat.add_mod, halign, zero_add, Nat.mod_mod]
  have hle : bytes % groupSize ≤ bytes := Nat.mod_le _ _
  refine ⟨(offset + bytes) / groupSize, by omega,
    .inl ⟨offset + bytes - 1, by omega, ?_, by omega, by omega⟩, ?_⟩ <;> rw [Nat.mul_succ] <;> omega

theorem unhashed_of_cut (hcut : length < previous) (halign : length % groupSize ≠ 0)
    (hstop : offset + bytes < length) : Unhashed previous length offset bytes := by
  have hdiv := Nat.div_add_mod length groupSize
  have hmod := Nat.mod_lt length groupSize_pos
  refine ⟨length / groupSize, by omega, .inr ?_, ?_⟩ <;> rw [Nat.mul_succ] <;> omega

theorem validateUpdate_error {error : Abort Error}
    (h : validateUpdate previous length offset bytes = .error error) :
    maxObjectLength < length ∨ length < offset + bytes ∨
      Unspecified previous length offset bytes ∨ Unhashed previous length offset bytes ∨
      Unserved previous length offset bytes := by
  by_contra hno
  simp only [not_or, not_lt] at hno
  obtain ⟨hlimit, hrange, hspecified, hhashed, hserved⟩ := hno
  have halign : offset % groupSize = 0 := by
    by_contra hbad
    by_cases hbytes : bytes = 0
    · exact hserved (.inl ⟨hbad, hbytes⟩)
    · exact hhashed (unhashed_of_offset hrange hbad hbytes)
  have hwhole : bytes % groupSize = 0 ∨ offset + bytes = length := by
    by_contra hbad
    exact hhashed (unhashed_of_stop (by omega) halign (by omega))
  have hgrown : length ≤ previous ∨ offset ≤ previous ∧ offset + bytes = length := by
    by_contra hbad
    by_cases hstart : offset ≤ previous
    · exact hspecified ⟨length - 1, by omega, by omega, by omega⟩
    · exact hspecified ⟨previous, le_rfl, by omega, by omega⟩
  have hcut : previous ≤ length ∨ length % groupSize = 0 ∨ offset + bytes = length := by
    by_contra hbad
    exact hhashed (unhashed_of_cut (by omega) (by omega) (by omega))
  have hok : validateUpdate previous length offset bytes = .ok () := by
    have hfit : offset + bytes ≤ u64Max := by
      unfold maxObjectLength at hlimit
      unfold u64Max
      omega
    unfold Unserved at hserved
    rw [validateUpdate, checkedAdd_of_le hfit]
    unfold proofLeafSize groupSize at *
    rw [rejectIf_neg (by omega), ok_bind, okOr_some, ok_bind, rejectIf_neg (by omega), ok_bind,
      rejectIf_neg (by omega), ok_bind, rejectIf_neg (by omega), ok_bind, rejectIf_neg (by omega),
      ok_bind, rejectIf_neg (by omega)]
  rw [hok] at h
  cases h

/-- A full first group is asked for again when the object grows from its end, though it is kept and
nothing is missing. -/
theorem full_group_supplied_again :
    validateUpdate groupSize (2 * groupSize) groupSize groupSize = .error (.error .invalidRange) ∧
      2 * groupSize ≤ maxObjectLength ∧ groupSize + groupSize ≤ 2 * groupSize ∧
      ¬ Unspecified groupSize (2 * groupSize) groupSize groupSize ∧
      ¬ Unhashed groupSize (2 * groupSize) groupSize groupSize := by
  refine ⟨by decide, by decide, by decide, ?_, ?_⟩
  · rintro ⟨p, hprevious, hlength, hsupplied⟩
    omega
  · rintro ⟨j, hlength, htouched, hsupplied⟩
    unfold groupSize at *
    omega

end Admission

section Checkpoints

variable [Blake3] [Sha256] {suite : Suite} {D : Bytes}

section Prepare

theorem prepare_eq (hsplit : Bao64.SplitRoot)
    (hlen : D.length ≤ isizeMax) {value : Digest} (hroot : Streaming.root suite D = .ok value)
    (expectedLength : Option ℕ) (hexpected : ∀ expected ∈ expectedLength, expected = D.length) :
    ∃ kept, prepare suite expectedLength D = .ok ⟨⟨suite.identifier, value, D.length⟩, kept⟩ ∧
      kept.Keeps suite D := by
  have hone : [D].flatten = D := by simp
  obtain ⟨start, built, kept, hstart, hbuilt, hfinish, hkeeps⟩ :=
    ObjectBuilder.prepare_memory hsplit hlen hroot hone hexpected
  rw [ObjectBuilder.updateAll, foldlM_cons, bind_eq_ok] at hbuilt
  obtain ⟨mid, hmid, hlast⟩ := hbuilt
  obtain rfl := Except.ok.inj hlast
  refine ⟨kept, ?_, hkeeps⟩
  rw [prepare, hstart, ok_bind, hmid, ok_bind, hfinish]

end Prepare

variable {offset : ℕ}

section Answers

def rangeCover (suite : Suite) (D : Bytes) (offset length : ℕ) :
    Except (Abort Proof.Error) RangeCover :=
  match suite with
  | .blake3Bao64 => (Bao64.prove D offset length).map RangeProof.cover
  | .sha256Bep52 => (Bep52.prove D offset length).map RangeProof.cover

/-- Whether the groups of a segment, hashed where it sits, tell it apart from the object. -/
def LeavesApart (suite : Suite) (D : Bytes) (offset : ℕ) (bytes : Bytes) : Prop :=
  match suite with
  | .blake3Bao64 => Set.InjOn (fun q : ℕ × Bytes => Blake3.chainingValue q.1 q.2)
      (Bao64.groupQueries 0 D ∪ Bao64.groupQueries offset bytes)
  | .sha256Bep52 => Set.InjOn pieceHash
      {piece | piece ∈ chunks groupSize D ∨ piece ∈ chunks groupSize bytes}

/-- The groups of a segment are those of the object from group `first` on. -/
def SameGroups (D : Bytes) (first : ℕ) (bytes : Bytes) : Prop :=
  ∀ k < divCeil bytes.length groupSize, first + k < divCeil D.length groupSize ∧
    chunkAt groupSize bytes k = chunkAt groupSize D (first + k)

variable {D bytes : Bytes} {first : ℕ}

theorem LeavesApart.chainingValue (h : LeavesApart .blake3Bao64 D (groupSize * first) bytes) {k : ℕ}
    (hk : k < divCeil bytes.length groupSize) (hi : first + k < divCeil D.length groupSize)
    (heq : Blake3.chainingValue (groupSize * (first + k)) (chunkAt groupSize bytes k) =
      Bao64.groupValue D (first + k)) :
    chunkAt groupSize bytes k = chunkAt groupSize D (first + k) := by
  have hbytes : (groupSize * (first + k), chunkAt groupSize bytes k) ∈
      Bao64.groupQueries (groupSize * first) bytes := ⟨k, hk, by rw [mul_add]⟩
  have hobject : (groupSize * (first + k), chunkAt groupSize D (first + k)) ∈
      Bao64.groupQueries 0 D := ⟨first + k, hi, by rw [zero_add]⟩
  exact congrArg Prod.snd (h (.inr hbytes) (.inl hobject) heq)

theorem LeavesApart.pieceHash (h : LeavesApart .sha256Bep52 D offset bytes) {k i : ℕ}
    (hk : k < divCeil bytes.length groupSize) (hi : i < divCeil D.length groupSize)
    (heq : Streaming.pieceHash (chunkAt groupSize bytes k) = pieceLeaf D i) :
    chunkAt groupSize bytes k = chunkAt groupSize D i :=
  h (.inr (mem_map.mpr ⟨k, mem_range.mpr hk, rfl⟩))
    (.inl (mem_map.mpr ⟨i, mem_range.mpr hi, rfl⟩)) heq

omit [Blake3] [Sha256] in
theorem holdsFrom_iff {holds : ℕ → Bytes → Bool}
    (hfit : first + divCeil bytes.length groupSize ≤ u64Max)
    (hholds : ∀ k < divCeil bytes.length groupSize,
      (holds (first + k) (chunkAt groupSize bytes k) = true ↔
        first + k < divCeil D.length groupSize ∧
          chunkAt groupSize bytes k = chunkAt groupSize D (first + k))) :
    holdsFrom holds first bytes = true ↔ SameGroups D first bytes := by
  rw [holdsFrom, chunks_zipIdx_all]
  refine forall₂_congr fun k hk => ?_
  simp only [checkedAdd_of_le (show first + k ≤ u64Max by omega)]
  exact hholds k hk

omit [Blake3] [Sha256] in
/-- Aligned bytes inside the object are looked up group by group. -/
theorem PreparedObject.holds_iff {ρ : Type} [RetainedProof ρ] {prepared : PreparedObject ρ}
    (hlen : D.length ≤ isizeMax) (hlength : prepared.object.length = D.length)
    (hholds : ∀ first, offset = groupSize * first → bytes ≠ [] → offset + bytes.length ≤ D.length →
      (RetainedProof.holds prepared.proof first bytes = true ↔ SameGroups D first bytes)) :
    prepared.holds offset bytes = true ↔
      Cover groupSize D.length offset bytes.length ∧
        slice? D offset (offset + bytes.length) = some bytes := by
  rw [PreparedObject.holds, hlength]
  split_ifs with hshape
  · refine iff_of_false (by simp) ?_
    rintro ⟨cover, -⟩
    exact hshape.elim (ne_nil_of_length_pos cover.nonempty) (absurd cover.aligned)
  push Not at hshape
  obtain ⟨hne, halign⟩ := hshape
  by_cases hin : offset + bytes.length ≤ D.length
  · have hoffset : groupSize * (offset / groupSize) = offset :=
      Nat.mul_div_cancel' (Nat.dvd_of_mod_eq_zero halign)
    have hfit := le_u64Max_of_le_isizeMax hlen
    simp only [checkedAdd_of_le (hin.trans hfit), not_lt.mpr hin, if_false]
    rw [hholds _ hoffset.symm hne hin]
    have hunits : SameGroups D (offset / groupSize) bytes ↔ _ :=
      Cover.iff_units groupSize_pos hne
    rwa [hoffset] at hunits
  · refine iff_of_false ?_ fun h => hin h.1.inside
    cases hstop : checkedAdd offset bytes.length with
    | none => simp
    | some stop =>
      rw [checkedAdd_eq_some] at hstop
      simp only [if_pos (show D.length < stop by omega)]
      simp

variable {store : MemoryProofStore}

theorem MemoryProofStore.Keeps.prove_eq (hlen : D.length ≤ isizeMax)
    (h : store.Keeps suite D) (offset length : ℕ) :
    store.prove offset length = fromProof (rangeCover suite D offset length) := by
  match suite, store with
  | .blake3Bao64, blake3 cvs =>
    rw [Keeps] at h
    split_ifs at h with hempty
    · obtain ⟨error, herror⟩ := RangeGeometry.of_empty groupSize offset length
      rw [prove, Bao64.proveWith, Bao64.proveBy, h.2, rangeCover, Bao64.prove, hempty,
        length_nil, herror]
      rfl
    · rw [prove, h.proveWith_eq hlen, rangeCover]
  | .sha256Bep52, sha256 pieces =>
    by_cases hempty : D = []
    · obtain ⟨error, herror⟩ := RangeGeometry.of_empty Bep52.pieceSize offset length
      rw [prove, Bep52.proveWith, h.1.length, rangeCover, Bep52.prove, hempty, length_nil, herror]
      rfl
    · rw [prove, h.1.proveWith_eq hlen hempty, rangeCover]
  | .blake3Bao64, sha256 _ => exact h.elim
  | .sha256Bep52, blake3 _ => exact h.elim

theorem MemoryProofStore.Keeps.holds_iff (hlen : D.length ≤ isizeMax) (hne : D ≠ [])
    (h : store.Keeps suite D) (hapart : LeavesApart suite D (groupSize * first) bytes)
    (hin : groupSize * first + bytes.length ≤ D.length) :
    store.holds first bytes = true ↔ SameGroups D first bytes := by
  have hfit : first + divCeil bytes.length groupSize ≤ u64Max := by
    rw [← divCeil_mul_add groupSize_pos]
    have := divCeil_mono groupSize_pos hin
    have := unitCount_le hlen
    unfold groupSize at *
    unfold u64Max
    omega
  match suite, store with
  | .blake3Bao64, blake3 cvs =>
    rw [Keeps, if_neg hne] at h
    exact holdsFrom_iff hfit fun k hk => h.holds_iff hlen hne fun hi => hapart.chainingValue hk hi
  | .sha256Bep52, sha256 pieces =>
    exact holdsFrom_iff hfit fun k hk => h.1.holds_iff fun hi => hapart.pieceHash hk hi
  | .blake3Bao64, sha256 _ => exact h.elim
  | .sha256Bep52, blake3 _ => exact h.elim

end Answers

variable {bytes : Bytes}

section Leaves

/-- The leaves of a segment of an object, where it sits. -/
def segmentLeaves (suite : Suite) (offset : ℕ) (bytes : Bytes) : List Digest :=
  match suite with
  | .blake3Bao64 => (List.range (divCeil bytes.length groupSize)).map fun k =>
      Blake3.chainingValue (offset + groupSize * k) (chunkAt groupSize bytes k)
  | .sha256Bep52 => Bep52.objectHashes bytes

theorem segmentLeaves_nil (suite : Suite) (offset : ℕ) : segmentLeaves suite offset [] = [] := by
  cases suite <;> rfl

theorem proofLeavesAt_eq (suite : Suite) {length : ℕ}
    (hfit : length ≤ u64Max) (cover : Cover groupSize length offset bytes.length) :
    proofLeavesAt suite offset bytes length = .ok (segmentLeaves suite offset bytes) := by
  cases suite with
  | blake3Bao64 =>
    rw [proofLeavesAt, (Bao64.groupCvsAt_eq_ok hfit).mpr ⟨cover, rfl⟩]
    rfl
  | sha256Bep52 =>
    rw [proofLeavesAt, (Bep52.pieceHashesAt_eq_ok hfit).mpr ⟨cover, rfl⟩]
    rfl

theorem suppliedLeaves_eq (suite : Suite) {previous length offset : ℕ}
    (hadmitted : Admitted previous length offset bytes.length) :
    suppliedLeaves suite offset bytes length = .ok (segmentLeaves suite offset bytes) := by
  rw [suppliedLeaves]
  split_ifs with hempty
  · rw [hempty, segmentLeaves_nil]
  · have halign := hadmitted.settles.aligned
    refine proofLeavesAt_eq suite (le_u64Max_of_le_isizeMax hadmitted.limit)
      ⟨halign, length_pos_iff.mpr hempty, hadmitted.settles.inside, ?_⟩
    rcases hadmitted.settles.whole with hwhole | hend
    · exact .inr (by rw [Nat.add_mod, halign, hwhole, Nat.zero_mod])
    · exact .inl hend

end Leaves

namespace CheckpointProof

def Keeps : Suite → Bytes → CheckpointProof → Prop
  | suite, D, small prepared =>
    D.length ≤ groupSize ∧ prepared.object.length = D.length ∧ prepared.proof.Keeps suite D
  | .blake3Bao64, D, blake3 proof => proof.Keeps D
  | .sha256Bep52, D, sha256 proof => proof.Keeps D
  | _, _, _ => False

theorem new_keeps (suite : Suite) (hmulti : groupSize < D.length) :
    ∃ proof, new suite D.length (segmentLeaves suite 0 D) = .ok proof ∧ proof.Keeps suite D := by
  cases suite with
  | blake3Bao64 =>
    have hne : D ≠ [] := by
      rintro rfl
      exact absurd hmulti (Nat.not_lt_zero _)
    have hleaves : segmentLeaves .blake3Bao64 0 D = Bao64.objectCvs D := by
      simp only [segmentLeaves, zero_add, Bao64.objectCvs, Bao64.groupCount_eq hne]
      rfl
    obtain ⟨checkpoint, hnew, hkeeps⟩ := Bao64.ProofCheckpoint.new_keeps hmulti
    refine ⟨blake3 checkpoint, ?_, hkeeps⟩
    rw [new, hleaves, hnew]
    rfl
  | sha256Bep52 =>
    obtain ⟨checkpoint, hnew, hkeeps⟩ := Bep52.ProofCheckpoint.new_keeps hmulti
    refine ⟨sha256 checkpoint, ?_, hkeeps⟩
    rw [new, segmentLeaves, hnew]
    rfl

variable {proof : CheckpointProof}

/-- An admitted update with more than one group to keep takes the material to the edited bytes. -/
theorem Keeps.updated_keeps (h : proof.Keeps suite D) (fill : UInt8) {length : ℕ}
    (hadmitted : Admitted D.length length offset bytes.length) (hmulti : groupSize < length) :
    ∃ next, proof.updated suite length (offset / proofLeafSize)
        (segmentLeaves suite offset bytes) = .ok next ∧
      next.Keeps suite (edited fill D offset bytes length) := by
  have hlimit := hadmitted.limit
  match suite, proof with
  | suite, small prepared =>
    have hone := h.1
    obtain rfl := hadmitted.crossing hmulti hone
    have hwhole := (hadmitted.settles.grown (by omega)).2
    rw [zero_add] at hwhole
    subst hwhole
    rw [edited_whole]
    exact new_keeps suite hmulti
  | .blake3Bao64, blake3 proof =>
    obtain ⟨next, hnext, hkeeps⟩ :=
      Bao64.ProofCheckpoint.Keeps.updated_keeps h fill hadmitted.settles hmulti hlimit
    refine ⟨blake3 next, ?_, hkeeps⟩
    exact congrArg (fun result => fromProof (result.map blake3)) hnext
  | .sha256Bep52, sha256 proof =>
    obtain ⟨next, hnext, hkeeps⟩ :=
      Bep52.ProofCheckpoint.Keeps.updated_keeps h fill hadmitted.settles hmulti hlimit
    refine ⟨sha256 next, ?_, hkeeps⟩
    exact congrArg (fun result => fromProof (result.map sha256)) hnext
  | .blake3Bao64, sha256 _ => exact h.elim
  | .sha256Bep52, blake3 _ => exact h.elim

theorem Keeps.root_eq (hsplit : Bao64.SplitRoot)
    (hlen : D.length ≤ isizeMax) (hmulti : groupSize < D.length) (h : proof.Keeps suite D) :
    ∃ value, Streaming.root suite D = .ok value ∧ proof.root = .ok value := by
  match suite, proof with
  | suite, small prepared => exact absurd h.1 (not_le.mpr hmulti)
  | .blake3Bao64, blake3 proof =>
    refine ⟨_, root_blake3 (le_u64Max_of_le_isizeMax hlen), ?_⟩
    rw [root, Bao64.ProofCheckpoint.Keeps.root_eq h hlen hsplit]
    rfl
  | .sha256Bep52, sha256 proof =>
    obtain ⟨value, hvalue, hroot⟩ := Bep52.ProofCheckpoint.Keeps.root_eq h hlen
    obtain ⟨value', hvalue'⟩ := root_ok .sha256Bep52 hlen
    rw [Bep52.root, hvalue'] at hvalue
    obtain rfl : value' = value := Option.some.inj hvalue
    refine ⟨value', hvalue', ?_⟩
    rw [root, hroot]
    rfl
  | .blake3Bao64, sha256 _ => exact h.elim
  | .sha256Bep52, blake3 _ => exact h.elim

end CheckpointProof

namespace ObjectCheckpoint

structure Keeps (named : Suite) (D : Bytes) (checkpoint : ObjectCheckpoint) : Prop where
  suite : checkpoint.suite = named
  limit : D.length ≤ isizeMax
  object : ∃ value, Streaming.root named D = .ok value ∧
    checkpoint.object = ⟨named.identifier, value, D.length⟩
  proof : checkpoint.proof.Keeps named D

variable {checkpoint : ObjectCheckpoint}

theorem Keeps.length (h : checkpoint.Keeps suite D) : checkpoint.object.length = D.length := by
  obtain ⟨value, -, hobject⟩ := h.object
  rw [hobject]

theorem small_keeps (hsplit : Bao64.SplitRoot) (suite : Suite) (hone : D.length ≤ groupSize) :
    ∃ checkpoint, small suite D = .ok checkpoint ∧ checkpoint.Keeps suite D := by
  have hlen : D.length ≤ isizeMax := le_trans hone (by decide)
  obtain ⟨value, hroot⟩ := root_ok suite hlen
  obtain ⟨kept, hprepare, hkept⟩ := prepare_eq hsplit hlen hroot (some D.length) (by simp)
  let object : ObjectId := ⟨suite.identifier, value, D.length⟩
  refine ⟨⟨suite, object, .small ⟨object, kept⟩⟩, ?_, rfl, hlen, ⟨value, hroot, rfl⟩, hone, rfl,
    hkept⟩
  rw [small, hprepare]
  rfl

/-- An update that passes the admission rule gives the checkpoint of the edited bytes. -/
theorem Keeps.updated_keeps (hsplit : Bao64.SplitRoot) (h : checkpoint.Keeps suite D) (fill : UInt8)
    {length : ℕ} (hvalid : validateUpdate D.length length offset bytes.length = .ok ()) :
    ∃ next, checkpoint.updated offset bytes length = .ok next ∧
      next.Keeps suite (edited fill D offset bytes length) := by
  have hadmitted := validateUpdate_ok hvalid
  have hlength := edited_length fill D hadmitted.settles.inside
  rw [updated, h.length, hvalid, ok_bind, h.suite]
  split_ifs with hsame hone
  · rw [hsame.1, hsame.2, edited_same]
    exact ⟨checkpoint, rfl, h⟩
  · have hbytes : bytes.length = length := by
      refine (hadmitted.single hone).resolve_left fun hno => hsame ⟨?_, hno.1⟩
      exact length_eq_zero_iff.mp hno.2
    have hzero : offset = 0 := by
      have := hadmitted.settles.inside
      omega
    rw [hzero, ← hbytes, edited_whole]
    exact small_keeps hsplit suite (hbytes ▸ hone)
  · have hmulti : groupSize < length := Nat.lt_of_not_le hone
    have hlimit : (edited fill D offset bytes length).length ≤ isizeMax := by
      rw [hlength]
      exact hadmitted.limit
    obtain ⟨proof, hproof, hkeeps⟩ := h.proof.updated_keeps fill hadmitted hmulti
    obtain ⟨value, hvalue, hroot⟩ := hkeeps.root_eq hsplit hlimit (by rwa [hlength])
    rw [suppliedLeaves_eq suite hadmitted, ok_bind, hproof, ok_bind, hroot, ok_bind]
    exact ⟨_, rfl, rfl, hlimit, ⟨value, hvalue, by rw [hlength]⟩, hkeeps⟩

/-- A checkpoint answers every request as an object prepared from the bytes does. -/
theorem Keeps.prove_eq (h : checkpoint.Keeps suite D) (offset length : ℕ) :
    checkpoint.prove offset length = fromProof (rangeCover suite D offset length) := by
  obtain ⟨named, object, proof⟩ := checkpoint
  have hproof := h.proof
  match suite, proof with
  | suite, .small prepared => exact hproof.2.2.prove_eq h.limit offset length
  | .blake3Bao64, .blake3 proof =>
    exact congrArg fromProof (Bao64.ProofCheckpoint.Keeps.prove_eq hproof h.limit offset length)
  | .sha256Bep52, .sha256 proof =>
    exact congrArg fromProof (Bep52.ProofCheckpoint.Keeps.prove_eq hproof h.limit offset length)
  | .blake3Bao64, .sha256 _ => exact hproof.elim
  | .sha256Bep52, .blake3 _ => exact hproof.elim

/-- A checkpoint holds the aligned slices of its bytes, and nothing else. -/
theorem Keeps.holds_iff (h : checkpoint.Keeps suite D) (hapart : LeavesApart suite D offset bytes) :
    checkpoint.prepared.holds offset bytes = true ↔
      Cover groupSize D.length offset bytes.length ∧
        slice? D offset (offset + bytes.length) = some bytes := by
  refine PreparedObject.holds_iff h.limit h.length fun first hfirst hne hin => ?_
  subst hfirst
  have hlen := h.limit
  obtain ⟨named, object, proof⟩ := checkpoint
  have hproof := h.proof
  match suite, proof with
  | suite, .small prepared =>
    obtain ⟨hone, hlength, hkept⟩ := hproof
    have hpos := length_pos_iff.mpr hne
    obtain rfl : first = 0 := by
      have : groupSize * first < groupSize * 1 := by omega
      have := Nat.lt_of_mul_lt_mul_left this
      omega
    have hunits : SameGroups D 0 bytes ↔ _ := Cover.iff_units groupSize_pos hne
    refine (PreparedObject.holds_iff hlen hlength fun first hfirst hne hin => ?_).trans hunits.symm
    rw [hfirst] at hin
    have hobject : D ≠ [] := by
      rintro rfl
      rw [length_nil] at hin
      omega
    exact hkept.holds_iff hlen hobject (by rwa [← hfirst]) hin
  | .blake3Bao64, .blake3 proof =>
    refine chunks_zipIdx_all.trans (forall₂_congr fun k hk => ?_)
    exact Bao64.ProofCheckpoint.Keeps.holds_iff hproof hlen fun hi => hapart.chainingValue hk hi
  | .sha256Bep52, .sha256 proof =>
    refine chunks_zipIdx_all.trans (forall₂_congr fun k hk => ?_)
    exact Bep52.ProofCheckpoint.Keeps.holds_iff hproof hlen fun hi => hapart.pieceHash hk hi
  | .blake3Bao64, .sha256 _ => exact hproof.elim
  | .sha256Bep52, .blake3 _ => exact hproof.elim

/-- The updates of a checkpoint one after another, with every checkpoint on the way. -/
def snapshots (checkpoint : ObjectCheckpoint) : List Edit → Except (Abort Error) (List ObjectCheckpoint)
  | [] => .ok [checkpoint]
  | edit :: edits => do
    let next ← checkpoint.updated edit.offset edit.bytes edit.length
    let later ← next.snapshots edits
    return checkpoint :: later

theorem Keeps.snapshots_keep (hsplit : Bao64.SplitRoot) (fill : UInt8)
    {edits : List Edit} (h : checkpoint.Keeps suite D)
    {history : List ObjectCheckpoint} (hrun : checkpoint.snapshots edits = .ok history) :
    List.Forall₂ (Keeps suite) (contents fill D edits) history := by
  induction edits generalizing D checkpoint history with
  | nil =>
    obtain rfl := Except.ok.inj hrun
    exact .cons h .nil
  | cons edit edits ih =>
    simp only [snapshots, bind_eq_ok, pure_eq_ok] at hrun
    obtain ⟨next, hnext, later, hlater, rfl⟩ := hrun
    have hvalid : validateUpdate D.length edit.length edit.offset edit.bytes.length = .ok () := by
      rw [updated, bind_eq_ok, h.length] at hnext
      exact hnext.choose_spec.1
    obtain ⟨next', hnext', hkeeps⟩ := h.updated_keeps hsplit fill hvalid
    obtain rfl := Except.ok.inj (hnext.symm.trans hnext')
    exact .cons h (ih hkeeps hlater)

/-- A checkpoint stands for these bytes as an object prepared from them does. -/
structure AnswersFor (suite : Suite) (D : Bytes) (checkpoint : ObjectCheckpoint) : Prop where
  fresh : ∃ prepared, prepare suite none D = .ok prepared ∧ checkpoint.object = prepared.object ∧
    ∀ offset length, checkpoint.prepared.prove offset length = prepared.prove offset length
  holds : ∀ offset bytes, LeavesApart suite D offset bytes →
    (checkpoint.prepared.holds offset bytes = true ↔
      bytes ≠ [] ∧ Cover groupSize D.length offset bytes.length ∧
        slice? D offset (offset + bytes.length) = some bytes)

theorem Keeps.answersFor (hsplit : Bao64.SplitRoot)
    (h : checkpoint.Keeps suite D) : checkpoint.AnswersFor suite D := by
  obtain ⟨value, hroot, hobject⟩ := h.object
  obtain ⟨kept, hprepare, hkept⟩ := prepare_eq hsplit h.limit hroot none (by simp)
  refine ⟨⟨_, hprepare, hobject, fun offset length => ?_⟩, fun offset bytes hapart => ?_⟩
  · exact (h.prove_eq offset length).trans (hkept.prove_eq h.limit offset length).symm
  · rw [h.holds_iff hapart, iff_and_self]
    rintro ⟨cover, -⟩
    exact ne_nil_of_length_pos cover.nonempty

end ObjectCheckpoint

end Checkpoints

/-- Along any updates that succeed, every checkpoint stands for the bytes at its time; an update is
rejected when a byte or a changed leaf would be missing, past a limit, or for one of the named
shapes. -/
theorem checkpoints_answer_as_fresh [Blake3] [Sha256] (hsplit : Bao64.SplitRoot) (suite : Suite)
    (fill : UInt8) :
    (∃ start, ObjectCheckpoint.new suite = .ok start ∧
      ∀ edits history, start.snapshots edits = .ok history →
        List.Forall₂ (ObjectCheckpoint.AnswersFor suite) (contents fill [] edits) history) ∧
    ∀ previous length offset bytes error,
      validateUpdate previous length offset bytes = .error error →
        maxObjectLength < length ∨ length < offset + bytes ∨
          Unspecified previous length offset bytes ∨ Unhashed previous length offset bytes ∨
          Unserved previous length offset bytes := by
  refine ⟨?_, fun previous length offset bytes error => validateUpdate_error⟩
  obtain ⟨start, hstart, hkeeps⟩ := ObjectCheckpoint.small_keeps hsplit suite
    (show ([] : Bytes).length ≤ groupSize from Nat.zero_le _)
  refine ⟨start, hstart, fun edits history hrun => ?_⟩
  exact (hkeeps.snapshots_keep hsplit fill hrun).imp fun _ _ h => h.answersFor hsplit

section Sample

attribute [local instance] Bao64.sampleBlake3 Bao64.sampleSha256

theorem checkpoints_answer_as_fresh_two_groups :
    Bao64.SplitRoot ∧ LeavesApart .blake3Bao64 Bao64.sampleObject groupSize [7] ∧
      ∃ start next, ObjectCheckpoint.new .blake3Bao64 = .ok start ∧
        start.snapshots [⟨0, Bao64.sampleObject, groupSize + 1⟩] = .ok [start, next] ∧
        next.prepared.holds groupSize [7] = true := by
  have hvalid : validateUpdate 0 (groupSize + 1) 0 Bao64.sampleObject.length = .ok () := by
    rw [Bao64.sampleObject_length]
    decide
  have hapart : LeavesApart .blake3Bao64 Bao64.sampleObject groupSize [7] :=
    (Bao64.collisionFree_sample (n := 1) Bao64.cover_sample (by decide)).group
  obtain ⟨⟨start, hstart, hall⟩, -⟩ :=
    checkpoints_answer_as_fresh Bao64.splitRoot_sample .blake3Bao64 0
  obtain ⟨start', hstart', hkeeps⟩ := ObjectCheckpoint.small_keeps Bao64.splitRoot_sample
    .blake3Bao64 (show ([] : Bytes).length ≤ groupSize from Nat.zero_le _)
  obtain rfl := Except.ok.inj (hstart.symm.trans hstart')
  obtain ⟨next, hnext, -⟩ := hkeeps.updated_keeps Bao64.splitRoot_sample 0 hvalid
  have hrun : start.snapshots [⟨0, Bao64.sampleObject, groupSize + 1⟩] = .ok [start, next] := by
    simp only [ObjectCheckpoint.snapshots, hnext, ok_bind]
    rfl
  have hanswers := hall _ _ hrun
  rw [contents, contents, ← Bao64.sampleObject_length, edited_whole] at hanswers
  simp only [forall₂_cons, forall₂_nil_right_iff, and_true] at hanswers
  refine ⟨Bao64.splitRoot_sample, hapart, start, next, hstart, hrun, ?_⟩
  exact (hanswers.2.holds _ _ hapart).mpr
    ⟨by simp, Bao64.cover_sample, Bao64.slice_sample (n := 1) le_rfl⟩

end Sample

end ObjectTransfer.Object
