import ObjectTransfer.Streaming.Accumulator

/-! # Streaming verification

Bytes arrive in pieces of any size and are fed to a suite in groups of 64 KiB.
However the pieces are cut, the groups the suite sees are those of the whole
byte string, so the digest depends only on the bytes.
-/

namespace ObjectTransfer.Streaming
open Foundations List

def groupSize : ℕ := 65536

inductive Suite where
  | blake3Bao64
  | sha256Bep52
  deriving DecidableEq, Repr

def Suite.identifier : Suite → ℕ
  | blake3Bao64 => 1
  | sha256Bep52 => 2

structure GroupSequence where
  next : ℕ := 0
  sawFinal : Bool := false

namespace GroupSequence

def check (sequence : GroupSequence) (groupIndex : ℕ) (bytes : Bytes) :
    Except VerifyError Unit := do
  rejectIf (groupIndex ≠ sequence.next) .groupOutOfOrder
  rejectIf (sequence.sawFinal = true) .groupAfterFinal
  rejectIf (bytes = [] ∨ groupSize < bytes.length) .invalidGroupLength

/-- Record an accepted group. A short group is the last one. -/
def commit (sequence : GroupSequence) (bytes : Bytes) : Except VerifyError GroupSequence := do
  let next ← okOr (checkedAdd sequence.next 1) .lengthOverflow
  return { next := next, sawFinal := decide (bytes.length < groupSize) }

end GroupSequence

inductive VerifierInner where
  | blake3 (hasher : Hasher)
  | sha256 (tree : MerkleAccumulator) (singleRoot : Option Digest)

structure Verifier where
  sequence : GroupSequence
  inner : VerifierInner

namespace Verifier

def new : Suite → Verifier
  | .blake3Bao64 => { sequence := {}, inner := .blake3 Hasher.new }
  | .sha256Bep52 => { sequence := {}, inner := .sha256 {} none }

variable [Blake3] [Sha256]

/-- Hand a checked group to the suite. -/
def absorb (verifier : Verifier) (bytes : Bytes) : Except VerifyError VerifierInner :=
  match verifier.inner with
  | .blake3 hasher => .ok (.blake3 (hasher.update bytes))
  | .sha256 tree singleRoot => do
    let tree ← tree.addLeaf (pieceHash bytes)
    return .sha256 tree (if verifier.sequence.next = 0 then some (singleGroupRoot bytes)
      else singleRoot)

def feed (verifier : Verifier) (groupIndex : ℕ) (bytes : Bytes) :
    Except VerifyError Verifier := do
  verifier.sequence.check groupIndex bytes
  let inner ← verifier.absorb bytes
  let sequence ← verifier.sequence.commit bytes
  return { sequence := sequence, inner := inner }

def feedNext (verifier : Verifier) (bytes : Bytes) : Except VerifyError Verifier :=
  verifier.feed verifier.sequence.next bytes

def finish (verifier : Verifier) : Except VerifyError Digest :=
  match verifier.inner with
  | .blake3 hasher => .ok hasher.finalize
  | .sha256 tree singleRoot =>
    if verifier.sequence.next = 1 then okOr singleRoot .lengthOverflow else tree.finish

def feedAll (verifier : Verifier) (groups : List Bytes) : Except VerifyError Verifier :=
  groups.foldlM feedNext verifier

end Verifier

structure ExpectedObject where
  suite : Suite
  root : Digest
  length : ℕ
  deriving DecidableEq

/-- Suite, root and length that matched a finished stream. -/
structure VerifiedObject where
  suite : Suite
  root : Digest
  length : ℕ
  deriving DecidableEq

structure StreamVerifier where
  suite : Suite
  verifier : Verifier
  pending : Bytes
  length : ℕ

namespace StreamVerifier

def new (suite : Suite) : StreamVerifier :=
  { suite := suite, verifier := .new suite, pending := [], length := 0 }

variable [Blake3] [Sha256]

/-- Top up a partly filled group and feed it once it is full. Returns the bytes left over. -/
def fillPending (stream : StreamVerifier) (bytes : Bytes) :
    Except VerifyError (StreamVerifier × Bytes) :=
  if stream.pending = [] then .ok (stream, bytes)
  else do
    let consumed := min (groupSize - stream.pending.length) bytes.length
    let pending := stream.pending ++ bytes.take consumed
    if pending.length = groupSize then
      let verifier ← stream.verifier.feedNext pending
      return ({ stream with verifier := verifier, pending := [] }, bytes.drop consumed)
    else return ({ stream with pending := pending }, bytes.drop consumed)

/-- Feed the full groups when nothing is buffered. Returns the bytes left over. -/
def feedGroups (stream : StreamVerifier) (bytes : Bytes) :
    Except VerifyError (StreamVerifier × Bytes) :=
  if stream.pending = [] then do
    let verifier ← stream.verifier.feedAll (chunksExact groupSize bytes)
    return ({ stream with verifier := verifier }, remainder groupSize bytes)
  else .ok (stream, bytes)

def update (stream : StreamVerifier) (bytes : Bytes) : Except VerifyError StreamVerifier := do
  let filled ← stream.fillPending bytes
  let fed ← filled.1.feedGroups filled.2
  let length ← okOr (checkedAdd fed.1.length bytes.length) .lengthOverflow
  return { fed.1 with pending := fed.1.pending ++ fed.2, length := length }

def digest (stream : StreamVerifier) : Except VerifyError Digest := do
  let verifier ←
    if stream.pending = [] then pure stream.verifier else stream.verifier.feedNext stream.pending
  verifier.finish

def finish (stream : StreamVerifier) (expected : ExpectedObject) :
    Except VerifyError VerifiedObject := do
  rejectIf (stream.suite ≠ expected.suite) .suiteMismatch
  rejectIf (stream.length ≠ expected.length) .lengthMismatch
  let root ← stream.digest
  rejectIf (root ≠ expected.root) .rootMismatch
  return ⟨expected.suite, root, expected.length⟩

def updateAll (stream : StreamVerifier) (pieces : List Bytes) : Except VerifyError StreamVerifier :=
  pieces.foldlM update stream

end StreamVerifier

def root [Blake3] [Sha256] (suite : Suite) (bytes : Bytes) : Except VerifyError Digest := do
  let stream ← (StreamVerifier.new suite).update bytes
  stream.digest

theorem groupSize_pos : 0 < groupSize := by decide

variable {bytes : Bytes}

theorem length_div_groupSize_lt (h : bytes.length ≤ u64Max) :
    bytes.length / groupSize < u64Max := by
  have hpos : 0 < u64Max := by decide
  rcases Nat.eq_zero_or_pos bytes.length with h0 | h0
  · rw [h0, Nat.zero_div]
    exact hpos
  · exact lt_of_lt_of_le (Nat.div_lt_self h0 (by decide)) h

section Correctness

variable [Sha256]

theorem Verifier.feedAll_append (verifier : Verifier) (xs ys : List Bytes) :
    verifier.feedAll (xs ++ ys) = verifier.feedAll xs >>= (·.feedAll ys) := by
  simp [feedAll, foldlM_append]

@[simp] theorem Verifier.feedAll_nil (verifier : Verifier) : verifier.feedAll [] = .ok verifier :=
  rfl

theorem Verifier.feedAll_cons (verifier : Verifier) (x : Bytes) (xs : List Bytes) :
    verifier.feedAll (x :: xs) = verifier.feedNext x >>= (·.feedAll xs) := by
  simp [feedAll]

namespace StreamVerifier

variable {stream : StreamVerifier}

theorem fillPending_nil (h : stream.pending = []) (bytes : Bytes) :
    stream.fillPending bytes = .ok (stream, bytes) :=
  if_pos h

theorem fillPending_full (hp : stream.pending ≠ []) (h : stream.pending.length < groupSize)
    (hfull : groupSize ≤ (stream.pending ++ bytes).length) :
    stream.fillPending bytes = do
      let verifier ← stream.verifier.feedNext ((stream.pending ++ bytes).take groupSize)
      return ({ stream with verifier := verifier, pending := [] },
        (stream.pending ++ bytes).drop groupSize) := by
  rw [length_append] at hfull
  have hmin : min (groupSize - stream.pending.length) bytes.length =
      groupSize - stream.pending.length := by omega
  have htake : stream.pending ++ bytes.take (groupSize - stream.pending.length) =
      (stream.pending ++ bytes).take groupSize := by
    rw [take_append, take_of_length_le h.le]
  have hdrop : bytes.drop (groupSize - stream.pending.length) =
      (stream.pending ++ bytes).drop groupSize := by
    rw [drop_append, drop_of_length_le h.le, nil_append]
  have hgroup : ((stream.pending ++ bytes).take groupSize).length = groupSize := by
    rw [length_take, length_append]
    exact min_eq_left hfull
  rw [fillPending, if_neg hp]
  dsimp only
  rw [hmin, htake, hdrop, if_pos hgroup]

theorem fillPending_short (hp : stream.pending ≠ [])
    (hshort : (stream.pending ++ bytes).length < groupSize) :
    stream.fillPending bytes = .ok ({ stream with pending := stream.pending ++ bytes }, []) := by
  rw [length_append] at hshort
  have hmin : min (groupSize - stream.pending.length) bytes.length = bytes.length := by omega
  have hne : ¬ (stream.pending ++ bytes).length = groupSize := by
    rw [length_append]
    omega
  rw [fillPending, if_neg hp]
  dsimp only
  rw [hmin, take_length, if_neg hne, drop_length]
  rfl

theorem feedGroups_nil (h : stream.pending = []) (bytes : Bytes) :
    stream.feedGroups bytes = do
      let verifier ← stream.verifier.feedAll (chunksExact groupSize bytes)
      return ({ stream with verifier := verifier }, remainder groupSize bytes) :=
  if_pos h

/-- An update feeds the full groups of the buffered bytes followed by the new ones, and
buffers what is left. -/
theorem update_eq (h : stream.pending.length < groupSize) (bytes : Bytes) :
    stream.update bytes = do
      let verifier ← stream.verifier.feedAll (chunksExact groupSize (stream.pending ++ bytes))
      let length ← okOr (checkedAdd stream.length bytes.length) .lengthOverflow
      return { stream with
        verifier := verifier, pending := remainder groupSize (stream.pending ++ bytes),
        length := length } := by
  by_cases hp : stream.pending = []
  · rw [update, fillPending_nil hp, ok_bind, feedGroups_nil hp, hp, bind_assoc]
    simp only [pure_bind, nil_append]
  by_cases hfull : groupSize ≤ (stream.pending ++ bytes).length
  · rw [update, fillPending_full hp h hfull, bind_assoc, chunksExact_cons groupSize_pos hfull,
      Verifier.feedAll_cons, bind_assoc, ← remainder_drop groupSize_pos hfull]
    congr 1
    funext verifier
    rw [pure_bind, feedGroups_nil (by rfl), bind_assoc]
    simp only [pure_bind, nil_append]
  · have hshort := Nat.lt_of_not_le hfull
    have hkeep : stream.pending ++ bytes ≠ [] := by simp [hp]
    rw [update, fillPending_short hp hshort, chunksExact_of_lt hshort, remainder_of_lt hshort,
      ok_bind, feedGroups, if_neg hkeep, Verifier.feedAll_nil]
    simp only [ok_bind, append_nil]

theorem digest_eq [Blake3] (stream : StreamVerifier) :
    stream.digest = stream.verifier.feedAll
      (if stream.pending = [] then [] else [stream.pending]) >>= (·.finish) := by
  by_cases h : stream.pending = []
  · simp [digest, h]
  · simp [digest, h, Verifier.feedAll_cons]

section

variable (h : stream.pending.length < groupSize)
include h

theorem update_update (a b : Bytes) (hfit : stream.length + (a ++ b).length ≤ u64Max) :
    (stream.update a >>= (·.update b)) = stream.update (a ++ b) := by
  have hfit' : stream.length + a.length + b.length ≤ u64Max := by
    rw [length_append] at hfit
    omega
  rw [update_eq h, update_eq h, ← append_assoc, chunksExact_append (stream.pending ++ a) b groupSize_pos,
    remainder_append (stream.pending ++ a) b groupSize_pos, Verifier.feedAll_append,
    checkedAdd_of_le (by omega), checkedAdd_of_le hfit]
  cases hv : stream.verifier.feedAll (chunksExact groupSize (stream.pending ++ a)) with
  | error => simp
  | ok =>
    have hrem := remainder_length_lt groupSize_pos (stream.pending ++ a)
    simp only [ok_bind, okOr_some, pure_bind]
    rw [update_eq hrem, checkedAdd_of_le hfit']
    simp only [okOr_some, ok_bind, length_append, add_assoc]

theorem update_ok {stream' : StreamVerifier} (hok : stream.update bytes = .ok stream') :
    stream'.suite = stream.suite ∧ stream'.length = stream.length + bytes.length ∧
      stream'.pending.length < groupSize := by
  rw [update_eq h] at hok
  simp only [bind_eq_ok, okOr_eq_ok, checkedAdd_eq_some, pure_eq_ok] at hok
  obtain ⟨verifier, -, length, ⟨-, rfl⟩, rfl⟩ := hok
  exact ⟨rfl, rfl, remainder_length_lt groupSize_pos _⟩

/-- However the bytes are cut, the stream ends up where one update with all of them takes it. -/
theorem updateAll_eq (pieces : List Bytes) (hfit : stream.length + pieces.flatten.length ≤ u64Max) :
    stream.updateAll pieces = stream.update pieces.flatten := by
  induction pieces generalizing stream with
  | nil =>
    rw [flatten_nil, update_eq h, append_nil, chunksExact_of_lt h, remainder_of_lt h,
      checkedAdd_of_le (by simpa using hfit)]
    rfl
  | cons piece pieces ih =>
    rw [flatten_cons, ← update_update h _ _ hfit, updateAll, foldlM_cons]
    cases hok : stream.update piece with
    | error => rfl
    | ok =>
      obtain ⟨-, hlength, hpending⟩ := update_ok h hok
      rw [flatten_cons, length_append] at hfit
      exact ih hpending (by omega)

end

/-- A finished stream passes exactly under its own suite, length and root. -/
theorem finish_eq_ok [Blake3] {expected : ExpectedObject} :
    (∃ verified, stream.finish expected = .ok verified) ↔
      expected.suite = stream.suite ∧ expected.length = stream.length ∧
        stream.digest = .ok expected.root := by
  simp only [finish, bind_eq_ok, rejectIf_eq_ok, not_not, pure_eq_ok]
  constructor
  · rintro ⟨_, -, hsuite, -, hlength, root, hdigest, -, rfl, -⟩
    exact ⟨hsuite.symm, hlength.symm, hdigest⟩
  · rintro ⟨hsuite, hlength, hdigest⟩
    exact ⟨_, (), hsuite.symm, (), hlength.symm, _, hdigest, (), rfl, rfl⟩

end StreamVerifier

theorem root_eq [Blake3] (suite : Suite) (h : bytes.length ≤ u64Max) :
    root suite bytes =
      (Verifier.new suite).feedAll (chunks groupSize bytes) >>= (·.finish) := by
  have hnew : (StreamVerifier.new suite).pending.length < groupSize := groupSize_pos
  have hfit : (StreamVerifier.new suite).length + bytes.length ≤ u64Max := by
    simpa [StreamVerifier.new] using h
  rw [root, StreamVerifier.update_eq hnew, checkedAdd_of_le hfit, chunks_eq groupSize_pos,
    Verifier.feedAll_append]
  cases hv : (Verifier.new suite).feedAll (chunksExact groupSize bytes) with
  | error => simp [StreamVerifier.new, hv]
  | ok => simp [StreamVerifier.new, hv, StreamVerifier.digest_eq]

/-- A group in sequence reaches the suite, and only a short one ends the sequence. -/
theorem Verifier.feedNext_eq {verifier : Verifier} (hopen : verifier.sequence.sawFinal = false)
    (hnext : verifier.sequence.next < u64Max) (hne : bytes ≠ []) (hle : bytes.length ≤ groupSize) :
    verifier.feedNext bytes = do
      let inner ← verifier.absorb bytes
      return { sequence := { next := verifier.sequence.next + 1,
                             sawFinal := decide (bytes.length < groupSize) }, inner := inner } := by
  have hshape : ¬ (bytes = [] ∨ groupSize < bytes.length) := by
    rintro (h | h)
    · exact hne h
    · omega
  have hopen' : ¬ verifier.sequence.sawFinal = true := by simp [hopen]
  rw [feedNext, feed, GroupSequence.check, rejectIf_neg (by simp), rejectIf_neg hopen',
    rejectIf_neg hshape, GroupSequence.commit, checkedAdd_of_le hnext]
  simp only [ok_bind, okOr_some, pure_bind]

section Blake3

theorem Verifier.feedNext_blake3 {next : ℕ} {hasher : Hasher}
    (hnext : next < u64Max) (hne : bytes ≠ []) (hle : bytes.length ≤ groupSize) :
    ({ sequence := { next := next }, inner := .blake3 hasher } : Verifier).feedNext bytes =
      .ok { sequence := { next := next + 1, sawFinal := decide (bytes.length < groupSize) },
            inner := .blake3 (hasher.update bytes) } := by
  rw [feedNext_eq rfl hnext hne hle, absorb, ok_bind]
  rfl

theorem Verifier.feedAll_blake3 {groups : List Bytes} (hfull : ∀ g ∈ groups, g.length = groupSize)
    {next : ℕ} (hfit : next + groups.length ≤ u64Max) (hasher : Hasher) :
    ({ sequence := { next := next }, inner := .blake3 hasher } : Verifier).feedAll groups =
      .ok { sequence := { next := next + groups.length },
            inner := .blake3 (hasher.update groups.flatten) } := by
  induction groups generalizing next hasher with
  | nil => simp [Hasher.update]
  | cons g groups ih =>
    have hg := hfull g (by simp)
    have hne : g ≠ [] := by
      rintro rfl
      exact absurd hg groupSize_pos.ne
    rw [length_cons] at hfit
    rw [feedAll_cons, feedNext_blake3 (by omega) hne hg.le, ok_bind,
      decide_eq_false (by omega), ih (fun x hx => hfull x (by simp [hx])) (by omega)]
    simp only [Hasher.update, flatten_cons, append_assoc, length_cons, add_right_comm, add_assoc]

/-- The streaming BLAKE3 root is the crate's hash of the bytes. -/
theorem root_blake3 [Blake3] (h : bytes.length ≤ u64Max) :
    root .blake3Bao64 bytes = .ok (Blake3.hash bytes) := by
  have hgroups := length_div_groupSize_lt h
  have hexact : (Verifier.new .blake3Bao64).feedAll (chunksExact groupSize bytes) =
      .ok { sequence := { next := bytes.length / groupSize },
            inner := .blake3 { absorbed := (chunksExact groupSize bytes).flatten } } := by
    have hfull : ∀ g ∈ chunksExact groupSize bytes, g.length = groupSize :=
      fun g hg => length_of_mem_chunksExact hg
    have hfit : 0 + (chunksExact groupSize bytes).length ≤ u64Max := by
      rw [chunksExact_length]
      omega
    simpa [Verifier.new, Hasher.new, Hasher.update] using
      Verifier.feedAll_blake3 hfull hfit Hasher.new
  rw [root_eq _ h, chunks_eq groupSize_pos, Verifier.feedAll_append, hexact, ok_bind]
  by_cases hrem : remainder groupSize bytes = []
  · have hwhole := chunksExact_append_remainder groupSize bytes
    rw [hrem, append_nil] at hwhole
    simp [hrem, Verifier.finish, Hasher.finalize, hwhole]
  · have hlt := remainder_length_lt groupSize_pos bytes
    rw [if_neg hrem, Verifier.feedAll_cons, Verifier.feedNext_blake3 hgroups hrem hlt.le]
    simp [Verifier.finish, Hasher.finalize, Hasher.update, chunksExact_append_remainder]

end Blake3

end Correctness

end ObjectTransfer.Streaming
