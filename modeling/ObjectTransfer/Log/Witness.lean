import ObjectTransfer.Log.Note

/-! # What a witnessed checkpoint shows

The text of a checkpoint gives back its three fields, so a signature over it is a signature over
nothing else. Every name a policy accepts stands for a key of its own.
-/

namespace ObjectTransfer.Log
open Foundations Streaming VerifyingKey List

variable {signed : SignedCheckpoint}

section Format

variable {checkpoint checkpoint' : Checkpoint} {body : List Char} {signature : NoteSignature}
  {signatures : List NoteSignature} {name : List Char}

variable {c : Char}

theorem not_mem_toDigits (hc : c.isDigit = false) (n : ℕ) : c ∉ Nat.toDigits 10 n := by
  intro h
  rw [Nat.isDigit_of_mem_toDigits (by decide) (by decide) h] at hc
  cases hc

theorem toDigits_injective : Function.Injective (Nat.toDigits 10) := by
  intro m n h
  rw [← Nat.ofDigitChars_ten_toDigits (n := m), h, Nat.ofDigitChars_ten_toDigits]

theorem not_mem_of_validNoteName (h : validNoteName name = true)
    (hc : isWhitespace c = true) : c ∉ name := by
  intro hmem
  simp only [validNoteName, Bool.and_eq_true, Bool.not_eq_true', any_eq_false] at h
  exact h.2 c hmem hc

variable [Base64]

theorem not_mem_encode (hc : c ≤ ' ') (bytes : Bytes) : c ∉ Base64.encode bytes :=
  fun h => absurd (Base64.printable bytes c h) (Char.not_lt.mpr hc)

theorem encode_injective : Function.Injective Base64.encode := by
  intro xs ys h
  apply Option.some.inj
  rw [← Base64.decode_encode, ← Base64.decode_encode, h]

theorem Checkpoint.body_eq_ok (h : checkpoint.body = .ok body) :
    '\n' ∉ checkpoint.origin ∧ body = ['\n'].intercalate checkpoint.lines ++ ['\n'] := by
  simp only [Checkpoint.body, bind_eq_ok, rejectIf_eq_ok, pure_eq_ok] at h
  obtain ⟨-, -, -, hline, rfl⟩ := h
  exact ⟨hline, rfl⟩

theorem Checkpoint.splitOn_lines (h : '\n' ∉ checkpoint.origin) :
    (['\n'].intercalate checkpoint.lines).splitOn '\n' = checkpoint.lines := by
  apply splitOn_intercalate
  · simp [lines, h, not_mem_toDigits, not_mem_encode]
  · simp [lines]

theorem Checkpoint.lines_injective : Function.Injective Checkpoint.lines := by
  rintro ⟨origin, size, root⟩ ⟨origin', size', root'⟩ h
  simpa [lines, toDigits_injective.eq_iff, encode_injective.eq_iff, Subtype.ext_iff,
    List.Vector.toList_injective.eq_iff] using h

theorem Checkpoint.body_inj (h : checkpoint.body = .ok body) (h' : checkpoint'.body = .ok body) :
    checkpoint = checkpoint' := by
  obtain ⟨hline, rfl⟩ := body_eq_ok h
  obtain ⟨hline', heq⟩ := body_eq_ok h'
  apply lines_injective
  rw [← splitOn_lines hline, append_cancel_right heq, splitOn_lines hline']

namespace SignedCheckpoint

theorem signatureLines_eq_ok {written : List (List Char)} (h : signatures.mapM (fun signature => do
      rejectIf (!validNoteName signature.name) Error.malformed
      pure (signature.line ++ ['\n'])) = .ok written) :
    (∀ s ∈ signatures, validNoteName s.name = true) ∧
      written = (signatures.map NoteSignature.line).map (· ++ ['\n']) := by
  induction signatures generalizing written with
  | nil =>
    rw [mapM_nil, pure_eq_ok] at h
    simp [← h]
  | cons signature signatures ih =>
    simp only [mapM_cons, bind_eq_ok, rejectIf_eq_ok, pure_eq_ok] at h
    obtain ⟨_, ⟨-, hvalid, rfl⟩, rest, hrest, rfl⟩ := h
    obtain ⟨hall, rfl⟩ := ih hrest
    simp_all

theorem parseSignature_line (h : validNoteName signature.name = true) :
    parseSignature signature.line = .ok signature := by
  have hspace := not_mem_of_validNoteName (c := ' ') h rfl
  have hhash : Block.ofBytes 4 (signature.keyHash.toList ++ signature.signature) =
      signature.keyHash := by
    apply List.Vector.toList_injective
    simp [Block.ofBytes, List.Vector.toList]
  simp [parseSignature, NoteSignature.line, splitOnce_line hspace, Base64.decode_encode,
    rejectIf_neg, hhash]

theorem mapM_parseSignature (h : ∀ s ∈ signatures, validNoteName s.name = true) :
    (signatures.map NoteSignature.line).mapM parseSignature = .ok signatures := by
  induction signatures with
  | nil => rfl
  | cons signature signatures ih =>
    rw [forall_mem_cons] at h
    rw [map_cons, mapM_cons, parseSignature_line h.1, ok_bind, ih h.2, ok_bind]
    rfl

theorem parseBody_lines (h : '\n' ∉ checkpoint.origin) :
    parseBody (['\n'].intercalate checkpoint.lines) = .ok checkpoint := by
  rw [parseBody, Checkpoint.splitOn_lines h]
  simp [Checkpoint.lines, parseUsize_toDigits, Base64.decode_encode]

/-- The first empty line of a note stands behind its body. -/
theorem splitOnce_lines (h : '\n' ∉ checkpoint.origin)
    (rest : List Char) : splitOnce ['\n', '\n'] (['\n'].intercalate checkpoint.lines ++ ['\n'] ++
      '\n' :: rest) = some (['\n'].intercalate checkpoint.lines, rest) := by
  have hroot : Base64.encode checkpoint.root.toList ≠ [] := by
    intro hnil
    have hbytes := congrArg length (encode_injective (hnil.trans Base64.encode_nil.symm))
    simp at hbytes
  simp only [Checkpoint.lines, intercalate_cons_cons, intercalate_singleton,
    append_assoc, cons_append, nil_append]
  rw [splitOnce_pair h (head?_append_ne Nat.toDigits_ne_nil (not_mem_toDigits rfl _)),
    splitOnce_pair (not_mem_toDigits rfl _) (head?_append_ne hroot (not_mem_encode (by decide) _)),
    splitOnce_append (not_mem_encode (by decide) _)]
  simp [splitOnce, isPrefixOf]

theorem parseNote_toNote {note : List Char} (h : signed.toNote = .ok note)
    (hfit : (utf8Bytes note).length ≤ maxNoteBytes) : parseNote note = .ok signed := by
  have hnote := h
  simp only [toNote, bind_eq_ok, pure_eq_ok] at h
  obtain ⟨body, hbody, written, hwritten, rfl⟩ := h
  obtain ⟨hvalid, rfl⟩ := signatureLines_eq_ok hwritten
  obtain ⟨hline, rfl⟩ := Checkpoint.body_eq_ok hbody
  have hlines : ∀ l ∈ signed.signatures.map NoteSignature.line, '\n' ∉ l ∧ '\r' ∉ l := by
    intro l hl
    obtain ⟨s, hs, rfl⟩ := mem_map.mp hl
    have hend := not_mem_of_validNoteName (c := '\n') (hvalid s hs) rfl
    have hreturn := not_mem_of_validNoteName (c := '\r') (hvalid s hs) rfl
    simp [NoteSignature.line, hend, hreturn, not_mem_encode]
  rw [parseNote, rejectIf_neg (by omega), ok_bind, splitOnce_lines hline, okOr_some, ok_bind]
  simp only [parseBody_lines hline, lines_ended hlines, mapM_parseSignature hvalid, ok_bind, hnote]
  simp [rejectIf_neg]

end SignedCheckpoint

end Format

section Threshold

theorem nodup_map_concat {α β : Type*} {f : α → β} {l : List α} {a : α} (h : (l.map f).Nodup)
    (hnew : ∀ b ∈ l, f b ≠ f a) : ((l ++ [a]).map f).Nodup := by
  rw [map_append, nodup_append_comm]
  apply nodup_cons.mpr ⟨_, h⟩
  simpa using hnew

variable {κ : Type*} [Sha256] [VerifyingKey κ] {body : List Char} {witnesses : List (WitnessKey κ)}
  {signatures : List NoteSignature} {accepted : List (List Char × Block 32)}

/-- A key the policy lists under a name, with a signature under that name that it verifies. -/
def Backed (body : List Char) (witnesses : List (WitnessKey κ)) (signatures : List NoteSignature)
    (entry : List Char × Block 32) : Prop :=
  ∃ witness ∈ witnesses, (witness.name, toBytes witness.key) = entry ∧
    ∃ signature ∈ signatures, signature.name = witness.name ∧ ∃ bytes : Block 64,
      bytes.toList = signature.signature ∧ verifyStrict witness.key (utf8Bytes body) bytes = true

structure Counted (body : List Char) (witnesses : List (WitnessKey κ))
    (signatures : List NoteSignature) (accepted : List (List Char × Block 32)) : Prop where
  names : (accepted.map Prod.fst).Nodup
  keys : (accepted.map Prod.snd).Nodup
  backed : ∀ entry ∈ accepted, Backed body witnesses signatures entry

variable {signature : NoteSignature}

theorem Counted.tryWitness {bytes : Block 64} {witness : WitnessKey κ}
    (h : Counted body witnesses signatures accepted) (hsignature : signature ∈ signatures)
    (hbytes : bytes.toList = signature.signature) (hwitness : witness ∈ witnesses) :
    Counted body witnesses signatures (tryWitness body signature bytes accepted witness) := by
  dsimp only [Log.tryWitness]
  split_ifs with hname hhash hpass
  · exact h
  · exact h
  · simp only [Bool.and_eq_true, Bool.not_eq_true', any_eq_false, Bool.or_eq_true,
      decide_eq_true_eq, not_or] at hpass
    apply Counted.mk
    · exact nodup_map_concat h.names fun other hother => (hpass.2 other hother).2
    · exact nodup_map_concat h.keys fun other hother => (hpass.2 other hother).1
    · intro entry hentry
      rcases mem_append.mp hentry with hentry | hentry
      · exact h.backed entry hentry
      · rw [mem_singleton.mp hentry]
        exact ⟨witness, hwitness, rfl, signature, hsignature, (not_not.mp hname).symm, bytes, hbytes,
          hpass.1⟩
  · exact h

theorem Counted.trySignature
    (h : Counted body witnesses signatures accepted) (hsignature : signature ∈ signatures) :
    Counted body witnesses signatures (trySignature body witnesses accepted signature) := by
  unfold Log.trySignature
  split_ifs with hlength
  · apply foldlRecOn _ _ h
    intro accepted h witness hwitness
    exact h.tryWitness hsignature rfl hwitness
  · exact h

variable [Base64]

theorem verifyCheckpoint_eq_ok {required : ℕ}
    {names : List (List Char)} (h : verifyCheckpoint signed witnesses required = .ok names) :
    ∃ body accepted, signed.checkpoint.body = .ok body ∧
      Counted body witnesses signed.signatures accepted ∧ required ≤ accepted.length ∧
      names = accepted.map Prod.fst := by
  simp only [verifyCheckpoint, bind_eq_ok, rejectIf_eq_ok, pure_eq_ok] at h
  obtain ⟨body, hbody, -, hcount, rfl⟩ := h
  refine ⟨body, _, hbody, ?_, not_lt.mp hcount, rfl⟩
  apply foldlRecOn
  · exact ⟨nodup_nil, nodup_nil, by simp⟩
  · intro accepted h signature hsignature
    exact h.trySignature hsignature

/-- Whatever passes the threshold was signed under as many names, with as many keys, as this
checkpoint and no other; and a note within the bound is read back as it was written. -/
theorem checkpoint_witnessed :
    (∀ signed (witnesses : List (WitnessKey κ)) required names,
      (∀ (key : κ) message other bytes, verifyStrict key message bytes = true →
        verifyStrict key other bytes = true → message = other) →
      verifyCheckpoint signed witnesses required = .ok names →
      required ≤ names.length ∧ names.Nodup ∧ ∃ accepted : List (List Char × Block 32),
        accepted.map Prod.fst = names ∧ (accepted.map Prod.snd).Nodup ∧ ∀ entry ∈ accepted,
          ∃ witness ∈ witnesses, (witness.name, toBytes witness.key) = entry ∧
            ∃ signature ∈ signed.signatures, signature.name = witness.name ∧ ∃ bytes : Block 64,
              bytes.toList = signature.signature ∧ ∀ checkpoint body,
                Checkpoint.body checkpoint = .ok body →
                (verifyStrict witness.key (utf8Bytes body) bytes = true ↔
                  checkpoint = signed.checkpoint)) ∧
    (∀ (checkpoint checkpoint' : Checkpoint) body, checkpoint.body = .ok body →
      checkpoint'.body = .ok body → checkpoint = checkpoint') ∧
    ∀ (signed : SignedCheckpoint) note, signed.toNote = .ok note →
      (utf8Bytes note).length ≤ maxNoteBytes → SignedCheckpoint.parseNote note = .ok signed := by
  refine ⟨fun signed witnesses required names honce h => ?_, fun _ _ _ => Checkpoint.body_inj,
    fun _ _ => SignedCheckpoint.parseNote_toNote⟩
  obtain ⟨body, accepted, hbody, hcounted, hlength, rfl⟩ := verifyCheckpoint_eq_ok h
  refine ⟨by simpa using hlength, hcounted.names, accepted, rfl, hcounted.keys,
    fun entry hentry => ?_⟩
  obtain ⟨witness, hwitness, hsame, signature, hsignature, hname, bytes, hbytes, hverified⟩ :=
    hcounted.backed entry hentry
  refine ⟨witness, hwitness, hsame, signature, hsignature, hname, bytes, hbytes,
    fun checkpoint other hother => ⟨fun hpass => ?_, fun heq => ?_⟩⟩
  · rw [utf8Bytes_injective (honce _ _ _ _ hpass hverified)] at hother
    exact Checkpoint.body_inj hother hbody
  · rw [heq, hbody] at hother
    rwa [← Except.ok.inj hother]

end Threshold

/-- Bytes written as the letters from U+0100 on. -/
abbrev letters : Base64 where
  encode bytes := bytes.map fun b => Char.ofNat (b.toNat + 256)
  decode text := some (text.map fun c => UInt8.ofNat c.toNat)
  decode_encode bytes := by
    have hletter : ∀ n < 256, UInt8.ofNat (Char.ofNat (n + 256)).toNat = UInt8.ofNat n := by
      decide +kernel
    rw [map_map]
    refine congrArg some (map_id'' (fun b => ?_) bytes)
    exact (hletter b.toNat b.toNat_lt).trans UInt8.ofNat_toNat
  encode_nil := rfl
  printable bytes c hc := by
    have hletter : ∀ n < 256, ' ' < Char.ofNat (n + 256) := by decide +kernel
    obtain ⟨b, -, rfl⟩ := mem_map.mp hc
    exact hletter b.toNat b.toNat_lt

abbrev plainSha256 : Sha256 := ⟨.ofBytes 32⟩

attribute [local instance] letters plainSha256

def emptyTree : Checkpoint := ⟨['v'], ⟨0, Nat.zero_le _⟩, .ofBytes 32 []⟩

/-- Two keys, each with one signature, over the empty tree. -/
abbrev twoKeys : VerifyingKey (Fin 2) where
  toBytes key := .ofBytes 32 [UInt8.ofNat key]
  verifyStrict key message bytes :=
    decide (message = utf8Bytes (['\n'].intercalate emptyTree.lines ++ ['\n']) ∧
      bytes.toList = replicate 64 (UInt8.ofNat key))

attribute [local instance] twoKeys

def signedBy (name : Char) (key : Fin 2) : NoteSignature :=
  ⟨[name], noteKeyHash [name] (toBytes key), replicate 64 (UInt8.ofNat key)⟩

/-- The first key signs under its own name and under another, the second key once. -/
def aliased : SignedCheckpoint := ⟨emptyTree, [signedBy 'a' 0, signedBy 'c' 0, signedBy 'b' 1]⟩

/-- The policy lists the first key under both its names; it is counted once. -/
theorem checkpoint_witnessed_twice :
    verifyCheckpoint aliased [⟨['a'], (0 : Fin 2)⟩, ⟨['b'], 1⟩, ⟨['c'], 0⟩] 2 = .ok [['a'], ['b']] ∧
      [['a'], ['b']].Nodup ∧ 2 ≤ [['a'], ['b']].length ∧ ∃ note, aliased.toNote = .ok note ∧
        SignedCheckpoint.parseNote note = .ok aliased := by
  have hverified : verifyCheckpoint aliased [⟨['a'], (0 : Fin 2)⟩, ⟨['b'], 1⟩, ⟨['c'], 0⟩] 2 =
      .ok [['a'], ['b']] := by
    decide +kernel
  have hwritten : (do
      let note ← aliased.toNote
      rejectIf ((utf8Bytes note).length > maxNoteBytes) .malformed) = .ok () := by
    decide +kernel
  have honce : ∀ (key : Fin 2) message other bytes, verifyStrict key message bytes = true →
      verifyStrict key other bytes = true → message = other := by
    intro key message other bytes hmessage hother
    exact (of_decide_eq_true hmessage).1.trans (of_decide_eq_true hother).1.symm
  obtain ⟨hthreshold, -, hparse⟩ := checkpoint_witnessed (κ := Fin 2)
  obtain ⟨hcount, hnames, -⟩ := hthreshold _ _ _ _ honce hverified
  obtain ⟨note, hnote, hfit⟩ := bind_eq_ok.mp hwritten
  exact ⟨hverified, hnames, hcount, note, hnote,
    hparse aliased note hnote (not_lt.mp (rejectIf_eq_ok.mp hfit))⟩

end ObjectTransfer.Log
