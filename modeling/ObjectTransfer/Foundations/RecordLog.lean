import ObjectTransfer.Foundations.Blocks
import ObjectTransfer.Foundations.Outcome

/-! # Logs of records

A log is the encodings of its records, one after another, and a tail that a write left unfinished.
Reading it takes the records off the front one by one and adds each to a state; a tail that is too
short for a record ends the reading. When reading gives back what was encoded and sees every proper
beginning of an encoding as unfinished, a log replays to its records whatever its tail, and cutting
a log anywhere leaves a log of its first records.
-/

namespace ObjectTransfer.Foundations
open List

/-- What stands at the front of the bytes. -/
inductive Reading (ρ ε : Type) where
  | torn
  | bad (error : ε)
  | record (record : ρ) (length : ℕ)

/-- The state the records lead to, whether a tail was left, and where it begins. -/
structure Replayed (σ : Type) where
  state : σ
  torn : Bool
  valid : ℕ
  deriving DecidableEq

variable {ρ ε σ : Type}

section Replay

variable (read : Bytes → Reading ρ ε) (push : σ → ρ → Except ε σ)

/-- At most `fuel` records. -/
def replayFrom : ℕ → σ → ℕ → Bytes → Except ε (Replayed σ)
  | 0, state, offset, _ => .ok ⟨state, false, offset⟩
  | fuel + 1, state, offset, bytes =>
    if bytes = [] then .ok ⟨state, false, offset⟩
    else
      match read bytes with
      | .torn => .ok ⟨state, true, offset⟩
      | .bad error => .error error
      | .record record length => do
        replayFrom fuel (← push state record) (offset + length) (bytes.drop length)

def replay (state : σ) (bytes : Bytes) : Except ε (Replayed σ) :=
  replayFrom read push bytes.length state 0 bytes

end Replay

/-- Bytes that begin an encoding and do not finish it. -/
def Unfinished (encode : ρ → Bytes) (good : ρ → Prop) (tail : Bytes) : Prop :=
  tail = [] ∨ ∃ record, good record ∧ tail <+: encode record ∧ tail.length < (encode record).length

/-- Reading gives back what was encoded, and nothing of what was not finished. -/
structure Readable (read : Bytes → Reading ρ ε) (encode : ρ → Bytes) (good : ρ → Prop) : Prop where
  reads : ∀ record, good record → ∀ rest,
    read (encode record ++ rest) = .record record (encode record).length
  tears : ∀ tail, Unfinished encode good tail → tail ≠ [] → read tail = .torn
  nonempty : ∀ record, good record → 0 < (encode record).length

section Logs

variable {encode : ρ → Bytes} {good : ρ → Prop} {records : List ρ} {tail : Bytes}

theorem writeAll_length_le (front back : List ρ) :
    (writeAll encode front).length ≤ (writeAll encode (front ++ back)).length := by
  rw [writeAll_append, length_append]
  exact Nat.le_add_right _ _

theorem Unfinished.of_take {record : ρ} {n : ℕ} (hgood : good record)
    (hlt : n < (encode record).length) : Unfinished encode good ((encode record).take n) :=
  .inr ⟨record, hgood, take_prefix n _, by rw [length_take]; omega⟩

theorem Unfinished.take (h : Unfinished encode good tail) (n : ℕ) :
    Unfinished encode good (tail.take n) := by
  rcases h with rfl | ⟨record, hgood, hbegins, hlt⟩
  · exact .inl take_nil
  · refine .inr ⟨record, hgood, ( take_prefix n tail).trans hbegins, ?_⟩
    rw [length_take]
    omega

theorem take_log (hgood : ∀ record ∈ records, good record) (htail : Unfinished encode good tail)
    (n : ℕ) : ∃ k tail', k ≤ records.length ∧ Unfinished encode good tail' ∧
      (writeAll encode records ++ tail).take n = writeAll encode (records.take k) ++ tail' := by
  induction records generalizing n with
  | nil => exact ⟨0, tail.take n, Nat.le_refl _, htail.take n, rfl⟩
  | cons record records ih =>
    rw [writeAll_cons, append_assoc]
    by_cases hlt : n < (encode record).length
    · refine ⟨0, (encode record).take n, Nat.zero_le _,
        .of_take (hgood record (mem_cons_self ..)) hlt, ?_⟩
      rw [take_append_of_le_length hlt.le]
      rfl
    · obtain ⟨k, tail', hk, htail', hcut⟩ :=
        ih (fun r hr => hgood r (mem_cons_of_mem _ hr)) (n - (encode record).length)
      refine ⟨k + 1, tail', Nat.succ_le_succ hk, htail', ?_⟩
      rw [take_append, take_of_length_le (not_lt.mp hlt), hcut, take_succ_cons,
        writeAll_cons, append_assoc]

/-- A cut behind some of the records keeps them. -/
theorem take_log_keeps {kept lost : List ρ} (hgood : ∀ record ∈ lost, good record)
    (htail : Unfinished encode good tail) {n : ℕ} (hn : (writeAll encode kept).length ≤ n) :
    ∃ k tail', k ≤ lost.length ∧ Unfinished encode good tail' ∧
      (writeAll encode (kept ++ lost) ++ tail).take n =
        writeAll encode (kept ++ lost.take k) ++ tail' := by
  obtain ⟨k, tail', hk, htail', hcut⟩ :=
    take_log hgood htail (n - (writeAll encode kept).length)
  refine ⟨k, tail', hk, htail', ?_⟩
  rw [writeAll_append, writeAll_append, append_assoc, take_append,
    take_of_length_le hn, hcut, append_assoc]

variable {read : Bytes → Reading ρ ε} {push : σ → ρ → Except ε σ} {state state' : σ}

theorem replayFrom_log (h : Readable read encode good) (hgood : ∀ record ∈ records, good record)
    (htail : Unfinished encode good tail) (hpush : records.foldlM push state = .ok state')
    {fuel : ℕ} (hfuel : (writeAll encode records ++ tail).length ≤ fuel) (offset : ℕ) :
    replayFrom read push fuel state offset (writeAll encode records ++ tail) =
      .ok ⟨state', decide (tail ≠ []), offset + (writeAll encode records).length⟩ := by
  induction records generalizing fuel state offset with
  | nil =>
    cases hpush
    rw [writeAll_nil, nil_append] at hfuel ⊢
    cases fuel with
    | zero =>
      obtain rfl := eq_nil_of_length_eq_zero (Nat.le_zero.mp hfuel)
      rfl
    | succ =>
      rw [replayFrom]
      by_cases hnil : tail = []
      · rw [if_pos hnil, hnil]
        rfl
      · rw [if_neg hnil, h.tears tail htail hnil]
        simp [hnil]
  | cons record records ih =>
    have hrecord := hgood record (mem_cons_self ..)
    have hpos := h.nonempty record hrecord
    rw [writeAll_cons, append_assoc, length_append] at hfuel
    rw [foldlM_cons, bind_eq_ok] at hpush
    obtain ⟨next, hnext, hrest⟩ := hpush
    cases fuel with
    | zero => omega
    | succ =>
      rw [replayFrom, writeAll_cons, append_assoc, if_neg, h.reads record hrecord]
      · dsimp only
        rw [hnext, ok_bind, drop_left' rfl,
          ih (fun r hr => hgood r (mem_cons_of_mem _ hr)) hrest (by omega), length_append,
          add_assoc]
      · intro hnil
        have hlength := congrArg length hnil
        rw [length_append, length_nil] at hlength
        omega

end Logs

end ObjectTransfer.Foundations
