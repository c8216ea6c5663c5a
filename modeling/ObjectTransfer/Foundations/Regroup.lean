import ObjectTransfer.Foundations.Chunks
import ObjectTransfer.Foundations.Outcome

/-! # Groups cut from pieces of any size

Pieces arrive in any sizes and are fed on in groups of `n`. What does not fill a group waits in a
buffer. However the input is cut, the groups are those of the whole of it.
-/

namespace ObjectTransfer.Foundations
open List

variable {ε : Type} {α β : Type} (n : ℕ) (feed : β → List α → Except ε β)

/-- Top up the buffer and feed it once it is full; then feed the full groups when nothing is
buffered, and buffer the rest. -/
def regroup (state : β) (pending bytes : List α) : Except ε (β × List α) := do
  let filled ← if pending = [] then pure (state, [], bytes)
    else
      let consumed := min (n - pending.length) bytes.length
      let group := pending ++ bytes.take consumed
      if group.length = n then do
        let state ← feed state group
        pure (state, [], bytes.drop consumed)
      else pure (state, group, bytes.drop consumed)
  if filled.2.1 = [] then do
    let state ← (chunksExact n filled.2.2).foldlM feed filled.1
    pure (state, remainder n filled.2.2)
  else pure (filled.1, filled.2.1 ++ filled.2.2)

variable {n feed}

/-- A piece feeds the full groups of what was buffered and itself, and buffers what is left. -/
theorem regroup_eq (hn : 0 < n) {pending : List α} (h : pending.length < n) (state : β)
    (bytes : List α) :
    regroup n feed state pending bytes = do
      let state ← (chunksExact n (pending ++ bytes)).foldlM feed state
      return (state, remainder n (pending ++ bytes)) := by
  by_cases hp : pending = []
  · simp [regroup, hp]
  by_cases hfull : n ≤ (pending ++ bytes).length
  · have hsum := hfull
    rw [length_append] at hsum
    have hmin : min (n - pending.length) bytes.length = n - pending.length := by omega
    have htake : pending ++ bytes.take (n - pending.length) = (pending ++ bytes).take n := by
      rw [take_append, take_of_length_le h.le]
    have hdrop : bytes.drop (n - pending.length) = (pending ++ bytes).drop n := by
      rw [drop_append, drop_of_length_le h.le, nil_append]
    have hgroup : ((pending ++ bytes).take n).length = n := by
      rw [length_take]
      exact min_eq_left hfull
    simp only [regroup, if_neg hp, hmin, htake, hdrop, if_pos hgroup]
    rw [chunksExact_cons hn hfull, foldlM_cons, ← remainder_drop hn hfull, bind_assoc]
    simp only [pure_bind, if_true]
  · have hshort := Nat.lt_of_not_le hfull
    have hsum := hshort
    rw [length_append] at hsum
    have hmin : min (n - pending.length) bytes.length = bytes.length := by omega
    have hne : ¬ (pending ++ bytes).length = n := by omega
    have hkeep : pending ++ bytes ≠ [] := by simp [hp]
    simp only [regroup, if_neg hp, hmin, take_length, if_neg hne, drop_length, pure_bind,
      if_neg hkeep, chunksExact_of_lt hshort, remainder_of_lt hshort, foldlM_nil,
      append_nil]

end ObjectTransfer.Foundations
