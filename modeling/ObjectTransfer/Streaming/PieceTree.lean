import ObjectTransfer.Streaming.Stream

/-! # The accumulator computes the padded piece tree

Each occupied level of the accumulator holds the root of the last complete subtree
of that height. Adding leaves and then zero subtrees keeps this, so finishing yields
the root of the perfect tree over the pieces, padded with zero pieces.
-/

namespace ObjectTransfer.Streaming
open Foundations List

/-- What adding `2 ^ level` does to the quotients and bits of a count whose bits from `level`
up to `top` are set. -/
structure Carries (count level top : ℕ) : Prop where
  le : level ≤ top
  mod : count % 2 ^ (top + 1) = 2 ^ top - 2 ^ level

namespace Carries

variable {count level top : ℕ} (h : Carries count level top)
include h

theorem add_eq : count + 2 ^ level = 2 ^ (top + 1) * (count / 2 ^ (top + 1)) + 2 ^ top := by
  have hdiv := Nat.div_add_mod count (2 ^ (top + 1))
  have hpow := Nat.pow_le_pow_right (show 0 < 2 by omega) h.le
  have hmod := h.mod
  omega

theorem div_top : count / 2 ^ top = 2 * (count / 2 ^ (top + 1)) := by
  have hpos := Nat.two_pow_pos level
  have htop := Nat.two_pow_pos top
  have hmod : count % 2 ^ (top + 1) = count % 2 ^ top + 2 ^ top * (count / 2 ^ top % 2) :=
    Nat.mod_pow_succ
  have heven : count / 2 ^ top % 2 = 0 := by
    rcases Nat.mod_two_eq_zero_or_one (count / 2 ^ top) with h0 | h1
    · exact h0
    · rw [h1, mul_one, h.mod] at hmod
      omega
  rw [pow_succ, ← Nat.div_div_eq_div_mul]
  omega

theorem add_div_top : (count + 2 ^ level) / 2 ^ top = count / 2 ^ top + 1 := by
  rw [h.add_eq, h.div_top, pow_succ, mul_assoc,
    ← Nat.mul_add_one, Nat.mul_div_cancel_left _ (Nat.two_pow_pos _)]

theorem add_div_above {l : ℕ} (hl : top < l) : (count + 2 ^ level) / 2 ^ l = count / 2 ^ l := by
  have hsplit : 2 ^ l = 2 ^ (top + 1) * 2 ^ (l - (top + 1)) := by
    rw [← pow_add]
    congr 1
    omega
  have hlow : 2 ^ top < 2 ^ (top + 1) := Nat.pow_lt_pow_right (by omega) (by omega)
  rw [hsplit, ← Nat.div_div_eq_div_mul, ← Nat.div_div_eq_div_mul, h.add_eq,
    Nat.mul_add_div (Nat.two_pow_pos _), Nat.div_eq_of_lt hlow, add_zero]

theorem testBit_below {l : ℕ} (hl : l < top) : (count + 2 ^ level).testBit l = false := by
  have htop : 2 ^ top ∣ count + 2 ^ level := by
    rw [h.add_eq, pow_succ, mul_assoc, ← Nat.mul_add_one]
    exact Dvd.intro _ rfl
  obtain ⟨m, hm⟩ := (pow_dvd_pow 2 hl).trans htop
  rw [Nat.testBit_eq_decide_div_mod_eq, hm, pow_succ, mul_assoc,
    Nat.mul_div_cancel_left _ (Nat.two_pow_pos _)]
  simp

end Carries

/-- Rounding a count up by its lowest bit does not pass the next power of two. -/
theorem add_two_pow_le {c l h : ℕ} (hpos : 0 < c) (hmod : c % 2 ^ l = 0) (hlt : c < 2 ^ h) :
    c + 2 ^ l ≤ 2 ^ h := by
  obtain ⟨q, rfl⟩ := Nat.dvd_of_mod_eq_zero hmod
  have hq : 0 < q := Nat.pos_of_mul_pos_left hpos
  have hexp : l ≤ h := by
    have : 2 ^ l ≤ 2 ^ h := le_trans (Nat.le_mul_of_pos_right _ hq) hlt.le
    exact (Nat.pow_le_pow_iff_right (by omega)).mp this
  obtain ⟨m, hm⟩ := pow_dvd_pow 2 hexp
  rw [hm] at hlt ⊢
  exact Nat.mul_le_mul_left _ (Nat.lt_of_mul_lt_mul_left hlt)

variable [Sha256]

namespace MerkleAccumulator

/-- Every occupied level holds the root of the last complete subtree of its height. -/
def Holds (acc : MerkleAccumulator) (f : ℕ → Digest) : Prop :=
  ∀ l, acc.count.testBit l = true →
    acc.levels[l]? = some (some (perfect parent f l (acc.count / 2 ^ l - 1)))

variable {f : ℕ → Digest}

/-- The carry loop stops at the first clear bit with the root of the subtree it completed. -/
theorem carry_eq {count : ℕ} (hcount : count < 2 ^ 63) {start : ℕ} (level : ℕ)
    (hlevel : level < 64) (hstart : start ≤ level) (hlow : count % 2 ^ level = 2 ^ level - 2 ^ start)
    {levels : List (Option Digest)}
    (hlevels : ∀ l, level ≤ l → count.testBit l = true →
      levels[l]? = some (some (perfect parent f l (count / 2 ^ l - 1)))) :
    ∃ levels' top, carry count levels (perfect parent f level (count / 2 ^ level)) level =
        .ok (levels', perfect parent f top (count / 2 ^ top), top) ∧ level ≤ top ∧
      Carries count start top ∧ ∀ l, top < l → levels'[l]? = levels[l]? := by
  have hpow := Nat.pow_le_pow_right (show 0 < 2 by omega) hstart
  by_cases hbit : count.testBit level = true
  · have hlt : level < 63 := by
      by_contra hge
      have := Nat.testBit_lt_two_pow (lt_of_lt_of_le hcount
        (Nat.pow_le_pow_right (by omega) (not_lt.mp hge)))
      rw [this] at hbit
      exact Bool.false_ne_true hbit
    have hodd : count / 2 ^ level % 2 = 1 := by
      rw [Nat.testBit_eq_decide_div_mod_eq] at hbit
      exact of_decide_eq_true hbit
    have hmod : count % 2 ^ (level + 1) = 2 ^ (level + 1) - 2 ^ start := by
      rw [Nat.mod_pow_succ, hlow, hodd, pow_succ]
      omega
    have hparent := perfect_parent parent f level (count / 2 ^ level)
    rw [siblingIndex, if_pos hodd, if_pos hodd, Nat.div_div_eq_div_mul, ← pow_succ] at hparent
    have hset : ∀ l, level + 1 ≤ l → (levels.set level none)[l]? = levels[l]? :=
      fun l hl => getElem?_set_ne (by omega)
    obtain ⟨levels', top, hrec, hle, hc, habove⟩ := carry_eq hcount (level + 1) (by omega)
      (by omega) hmod (fun l hl hb => by rw [hset l hl]; exact hlevels l (by omega) hb)
    refine ⟨levels', top, ?_, by omega, hc, fun l hl => ?_⟩
    · rw [carry, if_neg (by omega), if_pos hbit, hlevels level le_rfl hbit]
      simp only [← hparent]
      exact hrec
    · rw [habove l hl, hset l (by omega)]
  · have heven : count / 2 ^ level % 2 = 0 := by
      rw [Nat.testBit_eq_decide_div_mod_eq, decide_eq_true_eq] at hbit
      omega
    refine ⟨levels, level, ?_, le_rfl, ⟨hstart, ?_⟩, fun _ _ => rfl⟩
    · rw [carry, if_neg (by omega), if_neg hbit]
    · rw [Nat.mod_pow_succ, hlow, heven, mul_zero, add_zero]
termination_by 64 - level

variable {acc : MerkleAccumulator}

/-- Adding the next complete subtree keeps every occupied level right. -/
theorem addSubtree_holds (hacc : acc.Holds f) {level : ℕ}
    (hlevel : level < 64) (hcount : acc.count < 2 ^ 63) (halign : acc.count % 2 ^ level = 0) :
    ∃ acc', acc.addSubtree (perfect parent f level (acc.count / 2 ^ level)) level = .ok acc' ∧
      acc'.count = acc.count + 2 ^ level ∧ acc'.Holds f := by
  obtain ⟨levels', top, hcarry, hle, hc, habove⟩ := carry_eq hcount level hlevel le_rfl
    (by rw [halign, Nat.sub_self]) (fun l _ hb => hacc l hb)
  have hfit : acc.count + 2 ^ level ≤ u64Max := by
    have := Nat.pow_le_pow_right (show 0 < 2 by omega) (show level ≤ 63 by omega)
    unfold u64Max
    omega
  have hgrown : ∀ l, top < l →
      (if levels'.length ≤ top then resize levels' (top + 1) none else levels')[l]? =
        levels'[l]? := by
    intro l hl
    split_ifs with hshort
    · rw [getElem?_eq_none (by rw [resize_length]; omega), getElem?_eq_none (by omega)]
    · rfl
  have hroom : top < (if levels'.length ≤ top then resize levels' (top + 1) none
      else levels').length := by
    split_ifs with hshort
    · rw [resize_length]
      omega
    · omega
  refine ⟨⟨acc.count + 2 ^ level, (if levels'.length ≤ top then resize levels' (top + 1) none
    else levels').set top (some (perfect parent f top (acc.count / 2 ^ top)))⟩, ?_, rfl, ?_⟩
  · simp only [addSubtree, rejectIf_neg (show ¬ 64 ≤ level by omega),
      rejectIf_neg (not_not.mpr halign), ok_bind, hcarry, checkedAdd_of_le hfit, okOr_some]
    rfl
  · intro l hl
    rcases lt_trichotomy l top with hlt | rfl | hgt
    · rw [hc.testBit_below hlt] at hl
      exact absurd hl Bool.false_ne_true
    · rw [getElem?_set_self hroom, hc.add_div_top, Nat.add_sub_cancel]
    · rw [getElem?_set_ne (by omega), hgrown l hgt, habove l hgt, hc.add_div_above hgt]
      refine hacc l ?_
      rw [Nat.testBit_eq_decide_div_mod_eq] at hl ⊢
      rwa [hc.add_div_above hgt] at hl

theorem pad_holds {h : ℕ} (hh : h ≤ 62) {acc : MerkleAccumulator} (hacc : acc.Holds f)
    (hpos : 0 < acc.count) (hle : acc.count ≤ 2 ^ h)
    (hzero : ∀ j, acc.count ≤ j → f j = pieceHash []) :
    ∃ acc', acc.pad (2 ^ h) = .ok acc' ∧ acc'.count = 2 ^ h ∧ acc'.Holds f := by
  have hbound := Nat.pow_le_pow_right (show 0 < 2 by omega) hh
  rcases lt_or_ge acc.count (2 ^ h) with hlt | hge
  · obtain ⟨hlevel, -, hmod⟩ := trailingZeros_spec hpos (by omega)
    have hstart : 2 ^ trailingZeros acc.count * (acc.count / 2 ^ trailingZeros acc.count) =
        acc.count := Nat.mul_div_cancel' (Nat.dvd_of_mod_eq_zero hmod)
    have hself : zeroSubtree (trailingZeros acc.count) =
        perfect parent f (trailingZeros acc.count) (acc.count / 2 ^ trailingZeros acc.count) :=
      (perfect_const parent _ fun j hj => hzero j (hstart ▸ hj)).symm
    obtain ⟨acc', hadd, hcount, hacc'⟩ := addSubtree_holds hacc hlevel (by omega) hmod
    have hstep := add_two_pow_le hpos hmod hlt
    obtain ⟨last, hpad, hlast⟩ := pad_holds hh hacc' (by omega) (by omega)
      (fun j hj => hzero j (by omega))
    refine ⟨last, ?_, hlast⟩
    rw [pad, if_pos hlt, hself]
    split
    · rename_i e he
      rw [hadd] at he
      cases he
    · rename_i acc'' he
      rw [hadd] at he
      cases he
      exact hpad
  · refine ⟨acc, ?_, by omega, hacc⟩
    rw [pad, if_neg (by omega)]
termination_by 2 ^ h - acc.count

theorem finish_eq (hacc : acc.Holds f) (hpos : 0 < acc.count)
    (hle : acc.count ≤ 2 ^ 60) (hzero : ∀ j, acc.count ≤ j → f j = pieceHash []) :
    acc.finish = .ok (perfect parent f (Nat.clog 2 acc.count) 0) := by
  have hclog : Nat.clog 2 acc.count ≤ 60 := Nat.clog_le_of_le_pow hle
  have hbound := Nat.pow_le_pow_right (show 0 < 2 by omega) hclog
  obtain ⟨last, hpad, hcount, hlast⟩ := pad_holds (show Nat.clog 2 acc.count ≤ 62 by omega) hacc
    hpos (le_nextPowerOfTwo _) hzero
  have hchecked : checkedNextPowerOfTwo acc.count = some (2 ^ Nat.clog 2 acc.count) := by
    rw [checkedNextPowerOfTwo, nextPowerOfTwo, if_pos (by unfold u64Max; omega)]
  have htop := hlast (Nat.clog 2 acc.count) (by rw [hcount, Nat.testBit_two_pow_self])
  rw [hcount, Nat.div_self (Nat.two_pow_pos _), Nat.sub_self] at htop
  rw [finish, if_neg hpos.ne', hchecked, okOr_some, ok_bind, hpad, ok_bind,
    trailingZeros_two_pow (by omega), htop]
  rfl

end MerkleAccumulator

/-- The hash of piece `i`; past the end of the object this is the zero piece. -/
def pieceLeaf (D : Bytes) (i : ℕ) : Digest := pieceHash (chunkAt groupSize D i)

variable {D : Bytes}

theorem pieceLeaf_of_le {i : ℕ} (h : D.length ≤ groupSize * i) : pieceLeaf D i = pieceHash [] := by
  rw [pieceLeaf, chunkAt, drop_of_length_le h, take_nil]

/-- The state of a SHA-256 verifier that was fed the first `k` pieces of an object. -/
structure Fed (D : Bytes) (k : ℕ) (verifier : Verifier) : Prop where
  next : verifier.sequence.next = k
  sawFinal : verifier.sequence.sawFinal = decide (D.length < groupSize * k)
  inner : ∃ tree, verifier.inner = .sha256 tree
      (if k = 0 then none else some (singleGroupRoot (chunkAt groupSize D 0))) ∧
    tree.count = k ∧ tree.Holds (pieceLeaf D)

theorem Fed.new (D : Bytes) : Fed D 0 (Verifier.new .sha256Bep52) where
  next := rfl
  sawFinal := by simp [Verifier.new]
  inner := ⟨{}, rfl, rfl, fun l h => by simp at h⟩

theorem Fed.step {k : ℕ} {verifier : Verifier} (h : Fed D k verifier)
    (hk : groupSize * k < D.length) (hbound : k < 2 ^ 60) :
    ∃ verifier', verifier.feedNext (chunkAt groupSize D k) = .ok verifier' ∧
      Fed D (k + 1) verifier' := by
  obtain ⟨tree, hinner, hcount, hholds⟩ := h.inner
  have hlength : (chunkAt groupSize D k).length = min groupSize (D.length - groupSize * k) :=
    chunkAt_length
  have hne : chunkAt groupSize D k ≠ [] := by
    have := groupSize_pos
    rw [← length_pos_iff, hlength]
    omega
  have hopen : verifier.sequence.sawFinal = false := by
    rw [h.sawFinal, decide_eq_false_iff_not]
    omega
  obtain ⟨tree', hadd, hcount', hholds'⟩ := MerkleAccumulator.addSubtree_holds hholds
    (show 0 < 64 by omega) (by omega) (by simp [Nat.mod_one])
  simp only [hcount, pow_zero, Nat.div_one, perfect] at hadd hcount'
  have habsorb : verifier.absorb (chunkAt groupSize D k) = .ok (.sha256 tree'
      (some (singleGroupRoot (chunkAt groupSize D 0)))) := by
    rw [pieceLeaf] at hadd
    simp only [Verifier.absorb, hinner, MerkleAccumulator.addLeaf, hadd, ok_bind, h.next]
    by_cases h0 : k = 0
    · simp [h0]
    · simp [h0]
  have hfeed := Verifier.feedNext_eq hopen (by rw [h.next]; unfold u64Max; omega) hne
    (by omega)
  rw [habsorb, ok_bind] at hfeed
  refine ⟨_, hfeed, ?_, ?_, tree', ?_, hcount', hholds'⟩
  · rw [h.next]
  · rw [Nat.mul_succ, hlength]
    exact decide_eq_decide.mpr (by omega)
  · rfl

theorem feedAll_fed (hlen : D.length ≤ isizeMax) {k : ℕ} (hk : k ≤ divCeil D.length groupSize) :
    ∃ verifier, (Verifier.new .sha256Bep52).feedAll ((List.range k).map (chunkAt groupSize D)) =
      .ok verifier ∧ Fed D k verifier := by
  induction k with
  | zero => exact ⟨_, rfl, Fed.new D⟩
  | succ k ih =>
    obtain ⟨verifier, hfeed, hfed⟩ := ih (by omega)
    have hlt := (lt_divCeil_iff groupSize_pos).mp hk
    have hbound : k < 2 ^ 60 := by
      unfold isizeMax at hlen
      unfold groupSize at hlt
      omega
    obtain ⟨verifier', hnext, hfed'⟩ := hfed.step hlt hbound
    refine ⟨verifier', ?_, hfed'⟩
    rw [range_succ, map_append, Verifier.feedAll_append, hfeed, ok_bind, map_cons,
      Verifier.feedAll_cons, hnext]
    rfl

/-- The SHA-256 root of an object of several pieces is the root of its padded piece tree. -/
theorem root_sha256 [Blake3] (hlen : D.length ≤ isizeMax) (hmulti : groupSize < D.length) :
    root .sha256Bep52 D =
      .ok (perfect parent (pieceLeaf D) (Nat.clog 2 (divCeil D.length groupSize)) 0) := by
  obtain ⟨verifier, hfeed, hfed⟩ := feedAll_fed hlen le_rfl
  obtain ⟨tree, hinner, hcount, hholds⟩ := hfed.inner
  have htwo : 1 < divCeil D.length groupSize := by
    rw [lt_divCeil_iff groupSize_pos]
    omega
  have hbound : divCeil D.length groupSize ≤ 2 ^ 60 := by
    by_contra hcon
    rw [not_le, lt_divCeil_iff groupSize_pos] at hcon
    unfold isizeMax at hlen
    unfold groupSize at hcon
    omega
  have hzero : ∀ j, tree.count ≤ j → pieceLeaf D j = pieceHash [] := by
    intro j hj
    have hle := le_mul_divCeil groupSize_pos D.length
    exact pieceLeaf_of_le (le_trans hle (Nat.mul_le_mul_left _ (hcount ▸ hj)))
  have hfinish := MerkleAccumulator.finish_eq hholds (by omega) (by omega) hzero
  rw [root_eq _ (le_u64Max_of_le_isizeMax hlen), chunks, hfeed, ok_bind, Verifier.finish, hinner]
  simp only [hfed.next, if_neg htwo.ne', hfinish, hcount]

theorem root_sha256_single [Blake3] (hne : D ≠ []) (hone : D.length ≤ groupSize) :
    root .sha256Bep52 D = .ok (singleGroupRoot D) := by
  have hlen : D.length ≤ isizeMax := le_trans hone (by decide)
  have hpos := length_pos_iff.mpr hne
  have hcount : divCeil D.length groupSize = 1 := by
    have h0 : 0 < divCeil D.length groupSize := by
      rw [lt_divCeil_iff groupSize_pos]
      omega
    have h1 : ¬ 1 < divCeil D.length groupSize := by
      rw [lt_divCeil_iff groupSize_pos]
      omega
    omega
  obtain ⟨verifier, hfeed, hfed⟩ := feedAll_fed hlen le_rfl
  obtain ⟨tree, hinner, -, -⟩ := hfed.inner
  have hself : chunkAt groupSize D 0 = D := by
    rw [chunkAt, mul_zero, drop_zero, take_of_length_le hone]
  rw [root_eq _ (le_u64Max_of_le_isizeMax hlen), chunks, hfeed, ok_bind, Verifier.finish, hinner]
  simp only [hfed.next, hcount, if_true, hself, Nat.one_ne_zero, if_false, okOr_some]

theorem root_ok [Blake3] (suite : Suite) (hlen : D.length ≤ isizeMax) :
    ∃ value, root suite D = .ok value := by
  cases suite with
  | blake3Bao64 => exact ⟨_, root_blake3 (le_u64Max_of_le_isizeMax hlen)⟩
  | sha256Bep52 =>
    by_cases hne : D = []
    · refine ⟨Sha256.digest [], ?_⟩
      rw [hne, root_eq _ (by decide)]
      rfl
    by_cases hone : D.length ≤ groupSize
    · exact ⟨_, root_sha256_single hne hone⟩
    · exact ⟨_, root_sha256 hlen (Nat.lt_of_not_le hone)⟩

end ObjectTransfer.Streaming
