import ObjectTransfer.Fec.Rows

/-! # The symbols of a generation

A generation's repair symbols are sums of its sources with the coefficients of a Cauchy
matrix over the field. Among enough received symbols there is a repair symbol for every
missing source.
-/

namespace ObjectTransfer.Fec
open Foundations List

/-- The field element of an ESI. -/
def point (n : ℕ) : Gf256 := ⟨UInt8.ofNat n⟩

theorem point_inj {a b : ℕ} (ha : a < 256) (hb : b < 256) (h : point a = point b) : a = b := by
  have := congrArg (fun p : Gf256 => p.byte.toNat) h
  simpa [point, UInt8.toNat_ofNat_of_lt' ha, UInt8.toNat_ofNat_of_lt' hb] using this

variable {esi : ℕ}

namespace Geometry

theorem new_eq_ok {k r length : ℕ} {g : Geometry} (h : Geometry.new k r length = .ok g) :
    g.sourceCount = k ∧ g.repairCount = r ∧ g.symbolLength = length := by
  unfold Geometry.new at h
  split_ifs at h
  obtain rfl := Except.ok.inj h
  exact ⟨rfl, rfl, rfl⟩

variable (g : Geometry)

theorem symbolCount_le : g.symbolCount ≤ maxSymbols := add_le_add g.source_le g.repair_le

theorem symbolCount_lt : g.symbolCount < 256 := lt_of_le_of_lt g.symbolCount_le (by decide)

/-- The generator's coefficient of source `j` in the symbol with ESI `esi`. -/
def coefficient (esi j : ℕ) : Gf256 := (point esi - point j)⁻¹

variable {g}

theorem generatorRow_eq (h1 : g.sourceCount ≤ esi) (h2 : esi < g.symbolCount) :
    g.generatorRow (esi - g.sourceCount) =
      some ((List.range g.sourceCount).map fun j => (coefficient esi j).byte) := by
  have hlt := g.symbolCount_lt
  rw [generatorRow, Nat.add_sub_cancel' h1]
  refine mapM_eq_some fun j hj => ?_
  rw [mem_range] at hj
  have hxor : esi ^^^ j < 256 := Nat.xor_lt_two_pow (n := 8) (by omega) (by omega)
  have hpoint : (⟨UInt8.ofNat (esi ^^^ j)⟩ : Gf256) = point esi - point j := by
    rw [UInt8.ofNat_xor]
    rfl
  have hne : UInt8.ofNat (esi ^^^ j) ≠ 0 := by
    intro h0
    have hzero : point esi - point j = 0 := hpoint.symm.trans (Gf256.ext h0)
    have := point_inj (by omega) (by omega) (sub_eq_zero.mp hzero)
    omega
  rw [if_pos hxor, Gf.inv_eq hne, hpoint]
  rfl

end Geometry

section Sums

variable {M : Type*} [AddCommMonoid M] {ι : Type*}

theorem sum_filter_add_sum_filter_not (l : List ι) (p : ι → Bool) (f : ι → M) :
    ((l.filter p).map f).sum + ((l.filter fun i => !p i).map f).sum = (l.map f).sum := by
  induction l with
  | nil => simp
  | cons i l ih =>
    cases h : p i
    · simp only [h, filter_cons, Bool.not_false, Bool.false_eq_true, if_false, if_true,
        map_cons, sum_cons, ← ih]
      exact add_left_comm _ _ _
    · simp only [h, filter_cons, Bool.not_true, Bool.false_eq_true, if_false, if_true,
        map_cons, sum_cons, ← ih, add_assoc]

theorem sum_map_eq_sum_range (l : List ι) (d : ι) (f : ι → M) :
    (l.map f).sum = ∑ c ∈ Finset.range l.length, f (l.getD c d) := by
  induction l with
  | nil => simp
  | cons i l ih =>
    rw [map_cons, sum_cons, ih, length_cons, Finset.sum_range_succ', add_comm]
    rfl

end Sums

section Selection

def missingSources (g : Geometry) (esis : List ℕ) : List ℕ :=
  (List.range g.sourceCount).filter fun esi => !decide (esi ∈ esis)

def chosenRepairs (g : Geometry) (esis : List ℕ) : List ℕ :=
  ((List.range' g.sourceCount g.repairCount).filter fun esi => decide (esi ∈ esis)).take
    (missingSources g esis).length

variable {g : Geometry} {esis : List ℕ}

theorem mem_missingSources : esi ∈ missingSources g esis ↔ esi < g.sourceCount ∧ esi ∉ esis := by
  simp [missingSources]

theorem received_length (hnodup : esis.Nodup) (hlt : ∀ esi ∈ esis, esi < g.symbolCount) :
    esis.length + (missingSources g esis).length = g.sourceCount +
      ((List.range' g.sourceCount g.repairCount).filter fun esi => decide (esi ∈ esis)).length := by
  have hperm : esis.Perm ((range g.symbolCount).filter fun esi => decide (esi ∈ esis)) := by
    rw [perm_ext_iff_of_nodup hnodup (nodup_range.filter _)]
    intro esi
    rw [mem_filter, mem_range, decide_eq_true_eq]
    exact ⟨fun h => ⟨hlt esi h, h⟩, And.right⟩
  have hcount := hperm.length_eq
  rw [Geometry.symbolCount, range_eq_range', ← range'_append_1,
    zero_add, ← range_eq_range', filter_append, length_append] at hcount
  have hsplit := length_eq_length_filter_add (l := range g.sourceCount)
    fun esi => decide (esi ∈ esis)
  rw [length_range] at hsplit
  rw [missingSources]
  omega

/-- Among enough received symbols there is a repair symbol for every missing source. -/
theorem chosenRepairs_length (hnodup : esis.Nodup) (hlt : ∀ esi ∈ esis, esi < g.symbolCount)
    (henough : g.sourceCount ≤ esis.length) :
    (chosenRepairs g esis).length = (missingSources g esis).length := by
  have hcount := received_length hnodup hlt
  rw [chosenRepairs, length_take]
  omega

theorem mem_chosenRepairs (h : esi ∈ chosenRepairs g esis) :
    g.sourceCount ≤ esi ∧ esi < g.symbolCount ∧ esi ∈ esis := by
  have := mem_of_mem_take h
  rw [mem_filter, mem_range'_1, decide_eq_true_eq] at this
  exact ⟨this.1.1, this.1.2, this.2⟩

theorem missingSources_nodup : (missingSources g esis).Nodup := nodup_range.filter _

theorem chosenRepairs_nodup : (chosenRepairs g esis).Nodup := by
  refine List.Nodup.sublist (take_sublist _ _) (List.Nodup.filter _ ?_)
  exact nodup_range'

end Selection

/-- Sources of the right number and length. -/
structure Sources (g : Geometry) (source : List Bytes) : Prop where
  length : source.length = g.sourceCount
  symbol : ∀ s ∈ source, s.length = g.symbolLength

variable {g : Geometry} {source : List Bytes}

theorem Sources.getD_length (hs : Sources g source) {j : ℕ} (hj : j < g.sourceCount) :
    (source.getD j []).length = g.symbolLength := by
  have hlt : j < source.length := hs.length ▸ hj
  rw [getD, getElem?_eq_getElem hlt]
  exact hs.symbol _ (getElem_mem hlt)

theorem Sources.eq_map_range (hs : Sources g source) :
    source = (List.range g.sourceCount).map fun j => source.getD j [] := by
  refine ext_getElem (by simp [hs.length]) fun j hj _ => ?_
  simp [getD, hj]

variable [Gf.Simd]

def repairSymbol (g : Geometry) (source : List Bytes) (esi : ℕ) : Bytes :=
  (((List.range g.sourceCount).map fun j => (Geometry.coefficient esi j).byte).zip source).foldl
    (fun out p => Gf.mulAdd out p.1 p.2) (List.replicate g.symbolLength 0)

def symbolOf (g : Geometry) (source : List Bytes) (esi : ℕ) : Bytes :=
  if esi < g.sourceCount then source.getD esi [] else repairSymbol g source esi

namespace Sources

variable (hs : Sources g source)
include hs

theorem repairSymbol_spec (esi : ℕ) :
    (repairSymbol g source esi).length = g.symbolLength ∧ ∀ t < g.symbolLength,
      elementAt (repairSymbol g source esi) t =
        ((List.range g.sourceCount).map fun j =>
          Geometry.coefficient esi j * elementAt (source.getD j []) t).sum := by
  have hzip : ((range g.sourceCount).map fun j => (Geometry.coefficient esi j).byte).zip source
      = (range g.sourceCount).map fun j =>
        ((Geometry.coefficient esi j).byte, source.getD j []) := by
    conv_lhs => rw [hs.eq_map_range]
    exact zip_map'
  obtain ⟨hlength, hsum⟩ := foldl_mulAdd (replicate g.symbolLength 0)
    (((range g.sourceCount).map fun j => (Geometry.coefficient esi j).byte).zip source)
    (fun p hp => hs.symbol _ (of_mem_zip hp).2) length_replicate
  refine ⟨hlength, fun t ht => ?_⟩
  have hzero : elementAt (replicate g.symbolLength 0) t = 0 :=
    elementAt_of_getElem? (by simp [ht])
  rw [repairSymbol, hsum t ht, hzero, zero_add, hzip, map_map]
  rfl

theorem encode_eq : encode g source = .ok ((List.range g.repairCount).map fun i =>
    repairSymbol g source (g.sourceCount + i)) := by
  have hcheck : source.forM g.checkSymbol = .ok () :=
    forM_eq_ok fun s h => rejectIf_neg (not_not.mpr (hs.symbol s h))
  rw [encode, rejectIf_neg (not_not.mpr hs.length), ok_bind, hcheck, ok_bind]
  refine mapM_eq_ok fun i hi => ?_
  rw [mem_range] at hi
  have hrow := Geometry.generatorRow_eq (Nat.le_add_right g.sourceCount i)
    (Nat.add_lt_add_left hi _)
  rw [Nat.add_sub_cancel_left] at hrow
  rw [hrow, okOr_some, ok_bind]
  rfl

theorem symbolOf_length (esi : ℕ) :
    (symbolOf g source esi).length = g.symbolLength := by
  unfold symbolOf
  split_ifs with hsource
  · exact hs.getD_length hsource
  · exact (hs.repairSymbol_spec esi).1

theorem append_eq : (source ++ (List.range g.repairCount).map fun i =>
    repairSymbol g source (g.sourceCount + i)) =
      (List.range g.symbolCount).map (symbolOf g source) := by
  rw [Geometry.symbolCount, range_add, map_append, map_map]
  congr 1
  · conv_lhs => rw [hs.eq_map_range]
    refine map_congr_left fun j hj => ?_
    rw [symbolOf, if_pos (mem_range.mp hj)]
  · refine map_congr_left fun i _ => ?_
    rw [Function.comp_apply, symbolOf, if_neg (by omega)]

end Sources

/-- Symbols of a generation with distinct ESIs. -/
structure Received (g : Geometry) (source : List Bytes) (received : List (ℕ × Bytes)) : Prop where
  nodup : (received.map Prod.fst).Nodup
  symbol : ∀ p ∈ received, p.1 < g.symbolCount ∧ p.2 = symbolOf g source p.1

/-- What is known of an ESI after some symbols were received. -/
def knownSymbol (g : Geometry) (source : List Bytes) (received : List (ℕ × Bytes)) (esi : ℕ) :
    Option Bytes :=
  if esi ∈ received.map Prod.fst then some (symbolOf g source esi) else none

variable {received : List (ℕ × Bytes)}

theorem knownSymbol_isSome (g : Geometry) (source : List Bytes) (received : List (ℕ × Bytes))
    (esi : ℕ) : (knownSymbol g source received esi).isSome =
      decide (esi ∈ received.map Prod.fst) := by
  unfold knownSymbol
  split_ifs with h <;> simp [h]

theorem place_spec (hs : Sources g source) (hr : Received g source received) (symbols : Symbols)
    (hlen : symbols.length = maxSymbols)
    (hfree : ∀ esi ∈ received.map Prod.fst, symbols.get esi = none) :
    ∃ symbols', place g received symbols = .ok symbols' ∧ ∀ esi, symbols'.get esi =
      if esi ∈ received.map Prod.fst then some (symbolOf g source esi) else symbols.get esi := by
  obtain ⟨hnodup, hsymbol⟩ := hr
  induction received generalizing symbols with
  | nil => exact ⟨symbols, rfl, fun esi => by simp⟩
  | cons p received ih =>
    obtain ⟨esi, symbol⟩ := p
    rw [map_cons, nodup_cons] at hnodup
    rw [forall_mem_cons] at hsymbol
    obtain ⟨⟨hlt, hsame⟩, hsymbol⟩ := hsymbol
    obtain rfl : symbol = symbolOf g source esi := hsame
    have hin : esi < symbols.length := by
      rw [hlen]
      exact lt_of_lt_of_le hlt g.symbolCount_le
    have hset : ∀ e, Symbols.get (symbols.set esi (some (symbolOf g source esi))) e =
        if e = esi then some (symbolOf g source esi) else symbols.get e := by
      intro e
      by_cases he : e = esi
      · simp [Symbols.get, getD, he, hin]
      · simp [Symbols.get, getD, he, Ne.symm he]
    obtain ⟨symbols', hplace, hget⟩ := ih (symbols.set esi (some (symbolOf g source esi)))
      (by rw [length_set, hlen])
      (fun e he => by
        have hne : e ≠ esi := by
          rintro rfl
          exact hnodup.1 he
        rw [hset, if_neg hne]
        exact hfree e (mem_cons_of_mem _ he)) hnodup.2 hsymbol
    refine ⟨symbols', ?_, fun e => ?_⟩
    · have hempty := hfree esi mem_cons_self
      rw [place, rejectIf_neg (by simp [hempty, hlt]), ok_bind, Geometry.checkSymbol,
        rejectIf_neg (not_not.mpr (hs.symbolOf_length esi)), ok_bind, hplace]
    · rw [hget, hset]
      by_cases he : e = esi
      · subst he
        rw [if_neg hnodup.1, if_pos rfl, if_pos (by simp)]
      · simp only [map_cons, mem_cons, he, false_or, if_false]

theorem place_eq (hs : Sources g source) (hr : Received g source received) :
    ∃ symbols, place g received (List.replicate maxSymbols none) = .ok symbols ∧
      ∀ esi, symbols.get esi = knownSymbol g source received esi := by
  have hnone : ∀ esi, Symbols.get (replicate maxSymbols none) esi = none := by
    intro esi
    simp only [Symbols.get, getD, getElem?_replicate]
    split_ifs <;> rfl
  obtain ⟨symbols, hplace, hget⟩ := place_spec hs hr (replicate maxSymbols none)
    length_replicate (fun esi _ => hnone esi)
  refine ⟨symbols, hplace, fun esi => ?_⟩
  rw [hget, hnone, knownSymbol]

end ObjectTransfer.Fec
