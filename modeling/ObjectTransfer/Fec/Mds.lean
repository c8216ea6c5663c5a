import ObjectTransfer.Fec.Symbols

/-! # Any `k` symbols of a generation determine it

The equations left over after the received sources have moved to the right-hand side have
a square Cauchy matrix, so elimination finds every pivot and ends with the missing sources.
-/

namespace ObjectTransfer.Fec
open Foundations List Fec.Geometry

variable {g : Geometry} {source : List Bytes} {received : List (ℕ × Bytes)}

/-- A square selection of distinct repair symbols and distinct sources has no kernel. -/
theorem coefficient_kernel {repairs missing : List ℕ} {w : ℕ} {A : ℕ → ℕ → Gf256}
    (hlen : repairs.length = missing.length) (hw : missing.length ≤ w)
    (hrepairs : repairs.Nodup) (hmissing : missing.Nodup)
    (hrange : ∀ e ∈ repairs, g.sourceCount ≤ e ∧ e < g.symbolCount)
    (hsource : ∀ j ∈ missing, j < g.sourceCount)
    (hA : ∀ r < missing.length, ∀ c < missing.length,
      A r c = coefficient (repairs.getD r 0) (missing.getD c 0)) :
    TrivialKernel missing.length w A := by
  intro x hsupport hann c hc
  have hlt := g.symbolCount_lt
  have hr : ∀ r : Fin missing.length, repairs.getD r 0 ∈ repairs := fun r => by
    rw [getD, getElem?_eq_getElem (by omega)]
    exact getElem_mem _
  have hm : ∀ j : Fin missing.length, missing.getD j 0 ∈ missing := fun j => by
    rw [getD, getElem?_eq_getElem j.2]
    exact getElem_mem _
  have hget : ∀ {l : List ℕ} {i j : ℕ}, l.Nodup → i < l.length → j < l.length →
      l.getD i 0 = l.getD j 0 → i = j := by
    intro l i j hl hi hj h
    rw [getD, getD, getElem?_eq_getElem hi, getElem?_eq_getElem hj] at h
    exact (hl.getElem_inj_iff).mp h
  have hzero := cauchy_kernel (x := fun r : Fin missing.length => point (repairs.getD r 0))
    (y := fun j : Fin missing.length => point (missing.getD j 0))
    (v := fun j : Fin missing.length => x j) ?_ ?_ ?_ ?_
  · exact congrFun hzero ⟨c, hc⟩
  · intro r r' h
    have h1 := (hrange _ (hr r)).2
    have h2 := (hrange _ (hr r')).2
    exact Fin.ext (hget hrepairs (by omega) (by omega) (point_inj (by omega) (by omega) h))
  · intro j j' h
    have h1 := hsource _ (hm j)
    have h2 := hsource _ (hm j')
    have h3 := g.source_le
    unfold maxSourceSymbols at h3
    exact Fin.ext (hget hmissing j.2 j'.2 (point_inj (by omega) (by omega) h))
  · intro r j h
    have h1 := hrange _ (hr r)
    have h2 := hsource _ (hm j)
    have := point_inj (by omega) (by omega) h
    omega
  · intro r
    have hrow := hann r r.2
    rw [← Finset.sum_subset (Finset.range_subset_range.mpr hw) (fun c _ hc => by
      rw [Finset.mem_range, not_lt] at hc
      rw [hsupport c hc, mul_zero]), Finset.sum_range] at hrow
    rw [← hrow]
    refine Finset.sum_congr rfl fun j _ => ?_
    rw [hA r r.2 j j.2]
    rfl

section Decoding

variable [Gf.Simd]

section Solving

variable {symbols : Symbols} (hs : Sources g source)
variable (hknown : ∀ esi, symbols.get esi = knownSymbol g source received esi)
include hknown

theorem foldlM_known {coefficients : List UInt8} (esi : ℕ)
    (hrow : coefficients =
      (List.range g.sourceCount).map fun j => (coefficient esi j).byte)
    (known : List ℕ) (hlist : ∀ j ∈ known, j < g.sourceCount ∧ j ∈ received.map Prod.fst)
    (right : Bytes) :
    known.foldlM (fun right sourceEsi => do
      let coefficient ← coefficients[sourceEsi]?
      let source ← symbols.get sourceEsi
      return Gf.mulAdd right coefficient source) right =
    some ((known.map fun j => ((coefficient esi j).byte, source.getD j [])).foldl
      (fun out p => Gf.mulAdd out p.1 p.2) right) := by
  induction known generalizing right with
  | nil => rfl
  | cons j known ih =>
    rw [forall_mem_cons] at hlist
    obtain ⟨hj, hin⟩ := hlist.1
    have hcoefficient : coefficients[j]? = some (coefficient esi j).byte := by
      rw [hrow, getElem?_map, getElem?_range hj]
      rfl
    have hsource : symbols.get j = some (source.getD j []) := by
      rw [hknown, knownSymbol, if_pos hin, symbolOf, if_pos hj]
    rw [foldlM_cons, hcoefficient, hsource]
    exact ih hlist.2 _

include hs

/-- The equation of a received repair symbol, with the known sources moved to the right. -/
theorem repairRow_spec {esi : ℕ} (h1 : g.sourceCount ≤ esi) (h2 : esi < g.symbolCount)
    (h3 : esi ∈ received.map Prod.fst) :
    ∃ right, repairRow g symbols (missingSources g (received.map Prod.fst)) esi =
        some (((missingSources g (received.map Prod.fst)).map fun j =>
          (coefficient esi j).byte) ++ right) ∧
      right.length = g.symbolLength ∧ ∀ t < g.symbolLength, elementAt right t =
        ((missingSources g (received.map Prod.fst)).map fun j =>
          coefficient esi j * elementAt (source.getD j []) t).sum := by
  have hrow := generatorRow_eq h1 h2
  have hfront : (missingSources g (received.map Prod.fst)).mapM (fun column =>
      ((range g.sourceCount).map fun j => (coefficient esi j).byte)[column]?) =
      some ((missingSources g (received.map Prod.fst)).map fun j =>
        (coefficient esi j).byte) := by
    refine mapM_eq_some fun j hj => ?_
    rw [getElem?_map, getElem?_range (mem_missingSources.mp hj).1]
    rfl
  have hsymbol : symbols.get esi = some (repairSymbol g source esi) := by
    rw [hknown, knownSymbol, if_pos h3, symbolOf, if_neg (by omega)]
  have hfilter : ((range g.sourceCount).filter fun j => (symbols.get j).isSome) =
      (range g.sourceCount).filter fun j => decide (j ∈ received.map Prod.fst) := by
    simp only [hknown, knownSymbol_isSome]
  obtain ⟨hlength, hrepair⟩ := hs.repairSymbol_spec esi
  obtain ⟨hright, hsum⟩ := foldl_mulAdd (repairSymbol g source esi)
    (((range g.sourceCount).filter fun j => decide (j ∈ received.map Prod.fst)).map fun j =>
      ((coefficient esi j).byte, source.getD j []))
    (fun p hp => by
      obtain ⟨j, hj, rfl⟩ := mem_map.mp hp
      exact hs.getD_length (mem_range.mp (mem_filter.mp hj).1)) hlength
  refine ⟨_, ?_, hright, fun t ht => ?_⟩
  · have hfold := foldlM_known hknown esi rfl
      ((range g.sourceCount).filter fun j => decide (j ∈ received.map Prod.fst))
      (fun j hj => by simpa only [mem_filter, mem_range, decide_eq_true_eq] using hj)
      (repairSymbol g source esi)
    rw [repairRow, hrow, some_bind, hfront, some_bind, hsymbol, some_bind]
    simp only [hfilter]
    rw [hfold]
    rfl
  · rw [hsum t ht, hrepair t ht, map_map, ← sum_filter_add_sum_filter_not _
      (fun j => decide (j ∈ received.map Prod.fst)), add_comm, ← add_assoc]
    have hcancel : ∀ a b : Gf256, a + a + b = b := fun a b => by
      rw [← Gf256.sub_eq a a, sub_self, zero_add]
    exact hcancel _ _

end Solving

section Recovery

variable (hs : Sources g source) (hr : Received g source received)
variable (henough : g.sourceCount ≤ received.length)
include hs hr henough

variable {symbols : Symbols}

/-- Elimination turns the equations of the chosen repair symbols into the missing sources. -/
theorem eliminate_eq (hknown : ∀ esi, symbols.get esi = knownSymbol g source received esi) :
    ∃ rows rows', (chosenRepairs g (received.map Prod.fst)).mapM
        (repairRow g symbols (missingSources g (received.map Prod.fst))) = some rows ∧
      gaussJordan rows (missingSources g (received.map Prod.fst)).length = some rows' ∧
      rows'.map (rightSide (missingSources g (received.map Prod.fst)).length g.symbolLength) =
        (missingSources g (received.map Prod.fst)).map fun esi => source.getD esi [] := by
  have hlt : ∀ esi ∈ received.map Prod.fst, esi < g.symbolCount := by
    intro esi hesi
    obtain ⟨p, hp, rfl⟩ := mem_map.mp hesi
    exact (hr.symbol p hp).1
  have hlength := chosenRepairs_length hr.nodup hlt (by rwa [length_map])
  have hrow := fun esi (hesi : esi ∈ chosenRepairs g (received.map Prod.fst)) =>
    repairRow_spec hs hknown (mem_chosenRepairs hesi).1 (mem_chosenRepairs hesi).2.1
      (mem_chosenRepairs hesi).2.2
  have hrange : ∀ esi ∈ chosenRepairs g (received.map Prod.fst),
      g.sourceCount ≤ esi ∧ esi < g.symbolCount := fun esi hesi =>
    ⟨(mem_chosenRepairs hesi).1, (mem_chosenRepairs hesi).2.1⟩
  have hsource : ∀ j ∈ missingSources g (received.map Prod.fst), j < g.sourceCount := fun j hj =>
    (mem_missingSources.mp hj).1
  have hnodup₁ : (missingSources g (received.map Prod.fst)).Nodup := missingSources_nodup
  have hnodup₂ : (chosenRepairs g (received.map Prod.fst)).Nodup := chosenRepairs_nodup
  choose! right hrow hwidth hright using hrow
  generalize missingSources g (received.map Prod.fst) = missing at *
  generalize chosenRepairs g (received.map Prod.fst) = repairs at *
  let rowOf := fun esi => (missing.map fun j => (coefficient esi j).byte) ++ right esi
  have hshape : Shape (repairs.map rowOf) missing.length (missing.length + g.symbolLength) := by
    refine ⟨by rw [length_map, hlength], fun row hmem => ?_⟩
    obtain ⟨esi, hesi, rfl⟩ := mem_map.mp hmem
    rw [length_append, length_map, hwidth esi hesi]
  have hget : ∀ r < missing.length, (repairs.getD r 0 ∈ repairs) ∧
      ∀ c, entry (repairs.map rowOf) r c = elementAt (rowOf (repairs.getD r 0)) c := by
    intro r hr
    have hlt : r < repairs.length := by omega
    rw [getD, getElem?_eq_getElem hlt]
    exact ⟨getElem_mem hlt, fun c => entry_of_getElem? (by simp [hlt]) c⟩
  have hfront : ∀ r < missing.length, ∀ c < missing.length, entry (repairs.map rowOf) r c =
      coefficient (repairs.getD r 0) (missing.getD c 0) := by
    intro r hr c hc
    rw [(hget r hr).2, elementAt_append_left _ (by simpa using hc), elementAt_map missing 0 _ hc]
  have hsystem : ∀ t < g.symbolLength, ∀ r < missing.length,
      ∑ c ∈ Finset.range missing.length, entry (repairs.map rowOf) r c *
        elementAt (source.getD (missing.getD c 0) []) t =
          entry (repairs.map rowOf) r (missing.length + t) := by
    intro t ht r hr
    have hright' := hright _ (hget r hr).1 t ht
    rw [sum_map_eq_sum_range missing 0] at hright'
    have hshift := elementAt_append_right (missing.map fun j =>
      (coefficient (repairs.getD r 0) j).byte) (right (repairs.getD r 0)) t
    rw [length_map] at hshift
    rw [(hget r hr).2 (missing.length + t), hshift, hright']
    exact Finset.sum_congr rfl fun c hc => by rw [hfront r hr c (Finset.mem_range.mp hc)]
  obtain ⟨rows', helim, hsolved⟩ := gaussJordan_solves hshape rfl
    (fun c hc => hs.getD_length (hsource _ (by
      rw [getD, getElem?_eq_getElem hc]
      exact getElem_mem hc)))
    (coefficient_kernel hlength (Nat.le_add_right _ _) hnodup₂ hnodup₁ hrange hsource hfront)
    hsystem
  refine ⟨repairs.map rowOf, rows', mapM_eq_some hrow, helim, hsolved.trans ?_⟩
  refine ext_getElem (by simp) fun c hc _ => ?_
  have hlt : c < missing.length := by simpa using hc
  simp [hlt]

theorem solveMissing_eq : ∃ symbols,
    (∀ esi, symbols.get esi = knownSymbol g source received esi) ∧
    solveMissing g received = .ok (symbols, (missingSources g (received.map Prod.fst)).map fun esi =>
      (esi, source.getD esi [])) := by
  obtain ⟨symbols, hplace, hknown⟩ := place_eq hs hr
  refine ⟨symbols, hknown, ?_⟩
  have hmissing : ((range g.sourceCount).filter fun esi => (symbols.get esi).isNone) =
      missingSources g (received.map Prod.fst) := by
    refine filter_congr fun esi _ => ?_
    rw [← Option.not_isSome, hknown, knownSymbol_isSome]
  have hrepairs : ((range' g.sourceCount g.repairCount).filter fun esi =>
      (symbols.get esi).isSome) = (range' g.sourceCount g.repairCount).filter fun esi =>
        decide (esi ∈ received.map Prod.fst) := by
    simp only [hknown, knownSymbol_isSome]
  rw [solveMissing, hplace, ok_bind, rejectIf_neg (by omega), ok_bind]
  simp only [hmissing, hrepairs]
  rw [← chosenRepairs]
  obtain ⟨rows, rows', hrows, helim, hright⟩ := eliminate_eq hs hr henough hknown
  split_ifs with hnone
  · rw [hnone]
    rfl
  · rw [hrows, okOr_some, ok_bind, helim, okOr_some, ok_bind, hright]
    have hzip : ∀ (l : List ℕ) (f : ℕ → Bytes), l.zip (l.map f) = l.map fun e => (e, f e) := by
      intro l f
      conv_lhs => rw [← map_id l, map_map]
      exact zip_map'
    rw [hzip]
    rfl

theorem recoverMissing_eq : recoverMissing g received =
    .ok ((missingSources g (received.map Prod.fst)).map fun esi => (esi, source.getD esi [])) := by
  obtain ⟨symbols, -, hsolve⟩ := solveMissing_eq hs hr henough
  rw [recoverMissing, hsolve, ok_bind]
  rfl

omit [Gf.Simd] hs hr henough in
theorem assembleSources_eq {known : ℕ → Prop} [DecidablePred known] (f : ℕ → Bytes) (l : List ℕ)
    (hget : ∀ esi ∈ l, symbols.get esi = if known esi then some (f esi) else none) :
    assembleSources symbols l ((l.filter fun esi => !decide (known esi)).map fun esi =>
      (esi, f esi)) = some (l.map f) := by
  induction l with
  | nil => rfl
  | cons esi l ih =>
    rw [forall_mem_cons] at hget
    by_cases h : known esi
    · simp [assembleSources, hget.1, h, ih hget.2]
    · simp [assembleSources, hget.1, h, ih hget.2]

theorem decode_eq : decode g received = .ok source := by
  obtain ⟨symbols, hknown, hsolve⟩ := solveMissing_eq hs hr henough
  have hget : ∀ esi ∈ range g.sourceCount, symbols.get esi =
      if esi ∈ received.map Prod.fst then some (source.getD esi []) else none := by
    intro esi hesi
    rw [hknown, knownSymbol, symbolOf, if_pos (mem_range.mp hesi)]
  have hassemble := assembleSources_eq (fun esi => source.getD esi []) _ hget
  rw [← hs.eq_map_range] at hassemble
  rw [decode, hsolve, ok_bind]
  exact okOr_eq_ok.mpr hassemble

end Recovery

omit [Gf.Simd] in
theorem generator_det {m : ℕ} {repairs missing : Fin m → ℕ}
    (hrepairs : Function.Injective repairs) (hmissing : Function.Injective missing)
    (hrange : ∀ i, repairs i < g.repairCount) (hsource : ∀ j, missing j < g.sourceCount) :
    (Matrix.of fun i j => elementAt ((g.generatorRow (repairs i)).getD []) (missing j)).det ≠ 0 := by
  have hlt := g.symbolCount_lt
  have hcount : ∀ i, g.sourceCount + repairs i < g.symbolCount := fun i =>
    Nat.add_lt_add_left (hrange i) _
  have hentry : ∀ i j, elementAt ((g.generatorRow (repairs i)).getD []) (missing j) =
      (point (g.sourceCount + repairs i) - point (missing j))⁻¹ := by
    intro i j
    have hrow := generatorRow_eq (Nat.le_add_right g.sourceCount (repairs i)) (hcount i)
    rw [Nat.add_sub_cancel_left] at hrow
    rw [hrow, Option.getD_some, elementAt_map _ 0 _ (by simpa using hsource j), getD,
      getElem?_range (hsource j)]
    rfl
  simp only [hentry]
  refine cauchy_det (fun i i' h => hrepairs ?_) (fun j j' h => hmissing ?_) fun i j h => ?_
  · have := point_inj (lt_trans (hcount i) hlt) (lt_trans (hcount i') hlt) h
    omega
  · have h1 := hsource j
    have h2 := hsource j'
    have h3 := g.source_le
    unfold maxSourceSymbols at h3
    exact point_inj (by omega) (by omega) h
  · have h1 := hsource j
    have := point_inj (lt_trans (hcount i) hlt) (by have := hcount i; omega) h
    omega

/-- The code is MDS: any `k` symbols with distinct ESIs give the sources back, and every square
selection of the generator is invertible. -/
theorem erasure_code_mds {k r length : ℕ} {g : Geometry} (hnew : Geometry.new k r length = .ok g)
    {source : List Bytes} (hcount : source.length = k)
    (hlength : ∀ symbol ∈ source, symbol.length = length) :
    ∃ repair, encode g source = .ok repair ∧ repair.length = r ∧
      (∀ received : List (ℕ × Bytes), received.length = k → (received.map Prod.fst).Nodup →
        (∀ p ∈ received, (source ++ repair)[p.1]? = some p.2) →
        decode g received = .ok source ∧
          recoverMissing g received = .ok (((List.range k).filter fun esi =>
            !decide (esi ∈ received.map Prod.fst)).map fun esi => (esi, source.getD esi []))) ∧
      ∀ (m : ℕ) (repairs missing : Fin m → ℕ), Function.Injective repairs →
        Function.Injective missing → (∀ i, repairs i < r) → (∀ j, missing j < k) →
        IsUnit (Matrix.of fun i j =>
          elementAt ((g.generatorRow (repairs i)).getD []) (missing j)).det := by
  obtain ⟨rfl, rfl, rfl⟩ := new_eq_ok hnew
  have hs : Sources g source := ⟨hcount, hlength⟩
  refine ⟨_, hs.encode_eq, by simp, ?_, ?_⟩
  · intro received hk hnodup hsymbol
    have hr : Received g source received := by
      refine ⟨hnodup, fun p hp => ?_⟩
      have := hsymbol p hp
      rw [hs.append_eq, getElem?_map, Option.map_eq_some_iff] at this
      obtain ⟨esi, hesi, hsym⟩ := this
      obtain ⟨hlt, rfl⟩ := List.getElem?_eq_some_iff.mp hesi
      rw [getElem_range] at hsym
      exact ⟨by simpa using hlt, hsym.symm⟩
    exact ⟨decode_eq hs hr hk.ge, recoverMissing_eq hs hr hk.ge⟩
  · intro m repairs missing h1 h2 h3 h4
    exact isUnit_iff_ne_zero.mpr (generator_det h1 h2 h3 h4)

end Decoding

section Sample

/-- A machine without vectors. -/
abbrev scalarMachine : Gf.Simd := ⟨none⟩

attribute [local instance] scalarMachine

/-- Two sources and one repair symbol; the second source is lost. -/
theorem erasure_code_mds_one_lost :
    ∃ g repair symbol, Geometry.new 2 1 1 = .ok g ∧ encode g [[17], [42]] = .ok repair ∧
      repair = [symbol] ∧ decode g [(2, symbol), (0, [17])] = .ok [[17], [42]] ∧
      recoverMissing g [(2, symbol), (0, [17])] = .ok [(1, [42])] := by
  obtain ⟨g, hnew⟩ : ∃ g, Geometry.new 2 1 1 = .ok g := ⟨_, rfl⟩
  obtain ⟨repair, hencode, hone, hdecode, -⟩ :=
    erasure_code_mds hnew (show ([[17], [42]] : List Bytes).length = 2 from rfl) (by decide)
  obtain ⟨symbol, rfl⟩ := length_eq_one_iff.mp hone
  obtain ⟨hall, hmissing⟩ := hdecode [(2, symbol), (0, [17])] rfl (by simp) (by simp)
  exact ⟨g, [symbol], symbol, hnew, hencode, rfl, hall, hmissing⟩

end Sample

end ObjectTransfer.Fec
