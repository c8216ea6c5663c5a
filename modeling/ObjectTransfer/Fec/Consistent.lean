import ObjectTransfer.Fec.Mds

/-! # Any `k` symbols belong to some sources

The repair symbols among exactly `k` received symbols give as many equations as there are
missing sources, and their matrix is invertible. So whatever bytes arrive, they are the symbols
of one list of sources, and recovery does not fail.
-/

namespace ObjectTransfer.Fec
open Foundations List

/-- Symbols with distinct ESIs, each of the right length. -/
structure Plausible (g : Geometry) (received : List (ℕ × Bytes)) : Prop where
  nodup : (received.map Prod.fst).Nodup
  symbol : ∀ p ∈ received, p.1 < g.symbolCount ∧ p.2.length = g.symbolLength

def valueOf (received : List (ℕ × Bytes)) (esi : ℕ) : Bytes :=
  ((received.find? fun p => decide (p.1 = esi)).map Prod.snd).getD []

variable {g : Geometry} {received : List (ℕ × Bytes)}

theorem valueOf_eq (hnodup : (received.map Prod.fst).Nodup) {p : ℕ × Bytes} (hp : p ∈ received) :
    valueOf received p.1 = p.2 := by
  cases hfind : received.find? fun q => decide (q.1 = p.1) with
  | none =>
    have := find?_eq_none.mp hfind p hp
    simp at this
  | some q =>
    have hkey : q.1 = p.1 := by simpa using find?_some hfind
    rw [inj_on_of_nodup_map hnodup (mem_of_find?_eq_some hfind) hp hkey] at hfind
    rw [valueOf, hfind]
    rfl

/-- With exactly `k` symbols every repair symbol is chosen. -/
theorem mem_chosenRepairs_of_mem {esis : List ℕ} (hnodup : esis.Nodup)
    (hlt : ∀ esi ∈ esis, esi < g.symbolCount) (hk : esis.length = g.sourceCount) {esi : ℕ}
    (hesi : esi ∈ esis) (hrepair : g.sourceCount ≤ esi) : esi ∈ chosenRepairs g esis := by
  have hcount := received_length hnodup hlt
  rw [chosenRepairs, take_of_length_le (by omega), mem_filter, mem_range'_1, decide_eq_true_eq]
  exact ⟨⟨hrepair, hlt esi hesi⟩, hesi⟩

theorem getD_mem {l : List ℕ} {i : ℕ} (h : i < l.length) : l.getD i 0 ∈ l := by
  rw [getD, getElem?_eq_getElem h]
  exact getElem_mem h

theorem getD_inj {l : List ℕ} (hl : l.Nodup) {i j : ℕ} (hi : i < l.length) (hj : j < l.length)
    (h : l.getD i 0 = l.getD j 0) : i = j := by
  rw [getD, getD, getElem?_eq_getElem hi, getElem?_eq_getElem hj] at h
  exact (hl.getElem_inj_iff).mp h

/-- The equations of distinct repair symbols for distinct sources have a solution, whatever
stands on their right-hand side. -/
theorem coefficient_solvable {repairs missing : List ℕ} (hlen : repairs.length = missing.length)
    (hrepairs : repairs.Nodup) (hmissing : missing.Nodup)
    (hrange : ∀ e ∈ repairs, g.sourceCount ≤ e ∧ e < g.symbolCount)
    (hsource : ∀ j ∈ missing, j < g.sourceCount) (right : ℕ → Gf256) :
    ∃ x : ℕ → Gf256, ∀ e ∈ repairs,
      (missing.map fun j => Geometry.coefficient e j * x j).sum = right e := by
  have h256 := g.symbolCount_lt
  have hk : g.sourceCount ≤ g.symbolCount := Nat.le_add_right _ _
  let rowEsi : Fin missing.length → ℕ := fun i => repairs.getD i 0
  let column : Fin missing.length → ℕ := fun j => missing.getD j 0
  have hrow : ∀ i, rowEsi i ∈ repairs := fun i => getD_mem (by omega)
  have hcolumn : ∀ j, column j ∈ missing := fun j => getD_mem j.2
  have hinj : Function.Injective column := fun j j' h => Fin.ext (getD_inj hmissing j.2 j'.2 h)
  let A : Matrix (Fin missing.length) (Fin missing.length) Gf256 := Matrix.of fun i j =>
    (point (rowEsi i) - point (column j))⁻¹
  have hdet : A.det ≠ 0 := by
    refine cauchy_det (fun i i' h => Fin.ext ?_) (fun j j' h => ?_) fun i j h => ?_
    · have h1 := (hrange _ (hrow i)).2
      have h2 := (hrange _ (hrow i')).2
      have hrows : rowEsi i = rowEsi i' := point_inj (by omega) (by omega) h
      exact getD_inj hrepairs (by omega) (by omega) hrows
    · have h1 := hsource _ (hcolumn j)
      have h2 := hsource _ (hcolumn j')
      exact hinj (point_inj (by omega) (by omega) h)
    · have h1 := hrange _ (hrow i)
      have h2 := hsource _ (hcolumn j)
      have := point_inj (by omega) (by omega) h
      omega
  let v := A⁻¹.mulVec fun i => right (rowEsi i)
  have hv : A.mulVec v = fun i => right (rowEsi i) := by
    rw [Matrix.mulVec_mulVec, Matrix.mul_nonsing_inv _ (isUnit_iff_ne_zero.mpr hdet),
      Matrix.one_mulVec]
  refine ⟨Function.extend column v 0, fun e he => ?_⟩
  obtain ⟨i, hi, rfl⟩ := getElem_of_mem he
  have hei : rowEsi ⟨i, hlen ▸ hi⟩ = repairs[i] := by simp [rowEsi, getD, hi]
  rw [sum_map_eq_sum_range missing 0, Finset.sum_range, ← hei]
  refine Eq.trans (Finset.sum_congr rfl fun j _ => ?_) (congrFun hv ⟨i, hlen ▸ hi⟩)
  rw [hinj.extend_apply v 0 j]
  rfl

variable (hp : Plausible g received) (hk : received.length = g.sourceCount)
include hp hk

theorem Plausible.exists_sources [Gf.Simd] :
    ∃ source, Sources g source ∧ Received g source received := by
  let esis := received.map Prod.fst
  have hlt : ∀ esi ∈ esis, esi < g.symbolCount := by
    intro esi hesi
    obtain ⟨p, hmem, rfl⟩ := mem_map.mp hesi
    exact (hp.symbol p hmem).1
  have hlength : esis.length = g.sourceCount := by rw [length_map, hk]
  have hvalue : ∀ esi ∈ esis, (valueOf received esi).length = g.symbolLength := by
    intro esi hesi
    obtain ⟨p, hmem, rfl⟩ := mem_map.mp hesi
    rw [valueOf_eq hp.nodup hmem, (hp.symbol p hmem).2]
  -- one system of equations for every byte position
  have hsolve := fun t => coefficient_solvable
    (chosenRepairs_length hp.nodup hlt hlength.ge) chosenRepairs_nodup missingSources_nodup
    (fun e he => ⟨(mem_chosenRepairs he).1, (mem_chosenRepairs he).2.1⟩)
    (fun j hj => (mem_missingSources.mp hj).1)
    (fun e => elementAt (valueOf received e) t -
      (((range g.sourceCount).filter fun j => decide (j ∈ esis)).map fun j =>
        Geometry.coefficient e j * elementAt (valueOf received j) t).sum)
  choose x hx using hsolve
  let source := (range g.sourceCount).map fun j =>
    if j ∈ esis then valueOf received j else (range g.symbolLength).map fun t => (x t j).byte
  have hget : ∀ j < g.sourceCount, source.getD j [] = if j ∈ esis then valueOf received j
      else (range g.symbolLength).map fun t => (x t j).byte := by
    intro j hj
    simp [source, getD, hj]
  have hs : Sources g source := by
    refine ⟨by simp [source], fun s hs => ?_⟩
    obtain ⟨j, hj, rfl⟩ := mem_map.mp hs
    split_ifs with hin
    · exact hvalue j hin
    · simp
  refine ⟨source, hs, hp.nodup, fun p hmem => ⟨(hp.symbol p hmem).1, ?_⟩⟩
  have hesi : p.1 ∈ esis := mem_map_of_mem hmem
  rw [← valueOf_eq hp.nodup hmem, symbolOf]
  split_ifs with hsource
  · rw [hget p.1 hsource, if_pos hesi]
  · obtain ⟨hrepair, hsum⟩ := hs.repairSymbol_spec p.1
    refine elementAt_ext ((hvalue p.1 hesi).trans hrepair.symm) fun t ht => ?_
    rw [hvalue p.1 hesi] at ht
    have hchosen := mem_chosenRepairs_of_mem hp.nodup hlt hlength hesi (not_lt.mp hsource)
    have hknown : ((range g.sourceCount).filter fun j => decide (j ∈ esis)).map (fun j =>
        Geometry.coefficient p.1 j * elementAt (source.getD j []) t) =
        ((range g.sourceCount).filter fun j => decide (j ∈ esis)).map fun j =>
          Geometry.coefficient p.1 j * elementAt (valueOf received j) t := by
      refine map_congr_left fun j hj => ?_
      rw [mem_filter, mem_range, decide_eq_true_eq] at hj
      rw [hget j hj.1, if_pos hj.2]
    have hmissing : ((range g.sourceCount).filter fun j => !decide (j ∈ esis)).map (fun j =>
        Geometry.coefficient p.1 j * elementAt (source.getD j []) t) =
        (missingSources g esis).map fun j => Geometry.coefficient p.1 j * x t j := by
      refine map_congr_left fun j hj => ?_
      have hj := mem_missingSources.mp hj
      rw [hget j hj.1, if_neg hj.2, elementAt_map _ 0 _ (by simpa using ht)]
      simp [getD, ht]
    rw [hsum t ht, ← sum_filter_add_sum_filter_not _ (fun j => decide (j ∈ esis)), hknown,
      hmissing, hx t p.1 hchosen, add_sub_cancel]

theorem Plausible.recoverMissing_ok [Gf.Simd] :
    ∃ recovered, recoverMissing g received = .ok recovered ∧
      ∀ p ∈ recovered, p.1 < g.sourceCount ∧ p.2.length = g.symbolLength := by
  obtain ⟨source, hs, hr⟩ := hp.exists_sources hk
  refine ⟨_, recoverMissing_eq hs hr hk.ge, fun p hmem => ?_⟩
  obtain ⟨esi, hesi, rfl⟩ := mem_map.mp hmem
  have hlt := (mem_missingSources.mp hesi).1
  exact ⟨hlt, hs.getD_length hlt⟩

end ObjectTransfer.Fec
