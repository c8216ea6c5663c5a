import ObjectTransfer.Fec.Code
import ObjectTransfer.Foundations.Elimination

/-! # Rows of bytes as rows over the field

The multiply-add kernel adds a multiple of a row over GF(2^8), and eliminating a column
in place is one step of a Gauss–Jordan sweep.
-/

namespace ObjectTransfer.Fec
open Foundations List

def elementAt (bytes : Bytes) (t : ℕ) : Gf256 := ⟨bytes.getD t 0⟩

variable {t : ℕ} {bytes : Bytes}

theorem elementAt_of_getElem? {b : UInt8} (h : bytes[t]? = some b) : elementAt bytes t = ⟨b⟩ := by
  rw [elementAt, getD, h]
  rfl

theorem getElem?_eq_elementAt (h : t < bytes.length) :
    bytes[t]? = some (elementAt bytes t).byte := by
  rw [elementAt, getD, getElem?_eq_getElem h]
  rfl

theorem elementAt_ext {xs ys : Bytes} (hlen : xs.length = ys.length)
    (h : ∀ t < xs.length, elementAt xs t = elementAt ys t) : xs = ys := by
  refine ext_getElem? fun t => ?_
  rcases lt_or_ge t xs.length with ht | ht
  · rw [getElem?_eq_elementAt ht, getElem?_eq_elementAt (hlen ▸ ht), h t ht]
  · rw [getElem?_eq_none ht, getElem?_eq_none (hlen ▸ ht)]

theorem elementAt_append_left {xs : Bytes} (ys : Bytes) (h : t < xs.length) :
    elementAt (xs ++ ys) t = elementAt xs t := by
  simp only [elementAt, getD, getElem?_append_left h]

theorem elementAt_append_right (xs ys : Bytes) (t : ℕ) :
    elementAt (xs ++ ys) (xs.length + t) = elementAt ys t := by
  simp only [elementAt, getD, getElem?_append_right (Nat.le_add_right _ t), Nat.add_sub_cancel_left]

theorem elementAt_drop (xs : Bytes) (m t : ℕ) :
    elementAt (xs.drop m) t = elementAt xs (m + t) := by
  simp only [elementAt, getD, getElem?_drop]

theorem elementAt_map {ι : Type*} (l : List ι) (d : ι) (f : ι → Gf256)
    (h : t < l.length) : elementAt (l.map fun i => (f i).byte) t = f (l.getD t d) := by
  refine elementAt_of_getElem? ?_
  rw [getElem?_map, getD, getElem?_eq_getElem h, Option.getD_some, Option.map_some]

section Kernel

variable [Gf.Simd] {out symbol : Bytes}

theorem mulAdd_length (h : out.length = symbol.length) (coefficient : UInt8) :
    (Gf.mulAdd out coefficient symbol).length = out.length := by
  rw [Gf.mulAdd_eq h, length_zipWith, h, min_self]

theorem elementAt_mulAdd (h : out.length = symbol.length) (coefficient : UInt8)
    (ht : t < out.length) :
    elementAt (Gf.mulAdd out coefficient symbol) t =
      elementAt out t + ⟨coefficient⟩ * elementAt symbol t := by
  refine elementAt_of_getElem? ?_
  rw [Gf.mulAdd_eq h, getElem?_zipWith, getElem?_eq_elementAt ht, getElem?_eq_elementAt (h ▸ ht)]
  rw [← Gf.mul_eq]

theorem foldl_mulAdd {length : ℕ} (out : Bytes) (pairs : List (UInt8 × Bytes))
    (hpairs : ∀ p ∈ pairs, p.2.length = length) (hout : out.length = length) :
    (pairs.foldl (fun out p => Gf.mulAdd out p.1 p.2) out).length = length ∧
      ∀ t < length, elementAt (pairs.foldl (fun out p => Gf.mulAdd out p.1 p.2) out) t =
        elementAt out t + (pairs.map fun p => ⟨p.1⟩ * elementAt p.2 t).sum := by
  induction pairs generalizing out with
  | nil => exact ⟨hout, fun t _ => by simp⟩
  | cons p pairs ih =>
    rw [forall_mem_cons] at hpairs
    have hlen : out.length = p.2.length := by rw [hout, hpairs.1]
    obtain ⟨hlength, hsum⟩ := ih _ hpairs.2 ((mulAdd_length hlen p.1).trans hout)
    refine ⟨hlength, fun t ht => ?_⟩
    rw [foldl_cons, hsum t ht, elementAt_mulAdd hlen p.1 (hout ▸ ht), map_cons, sum_cons, add_assoc]

end Kernel

structure Shape (rows : List Bytes) (m w : ℕ) : Prop where
  length : rows.length = m
  width : ∀ row ∈ rows, row.length = w

/-- The entries of the rows over the field. -/
def entry (rows : List Bytes) (r c : ℕ) : Gf256 := elementAt (rows.getD r []) c

theorem entry_of_getElem? {rows : List Bytes} {r : ℕ} {row : Bytes} (h : rows[r]? = some row)
    (c : ℕ) : entry rows r c = elementAt row c := by
  rw [entry, getD, h]
  rfl

section Elimination

variable {rows : List Bytes} {m w col : ℕ} (shape : Shape rows m w)
include shape

theorem Shape.get {r : ℕ} (hr : r < m) :
    ∃ row, rows[r]? = some row ∧ row.length = w ∧ ∀ c, entry rows r c = elementAt row c := by
  have hlt : r < rows.length := shape.length ▸ hr
  refine ⟨rows[r], getElem?_eq_getElem hlt, shape.width _ (getElem_mem hlt), fun c => ?_⟩
  exact entry_of_getElem? (getElem?_eq_getElem hlt) c

theorem findPivot_eq (hcol : col < w) (candidates : List ℕ) (hrange : ∀ r ∈ candidates, r < m)
    (h : ∃ r ∈ candidates, entry rows r col ≠ 0) :
    ∃ p ∈ candidates, findPivot rows col candidates = some p ∧ entry rows p col ≠ 0 := by
  induction candidates with
  | nil => simp at h
  | cons r candidates ih =>
    rw [forall_mem_cons] at hrange
    obtain ⟨row, hrow, hwidth, hentry⟩ := shape.get hrange.1
    rw [findPivot, hrow, Option.bind_eq_bind, Option.bind_some,
      getElem?_eq_elementAt (hwidth ▸ hcol), Option.bind_eq_bind, Option.bind_some, ← hentry]
    by_cases hzero : entry rows r col = 0
    · obtain ⟨q, hq, hne⟩ := h
      have htail : ∃ r ∈ candidates, entry rows r col ≠ 0 := by
        rcases mem_cons.mp hq with rfl | hq
        · exact absurd hzero hne
        · exact ⟨q, hq, hne⟩
      obtain ⟨p, hp, hfind, hpivot⟩ := ih hrange.2 htail
      refine ⟨p, mem_cons_of_mem _ hp, ?_, hpivot⟩
      rw [hzero, Gf256.byte_zero, if_neg (not_not.mpr rfl), hfind]
    · refine ⟨r, mem_cons_self, if_pos ?_, hzero⟩
      exact fun h0 => hzero (Gf256.ext h0)

theorem swap_eq {a b : ℕ} (ha : a < m) (hb : b < m) :
    ∃ rows', swap rows a b = some rows' ∧ Shape rows' m w ∧
      ∀ r < m, rows'[r]? = rows[Equiv.swap a b r]? := by
  obtain ⟨rowA, hA, hwA, -⟩ := shape.get ha
  obtain ⟨rowB, hB, hwB, -⟩ := shape.get hb
  refine ⟨(rows.set a rowB).set b rowA, by rw [swap, hA, hB]; rfl, ⟨?_, fun row hrow => ?_⟩, ?_⟩
  · rw [length_set, length_set, shape.length]
  · rcases mem_or_eq_of_mem_set hrow with hrow | rfl
    · rcases mem_or_eq_of_mem_set hrow with hrow | rfl
      · exact shape.width row hrow
      · exact hwB
    · exact hwA
  · intro r hr
    rw [getElem?_set, getElem?_set, length_set, shape.length, Equiv.swap_apply_def]
    by_cases hrb : b = r
    · subst hrb
      rw [if_pos rfl, if_pos hr]
      by_cases hba : b = a
      · rw [if_pos hba, hA.symm, hba]
      · rw [if_neg hba, if_pos rfl, hA]
    · rw [if_neg hrb]
      by_cases hra : a = r
      · rw [if_pos hra, if_pos ha, if_pos hra.symm, hB]
      · rw [if_neg hra, if_neg (Ne.symm hra), if_neg (Ne.symm hrb)]

omit shape in
theorem getElem?_splice {α β : Type*} {l : List α} {i : ℕ} (hi : i < l.length) (x : β) (f : α → β)
    (r : ℕ) : ((l.take i).map f ++ x :: (l.drop (i + 1)).map f)[r]? =
      if r = i then some x else l[r]?.map f := by
  have hlen : ((l.take i).map f).length = i := by simp; omega
  rcases lt_trichotomy r i with h | rfl | h
  · rw [getElem?_append_left (by omega), if_neg (by omega), getElem?_map, getElem?_take_of_lt h]
  · rw [getElem?_append_right (by omega), hlen, Nat.sub_self, if_pos rfl]
    rfl
  · rw [getElem?_append_right (by omega), hlen, if_neg (by omega),
      show r - i = (r - i - 1) + 1 by omega, getElem?_cons_succ, getElem?_map,
      getElem?_drop, show i + 1 + (r - i - 1) = r by omega]

omit shape in
theorem elementAt_map_mul (a : Gf256) (row : Bytes) {c : ℕ} (h : c < row.length) :
    elementAt (row.map (Gf.mul a.byte)) c = a * elementAt row c := by
  refine elementAt_of_getElem? ?_
  rw [getElem?_map, getElem?_eq_elementAt h]
  exact congrArg some (congrArg Gf256.byte (Gf.mul_eq _ _))

variable [Gf.Simd]

/-- Scaling the row of the pivot and clearing the column in all others. -/
theorem clearRows_eq (hcol : col < m) (hw : m ≤ w) (hpivot : entry rows col col ≠ 0) :
    ∃ row rows', rows[col]? = some row ∧ row[col]? = some (entry rows col col).byte ∧
      (∃ inv before after, Gf.inv (entry rows col col).byte = some inv ∧
        (rows.take col).mapM (clear (row.map (Gf.mul inv)) col) = some before ∧
        (rows.drop (col + 1)).mapM (clear (row.map (Gf.mul inv)) col) = some after ∧
        rows' = before ++ row.map (Gf.mul inv) :: after) ∧
      Shape rows' m w ∧ ∀ r < m, ∀ c < w, entry rows' r c = clearColumn (entry rows) col r c := by
  obtain ⟨row, hrow, hwidth, hentry⟩ := shape.get hcol
  have hinv : Gf.inv (entry rows col col).byte = some ((entry rows col col)⁻¹).byte :=
    Gf.inv_eq fun h0 => hpivot (Gf256.ext h0)
  let scaled := row.map (Gf.mul ((entry rows col col)⁻¹).byte)
  have hscaled : scaled.length = w := by rw [length_map, hwidth]
  let cleared := fun other : Bytes => Gf.mulAdd other (elementAt other col).byte scaled
  have hclear : ∀ other : Bytes, other.length = w → clear scaled col other = some (cleared other) := by
    intro other hother
    rw [clear, getElem?_eq_elementAt (by omega)]
    rfl
  have hget := getElem?_splice (by rw [shape.length]; exact hcol) scaled
    cleared
  refine ⟨row, _, hrow, ?_, ⟨_, _, _, hinv, mapM_eq_some fun other ho => hclear other
      (shape.width _ (mem_of_mem_take ho)), mapM_eq_some fun other ho => hclear other
      (shape.width _ (mem_of_mem_drop ho)), rfl⟩, ⟨?_, ?_⟩, ?_⟩
  · rw [hentry, getElem?_eq_elementAt (by omega)]
  · rw [length_append, length_cons, length_map, length_map, length_take, length_drop, shape.length]
    omega
  · intro other ho
    simp only [mem_append, mem_cons, mem_map] at ho
    have hother : ∀ o ∈ rows, (cleared o).length = w := fun o ho => by
      rw [mulAdd_length (by rw [hscaled, shape.width o ho]), shape.width o ho]
    rcases ho with ⟨o, ho, rfl⟩ | rfl | ⟨o, ho, rfl⟩
    · exact hother o (mem_of_mem_take ho)
    · exact hscaled
    · exact hother o (mem_of_mem_drop ho)
  · intro r hr c hc
    by_cases hrc : r = col
    · rw [entry_of_getElem? (by rw [hget, if_pos hrc]), clearColumn, if_pos hrc,
        elementAt_map_mul _ _ (by omega), hentry c]
    · obtain ⟨other, hother, hwo, heo⟩ := shape.get hr
      rw [entry_of_getElem? (by rw [hget, if_neg hrc, hother]; rfl), clearColumn, if_neg hrc,
        elementAt_mulAdd (by omega) _ (by omega), elementAt_map_mul _ _ (by omega), heo, heo,
        hentry c, Gf256.sub_eq]

theorem eliminateColumn_eq (hcol : col < m) (hw : m ≤ w)
    (h : ∃ p, col ≤ p ∧ p < m ∧ entry rows p col ≠ 0) :
    ∃ rows' p, eliminateColumn m rows col = some rows' ∧ Shape rows' m w ∧
      col ≤ p ∧ p < m ∧ entry rows p col ≠ 0 ∧ ∀ r < m, ∀ c < w,
        entry rows' r c = clearColumn (swapRows (entry rows) col p) col r c := by
  obtain ⟨q, hq1, hq2, hq⟩ := h
  obtain ⟨p, hp, hfind, hpivot⟩ := findPivot_eq shape (show col < w by omega)
    (range' col (m - col)) (fun r hr => by rw [mem_range'_1] at hr; omega)
    ⟨q, mem_range'_1.mpr (by omega), hq⟩
  rw [mem_range'_1] at hp
  obtain ⟨swapped, hswap, hshape, hget⟩ := swap_eq shape hcol (show p < m by omega)
  have hentry : ∀ r < m, ∀ c, entry swapped r c = swapRows (entry rows) col p r c := by
    intro r hr c
    rw [entry, getD, hget r hr]
    rfl
  have hvalue : entry swapped col col ≠ 0 := by
    rwa [hentry col hcol, swapRows, Equiv.swap_apply_left]
  obtain ⟨row, rows', hrow, hbyte, ⟨inv, before, after, hinv, hbefore, hafter, hrows⟩, hshape',
    hclear⟩ := clearRows_eq hshape hcol hw hvalue
  refine ⟨rows', p, ?_, hshape', hp.1, by omega, hpivot, fun r hr c hc => ?_⟩
  · simp [eliminateColumn, hfind, hswap, hrow, hbyte, hinv, hbefore, hafter, hrows]
  · rw [hclear r hr c hc]
    simp only [clearColumn, hentry col hcol, hentry r hr]

theorem gaussJordan_eq (hw : m ≤ w) (hker : TrivialKernel m w (entry rows)) :
    ∃ rows', gaussJordan rows m = some rows' ∧ Shape rows' m w ∧
      Sweep m w {x | Annihilates m w (entry rows) x} (entry rows') m := by
  have hrun : ∀ n ≤ m, ∃ rows', (range n).foldlM (eliminateColumn m) rows = some rows' ∧
      Shape rows' m w ∧ Sweep m w {x | Annihilates m w (entry rows) x} (entry rows') n := by
    intro n
    induction n with
    | zero => exact fun _ => ⟨rows, rfl, shape, Sweep.start _⟩
    | succ n ih =>
      intro hn
      obtain ⟨rows₁, hfold, hshape, hsweep⟩ := ih (by omega)
      obtain ⟨rows₂, p, helim, hshape₂, hge, hlt, hne, hentry⟩ := eliminateColumn_eq hshape
        (by omega) hw
        (hsweep.exists_pivot (fun x hx hsupport => hker x hsupport hx) (by omega) hw)
      refine ⟨rows₂, ?_, hshape₂, hsweep.step hge hlt hne hw hentry⟩
      rw [range_succ, foldlM_append, hfold]
      simp [helim]
  exact hrun m le_rfl

/-- Elimination solves a system without kernel: what it leaves on the right are the unknowns. -/
theorem gaussJordan_solves {length : ℕ} {x : ℕ → Bytes} (hw : w = m + length)
    (hx : ∀ c < m, (x c).length = length) (hker : TrivialKernel m w (entry rows))
    (hsystem : ∀ t < length, ∀ r < m,
      ∑ c ∈ Finset.range m, entry rows r c * elementAt (x c) t = entry rows r (m + t)) :
    ∃ rows', gaussJordan rows m = some rows' ∧
      rows'.map (rightSide m length) = (List.range m).map x := by
  obtain ⟨rows', helim, hshape, hsweep⟩ := gaussJordan_eq shape (by omega) hker
  refine ⟨rows', helim, ext_getElem (by simp [hshape.length]) fun r hr _ => ?_⟩
  rw [length_map, hshape.length] at hr
  obtain ⟨row, hget, hwidth, hentry⟩ := hshape.get hr
  have hright : rightSide m length row = row.drop m := by
    rw [rightSide, take_left' (by rw [length_drop]; omega)]
  obtain ⟨hlt, hrow⟩ := List.getElem?_eq_some_iff.mp hget
  rw [getElem_map, getElem_map, getElem_range, hrow, hright]
  have hlength : (row.drop m).length = length := by rw [length_drop]; omega
  refine elementAt_ext (hlength.trans (hx r hr).symm) fun t ht => ?_
  have hsolved := hsweep.unit.solved (by omega)
    ((hsweep.same _).mpr ((annihilates_unknowns (by omega)).mpr (hsystem t (by omega)))) r hr
  rw [elementAt_drop, ← hentry, hsolved]

end Elimination

end ObjectTransfer.Fec
