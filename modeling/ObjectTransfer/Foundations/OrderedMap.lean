import Mathlib.Tactic

/-! # Ordered maps

A finite map as the list of its entries in increasing order of keys. Besides lookup,
insertion and removal there are the neighbour queries of a search tree: the last entry
at or below a key, the last one strictly below it, and the first one at or above it.
-/

namespace ObjectTransfer.Foundations
open List

/-- Entries in strictly increasing order of keys. -/
@[ext] structure OrderedMap (κ ν : Type*) [LinearOrder κ] where
  entries : List (κ × ν)
  sorted : entries.Pairwise fun p q => p.1 < q.1
  deriving DecidableEq

namespace OrderedMap

variable {κ ν : Type*} [LinearOrder κ]

def empty : OrderedMap κ ν := ⟨[], List.Pairwise.nil⟩

def size (m : OrderedMap κ ν) : ℕ := m.entries.length

def get? (m : OrderedMap κ ν) (k : κ) : Option ν :=
  (m.entries.find? fun p => decide (p.1 = k)).map Prod.snd

/-- Set the value of a key, replacing one that is there. -/
def insert (m : OrderedMap κ ν) (k : κ) (v : ν) : OrderedMap κ ν where
  entries := (m.entries.filter fun p => decide (p.1 < k)) ++
    (k, v) :: m.entries.filter fun p => decide (k < p.1)
  sorted := by
    rw [List.pairwise_append, List.pairwise_cons]
    refine ⟨m.sorted.filter _, ⟨fun q hq => ?_, m.sorted.filter _⟩, fun p hp q hq => ?_⟩
    · simpa using (List.mem_filter.mp hq).2
    · have hpk : p.1 < k := by simpa using (List.mem_filter.mp hp).2
      rcases List.mem_cons.mp hq with rfl | hq
      · exact hpk
      · exact hpk.trans (by simpa using (List.mem_filter.mp hq).2)

def erase (m : OrderedMap κ ν) (k : κ) : OrderedMap κ ν where
  entries := m.entries.filter fun p => decide (p.1 ≠ k)
  sorted := m.sorted.filter _

/-- The last entry whose key is at most `k`. -/
def floor? (m : OrderedMap κ ν) (k : κ) : Option (κ × ν) :=
  (m.entries.filter fun p => decide (p.1 ≤ k)).getLast?

/-- The last entry whose key is below `k`. -/
def below? (m : OrderedMap κ ν) (k : κ) : Option (κ × ν) :=
  (m.entries.filter fun p => decide (p.1 < k)).getLast?

/-- The first entry whose key is at least `k`. -/
def ceil? (m : OrderedMap κ ν) (k : κ) : Option (κ × ν) :=
  m.entries.find? fun p => decide (k ≤ p.1)

variable {m : OrderedMap κ ν} {k k' : κ} {v v' : ν} {p q : κ × ν}

theorem keys_nodup (m : OrderedMap κ ν) : (m.entries.map Prod.fst).Nodup :=
  pairwise_map.mpr (m.sorted.imp ne_of_lt)

theorem eq_of_fst_eq (hp : p ∈ m.entries) (hq : q ∈ m.entries) (h : p.1 = q.1) : p = q :=
  inj_on_of_nodup_map m.keys_nodup hp hq h

section Lookup

theorem get?_eq_some : m.get? k = some v ↔ (k, v) ∈ m.entries := by
  rw [get?, Option.map_eq_some_iff]
  constructor
  · rintro ⟨p, hfind, rfl⟩
    have hkey : p.1 = k := by simpa using find?_some hfind
    exact hkey ▸ mem_of_find?_eq_some hfind
  · intro hmem
    cases hfind : m.entries.find? fun p => decide (p.1 = k) with
    | none =>
      have := find?_eq_none.mp hfind _ hmem
      simp at this
    | some p =>
      have hkey : p.1 = k := by simpa using find?_some hfind
      have := eq_of_fst_eq (mem_of_find?_eq_some hfind) hmem hkey
      exact ⟨p, rfl, by rw [this]⟩

theorem get?_eq_none : m.get? k = none ↔ ∀ p ∈ m.entries, p.1 ≠ k := by
  simp [get?]

theorem mem_insert : p ∈ (m.insert k v).entries ↔ p = (k, v) ∨ p ∈ m.entries ∧ p.1 ≠ k := by
  simp only [insert, mem_append, mem_cons, mem_filter, decide_eq_true_eq, ne_iff_lt_or_gt]
  tauto

theorem mem_erase : p ∈ (m.erase k).entries ↔ p ∈ m.entries ∧ p.1 ≠ k := by
  simp [erase]

@[simp] theorem get?_empty : (empty : OrderedMap κ ν).get? k = none := rfl

@[simp] theorem get?_insert_self : (m.insert k v).get? k = some v :=
  get?_eq_some.mpr (mem_insert.mpr (.inl rfl))

theorem get?_insert_of_ne (h : k' ≠ k) : (m.insert k v).get? k' = m.get? k' := by
  ext w
  rw [get?_eq_some, get?_eq_some, mem_insert]
  simp [h]

@[simp] theorem get?_erase_self : (m.erase k).get? k = none :=
  get?_eq_none.mpr fun _ hp => (mem_erase.mp hp).2

theorem get?_erase_of_ne (h : k' ≠ k) : (m.erase k).get? k' = m.get? k' := by
  ext w
  rw [get?_eq_some, get?_eq_some, mem_erase]
  simp [h]

theorem get?_insert_eq_some {w : ν} :
    (m.insert k v).get? k' = some w ↔ k' = k ∧ w = v ∨ k' ≠ k ∧ m.get? k' = some w := by
  by_cases heq : k' = k
  · rw [heq, get?_insert_self]
    simp [eq_comm]
  · rw [get?_insert_of_ne heq]
    simp [heq]

theorem isSome_insert (h : ((m.insert k v).get? k').isSome) : (m.get? k').isSome ∨ k' = k := by
  by_cases heq : k' = k
  · exact .inr heq
  · rw [get?_insert_of_ne heq] at h
    exact .inl h

theorem get?_insert_eq_none :
    (m.insert k v).get? k' = none ↔ k' ≠ k ∧ m.get? k' = none := by
  by_cases heq : k' = k
  · simp [heq]
  · simp [get?_insert_of_ne heq, heq]

theorem get?_erase_eq_some {w : ν} :
    (m.erase k).get? k' = some w ↔ k' ≠ k ∧ m.get? k' = some w := by
  by_cases heq : k' = k
  · simp [heq]
  · simp [get?_erase_of_ne heq, heq]

theorem isSome_erase (h : ((m.erase k).get? k').isSome) : (m.get? k').isSome := by
  obtain ⟨w, hw⟩ := Option.isSome_iff_exists.mp h
  exact Option.isSome_iff_exists.mpr ⟨w, (get?_erase_eq_some.mp hw).2⟩

end Lookup

section Neighbours

theorem getLast?_filter {c : κ × ν → Bool} (h : (m.entries.filter c).getLast? = some p) :
    p ∈ m.entries ∧ c p = true ∧ ∀ q ∈ m.entries, c q = true → q.1 ≤ p.1 := by
  obtain ⟨front, hfront⟩ := getLast?_eq_some_iff.mp h
  have hp : p ∈ m.entries.filter c := by simp [hfront]
  refine ⟨(mem_filter.mp hp).1, (mem_filter.mp hp).2, fun q hq hc => ?_⟩
  have hsorted := m.sorted.filter c
  have hmem : q ∈ front ++ [p] := hfront ▸ mem_filter.mpr ⟨hq, hc⟩
  rw [hfront, pairwise_append] at hsorted
  rcases mem_append.mp hmem with hmem | hmem
  · exact (hsorted.2.2 q hmem p (by simp)).le
  · rw [mem_singleton.mp hmem]

theorem floor?_eq_some (h : m.floor? k = some p) :
    p ∈ m.entries ∧ p.1 ≤ k ∧ ∀ q ∈ m.entries, q.1 ≤ k → q.1 ≤ p.1 := by
  simpa using getLast?_filter h

theorem below?_eq_some (h : m.below? k = some p) :
    p ∈ m.entries ∧ p.1 < k ∧ ∀ q ∈ m.entries, q.1 < k → q.1 ≤ p.1 := by
  simpa using getLast?_filter h

theorem below?_eq_none (h : m.below? k = none) : ∀ q ∈ m.entries, k ≤ q.1 := by
  simpa [below?] using h

theorem ceil?_eq_some (h : m.ceil? k = some p) :
    p ∈ m.entries ∧ k ≤ p.1 ∧ ∀ q ∈ m.entries, k ≤ q.1 → p.1 ≤ q.1 := by
  obtain ⟨hk, front, back, hentries, hfront⟩ := find?_eq_some_iff_append.mp h
  have hsorted := m.sorted
  rw [hentries, pairwise_append, pairwise_cons] at hsorted
  refine ⟨by simp [hentries], by simpa using hk, fun q hq hkq => ?_⟩
  rw [hentries, mem_append, mem_cons] at hq
  rcases hq with hq | rfl | hq
  · have := hfront q hq
    simp [hkq] at this
  · exact le_rfl
  · exact (hsorted.2.1.1 q hq).le

theorem ceil?_eq_none (h : m.ceil? k = none) : ∀ q ∈ m.entries, q.1 < k := by
  simpa [ceil?] using h

end Neighbours

section Totals

/-- The sum of a quantity over all values. -/
def total (m : OrderedMap κ ν) (f : ν → ℕ) : ℕ := (m.entries.map fun p => f p.2).sum

theorem size_eq_total (m : OrderedMap κ ν) : m.size = m.total fun _ => 1 := by
  simp [size, total]

theorem entries_nodup (m : OrderedMap κ ν) : m.entries.Nodup :=
  m.sorted.imp fun hlt heq => hlt.ne (congrArg Prod.fst heq)

theorem ext_get? {m m' : OrderedMap κ ν} (h : ∀ k, m.get? k = m'.get? k) : m = m' := by
  ext1
  have hperm : m.entries.Perm m'.entries := by
    refine (perm_ext_iff_of_nodup (entries_nodup _) (entries_nodup _)).mpr fun p => ?_
    rw [← get?_eq_some, ← get?_eq_some, h]
  refine hperm.eq_of_pairwise (fun a b _ _ hab hba => ?_) m.sorted m'.sorted
  exact absurd (hab.trans hba) (lt_irrefl _)

theorem insert_perm (m : OrderedMap κ ν) (k : κ) (v : ν) :
    (m.insert k v).entries.Perm ((k, v) :: (m.erase k).entries) := by
  have hnodup : ((k, v) :: (m.erase k).entries).Nodup :=
    nodup_cons.mpr ⟨fun hmem => (mem_erase.mp hmem).2 rfl, entries_nodup _⟩
  refine (perm_ext_iff_of_nodup (entries_nodup _) hnodup).mpr fun p => ?_
  rw [mem_insert, mem_cons, mem_erase]

theorem erase_perm (h : m.get? k = some v) : m.entries.Perm ((k, v) :: (m.erase k).entries) := by
  have hmem := get?_eq_some.mp h
  have hnodup : ((k, v) :: (m.erase k).entries).Nodup :=
    nodup_cons.mpr ⟨fun hmem => (mem_erase.mp hmem).2 rfl, entries_nodup _⟩
  refine (perm_ext_iff_of_nodup (entries_nodup _) hnodup).mpr fun p => ?_
  rw [mem_cons, mem_erase]
  constructor
  · intro hp
    by_cases hkey : p.1 = k
    · exact .inl (eq_of_fst_eq hp hmem hkey)
    · exact .inr ⟨hp, hkey⟩
  · rintro (rfl | ⟨hp, -⟩)
    · exact hmem
    · exact hp

theorem erase_of_none (h : m.get? k = none) : m.erase k = m := by
  ext1
  exact filter_eq_self.mpr fun p hp => by simpa using get?_eq_none.mp h p hp

theorem total_insert (m : OrderedMap κ ν) (k : κ) (v : ν) (f : ν → ℕ) :
    (m.insert k v).total f = f v + (m.erase k).total f := by
  rw [total, ((insert_perm m k v).map _).sum_eq, map_cons, sum_cons, total]

theorem total_of_some (h : m.get? k = some v) (f : ν → ℕ) :
    m.total f = f v + (m.erase k).total f := by
  rw [total, ((erase_perm h).map _).sum_eq, map_cons, sum_cons, total]

theorem total_le_total {f g : ν → ℕ} (h : ∀ v, f v ≤ g v) : m.total f ≤ m.total g :=
  sum_le_sum fun p _ => h p.2

end Totals

section Families

/-- Put in values one after another, each under its own key. -/
def insertAll (m : OrderedMap κ ν) (key : ν → κ) (values : List ν) : OrderedMap κ ν :=
  values.foldl (fun m v => m.insert (key v) v) m

variable {key : ν → κ} {values values' : List ν}

theorem get?_insertAll (hdistinct : (values.map key).Nodup) :
    (m.insertAll key values).get? k = some v ↔
      v ∈ values ∧ key v = k ∨ k ∉ values.map key ∧ m.get? k = some v := by
  induction values generalizing m with
  | nil => simp [insertAll]
  | cons w values ih =>
    rw [map_cons, nodup_cons] at hdistinct
    rw [insertAll, foldl_cons, ← insertAll, ih hdistinct.2, get?_insert_eq_some,
      map_cons, mem_cons, mem_cons]
    constructor
    · rintro (⟨hmem, rfl⟩ | ⟨hout, ⟨rfl, rfl⟩ | ⟨hne, hget⟩⟩)
      · exact .inl ⟨.inr hmem, rfl⟩
      · exact .inl ⟨.inl rfl, rfl⟩
      · exact .inr ⟨by simp [hne, hout], hget⟩
    · rintro (⟨rfl | hmem, rfl⟩ | ⟨hout, hget⟩)
      · exact .inr ⟨hdistinct.1, .inl ⟨rfl, rfl⟩⟩
      · exact .inl ⟨hmem, rfl⟩
      · exact .inr ⟨fun h => hout (.inr h), .inr ⟨fun h => hout (.inl h), hget⟩⟩

/-- The order the values are put in does not matter. -/
theorem insertAll_perm (hdistinct : (values.map key).Nodup) (hperm : values'.Perm values) :
    m.insertAll key values' = m.insertAll key values := by
  refine ext_get? fun k => Option.ext fun v => ?_
  have hdistinct' : (values'.map key).Nodup := (hperm.map key).nodup_iff.mpr hdistinct
  rw [get?_insertAll hdistinct', get?_insertAll hdistinct, hperm.mem_iff, (hperm.map key).mem_iff]

end Families

end OrderedMap

end ObjectTransfer.Foundations
