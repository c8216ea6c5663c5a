import Mathlib.Tactic

/-! # Left-balanced hash trees over a list

A list of more than one leaf is split at the largest power of two below its length. The root merges
the roots of both parts; an audit path climbs from one leaf to the root, and a consistency path
climbs from the last complete subtree of an earlier length to the roots of both lengths. Both paths
are determined by the root when merging is injective on the pairs that occur.
-/

namespace ObjectTransfer.Foundations
open List

/-- The largest power of two below `n`, for `n > 1`. -/
def splitPoint (n : ℕ) : ℕ := 2 ^ Nat.log2 (n - 1)

section SplitPoint
variable {n : ℕ}

theorem splitPoint_pos (n : ℕ) : 0 < splitPoint n := Nat.two_pow_pos _

theorem splitPoint_lt (h : 1 < n) : splitPoint n < n := by
  have hle : 2 ^ Nat.log2 (n - 1) ≤ n - 1 := Nat.log2_self_le (by omega)
  unfold splitPoint
  omega

theorem le_two_mul_splitPoint (n : ℕ) : n ≤ 2 * splitPoint n := by
  have hlt : n - 1 < 2 ^ (Nat.log2 (n - 1) + 1) := Nat.lt_log2_self
  unfold splitPoint
  omega

/-- The split of a length between two consecutive powers of two. -/
theorem splitPoint_eq {p : ℕ} (hlow : 2 ^ p < n) (hhigh : n ≤ 2 ^ (p + 1)) : splitPoint n = 2 ^ p := by
  have hlog : Nat.log2 (n - 1) = p := by
    rw [Nat.log2_eq_iff (by have := Nat.two_pow_pos p; omega)]
    omega
  rw [splitPoint, hlog]

/-- Lengths beyond the split of a longer list split where it does. -/
theorem splitPoint_stable {m : ℕ} (hm : splitPoint n < m) (hmn : m ≤ n) :
    splitPoint m = splitPoint n := by
  have hhigh := le_two_mul_splitPoint n
  unfold splitPoint at hm hhigh
  apply splitPoint_eq hm
  omega

end SplitPoint

namespace LogTree

variable {δ : Type*}

section Root
variable (merge : δ → δ → δ) (empty : δ)

def root (leaves : List δ) : δ :=
  match leaves with
  | [] => empty
  | [leaf] => leaf
  | first :: second :: rest =>
    let k := splitPoint (rest.length + 2)
    merge (root ((first :: second :: rest).take k)) (root ((first :: second :: rest).drop k))
termination_by leaves.length
decreasing_by
  all_goals
    have hlt := splitPoint_lt (n := rest.length + 2) (by omega)
    have hpos := splitPoint_pos (rest.length + 2)
    simp only [List.length_take, List.length_drop, List.length_cons]
    omega

/-- The pairs merged on the way to the root. -/
def nodes (leaves : List δ) : List (δ × δ) :=
  match leaves with
  | [] => []
  | [_] => []
  | first :: second :: rest =>
    let k := splitPoint (rest.length + 2)
    (root merge empty ((first :: second :: rest).take k),
        root merge empty ((first :: second :: rest).drop k)) ::
      (nodes ((first :: second :: rest).take k) ++ nodes ((first :: second :: rest).drop k))
termination_by leaves.length
decreasing_by
  all_goals
    have hlt := splitPoint_lt (n := rest.length + 2) (by omega)
    have hpos := splitPoint_pos (rest.length + 2)
    simp only [List.length_take, List.length_drop, List.length_cons]
    omega

end Root

variable {known : Set (δ × δ)}

section Halves
variable {merge : δ → δ → δ} {empty : δ} {leaves : List δ}

/-- The leaves below the split, and those from it on. -/
def lower (leaves : List δ) : List δ := leaves.take (splitPoint leaves.length)

def upper (leaves : List δ) : List δ := leaves.drop (splitPoint leaves.length)

theorem take_splitPoint (leaves : List δ) : leaves.take (splitPoint leaves.length) = lower leaves := rfl

theorem drop_splitPoint (leaves : List δ) : leaves.drop (splitPoint leaves.length) = upper leaves := rfl

theorem lower_append_upper (leaves : List δ) : lower leaves ++ upper leaves = leaves :=
  take_append_drop _ _

theorem lower_length (h : 1 < leaves.length) : (lower leaves).length = splitPoint leaves.length :=
  length_take_of_le (splitPoint_lt h).le

theorem upper_length (leaves : List δ) :
    (upper leaves).length = leaves.length - splitPoint leaves.length := length_drop

theorem root_singleton (leaf : δ) : root merge empty [leaf] = leaf := by rw [root]

theorem root_split (h : 1 < leaves.length) :
    root merge empty leaves =
      merge (root merge empty (lower leaves)) (root merge empty (upper leaves)) := by
  match leaves, h with
  | first :: second :: rest, _ => rw [root]; rfl

theorem nodes_split (h : 1 < leaves.length) :
    nodes merge empty leaves = (root merge empty (lower leaves), root merge empty (upper leaves)) ::
      (nodes merge empty (lower leaves) ++ nodes merge empty (upper leaves)) := by
  match leaves, h with
  | first :: second :: rest, _ => rw [nodes]; rfl

/-- Both halves of a list have a property of all shorter lists. -/
theorem splitInduction {motive : List δ → Prop} (short : ∀ leaves, leaves.length ≤ 1 → motive leaves)
    (split : ∀ leaves, 1 < leaves.length → motive (lower leaves) → motive (upper leaves) →
      motive leaves) (leaves : List δ) : motive leaves := by
  induction hlength : leaves.length using Nat.strong_induction_on generalizing leaves with
  | _ length ih =>
    by_cases h : leaves.length ≤ 1
    · exact short leaves h
    · have hsplit : 1 < leaves.length := by omega
      have hlower := lower_length hsplit
      have hupper := upper_length leaves
      have hlt := splitPoint_lt hsplit
      have hpos := splitPoint_pos leaves.length
      exact split leaves hsplit (ih _ (by omega) (lower leaves) rfl) (ih _ (by omega) (upper leaves) rfl)

theorem root_inj (hinj : Set.InjOn (fun p : δ × δ => merge p.1 p.2) known)
    {xs ys : List δ} (hlength : xs.length = ys.length) (hxs : ∀ p ∈ nodes merge empty xs, p ∈ known)
    (hys : ∀ p ∈ nodes merge empty ys, p ∈ known)
    (hroot : root merge empty xs = root merge empty ys) : xs = ys := by
  induction xs using splitInduction generalizing ys with
  | short xs h =>
    match xs, ys, hlength, h with
    | [], [], _, _ => rfl
    | [x], [y], _, _ =>
      rw [root_singleton, root_singleton] at hroot
      rw [hroot]
  | split xs h ihl ihu =>
    have h' : 1 < ys.length := by omega
    rw [root_split h, root_split h'] at hroot
    rw [nodes_split h] at hxs
    rw [nodes_split h'] at hys
    have hpair := hinj (hxs _ mem_cons_self) (hys _ mem_cons_self) hroot
    rw [Prod.mk.injEq] at hpair
    have hlower : lower xs = lower ys := by
      apply ihl (by rw [lower_length h, lower_length h', hlength])
      · exact fun p hp => hxs p (by simp [hp])
      · exact fun p hp => hys p (by simp [hp])
      · exact hpair.1
    have hupper : upper xs = upper ys := by
      apply ihu (by rw [upper_length, upper_length, hlength])
      · exact fun p hp => hxs p (by simp [hp])
      · exact fun p hp => hys p (by simp [hp])
      · exact hpair.2
    rw [← lower_append_upper xs, ← lower_append_upper ys, hlower, hupper]

end Halves

/-! ## Audit paths -/

/-- The sides on which a leaf stands on its way to the root, from the leaf upwards: `true` where its
subtree is the upper half. -/
def sides (index n : ℕ) : List Bool :=
  if n ≤ 1 then []
  else if index < splitPoint n then sides index (splitPoint n) ++ [false]
  else sides (index - splitPoint n) (n - splitPoint n) ++ [true]
termination_by n
decreasing_by
  · exact splitPoint_lt (by omega)
  · have := splitPoint_pos n
    omega

section Climb
variable (merge : δ → δ → δ)

/-- Merge a value with a sibling, which stands below it when the value is on the upper side. -/
def mergeSide (value : δ) (step : Bool × δ) : δ :=
  if step.1 then merge step.2 value else merge value step.2

def sidePair (value : δ) (step : Bool × δ) : δ × δ :=
  if step.1 then (step.2, value) else (value, step.2)

def climb (value : δ) (steps : List (Bool × δ)) : δ := steps.foldl (mergeSide merge) value

def climbPairs (value : δ) : List (Bool × δ) → List (δ × δ)
  | [] => []
  | step :: steps => sidePair value step :: climbPairs (mergeSide merge value step) steps

theorem mergeSide_eq (value : δ) (step : Bool × δ) :
    mergeSide merge value step = merge (sidePair value step).1 (sidePair value step).2 := by
  unfold mergeSide sidePair
  split <;> rfl

theorem climb_append (value : δ) (steps : List (Bool × δ)) (step : Bool × δ) :
    climb merge value (steps ++ [step]) = mergeSide merge (climb merge value steps) step := by
  rw [climb, foldl_append]
  rfl

theorem climbPairs_append (value : δ) (steps : List (Bool × δ)) (step : Bool × δ) :
    climbPairs merge value (steps ++ [step]) =
      climbPairs merge value steps ++ [sidePair (climb merge value steps) step] := by
  induction steps generalizing value with
  | nil => rfl
  | cons first steps ih =>
    rw [cons_append, climbPairs, climbPairs, ih]
    rfl

/-- A climb whose last step gives the merge of a known pair ended with that pair. -/
theorem climb_last (hinj : Set.InjOn (fun p : δ × δ => merge p.1 p.2) known)
    {value last a b : δ} {steps : List (Bool × δ)} {right : Bool} (hknown : (a, b) ∈ known)
    (hclimbed : ∀ p ∈ climbPairs merge value (steps ++ [(right, last)]), p ∈ known)
    (h : climb merge value (steps ++ [(right, last)]) = merge a b) :
    climb merge value steps = (if right then b else a) ∧ last = (if right then a else b) ∧
      ∀ p ∈ climbPairs merge value steps, p ∈ known := by
  rw [climbPairs_append] at hclimbed
  rw [climb_append, mergeSide_eq] at h
  have hpair : sidePair (climb merge value steps) (right, last) = (a, b) :=
    hinj (hclimbed _ (by simp)) hknown h
  have hbefore : ∀ p ∈ climbPairs merge value steps, p ∈ known :=
    fun p hp => hclimbed p (mem_append_left _ hp)
  cases right with
  | false => exact ⟨congrArg Prod.fst hpair, congrArg Prod.snd hpair, hbefore⟩
  | true => exact ⟨congrArg Prod.snd hpair, congrArg Prod.fst hpair, hbefore⟩

end Climb

section Path
variable (merge : δ → δ → δ) (empty : δ)

/-- The roots of the siblings on a leaf's way to the root, from the leaf upwards. -/
def path (index : ℕ) (leaves : List δ) : List δ :=
  if leaves.length ≤ 1 then []
  else if index < splitPoint leaves.length then
    path index (lower leaves) ++ [root merge empty (upper leaves)]
  else
    path (index - splitPoint leaves.length) (upper leaves) ++ [root merge empty (lower leaves)]
termination_by leaves.length
decreasing_by
  all_goals
    have hlt := splitPoint_lt (n := leaves.length) (by omega)
    have hpos := splitPoint_pos leaves.length
    first
      | rw [lower_length (by omega)]; omega
      | rw [upper_length]; omega

variable {merge} {empty} {leaves : List δ} {index : ℕ} {n : ℕ}

theorem sides_lower (h : 1 < n) (hindex : index < splitPoint n) :
    sides index n = sides index (splitPoint n) ++ [false] := by
  rw [sides, if_neg (by omega), if_pos hindex]

theorem sides_upper (h : 1 < n) (hindex : ¬ index < splitPoint n) :
    sides index n = sides (index - splitPoint n) (n - splitPoint n) ++ [true] := by
  rw [sides, if_neg (by omega), if_neg hindex]

theorem path_lower (h : 1 < leaves.length) (hindex : index < splitPoint leaves.length) :
    path merge empty index leaves =
      path merge empty index (lower leaves) ++ [root merge empty (upper leaves)] := by
  rw [path, if_neg (by omega), if_pos hindex]

theorem path_upper (h : 1 < leaves.length) (hindex : ¬ index < splitPoint leaves.length) :
    path merge empty index leaves = path merge empty (index - splitPoint leaves.length) (upper leaves) ++
      [root merge empty (lower leaves)] := by
  rw [path, if_neg (by omega), if_neg hindex]

theorem sides_short (h : n ≤ 1) : sides index n = [] := by rw [sides, if_pos h]

theorem path_short (h : leaves.length ≤ 1) : path merge empty index leaves = [] := by
  rw [path, if_pos h]

variable (merge empty) in
theorem path_length (index : ℕ) (leaves : List δ) :
    (path merge empty index leaves).length = (sides index leaves.length).length := by
  induction leaves using splitInduction generalizing index with
  | short leaves h => rw [path_short h, sides_short h]; rfl
  | split leaves h ihl ihu =>
    by_cases hindex : index < splitPoint leaves.length
    · rw [path_lower h hindex, sides_lower h hindex, length_append, length_append, ihl,
        lower_length h]
      rfl
    · rw [path_upper h hindex, sides_upper h hindex, length_append, length_append, ihu,
        upper_length]
      rfl

theorem getElem?_lower (hindex : index < splitPoint leaves.length) :
    (lower leaves)[index]? = leaves[index]? := by
  rw [lower, getElem?_take_of_lt hindex]

theorem getElem?_upper (hindex : ¬ index < splitPoint leaves.length) :
    (upper leaves)[index - splitPoint leaves.length]? = leaves[index]? := by
  rw [upper, getElem?_drop, Nat.add_sub_cancel' (not_lt.mp hindex)]

variable (merge empty) in
theorem climb_path {leaf : δ} (hleaf : leaves[index]? = some leaf) :
    climb merge leaf ((sides index leaves.length).zip (path merge empty index leaves)) =
      root merge empty leaves := by
  induction leaves using splitInduction generalizing index with
  | short leaves h =>
    obtain ⟨hlt, hget⟩ := List.getElem?_eq_some_iff.mp hleaf
    match leaves, h, hlt with
    | [only], _, hlt =>
      obtain rfl : index = 0 := by simpa using hlt
      rw [root_singleton, sides_short (by simp)]
      exact hget.symm
  | split leaves h ihl ihu =>
    rw [root_split h]
    by_cases hindex : index < splitPoint leaves.length
    · rw [← getElem?_lower hindex] at hleaf
      have hclimb := ihl hleaf
      have hlength := path_length merge empty index (lower leaves)
      rw [lower_length h] at hclimb hlength
      rw [path_lower h hindex, sides_lower h hindex, zip_append hlength.symm]
      exact (climb_append _ _ _ _).trans (by rw [hclimb]; rfl)
    · rw [← getElem?_upper hindex] at hleaf
      have hclimb := ihu hleaf
      have hlength := path_length merge empty (index - splitPoint leaves.length) (upper leaves)
      rw [upper_length] at hclimb hlength
      rw [path_upper h hindex, sides_upper h hindex, zip_append hlength.symm]
      exact (climb_append _ _ _ _).trans (by rw [hclimb]; rfl)

/-- What climbs to the root is the leaf there, along its own path. -/
theorem climb_inj (hinj : Set.InjOn (fun p : δ × δ => merge p.1 p.2) known)
    {value : δ} {siblings : List δ} (hindex : index < leaves.length)
    (hlength : siblings.length = (sides index leaves.length).length)
    (htree : ∀ p ∈ nodes merge empty leaves, p ∈ known)
    (hclimbed : ∀ p ∈ climbPairs merge value ((sides index leaves.length).zip siblings), p ∈ known)
    (hroot : climb merge value ((sides index leaves.length).zip siblings) = root merge empty leaves) :
    leaves[index]? = some value ∧ siblings = path merge empty index leaves := by
  induction leaves using splitInduction generalizing index siblings with
  | short leaves h =>
    rw [sides_short h, length_nil, length_eq_zero_iff] at hlength
    rw [sides_short h] at hroot
    rw [hlength, path_short h]
    match leaves, h, hindex with
    | [only], _, hindex =>
      obtain rfl : index = 0 := by simpa using hindex
      rw [root_singleton] at hroot
      exact ⟨congrArg some hroot.symm, rfl⟩
  | split leaves h ihl ihu =>
    rw [nodes_split h] at htree
    rw [root_split h] at hroot
    -- The last sibling was merged at the root, so the climb below it reached one half's root.
    have hne : siblings ≠ [] := by
      rintro rfl
      by_cases hlower : index < splitPoint leaves.length
      · simp [sides_lower h hlower] at hlength
      · simp [sides_upper h hlower] at hlength
    obtain ⟨siblings, last, rfl⟩ : ∃ front last, siblings = front ++ [last] :=
      ⟨_, _, (dropLast_append_getLast hne).symm⟩
    by_cases hlower : index < splitPoint leaves.length
    · rw [sides_lower h hlower] at hlength hclimbed hroot
      have hshorter : siblings.length = (sides index (splitPoint leaves.length)).length := by
        simpa using hlength
      rw [zip_append hshorter.symm] at hclimbed hroot
      obtain ⟨hclimb, hlast, hbefore⟩ := climb_last merge hinj (htree _ mem_cons_self) hclimbed hroot
      rw [← lower_length h] at hshorter hclimb hbefore
      obtain ⟨hleaf, hpath⟩ := ihl (by rwa [lower_length h]) hshorter
        (fun p hp => htree p (by simp [hp])) hbefore hclimb
      rw [getElem?_lower hlower] at hleaf
      exact ⟨hleaf, by rw [path_lower h hlower, hpath, hlast]; rfl⟩
    · rw [sides_upper h hlower] at hlength hclimbed hroot
      have hshorter : siblings.length = (sides (index - splitPoint leaves.length)
          (leaves.length - splitPoint leaves.length)).length := by
        simpa using hlength
      rw [zip_append hshorter.symm] at hclimbed hroot
      obtain ⟨hclimb, hlast, hbefore⟩ := climb_last merge hinj (htree _ mem_cons_self) hclimbed hroot
      rw [← upper_length] at hshorter hclimb hbefore
      obtain ⟨hleaf, hpath⟩ := ihu (by rw [upper_length]; omega) hshorter
        (fun p hp => htree p (by simp [hp])) hbefore hclimb
      rw [getElem?_upper hlower] at hleaf
      exact ⟨hleaf, by rw [path_upper h hlower, hpath, hlast]; rfl⟩

end Path

end LogTree

end ObjectTransfer.Foundations
