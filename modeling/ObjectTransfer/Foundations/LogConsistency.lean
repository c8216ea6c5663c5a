import ObjectTransfer.Foundations.LogTree

/-! # Consistency paths in left-balanced hash trees

An earlier length ends at a complete subtree of the later tree, its base. From there two climbs run
along one list of siblings: the later root merges every sibling, the earlier root those below it
only.
-/

namespace ObjectTransfer.Foundations.LogTree
open List

variable {δ : Type*}

/-- The steps from the base of the earlier length `m` to the root of length `n`: `true` where the
base is in the upper half, so that the lower half belongs to both trees. -/
def steps (m n : ℕ) : List Bool :=
  if n ≤ 1 ∨ m = n then []
  else if m ≤ splitPoint n then steps m (splitPoint n) ++ [false]
  else steps (m - splitPoint n) (n - splitPoint n) ++ [true]
termination_by n
decreasing_by
  · exact splitPoint_lt (by omega)
  · have := splitPoint_pos n
    omega

/-- The largest subtree that ends where the earlier length does. -/
def base (m : ℕ) (leaves : List δ) : List δ :=
  if leaves.length ≤ 1 ∨ m = leaves.length then leaves
  else if m ≤ splitPoint leaves.length then base m (lower leaves)
  else base (m - splitPoint leaves.length) (upper leaves)
termination_by leaves.length
decreasing_by
  · rw [lower_length (by omega)]
    exact splitPoint_lt (by omega)
  · have := splitPoint_pos leaves.length
    rw [upper_length]
    omega

section Siblings
variable (merge : δ → δ → δ) (empty : δ)

/-- The roots of the siblings on the base's way to the root. -/
def siblings (m : ℕ) (leaves : List δ) : List δ :=
  if leaves.length ≤ 1 ∨ m = leaves.length then []
  else if m ≤ splitPoint leaves.length then
    siblings m (lower leaves) ++ [root merge empty (upper leaves)]
  else siblings (m - splitPoint leaves.length) (upper leaves) ++ [root merge empty (lower leaves)]
termination_by leaves.length
decreasing_by
  · rw [lower_length (by omega)]
    exact splitPoint_lt (by omega)
  · have := splitPoint_pos leaves.length
    rw [upper_length]
    omega

end Siblings

section Equations
variable {merge : δ → δ → δ} {empty : δ} {m n : ℕ} {leaves : List δ}

theorem steps_self (n : ℕ) : steps n n = [] := by rw [steps, if_pos (.inr rfl)]

theorem steps_lower (h : 1 < n) (hne : m ≠ n) (hm : m ≤ splitPoint n) :
    steps m n = steps m (splitPoint n) ++ [false] := by
  rw [steps, if_neg (by omega), if_pos hm]

theorem steps_upper (h : 1 < n) (hne : m ≠ n) (hm : ¬ m ≤ splitPoint n) :
    steps m n = steps (m - splitPoint n) (n - splitPoint n) ++ [true] := by
  rw [steps, if_neg (by omega), if_neg hm]

theorem base_self (leaves : List δ) : base leaves.length leaves = leaves := by
  rw [base, if_pos (.inr rfl)]

theorem base_lower (h : 1 < leaves.length) (hne : m ≠ leaves.length)
    (hm : m ≤ splitPoint leaves.length) : base m leaves = base m (lower leaves) := by
  rw [base, if_neg (by omega), if_pos hm]

theorem base_upper (h : 1 < leaves.length) (hne : m ≠ leaves.length)
    (hm : ¬ m ≤ splitPoint leaves.length) :
    base m leaves = base (m - splitPoint leaves.length) (upper leaves) := by
  rw [base, if_neg (by omega), if_neg hm]

theorem siblings_self (leaves : List δ) : siblings merge empty leaves.length leaves = [] := by
  rw [siblings, if_pos (.inr rfl)]

theorem siblings_lower (h : 1 < leaves.length) (hne : m ≠ leaves.length)
    (hm : m ≤ splitPoint leaves.length) : siblings merge empty m leaves =
      siblings merge empty m (lower leaves) ++ [root merge empty (upper leaves)] := by
  rw [siblings, if_neg (by omega), if_pos hm]

theorem siblings_upper (h : 1 < leaves.length) (hne : m ≠ leaves.length)
    (hm : ¬ m ≤ splitPoint leaves.length) : siblings merge empty m leaves =
      siblings merge empty (m - splitPoint leaves.length) (upper leaves) ++
        [root merge empty (lower leaves)] := by
  rw [siblings, if_neg (by omega), if_neg hm]

/-- The two ways an earlier length can lie in a longer list, and the shared end. -/
theorem prefixInduction {motive : ∀ (m : ℕ) (leaves : List δ), 0 < m → m ≤ leaves.length → Prop}
    (same : ∀ (leaves : List δ) (hpos : 0 < leaves.length), motive leaves.length leaves hpos le_rfl)
    (below : ∀ (m : ℕ) (leaves : List δ) (h : 1 < leaves.length) (hpos : 0 < m)
      (hlt : m < leaves.length) (hm : m ≤ splitPoint leaves.length),
      motive m (lower leaves) hpos ((lower_length h).ge.trans' hm) → motive m leaves hpos hlt.le)
    (above : ∀ (m : ℕ) (leaves : List δ) (hpos : 0 < m) (_ : 1 < leaves.length)
      (hlt : m < leaves.length) (hm : ¬ m ≤ splitPoint leaves.length),
      motive (m - splitPoint leaves.length) (upper leaves) (by omega)
        (by rw [upper_length]; omega) → motive m leaves hpos hlt.le)
    (m : ℕ) (leaves : List δ) (hpos : 0 < m) (hle : m ≤ leaves.length) : motive m leaves hpos hle := by
  induction leaves using splitInduction generalizing m with
  | short leaves =>
    obtain rfl : m = leaves.length := by omega
    exact same leaves hpos
  | split leaves h ihl ihu =>
    by_cases hne : m = leaves.length
    · subst hne
      exact same leaves hpos
    · by_cases hm : m ≤ splitPoint leaves.length
      · exact below m leaves h hpos (by omega) hm (ihl m hpos _)
      · exact above m leaves hpos h (by omega) hm (ihu _ _ _)

variable (merge empty) in
theorem siblings_length (hpos : 0 < m) (hle : m ≤ leaves.length) :
    (siblings merge empty m leaves).length = (steps m leaves.length).length := by
  induction m, leaves, hpos, hle using prefixInduction with
  | same => rw [siblings_self, steps_self]; rfl
  | below m leaves h hpos hlt hm ih =>
    rw [lower_length h] at ih
    simp [siblings_lower h hlt.ne hm, steps_lower h hlt.ne hm, ih]
  | above m leaves hpos h hlt hm ih =>
    rw [upper_length] at ih
    simp [siblings_upper h hlt.ne hm, steps_upper h hlt.ne hm, ih]

theorem take_lower (hm : m ≤ splitPoint leaves.length) :
    (lower leaves).take m = leaves.take m := by
  rw [lower, take_take, min_eq_left hm]

theorem take_upper (h : 1 < leaves.length) (hm : ¬ m ≤ splitPoint leaves.length) :
    leaves.take m = lower leaves ++ (upper leaves).take (m - splitPoint leaves.length) := by
  have hlength := lower_length h
  conv_lhs => rw [← lower_append_upper leaves]
  rw [take_append, take_of_length_le (by omega), hlength]

/-- A list that reaches beyond the split of a longer one has the same lower half length. -/
theorem split_beyond {other : List δ} (hm : ¬ m ≤ splitPoint leaves.length)
    (hle : m ≤ leaves.length) (hother : other.length = m) :
    1 < other.length ∧ splitPoint other.length = splitPoint leaves.length := by
  have hpos := splitPoint_pos leaves.length
  rw [hother]
  exact ⟨by omega, splitPoint_stable (by omega) hle⟩

theorem root_take_upper (hm : ¬ m ≤ splitPoint leaves.length)
    (hle : m ≤ leaves.length) : root merge empty (leaves.take m) =
      merge (root merge empty (lower leaves))
        (root merge empty ((upper leaves).take (m - splitPoint leaves.length))) := by
  have hlength : (leaves.take m).length = m := length_take_of_le hle
  obtain ⟨hlong, hsplit⟩ := split_beyond hm hle hlength
  have hlower : lower (leaves.take m) = lower leaves := by
    rw [lower, hsplit, lower, take_take, min_eq_left (by omega)]
  have hupper : upper (leaves.take m) = (upper leaves).take (m - splitPoint leaves.length) := by
    rw [upper, hsplit, upper, drop_take]
  rw [root_split hlong, hlower, hupper]

end Equations

/-- The steps in which the sibling belongs to the earlier tree too. -/
def shared (path : List (Bool × δ)) : List (Bool × δ) := path.filter fun step => step.1

@[simp] theorem shared_append_true (path : List (Bool × δ)) (sibling : δ) :
    shared (path ++ [(true, sibling)]) = shared path ++ [(true, sibling)] := by
  simp [shared]

@[simp] theorem shared_append_false (path : List (Bool × δ)) (sibling : δ) :
    shared (path ++ [(false, sibling)]) = shared path := by
  simp [shared]

section Climbs
variable {merge : δ → δ → δ} {empty : δ} {m : ℕ}

variable (merge empty) in
theorem climb_siblings {leaves : List δ} (hpos : 0 < m) (hle : m ≤ leaves.length) :
    climb merge (root merge empty (base m leaves))
        (shared ((steps m leaves.length).zip (siblings merge empty m leaves))) =
      root merge empty (leaves.take m) ∧
    climb merge (root merge empty (base m leaves))
        ((steps m leaves.length).zip (siblings merge empty m leaves)) = root merge empty leaves := by
  induction m, leaves, hpos, hle using prefixInduction with
  | same =>
    rw [base_self, siblings_self, steps_self, take_length]
    exact ⟨rfl, rfl⟩
  | below m leaves h hpos hlt hm ih =>
    have hlength := siblings_length merge empty hpos (by rw [lower_length h]; exact hm)
    rw [lower_length h] at ih hlength
    rw [take_lower hm] at ih
    rw [base_lower h hlt.ne hm, siblings_lower h hlt.ne hm, steps_lower h hlt.ne hm,
      zip_append hlength.symm, root_split h, zip_cons_cons, zip_nil_left,
      shared_append_false, climb_append, ih.2]
    exact ⟨ih.1, rfl⟩
  | above m leaves hpos h hlt hm ih =>
    have hlength : (siblings merge empty (m - splitPoint leaves.length) (upper leaves)).length =
        (steps (m - splitPoint leaves.length) (upper leaves).length).length :=
      siblings_length merge empty (by omega) (by rw [upper_length]; omega)
    rw [upper_length] at ih hlength
    rw [base_upper h hlt.ne hm, siblings_upper h hlt.ne hm, steps_upper h hlt.ne hm,
      zip_append hlength.symm, root_split h, zip_cons_cons, zip_nil_left,
      shared_append_true, climb_append, climb_append, ih.1, ih.2, root_take_upper hm hlt.le]
    exact ⟨rfl, rfl⟩

/-- Two climbs that reach the roots of two lists start at the base of the earlier length in the later
list, along its siblings, and the earlier list is a beginning of the later one. -/
theorem climbs_inj {known : Set (δ × δ)} (hinj : Set.InjOn (fun p : δ × δ => merge p.1 p.2) known)
    {older leaves : List δ} {value : δ} {path : List δ} (hpos : 0 < m)
    (hle : m ≤ leaves.length) (holder : older.length = m)
    (hlength : path.length = (steps m leaves.length).length)
    (hold : ∀ p ∈ nodes merge empty older, p ∈ known)
    (hnew : ∀ p ∈ nodes merge empty leaves, p ∈ known)
    (hshared : ∀ p ∈ climbPairs merge value (shared ((steps m leaves.length).zip path)), p ∈ known)
    (hclimbed : ∀ p ∈ climbPairs merge value ((steps m leaves.length).zip path), p ∈ known)
    (holdRoot : climb merge value (shared ((steps m leaves.length).zip path)) = root merge empty older)
    (hnewRoot : climb merge value ((steps m leaves.length).zip path) = root merge empty leaves) :
    older = leaves.take m ∧ value = root merge empty (base m leaves) ∧
      path = siblings merge empty m leaves := by
  induction m, leaves, hpos, hle using prefixInduction generalizing older path with
  | same leaves =>
    rw [steps_self] at holdRoot hnewRoot hlength
    obtain rfl := length_eq_zero_iff.mp hlength
    have hroots : root merge empty older = root merge empty leaves := holdRoot.symm.trans hnewRoot
    rw [base_self, siblings_self, take_length]
    exact ⟨root_inj hinj holder hold hnew hroots, hnewRoot, rfl⟩
  | below m leaves h hpos hlt hm ih =>
    rw [nodes_split h] at hnew
    rw [root_split h] at hnewRoot
    rw [steps_lower h hlt.ne hm] at hlength hshared hclimbed holdRoot hnewRoot
    obtain ⟨path, last, rfl⟩ : ∃ front last, path = front ++ [last] :=
      ⟨_, _, (dropLast_append_getLast (by rintro rfl; simp at hlength)).symm⟩
    have hshorter : path.length = (steps m (splitPoint leaves.length)).length := by simpa using hlength
    rw [zip_append hshorter.symm, zip_cons_cons, zip_nil_left] at hshared hclimbed holdRoot hnewRoot
    rw [shared_append_false] at hshared holdRoot
    obtain ⟨hclimb, hlast, hbefore⟩ :=
      climb_last merge hinj (hnew _ mem_cons_self) hclimbed hnewRoot
    rw [← lower_length h] at hshorter hshared holdRoot hclimb hbefore
    obtain ⟨htake, hvalue, hpath⟩ := ih holder hshorter hold (fun p hp => hnew p (by simp [hp]))
      hshared hbefore holdRoot hclimb
    rw [base_lower h hlt.ne hm, siblings_lower h hlt.ne hm, ← take_lower hm, ← hpath, hlast]
    exact ⟨htake, hvalue, rfl⟩
  | above m leaves hpos h hlt hm ih =>
    obtain ⟨hlong, hsplit⟩ := split_beyond hm hlt.le holder
    rw [nodes_split h] at hnew
    rw [nodes_split hlong] at hold
    rw [root_split h] at hnewRoot
    rw [root_split hlong] at holdRoot
    rw [steps_upper h hlt.ne hm] at hlength hshared hclimbed holdRoot hnewRoot
    obtain ⟨path, last, rfl⟩ : ∃ front last, path = front ++ [last] :=
      ⟨_, _, (dropLast_append_getLast (by rintro rfl; simp at hlength)).symm⟩
    have hshorter : path.length = (steps (m - splitPoint leaves.length)
        (leaves.length - splitPoint leaves.length)).length := by simpa using hlength
    rw [zip_append hshorter.symm, zip_cons_cons, zip_nil_left] at hshared hclimbed holdRoot hnewRoot
    rw [shared_append_true] at hshared holdRoot
    obtain ⟨hclimb, hlast, hbefore⟩ :=
      climb_last merge hinj (hnew _ mem_cons_self) hclimbed hnewRoot
    obtain ⟨hclimb', hlast', hbefore'⟩ :=
      climb_last merge hinj (hold _ mem_cons_self) hshared holdRoot
    have hlower : lower older = lower leaves := by
      have hroots : root merge empty (lower older) = root merge empty (lower leaves) :=
        hlast'.symm.trans hlast
      exact root_inj hinj (by rw [lower_length hlong, lower_length h, hsplit])
        (fun p hp => hold p (by simp [hp])) (fun p hp => hnew p (by simp [hp])) hroots
    rw [← upper_length leaves] at hshorter hbefore' hclimb' hclimb hbefore
    obtain ⟨htake, hvalue, hpath⟩ := ih (by rw [upper_length older, hsplit, holder]) hshorter
      (fun p hp => hold p (by simp [hp])) (fun p hp => hnew p (by simp [hp])) hbefore' hbefore
      hclimb' hclimb
    rw [base_upper h hlt.ne hm, siblings_upper h hlt.ne hm, take_upper h hm, ← hpath, hlast, ← htake,
      ← hlower, lower_append_upper]
    exact ⟨rfl, hvalue, rfl⟩

end Climbs

end ObjectTransfer.Foundations.LogTree
