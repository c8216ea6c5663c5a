import ObjectTransfer.Foundations.HashTree

/-! # Perfect hash trees, level by level

One level merges neighbours pairwise. Repeating it until one value is left is how
a perfect hash tree is computed from its leaves; `perfect` names the value of each
of its nodes. A path of siblings climbs from a node to the root, and both the
reduction and the climb determine their inputs when merging is injective on the
pairs that occur.
-/

namespace ObjectTransfer.Foundations
open List

variable {δ : Type*}

/-- Neighbours in pairs; an unpaired last element is dropped. -/
def adjacent : List δ → List (δ × δ)
  | a :: b :: rest => (a, b) :: adjacent rest
  | _ => []

@[simp] theorem adjacent_length (l : List δ) : (adjacent l).length = l.length / 2 := by
  fun_induction adjacent l with
  | case1 a b rest ih =>
    simp only [length_cons, ih]
    omega
  | case2 l h =>
    match l with
    | [] => simp
    | [_] => simp
    | a :: b :: rest => exact absurd rfl (h a b rest)

variable {xs ys : List δ}

/-- Neighbours of a list of even length determine the list. -/
theorem adjacent_inj (hx : xs.length % 2 = 0) (hy : ys.length % 2 = 0)
    (h : adjacent xs = adjacent ys) : xs = ys := by
  induction xs using adjacent.induct generalizing ys with
  | case1 a b rest ih =>
    match ys with
    | [] => simp [adjacent] at h
    | [_] => simp at hy
    | c :: d :: rest' =>
      simp only [adjacent, cons.injEq, Prod.mk.injEq] at h
      obtain ⟨⟨rfl, rfl⟩, h⟩ := h
      simp only [length_cons] at hx hy
      rw [ih (by omega) (by omega) h]
  | case2 l hl =>
    match l with
    | [] =>
      match ys with
      | [] => rfl
      | [_] => simp at hy
      | c :: d :: rest' => simp [adjacent] at h
    | [_] => simp at hx
    | a :: b :: rest => exact absurd rfl (hl a b rest)

theorem adjacent_map_range' (g : ℕ → δ) (s m : ℕ) :
    adjacent ((List.range' s (2 * m)).map g) =
      (List.range m).map fun i => (g (s + 2 * i), g (s + 2 * i + 1)) := by
  induction m generalizing s with
  | zero => rfl
  | succ m ih =>
    rw [show 2 * (m + 1) = 2 * m + 1 + 1 by omega, range'_succ, range'_succ,
      map_cons, map_cons, adjacent, ih, range_succ_eq_map, map_cons,
      map_map]
    congr 1
    refine map_congr_left fun i _ => ?_
    simp only [Function.comp_apply, Nat.succ_eq_add_one, Prod.mk.injEq]
    constructor <;> congr 1 <;> omega

theorem adjacent_map_range (g : ℕ → δ) (m : ℕ) :
    adjacent ((List.range (2 * m)).map g) =
      (List.range m).map fun i => (g (2 * i), g (2 * i + 1)) := by
  have h := adjacent_map_range' g 0 m
  simpa [range_eq_range'] using h

variable {l : List δ}

theorem adjacent_concat (h : l.length % 2 = 0) (x : δ) : adjacent (l ++ [x]) = adjacent l := by
  induction l using adjacent.induct with
  | case1 a b rest ih =>
    simp only [length_cons] at h
    rw [cons_append, cons_append, adjacent, adjacent, ih (by omega)]
  | case2 l hl =>
    match l with
    | [] => rfl
    | [_] => simp at h
    | a :: b :: rest => exact absurd rfl (hl a b rest)

variable (merge : δ → δ → δ)

/-- Neighbours merged pairwise. -/
def pairUp (l : List δ) : List δ := (adjacent l).map fun p => merge p.1 p.2

@[simp] theorem pairUp_length (l : List δ) : (pairUp merge l).length = l.length / 2 := by
  simp [pairUp]

/-- Pair up a non-empty list until one value is left. -/
def reduceLevels (l : List δ) (h : l ≠ []) : δ :=
  if h2 : 2 ≤ l.length then
    reduceLevels (pairUp merge l) (by rw [← List.length_pos_iff, pairUp_length]; omega)
  else l.head h
termination_by l.length
decreasing_by simp; omega

def reducePairs (l : List δ) : List (δ × δ) :=
  if 2 ≤ l.length then adjacent l ++ reducePairs (pairUp merge l) else []
termination_by l.length
decreasing_by simp; omega

/-- The value of node `i` at height `k` of the perfect tree over the leaves `f`. -/
def perfect (f : ℕ → δ) : ℕ → ℕ → δ
  | 0, i => f i
  | k + 1, i => merge (perfect f k (2 * i)) (perfect f k (2 * i + 1))

theorem perfect_congr {f g : ℕ → δ} (k i : ℕ)
    (h : ∀ j, 2 ^ k * i ≤ j → j < 2 ^ k * (i + 1) → f j = g j) :
    perfect merge f k i = perfect merge g k i := by
  induction k generalizing i with
  | zero => exact h i (by simp) (by simp)
  | succ k ih =>
    have hpow : 2 ^ (k + 1) = 2 ^ k * 2 := pow_succ 2 k
    have hmid : 2 ^ k * (2 * i + 1 + 1) = 2 ^ (k + 1) * (i + 1) := by rw [hpow]; ring
    have hlow : 2 ^ k * (2 * i) = 2 ^ (k + 1) * i := by rw [hpow]; ring
    have hstep : 2 ^ k * (2 * i) ≤ 2 ^ k * (2 * i + 1) := Nat.mul_le_mul_left _ (by omega)
    have hstep' : 2 ^ k * (2 * i + 1) ≤ 2 ^ k * (2 * i + 1 + 1) := Nat.mul_le_mul_left _ (by omega)
    rw [perfect, perfect, ih (2 * i) fun j h1 h2 => h j (by omega) (by omega),
      ih (2 * i + 1) fun j h1 h2 => h j (by omega) (by omega)]

theorem perfect_pairs (f : ℕ → δ) (k i : ℕ) :
    perfect merge (fun j => merge (f (2 * j)) (f (2 * j + 1))) k i = perfect merge f (k + 1) i := by
  induction k generalizing i with
  | zero => rfl
  | succ k ih =>
    rw [perfect, ih, ih]
    rfl

/-- The subtree below node `a` at height `k` is the tree over its own leaves. -/
theorem perfect_shift (f : ℕ → δ) (k a : ℕ) {l : ℕ} (hl : l ≤ k) (i : ℕ) :
    perfect merge (fun j => f (2 ^ k * a + j)) l i = perfect merge f l (2 ^ (k - l) * a + i) := by
  induction l generalizing i with
  | zero => rfl
  | succ l ih =>
    have hpow : 2 ^ (k - l) = 2 * 2 ^ (k - (l + 1)) := by
      rw [← Nat.pow_succ', show (k - (l + 1)).succ = k - l by omega]
    have hmul : 2 ^ (k - l) * a = 2 * (2 ^ (k - (l + 1)) * a) := by
      rw [hpow, mul_assoc]
    rw [perfect, perfect, ih (by omega), ih (by omega), hmul, mul_add, add_assoc]

variable {f : ℕ → δ}

theorem perfect_const {z : δ} (k : ℕ) {i : ℕ} (h : ∀ j, 2 ^ k * i ≤ j → f j = z) :
    perfect merge f k i = (fun v => merge v v)^[k] z := by
  induction k generalizing i with
  | zero => exact h i (by simp)
  | succ k ih =>
    have hl := ih fun j hj => h j (by rw [pow_succ, mul_assoc]; exact hj)
    have hr := ih (i := 2 * i + 1) fun j hj => h j (by
      rw [pow_succ, mul_assoc]
      exact le_trans (Nat.mul_le_mul_left _ (by omega)) hj)
    rw [perfect, hl, hr, Function.iterate_succ_apply']

theorem pairUp_map_range (g : ℕ → δ) (m : ℕ) :
    pairUp merge ((List.range (2 * m)).map g) =
      (List.range m).map fun i => merge (g (2 * i)) (g (2 * i + 1)) := by
  rw [pairUp, adjacent_map_range, map_map]
  rfl

theorem pairUp_pow (g : ℕ → δ) (k : ℕ) :
    pairUp merge ((List.range (2 ^ (k + 1))).map g) =
      (List.range (2 ^ k)).map fun i => merge (g (2 * i)) (g (2 * i + 1)) := by
  rw [Nat.pow_succ', pairUp_map_range]

theorem two_le_range_pow (g : ℕ → δ) (k : ℕ) : 2 ≤ ((List.range (2 ^ (k + 1))).map g).length := by
  have hpos := Nat.two_pow_pos k
  rw [length_map, length_range, pow_succ]
  omega

theorem pairUp_range (g : ℕ → δ) (n : ℕ) :
    pairUp merge ((List.range n).map g) =
      (List.range (n / 2)).map fun i => merge (g (2 * i)) (g (2 * i + 1)) := by
  rcases Nat.mod_two_eq_zero_or_one n with h | h
  · obtain ⟨m, rfl⟩ := Nat.dvd_of_mod_eq_zero h
    rw [pairUp_map_range, Nat.mul_div_cancel_left _ (by omega)]
  · obtain ⟨m, rfl⟩ : ∃ m, n = 2 * m + 1 := ⟨n / 2, by omega⟩
    rw [pairUp, range_succ, map_append, map_singleton,
      adjacent_concat (by simp), ← pairUp, pairUp_map_range, show (2 * m + 1) / 2 = m by omega]

/-- A level and the levels above it, each without the nodes that are not full. -/
def pairLevels (base : List δ) : List (List δ) :=
  if 2 ≤ base.length then base :: pairLevels (pairUp merge base) else [base]
termination_by base.length
decreasing_by simp; omega

/-- Level `k` holds the full nodes of height `k`. -/
theorem pairLevels_getElem? (f : ℕ → δ) {n k : ℕ} (h : 2 ^ k ≤ n) :
    (pairLevels merge ((List.range n).map f))[k]? =
      some ((List.range (n / 2 ^ k)).map (perfect merge f k)) := by
  induction k generalizing f n with
  | zero =>
    rw [pairLevels]
    split_ifs <;> simp [perfect]
  | succ k ih =>
    have hpos := Nat.two_pow_pos k
    rw [pairLevels, if_pos (by rw [length_map, length_range]; omega),
      getElem?_cons_succ, pairUp_range, ih _ (by omega), Nat.div_div_eq_div_mul,
      ← Nat.pow_succ']
    simp only [Option.some.injEq]
    exact map_congr_left fun i _ => perfect_pairs merge f k i

/-- A full aligned node of the left-balanced tree is a node of the perfect one. -/
theorem leftBalanced_value (f : ℕ → δ) (k i : ℕ) :
    (leftBalanced (2 ^ k * i) (2 ^ k)).value f merge = perfect merge f k i := by
  induction k generalizing i with
  | zero => rw [pow_zero, leftBalanced_one, one_mul]; rfl
  | succ k ih =>
    have hpos := Nat.two_pow_pos k
    have hlog : Nat.log2 (2 ^ (k + 1) - 1) = k := by
      rw [Nat.log2_eq_iff (by rw [pow_succ]; omega)]
      omega
    have hleft : 2 ^ (k + 1) * i = 2 ^ k * (2 * i) := by rw [pow_succ, mul_assoc]
    have hright : 2 ^ k * (2 * i) + 2 ^ k = 2 ^ k * (2 * i + 1) := by rw [mul_add, mul_one]
    have hrest : 2 ^ (k + 1) - 2 ^ k = 2 ^ k := by rw [pow_succ]; omega
    rw [leftBalanced_node _ (by rw [pow_succ]; omega), hlog, hrest, hleft, hright,
      HashTree.value, ih, ih]
    rfl

theorem range_pow_ne_nil (g : ℕ → δ) (k : ℕ) : (List.range (2 ^ k)).map g ≠ [] := by
  simp

theorem reduceLevels_singleton (a : δ) (h : [a] ≠ []) : reduceLevels merge [a] h = a := by
  rw [reduceLevels, dif_neg (by simp)]
  rfl

theorem reduceLevels_pairUp (h2 : 2 ≤ l.length) (h : l ≠ []) :
    reduceLevels merge l h =
      reduceLevels merge (pairUp merge l)
        (by rw [← List.length_pos_iff, pairUp_length]; omega) := by
  rw [reduceLevels, dif_pos h2]

theorem reduceLevels_congr {l l' : List δ} (hl : l = l') (h : l ≠ []) :
    reduceLevels merge l h = reduceLevels merge l' (hl ▸ h) := by
  subst hl
  rfl

/-- Reducing `2 ^ k` leaves gives the root of the tree over them. -/
theorem reduceLevels_range (g : ℕ → δ) (k : ℕ) :
    reduceLevels merge ((List.range (2 ^ k)).map g) (range_pow_ne_nil g k) =
      perfect merge g k 0 := by
  induction k generalizing g with
  | zero => exact reduceLevels_singleton merge (g 0) _
  | succ k ih =>
    rw [reduceLevels_pairUp merge (two_le_range_pow g k),
      reduceLevels_congr merge (pairUp_pow merge g k), ih, perfect_pairs]

variable {p : δ × δ}

/-- The pairs of the reduction are the pairs of siblings of the tree. -/
theorem mem_reducePairs (g : ℕ → δ) {k : ℕ} :
    p ∈ reducePairs merge ((List.range (2 ^ k)).map g) ↔ ∃ l i, l < k ∧ i < 2 ^ (k - l - 1) ∧
      p = (perfect merge g l (2 * i), perfect merge g l (2 * i + 1)) := by
  induction k generalizing g with
  | zero =>
    rw [reducePairs, if_neg (by simp)]
    simp
  | succ k ih =>
    rw [reducePairs, if_pos (two_le_range_pow g k), mem_append, pairUp_pow, ih, Nat.pow_succ',
      adjacent_map_range, mem_map]
    constructor
    · rintro (⟨i, hi, rfl⟩ | ⟨l, i, hl, hi, rfl⟩)
      · exact ⟨0, i, by omega, by simpa using hi, rfl⟩
      · refine ⟨l + 1, i, by omega, by rwa [show k + 1 - (l + 1) - 1 = k - l - 1 by omega], ?_⟩
        rw [perfect_pairs, perfect_pairs]
    · rintro ⟨l, i, hl, hi, rfl⟩
      cases l with
      | zero => exact .inl ⟨i, mem_range.mpr (by simpa using hi), rfl⟩
      | succ l =>
        refine .inr ⟨l, i, by omega, by rwa [show k - l - 1 = k + 1 - (l + 1) - 1 by omega], ?_⟩
        rw [perfect_pairs, perfect_pairs]

/-- The pairs below a node are pairs of the tree. -/
theorem mem_reducePairs_of_shift {k h a : ℕ} (hk : k ≤ h) (ha : a < 2 ^ (h - k))
    (hp : p ∈ reducePairs merge ((List.range (2 ^ k)).map fun j => f (2 ^ k * a + j))) :
    p ∈ reducePairs merge ((List.range (2 ^ h)).map f) := by
  obtain ⟨l, i, hl, hi, rfl⟩ := (mem_reducePairs merge _).mp hp
  have hpow : 2 ^ (k - l) = 2 * 2 ^ (k - l - 1) := by
    rw [← Nat.pow_succ', show (k - l - 1).succ = k - l by omega]
  have hindex : 2 ^ (k - l - 1) * a + i < 2 ^ (h - l - 1) := by
    have hnext : 2 ^ (k - l - 1) * (a + 1) ≤ 2 ^ (k - l - 1) * 2 ^ (h - k) :=
      Nat.mul_le_mul_left _ ha
    rw [← pow_add, show k - l - 1 + (h - k) = h - l - 1 by omega, Nat.mul_succ] at hnext
    omega
  refine (mem_reducePairs merge _).mpr ⟨l, _, by omega, hindex, ?_⟩
  rw [perfect_shift merge f k a hl.le, perfect_shift merge f k a hl.le, hpow, mul_add,
    ← mul_assoc, add_assoc]

/-- A function that is injective on the elements of two lists tells the lists apart. -/
theorem map_injOn {α β : Type*} {f : α → β} {known : Set α} (hinj : Set.InjOn f known)
    {xs ys : List α} (hx : ∀ x ∈ xs, x ∈ known) (hy : ∀ y ∈ ys, y ∈ known)
    (h : xs.map f = ys.map f) : xs = ys := by
  induction xs generalizing ys with
  | nil => exact (map_eq_nil_iff.mp h.symm).symm
  | cons x xs ih =>
    cases ys with
    | nil => simp at h
    | cons =>
      rw [map_cons, map_cons, cons.injEq] at h
      rw [forall_mem_cons] at hx hy
      rw [hinj hx.1 hy.1 h.1, ih hx.2 hy.2 h.2]

variable {merge} {known : Set (δ × δ)}

theorem reduceLevels_inj (hinj : Set.InjOn (fun p : δ × δ => merge p.1 p.2) known) (k : ℕ)
    (hx : xs.length = 2 ^ k) (hy : ys.length = 2 ^ k) (hx' : xs ≠ []) (hy' : ys ≠ [])
    (hxk : ∀ p ∈ reducePairs merge xs, p ∈ known) (hyk : ∀ p ∈ reducePairs merge ys, p ∈ known)
    (h : reduceLevels merge xs hx' = reduceLevels merge ys hy') : xs = ys := by
  induction k generalizing xs ys with
  | zero =>
    obtain ⟨x, rfl⟩ := length_eq_one_iff.mp hx
    obtain ⟨y, rfl⟩ := length_eq_one_iff.mp hy
    rw [reduceLevels_singleton, reduceLevels_singleton] at h
    rw [h]
  | succ k ih =>
    have hpos := Nat.two_pow_pos k
    have hx2 : 2 ≤ xs.length := by omega
    have hy2 : 2 ≤ ys.length := by omega
    rw [reduceLevels_pairUp merge hx2, reduceLevels_pairUp merge hy2] at h
    rw [reducePairs, if_pos hx2] at hxk
    rw [reducePairs, if_pos hy2] at hyk
    have hpair : pairUp merge xs = pairUp merge ys :=
      ih (by rw [pairUp_length]; omega) (by rw [pairUp_length]; omega) _ _
        (fun p hp => hxk p (mem_append_right _ hp))
        (fun p hp => hyk p (mem_append_right _ hp)) h
    have hadj : adjacent xs = adjacent ys :=
      map_injOn hinj (fun p hp => hxk p (mem_append_left _ hp))
        (fun p hp => hyk p (mem_append_left _ hp)) hpair
    exact adjacent_inj (by omega) (by omega) hadj

section Climb

variable (merge)

/-- Merge a value with the siblings on its way up; a sibling marked `true` is on the left. -/
def climb (v : δ) : List (Bool × δ) → δ
  | [] => v
  | (left, s) :: path => climb (if left then merge s v else merge v s) path

/-- The pairs merged on the way up. -/
def climbPairs (v : δ) : List (Bool × δ) → List (δ × δ)
  | [] => []
  | (left, s) :: path =>
    (if left then (s, v) else (v, s)) :: climbPairs (if left then merge s v else merge v s) path

/-- The other child of the parent of node `a`. -/
def siblingIndex (a : ℕ) : ℕ := if a % 2 = 1 then a - 1 else a + 1

/-- The sides and siblings met when climbing `n` levels from node `a` at height `l`. -/
def siblings (f : ℕ → δ) (l a : ℕ) : ℕ → List (Bool × δ)
  | 0 => []
  | n + 1 =>
    (decide (a % 2 = 1), perfect merge f l (siblingIndex a)) :: siblings f (l + 1) (a / 2) n

/-- The sides of the siblings met when climbing `n` levels from node `a`. -/
def sides (a : ℕ) : ℕ → List Bool
  | 0 => []
  | n + 1 => decide (a % 2 = 1) :: sides (a / 2) n

theorem siblings_sides (f : ℕ → δ) (l a n : ℕ) :
    (siblings merge f l a n).map Prod.fst = sides a n := by
  induction n generalizing l a with
  | zero => rfl
  | succ n ih => rw [siblings, map_cons, ih, sides]

@[simp] theorem sides_length (a n : ℕ) : (sides a n).length = n := by
  induction n generalizing a with
  | zero => rfl
  | succ n ih => rw [sides, length_cons, ih]

theorem min_siblingIndex (a : ℕ) : min a (siblingIndex a) = 2 * (a / 2) := by
  unfold siblingIndex
  split_ifs <;> omega

theorem perfect_parent (f : ℕ → δ) (l a : ℕ) :
    perfect merge f (l + 1) (a / 2) =
      if a % 2 = 1 then merge (perfect merge f l (siblingIndex a)) (perfect merge f l a)
      else merge (perfect merge f l a) (perfect merge f l (siblingIndex a)) := by
  unfold siblingIndex
  split_ifs with h
  · rw [perfect, show 2 * (a / 2) = a - 1 by omega, show a - 1 + 1 = a by omega]
  · rw [perfect, show 2 * (a / 2) = a by omega]

theorem climb_siblings (f : ℕ → δ) (l a n : ℕ) :
    climb merge (perfect merge f l a) (siblings merge f l a n) =
      perfect merge f (l + n) (a / 2 ^ n) := by
  induction n generalizing l a with
  | zero => simp [siblings, climb]
  | succ n ih =>
    have hparent := perfect_parent merge f l a
    simp only [siblings, climb, decide_eq_true_eq]
    rw [← hparent, ih, Nat.div_div_eq_div_mul, ← Nat.pow_succ', add_right_comm, add_assoc]

/-- The pairs merged along the siblings are pairs of the tree. -/
theorem climbPairs_siblings {l a n : ℕ}
    (hp : p ∈ climbPairs merge (perfect merge f l a) (siblings merge f l a n)) :
    ∃ k i, l ≤ k ∧ k < l + n ∧ i = a / 2 ^ (k - l) / 2 ∧
      p = (perfect merge f k (2 * i), perfect merge f k (2 * i + 1)) := by
  induction n generalizing l a with
  | zero => simp [siblings, climbPairs] at hp
  | succ n ih =>
    simp only [siblings, climbPairs, decide_eq_true_eq, ← perfect_parent, mem_cons] at hp
    rcases hp with rfl | hp
    · refine ⟨l, a / 2, le_rfl, by omega, by simp, ?_⟩
      unfold siblingIndex
      split_ifs with hodd
      · rw [show 2 * (a / 2) = a - 1 by omega, show a - 1 + 1 = a by omega]
      · rw [show 2 * (a / 2) = a by omega]
    · obtain ⟨k, i, h1, h2, hi, rfl⟩ := ih hp
      refine ⟨k, i, by omega, by omega, ?_, rfl⟩
      rw [hi, Nat.div_div_eq_div_mul a 2, ← Nat.pow_succ', show (k - (l + 1)).succ = k - l by omega]

variable {merge}

/-- A climb along the right sides that ends in the right value started from the right one and
met the right siblings. -/
theorem climb_sound (hinj : Set.InjOn (fun p : δ × δ => merge p.1 p.2) known) {l a n : ℕ} {v : δ}
    {path : List (Bool × δ)} (hsides : path.map Prod.fst = sides a n)
    (hpath : ∀ p ∈ climbPairs merge v path, p ∈ known)
    (htree : ∀ k i, l ≤ k → k < l + n → i = a / 2 ^ (k - l) / 2 →
      (perfect merge f k (2 * i), perfect merge f k (2 * i + 1)) ∈ known)
    (h : climb merge v path = perfect merge f (l + n) (a / 2 ^ n)) :
    v = perfect merge f l a ∧ path = siblings merge f l a n := by
  induction n generalizing l a v path with
  | zero =>
    rw [sides, map_eq_nil_iff] at hsides
    subst hsides
    simpa [climb, siblings] using h
  | succ n ih =>
    match path with
    | [] => simp [sides] at hsides
    | (side, s) :: path =>
      simp only [sides, map_cons, cons.injEq] at hsides
      obtain ⟨rfl, hsides⟩ := hsides
      have hstep := ih (l := l + 1) hsides
        (fun p hp => hpath p (mem_cons_of_mem _ hp))
        (fun k i h1 h2 hi => htree k i (by omega) (by omega) (by
          rw [hi, Nat.div_div_eq_div_mul a 2, ← Nat.pow_succ', show (k - (l + 1)).succ = k - l by
            omega]))
        (by rw [Nat.div_div_eq_div_mul, ← Nat.pow_succ', add_right_comm]; exact h)
      obtain ⟨hv, rfl⟩ := hstep
      have hhead := hpath _ mem_cons_self
      have hnode := htree l (a / 2) le_rfl (by omega) (by simp)
      by_cases hodd : a % 2 = 1
      · simp only [hodd, decide_true, if_true] at hv hhead ⊢
        have hpair := hinj hhead hnode hv
        rw [show 2 * (a / 2) = a - 1 by omega, show a - 1 + 1 = a by omega, Prod.mk.injEq] at hpair
        obtain ⟨rfl, rfl⟩ := hpair
        simp [siblings, siblingIndex, hodd]
      · simp only [hodd, decide_false, Bool.false_eq_true, if_false] at hv hhead ⊢
        have hpair := hinj hhead hnode hv
        rw [show 2 * (a / 2) = a by omega, Prod.mk.injEq] at hpair
        obtain ⟨rfl, rfl⟩ := hpair
        simp [siblings, siblingIndex, hodd]

end Climb

end ObjectTransfer.Foundations
