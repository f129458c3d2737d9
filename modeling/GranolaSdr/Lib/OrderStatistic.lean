import Mathlib.Data.List.Forall2
import Mathlib.Data.List.Sort
import Mathlib.Order.Basic

/-!
# Order statistics of a list

The `k`-th smallest value of a list, counted from one, is the `k`-th of the sorted list. No sorting
is needed to recognise it: fewer than `k` values lie below it, and `k` at least are not above it. So
it can be found by counting alone.

## Main definitions

* `kthSmallest`: the `k`-th of the sorted list;
* `IsKth`: the value that the counts point to.

## Main results

* `kthSmallest_eq_some_iff`: both are the same;
* `IsKth.le`: the values grow with `k`;
* `forall₂_of_countP_le`: a descending list is above another place by place if it has more values
  above any bound.
-/

namespace OrderStatistic

variable {α : Type*} [LinearOrder α] {xs ys : List α} {k l : ℕ} {a b : α}

/-- The `k`-th smallest value of a list, counted from one. -/
def kthSmallest (xs : List α) (k : ℕ) : Option α := (xs.insertionSort (· ≤ ·))[k - 1]?

/-- Fewer than `k` values lie below `a`, and `k` at least are not above it. -/
structure IsKth (xs : List α) (k : ℕ) (a : α) : Prop where
  below : xs.countP (· < a) < k
  upTo : k ≤ xs.countP (· ≤ a)

theorem isKth_of_perm (h : xs.Perm ys) : IsKth xs k a ↔ IsKth ys k a := by
  constructor
  · rintro ⟨hlt, hle⟩
    exact ⟨h.countP_eq (· < a) ▸ hlt, h.countP_eq (· ≤ a) ▸ hle⟩
  · rintro ⟨hlt, hle⟩
    exact ⟨h.countP_eq (· < a) ▸ hlt, h.countP_eq (· ≤ a) ▸ hle⟩

/-- A greater `k` has a value that is not less. -/
theorem IsKth.le (ha : IsKth xs k a) (hb : IsKth xs l b) (hkl : k ≤ l) : a ≤ b := by
  by_contra! hba
  -- all values up to `b` would lie below `a`
  have hcount : xs.countP (· ≤ b) ≤ xs.countP (· < a) := by
    apply List.countP_mono_left
    intro x _ hx
    simpa using (of_decide_eq_true hx).trans_lt hba
  have hlt := ha.below
  have hle := hb.upTo
  omega

/-! ## Sorted lists -/

theorem countP_lt_eq_zero (h : ∀ x ∈ xs, b ≤ x) (hab : a ≤ b) : xs.countP (· < a) = 0 := by
  rw [List.countP_eq_zero]
  intro x hx
  simpa using hab.trans (h x hx)

theorem countP_le_eq_zero (h : ∀ x ∈ xs, b ≤ x) (hab : a < b) : xs.countP (· ≤ a) = 0 := by
  rw [List.countP_eq_zero]
  intro x hx
  simpa using hab.trans_le (h x hx)

/-- The first value of a sorted list. -/
theorem isKth_one_cons (h : ∀ y ∈ xs, b ≤ y) : IsKth (b :: xs) 1 a ↔ b = a := by
  have hcons : ∀ y ∈ b :: xs, b ≤ y := List.forall_mem_cons.2 ⟨le_rfl, h⟩
  constructor
  · rintro ⟨hlt, hle⟩
    apply le_antisymm
    · by_contra! hab
      rw [countP_le_eq_zero hcons hab] at hle
      omega
    · by_contra! hba
      have : 0 < (b :: xs).countP (· < a) :=
        List.countP_pos_iff.2 ⟨b, List.mem_cons_self, by simpa using hba⟩
      omega
  · rintro rfl
    constructor
    · rw [countP_lt_eq_zero hcons le_rfl]
      exact one_pos
    · exact List.countP_pos_iff.2 ⟨b, List.mem_cons_self, by simp⟩

/-- The later values of a sorted list are those of its tail. -/
theorem isKth_succ_cons (h : ∀ y ∈ xs, b ≤ y) (hk : 0 < k) :
    IsKth (b :: xs) (k + 1) a ↔ IsKth xs k a := by
  rcases lt_trichotomy b a with hba | rfl | hab
  · constructor
    · rintro ⟨hlt, hle⟩
      rw [List.countP_cons_of_pos (by simpa using hba)] at hlt
      rw [List.countP_cons_of_pos (by simpa using hba.le)] at hle
      exact ⟨by omega, by omega⟩
    · rintro ⟨hlt, hle⟩
      constructor
      · rw [List.countP_cons_of_pos (by simpa using hba)]
        omega
      · rw [List.countP_cons_of_pos (by simpa using hba.le)]
        omega
  -- nothing of a sorted list lies below its first value
  · have hzero : xs.countP (· < b) = 0 := countP_lt_eq_zero h le_rfl
    constructor
    · rintro ⟨-, hle⟩
      rw [List.countP_cons_of_pos (by simp)] at hle
      exact ⟨by omega, by omega⟩
    · rintro ⟨-, hle⟩
      constructor
      · rw [List.countP_cons_of_neg (by simp)]
        omega
      · rw [List.countP_cons_of_pos (by simp)]
        omega
  · have hzero : xs.countP (· ≤ a) = 0 := countP_le_eq_zero h hab
    constructor
    · rintro ⟨-, hle⟩
      rw [List.countP_cons_of_neg (by simpa using hab)] at hle
      omega
    · rintro ⟨-, hle⟩
      omega

theorem getElem?_eq_some_iff_isKth (hs : ys.Pairwise (· ≤ ·)) (hk : 0 < k) :
    ys[k - 1]? = some a ↔ IsKth ys k a := by
  induction ys generalizing k with
  | nil =>
    constructor
    · simp
    · rintro ⟨-, hle⟩
      simp only [List.countP_nil] at hle
      omega
  | cons y ys ih =>
    obtain ⟨hy, hs⟩ := List.pairwise_cons.1 hs
    obtain rfl | ⟨k, rfl⟩ : k = 1 ∨ ∃ l, k = l + 1 + 1 := by
      rcases k with _ | _ | k
      · omega
      · exact Or.inl rfl
      · exact Or.inr ⟨k, rfl⟩
    · rw [isKth_one_cons hy]
      simp
    · rw [isKth_succ_cons hy (Nat.succ_pos k), ← ih hs (Nat.succ_pos k)]
      simp

/-- Sorting finds the value that the counts point to. -/
theorem kthSmallest_eq_some_iff (hk : 0 < k) : kthSmallest xs k = some a ↔ IsKth xs k a := by
  rw [kthSmallest, getElem?_eq_some_iff_isKth (xs.pairwise_insertionSort (· ≤ ·)) hk]
  exact isKth_of_perm (xs.perm_insertionSort (· ≤ ·))

/-! ## Descending lists -/

/-- How far a descending list stays above a bound is told by a count. -/
theorem le_getElem_iff (hs : ys.Pairwise (· ≥ ·)) {i : ℕ} (hi : i < ys.length) :
    a ≤ ys[i] ↔ i < ys.countP (a ≤ ·) := by
  induction ys generalizing i with
  | nil => exact absurd hi (Nat.not_lt_zero i)
  | cons y ys ih =>
    obtain ⟨hy, hs⟩ := List.pairwise_cons.1 hs
    by_cases hay : a ≤ y
    · rw [List.countP_cons_of_pos (by simpa using hay)]
      rcases i with _ | i
      · simpa using hay
      · rw [List.getElem_cons_succ, ih hs (Nat.lt_of_succ_lt_succ hi), Nat.succ_lt_succ_iff]
    · -- nothing behind the first value is greater
      have hall : ∀ z ∈ y :: ys, z < a := by
        intro z hz
        rcases List.mem_cons.1 hz with rfl | hz
        · exact not_le.1 hay
        · exact (hy z hz).trans_lt (not_le.1 hay)
      have hzero : (y :: ys).countP (a ≤ ·) = 0 := by
        rw [List.countP_eq_zero]
        intro z hz
        simpa using hall z hz
      rw [hzero]
      exact iff_of_false (hall _ (List.getElem_mem hi)).not_ge (Nat.not_lt_zero i)

/-- A list that has no fewer values above any bound is above the other place by place. -/
theorem forall₂_of_countP_le (hxs : xs.Pairwise (· ≥ ·)) (hys : ys.Pairwise (· ≥ ·))
    (hlen : xs.length = ys.length) (h : ∀ a, xs.countP (a ≤ ·) ≤ ys.countP (a ≤ ·)) :
    List.Forall₂ (· ≤ ·) xs ys := by
  rw [List.forall₂_iff_get]
  refine ⟨hlen, ?_⟩
  intro i hi hi'
  -- the first list has more than `i` values above its `i`-th, and so has the second
  have hcount : i < xs.countP (xs[i] ≤ ·) := (le_getElem_iff hxs hi).1 le_rfl
  exact (le_getElem_iff hys hi').2 (hcount.trans_le (h _))

end OrderStatistic
