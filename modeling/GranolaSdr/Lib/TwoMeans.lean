import Mathlib.Algebra.Order.BigOperators.Group.List
import Mathlib.Algebra.Order.Field.Basic
import Mathlib.Order.Interval.Set.Defs
import Mathlib.Tactic.Linarith

/-!
# Two-means clustering of numbers

Lloyd's algorithm with two centres on a list of numbers, which starts at the least and the greatest
one. Numbers that lie in two intervals far enough apart are told apart in every round: each centre
stays in its interval.

## Main definitions

* `mean`, `round`, `iterate`: the mean of some numbers, a round, and some rounds;
* `Apart`: two intervals that the middle of two centres, one in each, cannot enter.

## Main results

* `iterate_mem`: the centres stay in their intervals;
* `lt_foldl_min`, `foldl_max_lt` and their like: where the least and the greatest number lie.
-/

namespace TwoMeans

/-! ## The least and the greatest number -/

section LinearOrder

variable {α : Type*} [LinearOrder α] {xs : List α} {m a b : α}

theorem lt_foldl_min (hm : a < m) (hxs : ∀ x ∈ xs, a < x) : a < xs.foldl min m := by
  induction xs generalizing m with
  | nil => exact hm
  | cons x xs ih =>
    obtain ⟨hx, hxs⟩ := List.forall_mem_cons.1 hxs
    exact ih (lt_min hm hx) hxs

theorem foldl_min_le {x : α} (hx : x ∈ m :: xs) : xs.foldl min m ≤ x := by
  induction xs generalizing m x with
  | nil => exact (List.mem_singleton.1 hx).ge
  | cons y xs ih =>
    rcases List.mem_cons.1 hx with rfl | hx
    · exact (ih List.mem_cons_self).trans (min_le_left _ _)
    · rcases List.mem_cons.1 hx with rfl | hx
      · exact (ih List.mem_cons_self).trans (min_le_right _ _)
      · exact ih (List.mem_cons_of_mem _ hx)

theorem foldl_max_lt (hm : m < b) (hxs : ∀ x ∈ xs, x < b) : xs.foldl max m < b :=
  lt_foldl_min (α := αᵒᵈ) hm hxs

theorem le_foldl_max {x : α} (hx : x ∈ m :: xs) : x ≤ xs.foldl max m :=
  foldl_min_le (α := αᵒᵈ) hx

end LinearOrder

/-! ## Clustering -/

variable {F : Type*} [Field F] [LinearOrder F]

/-- The mean of some numbers. -/
def mean (xs : List F) : F := xs.sum / xs.length

/-- A round: each number goes to the nearer centre, and each centre to the mean of its numbers. -/
def round (xs : List F) (c : F × F) : F × F :=
  let mid := 0.5 * (c.1 + c.2)
  let low := xs.filter (· ≤ mid)
  let high := xs.filter (mid < ·)
  (if low = [] then c.1 else mean low, if high = [] then c.2 else mean high)

/-- Some rounds, as long as the centres are in order. -/
def iterate (xs : List F) : ℕ → F × F → F × F
  | 0, c => c
  | n + 1, c => if c.1 < c.2 then iterate xs n (round xs c) else c

variable [IsStrictOrderedRing F] {xs : List F} {a b c d : F}

theorem lt_sum (hne : xs ≠ []) (h : ∀ x ∈ xs, a < x) : xs.length * a < xs.sum := by
  have hsum := List.sum_lt_sum_of_ne_nil hne (fun _ => a) id h
  rwa [List.map_const', List.sum_replicate, nsmul_eq_mul, List.map_id] at hsum

theorem sum_lt (hne : xs ≠ []) (h : ∀ x ∈ xs, x < b) : xs.sum < xs.length * b := by
  have hsum := List.sum_lt_sum_of_ne_nil hne id (fun _ => b) h
  rwa [List.map_const', List.sum_replicate, nsmul_eq_mul, List.map_id] at hsum

/-- The mean of numbers in an interval lies in it. -/
theorem mean_mem (hne : xs ≠ []) (h : ∀ x ∈ xs, x ∈ Set.Ioo a b) : mean xs ∈ Set.Ioo a b := by
  have hlength : (0 : F) < xs.length := by
    exact_mod_cast List.length_pos_iff.2 hne
  have hlow := lt_sum hne fun x hx => (h x hx).1
  have hhigh := sum_lt hne fun x hx => (h x hx).2
  constructor
  · rwa [mean, lt_div_iff₀ hlength, mul_comm]
  · rwa [mean, div_lt_iff₀ hlength, mul_comm]

/-- Two intervals such that the middle between them is in neither, wherever the centres are. -/
structure Apart (a b c d : F) : Prop where
  low : 2 * b ≤ a + c
  high : b + d ≤ 2 * c

/-- A round keeps the centres in their intervals. -/
theorem round_mem (hapart : Apart a b c d) (hxs : ∀ x ∈ xs, x ∈ Set.Ioo a b ∨ x ∈ Set.Ioo c d)
    {c₁ c₂ : F} (h₁ : c₁ ∈ Set.Ioo a b) (h₂ : c₂ ∈ Set.Ioo c d) :
    (round xs (c₁, c₂)).1 ∈ Set.Ioo a b ∧ (round xs (c₁, c₂)).2 ∈ Set.Ioo c d := by
  obtain ⟨hlow, hhigh⟩ := hapart
  obtain ⟨h₁a, h₁b⟩ := h₁
  obtain ⟨h₂c, h₂d⟩ := h₂
  -- the middle lies between the intervals
  have hmid_low : b < 0.5 * (c₁ + c₂) := by norm_num; linarith
  have hmid_high : 0.5 * (c₁ + c₂) < c := by norm_num; linarith
  unfold round
  constructor
  · dsimp only
    split_ifs with hne
    · exact ⟨h₁a, h₁b⟩
    · refine mean_mem hne fun x hx => ?_
      obtain ⟨hx, hle⟩ := List.mem_filter.1 hx
      have hle := of_decide_eq_true hle
      exact (hxs x hx).resolve_right fun hmem => absurd hmem.1 (by linarith)
  · dsimp only
    split_ifs with hne
    · exact ⟨h₂c, h₂d⟩
    · refine mean_mem hne fun x hx => ?_
      obtain ⟨hx, hlt⟩ := List.mem_filter.1 hx
      have hlt := of_decide_eq_true hlt
      exact (hxs x hx).resolve_left fun hmem => absurd hmem.2 (by linarith)

/-- Any number of rounds keeps the centres in their intervals. -/
theorem iterate_mem (hapart : Apart a b c d)
    (hxs : ∀ x ∈ xs, x ∈ Set.Ioo a b ∨ x ∈ Set.Ioo c d) (n : ℕ) {centres : F × F}
    (h₁ : centres.1 ∈ Set.Ioo a b) (h₂ : centres.2 ∈ Set.Ioo c d) :
    (iterate xs n centres).1 ∈ Set.Ioo a b ∧ (iterate xs n centres).2 ∈ Set.Ioo c d := by
  induction n generalizing centres with
  | zero => exact ⟨h₁, h₂⟩
  | succ n ih =>
    rw [iterate]
    split_ifs
    · obtain ⟨h₁', h₂'⟩ := round_mem hapart hxs h₁ h₂
      exact ih h₁' h₂'
    · exact ⟨h₁, h₂⟩

end TwoMeans
