import Mathlib.Analysis.SpecialFunctions.Log.Basic
import Mathlib.Tactic.FinCases
import Mathlib.Tactic.Linarith
import Mathlib.Tactic.NormNum

/-!
# Soft demapping of three bits

A symbol carries three bits as one of eight labels, the first bit weighing most. Its soft decisions
compare the labels in which a bit is set with those in which it is clear, each four combined to one
number. Where only one label has a magnitude, the soft decisions have the signs of its bits.

## Main definitions

* `Demapping.llrs`: the soft decisions of a symbol;
* `Demapping.Favours`: what the combination has to satisfy;
* `Demapping.max4`, `Demapping.lse4`: the greatest of four numbers, and their log-sum-exp;
* `Demapping.Decides`: a soft decision has the sign of a bit.

## Main results

* `Demapping.decides_llrs`: the soft decisions of a single label;
* `Demapping.getElem?_llrs_single`: their values, where the greatest of four numbers is taken;
* `Demapping.favours_max4`, `Demapping.favours_lse4`: the two combinations.
-/

namespace Demapping

/-- There are eight labels. -/
scoped instance neZero_eight : NeZero 8 := ⟨by decide⟩

/-- A label has three bits. -/
scoped instance neZero_three : NeZero 3 := ⟨by decide⟩

section Combination

variable {R : Type*} [AddCommGroup R] [LinearOrder R] [IsOrderedAddMonoid R]

/-- The bits of a label, the first weighing most. -/
def bit (label : Fin 8) (i : Fin 3) : Bool := (label : ℕ).testBit (2 - i)

/-- The label of three bits. -/
def label (b : Fin 3 → Bool) : Fin 8 :=
  Fin.ofNat 8 (4 * (b 0).toNat + 2 * (b 1).toNat + (b 2).toNat)

theorem bit_label (b : Fin 3 → Bool) (i : Fin 3) : bit (label b) i = b i := by
  have hall : ∀ b0 b1 b2 : Bool, ∀ i, bit (label ![b0, b1, b2]) i = ![b0, b1, b2] i := by decide
  have hb : b = ![b 0, b 1, b 2] := by
    ext i
    fin_cases i <;> rfl
  rw [hb]
  exact hall _ _ _ i

/-- The soft decisions of a symbol on its three bits. -/
def llrs (combine : R → R → R → R → R) (s : Fin 8 → R) : List R :=
  [combine (s 4) (s 5) (s 6) (s 7) - combine (s 0) (s 1) (s 2) (s 3),
    combine (s 2) (s 3) (s 6) (s 7) - combine (s 0) (s 1) (s 4) (s 5),
    combine (s 1) (s 3) (s 5) (s 7) - combine (s 0) (s 2) (s 4) (s 6)]

/-- A positive number among zeros counts, wherever it stands. -/
structure Favours (combine : R → R → R → R → R) : Prop where
  first : ∀ a, 0 < a → combine 0 0 0 0 < combine a 0 0 0
  second : ∀ a, 0 < a → combine 0 0 0 0 < combine 0 a 0 0
  third : ∀ a, 0 < a → combine 0 0 0 0 < combine 0 0 a 0
  fourth : ∀ a, 0 < a → combine 0 0 0 0 < combine 0 0 0 a

/-- A soft decision that is positive exactly for a set bit, and never zero. -/
def Decides (llr : R) (b : Bool) : Prop := llr ≠ 0 ∧ (0 < llr ↔ b = true)

theorem decides_true {x y : R} (h : x < y) : Decides (y - x) true :=
  ⟨(sub_pos.2 h).ne', iff_of_true (sub_pos.2 h) rfl⟩

theorem decides_false {x y : R} (h : x < y) : Decides (x - y) false :=
  ⟨(sub_neg.2 h).ne, iff_of_false (sub_neg.2 h).not_gt Bool.false_ne_true⟩

/-- One magnitude that is not zero, at a label. -/
def single {R : Type*} [Zero R] (a : R) (j k : Fin 8) : R := if k = j then a else 0

/-- The labels in which a bit is set. -/
def ones : Fin 3 → Fin 4 → Fin 8 := ![![4, 5, 6, 7], ![2, 3, 6, 7], ![1, 3, 5, 7]]

/-- The labels in which a bit is clear. -/
def zeros : Fin 3 → Fin 4 → Fin 8 := ![![0, 1, 2, 3], ![0, 1, 4, 5], ![0, 2, 4, 6]]

/-- The magnitudes of four labels, combined. -/
def combined (combine : R → R → R → R → R) (s : Fin 8 → R) (l : Fin 4 → Fin 8) : R :=
  combine (s (l 0)) (s (l 1)) (s (l 2)) (s (l 3))

omit [LinearOrder R] [IsOrderedAddMonoid R] in
theorem getElem?_llrs (combine : R → R → R → R → R) (s : Fin 8 → R) (i : Fin 3) :
    (llrs combine s)[(i : ℕ)]? =
      some (combined combine s (ones i) - combined combine s (zeros i)) := by
  fin_cases i <;> rfl

omit [IsOrderedAddMonoid R] in
/-- Four labels with the single one among them outweigh four labels without it. -/
theorem combined_lt_combined {combine : R → R → R → R → R} (h : Favours combine) {a : R}
    (ha : 0 < a) {j : Fin 8} {l l' : Fin 4 → Fin 8} {k : Fin 4} (hmem : ∀ k', l k' = j ↔ k' = k)
    (hout : ∀ k', l' k' ≠ j) :
    combined combine (single a j) l' < combined combine (single a j) l := by
  have hl : ∀ k', single a j (l k') = if k' = k then a else 0 := fun k' => by
    simp only [single, hmem]
  have hl' : ∀ k', single a j (l' k') = 0 := fun k' => if_neg (hout k')
  simp only [combined, hl, hl']
  fin_cases k
  · exact h.first a ha
  · exact h.second a ha
  · exact h.third a ha
  · exact h.fourth a ha

/-- A label is in one place among those that share a bit with it, and not among the others. -/
theorem exists_place (j : Fin 8) (i : Fin 3) :
    (bit j i = true ∧ (∃ k, ∀ k', ones i k' = j ↔ k' = k) ∧ ∀ k', zeros i k' ≠ j) ∨
      (bit j i = false ∧ (∃ k, ∀ k', zeros i k' = j ↔ k' = k) ∧ ∀ k', ones i k' ≠ j) := by
  revert j i
  decide

/-- The soft decisions of a single label have the signs of its bits. -/
theorem decides_llrs {combine : R → R → R → R → R} (h : Favours combine) {a : R} (ha : 0 < a)
    (j : Fin 8) (i : Fin 3) :
    ∃ llr, (llrs combine (single a j))[(i : ℕ)]? = some llr ∧ Decides llr (bit j i) := by
  refine ⟨_, getElem?_llrs combine (single a j) i, ?_⟩
  rcases exists_place j i with ⟨hbit, ⟨k, hmem⟩, hout⟩ | ⟨hbit, ⟨k, hmem⟩, hout⟩
  · rw [hbit]
    exact decides_true (combined_lt_combined h ha hmem hout)
  · rw [hbit]
    exact decides_false (combined_lt_combined h ha hmem hout)

/-- The greatest of four numbers. -/
def max4 (a b c d : R) : R := max (max a b) (max c d)

omit [IsOrderedAddMonoid R] in
theorem favours_max4 : Favours (max4 : R → R → R → R → R) where
  first a ha := by simp [max4, ha]
  second a ha := by simp [max4, ha]
  third a ha := by simp [max4, ha]
  fourth a ha := by simp [max4, ha]

omit [AddCommGroup R] [IsOrderedAddMonoid R] in
/-- Of four numbers, one of which may stand out. -/
theorem max4_single {x y : R} (h : y ≤ x) {l : Fin 4 → Fin 8}
    {j : Fin 8} :
    ((∃ k, ∀ k', l k' = j ↔ k' = k) →
      combined max4 (fun i => if i = j then x else y) l = x) ∧
    ((∀ k', l k' ≠ j) → combined max4 (fun i => if i = j then x else y) l = y) := by
  constructor
  · rintro ⟨k, hk⟩
    simp only [combined, max4, hk]
    fin_cases k <;> simp [h]
  · intro hout
    simp only [combined, max4, hout, if_false, max_self]

omit [IsOrderedAddMonoid R] in
/-- The soft decisions of a symbol in which one label stands out. -/
theorem getElem?_llrs_single {x y : R} (h : y ≤ x) (j : Fin 8) (i : Fin 3) :
    (llrs max4 fun k => if k = j then x else y)[(i : ℕ)]? =
      some (if bit j i then x - y else y - x) := by
  rw [getElem?_llrs]
  rcases exists_place j i with ⟨hbit, hmem, hout⟩ | ⟨hbit, hmem, hout⟩
  · rw [hbit, (max4_single h).1 hmem, (max4_single h).2 hout, if_pos rfl]
  · rw [hbit, (max4_single h).1 hmem, (max4_single h).2 hout, if_neg Bool.false_ne_true]

end Combination

/-- The log-sum-exp of four numbers, relative to the greatest. -/
noncomputable def lse4 (a b c d : ℝ) : ℝ :=
  let m := max (max a b) (max c d)
  m + Real.log (Real.exp (a - m) + Real.exp (b - m) + Real.exp (c - m) + Real.exp (d - m))

/-- The greatest of the numbers cancels. -/
theorem lse4_eq (a b c d : ℝ) :
    lse4 a b c d = Real.log (Real.exp a + Real.exp b + Real.exp c + Real.exp d) := by
  unfold lse4
  generalize max (max a b) (max c d) = m
  have hfactor : Real.exp a + Real.exp b + Real.exp c + Real.exp d =
      Real.exp m * (Real.exp (a - m) + Real.exp (b - m) + Real.exp (c - m) + Real.exp (d - m)) := by
    simp only [mul_add, ← Real.exp_add, add_sub_cancel]
  rw [hfactor, Real.log_mul (Real.exp_ne_zero m) (by positivity), Real.log_exp]

theorem lse4_lt {a b c d a' b' c' d' : ℝ}
    (h : Real.exp a + Real.exp b + Real.exp c + Real.exp d <
      Real.exp a' + Real.exp b' + Real.exp c' + Real.exp d') : lse4 a b c d < lse4 a' b' c' d' := by
  rw [lse4_eq, lse4_eq]
  exact Real.log_lt_log (by positivity) h

theorem favours_lse4 : Favours lse4 where
  first a ha := lse4_lt (by linarith [Real.exp_lt_exp.2 ha])
  second a ha := lse4_lt (by linarith [Real.exp_lt_exp.2 ha])
  third a ha := lse4_lt (by linarith [Real.exp_lt_exp.2 ha])
  fourth a ha := lse4_lt (by linarith [Real.exp_lt_exp.2 ha])

end Demapping
