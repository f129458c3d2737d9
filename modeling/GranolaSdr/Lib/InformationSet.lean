import GranolaSdr.Lib.OrderStatistic
import GranolaSdr.Lib.RowReduction
import Mathlib.Data.Multiset.Sort

/-!
# Information sets of a linear code

An information set of a space of vectors is a set of columns on which the vectors take all values,
and where they tell a vector from all others. A row reduction that gives every row a pivot finds
one, and it is the best there is for the order of the columns: of any first columns, it has no fewer
than any other information set. So sorted by a weight that falls along the order, it is above any
other one place by place.

## Main definitions

* `InformationSet`: columns whose values are free, and settle a vector;
* `descending`: the weights of some columns, the greatest first.

## Main results

* `Reduced.informationSet`: the pivots are an information set;
* `Reduced.card_filter_le`: no other one has more of the first columns;
* `Reduced.forall₂_descending`: no other one has greater weights.
-/

namespace RowReduction

variable {F J : Type*} [Field F] {C : Submodule F (J → F)} {S T : Finset J} {x y : J → F}

/-- The values of the vectors on these columns are free, and they settle a vector. -/
def InformationSet (C : Submodule F (J → F)) (S : Finset J) : Prop :=
  ∀ v : J → F, ∃! x, x ∈ C ∧ ∀ i ∈ S, x i = v i

theorem InformationSet.eq_zero (h : InformationSet C S) (hx : x ∈ C) (hzero : ∀ i ∈ S, x i = 0) :
    x = 0 :=
  (h 0).unique ⟨hx, hzero⟩ ⟨C.zero_mem, fun _ _ => rfl⟩

section Count

/-- The vectors that vanish on the columns `Z`. -/
def vanishing (C : Submodule F (J → F)) (Z : Finset J) : Submodule F (J → F) :=
  C ⊓ ⨅ i ∈ Z, LinearMap.ker (LinearMap.proj i)

theorem mem_vanishing {Z : Finset J} : x ∈ vanishing C Z ↔ x ∈ C ∧ ∀ i ∈ Z, x i = 0 := by
  simp [vanishing]

/-- The values of a vector on some columns. -/
def restrict (W : Submodule F (J → F)) (S : Finset J) : W →ₗ[F] (S → F) :=
  LinearMap.funLeft F F ((↑) : S → J) ∘ₗ W.subtype

variable [Finite J]

/-- If the vectors that vanish on `Z` take all values on `S`, and their values on `T` settle them,
then `T` has no fewer columns than `S`. -/
theorem card_le_of_free_of_settled {Z : Finset J}
    (hfree : ∀ v : J → F, ∃ x ∈ vanishing C Z, ∀ i ∈ S, x i = v i)
    (hsettled : ∀ x ∈ vanishing C Z, (∀ i ∈ T, x i = 0) → x = 0) : S.card ≤ T.card := by
  classical
  have hsurj : Function.Surjective (restrict (vanishing C Z) S) := by
    intro v
    obtain ⟨x, hx, hv⟩ := hfree fun i => if h : i ∈ S then v ⟨i, h⟩ else 0
    refine ⟨⟨x, hx⟩, ?_⟩
    funext i
    exact (hv i i.2).trans (dif_pos i.2)
  have hinj : Function.Injective (restrict (vanishing C Z) T) := by
    rw [injective_iff_map_eq_zero]
    intro x hx
    apply Subtype.ext
    exact hsettled x x.2 fun i hi => congrFun hx ⟨i, hi⟩
  calc S.card = Module.finrank F (S → F) := by
        rw [Module.finrank_fintype_fun_eq_card, Fintype.card_coe]
    _ ≤ Module.finrank F (vanishing C Z) := LinearMap.finrank_le_finrank_of_surjective hsurj
    _ ≤ Module.finrank F (T → F) := LinearMap.finrank_le_finrank_of_injective hinj
    _ = T.card := by rw [Module.finrank_fintype_fun_eq_card, Fintype.card_coe]

/-- All information sets have the same number of columns. -/
theorem InformationSet.card_eq (hS : InformationSet C S) (hT : InformationSet C T) :
    S.card = T.card := by
  have hle {S T : Finset J} (hS : InformationSet C S) (hT : InformationSet C T) :
      S.card ≤ T.card := by
    apply card_le_of_free_of_settled (C := C) (Z := ∅)
    · intro v
      obtain ⟨x, ⟨hx, hv⟩, -⟩ := hS v
      exact ⟨x, mem_vanishing.2 ⟨hx, by simp⟩, hv⟩
    · intro x hx hzero
      exact hT.eq_zero (mem_vanishing.1 hx).1 hzero
  exact le_antisymm (hle hS hT) (hle hT hS)

end Count

/-! ## The pivots -/

namespace Reduced

variable {K : ℕ} {rows : Fin K → J → F} {scanned piv l : List J}

/-- A vector is settled on the first columns by its values at the pivots among them. -/
theorem eq_zero_of_prefix (h : Reduced C rows scanned piv) (hl : l <+: scanned) (hx : x ∈ C)
    (hzero : ∀ i ∈ l, i ∈ piv → x i = 0) : ∀ i ∈ l, x i = 0 := by
  induction l using List.reverseRecOn with
  | nil => simp
  | append_singleton l j ih =>
    obtain ⟨l', hsplit⟩ := hl
    have hscanned : scanned = l ++ j :: l' := by rw [← hsplit, List.append_assoc]; rfl
    have hbefore := ih ⟨j :: l', hscanned.symm⟩ fun i hi => hzero i (List.mem_append_left _ hi)
    intro i hi
    rcases List.mem_append.1 hi with hi | hi
    · exact hbefore i hi
    · obtain rfl := List.mem_singleton.1 hi
      by_cases hpiv : i ∈ piv
      · exact hzero i (List.mem_append_right _ hi) hpiv
      -- the columns before a column that is no pivot determine it
      · exact not_not.1 (mt (h.greedy l i l' hscanned).2 hpiv) x hx hbefore

variable [DecidableEq J]

/-- The pivots are an information set when every row has one. -/
theorem informationSet (h : Reduced C rows scanned piv) (hfull : piv.length = K) :
    InformationSet C piv.toFinset := by
  intro v
  have hval (r : Fin K) := h.sum_apply_get (fun r => v (piv.get (r.cast hfull.symm)))
    (r := r) (by omega)
  refine ⟨∑ r, v (piv.get (r.cast hfull.symm)) • rows r, ⟨?_, ?_⟩, ?_⟩
  · rw [← h.span]
    exact Submodule.sum_mem _ fun r _ =>
      Submodule.smul_mem _ _ (Submodule.subset_span ⟨r, rfl⟩)
  · intro i hi
    obtain ⟨r, rfl⟩ := List.get_of_mem (List.mem_toFinset.1 hi)
    exact hval (r.cast hfull)
  · rintro y ⟨hy, hyv⟩
    rw [h.eq_sum hfull hy]
    apply Finset.sum_congr rfl
    intro r _
    rw [hyv _ (List.mem_toFinset.2 (List.get_mem _ _))]

variable [Finite J]

/-- No information set has more of the first columns than the pivots. -/
theorem card_filter_le (h : Reduced C rows scanned piv) (hS : InformationSet C S)
    (hl : l <+: scanned) :
    (S.filter (· ∈ l)).card ≤ (piv.toFinset.filter (· ∈ l)).card := by
  -- of the vectors that vanish on the columns of `S` behind the first ones
  apply card_le_of_free_of_settled (C := C) (Z := S.filter (· ∉ l))
  · intro v
    obtain ⟨x, ⟨hx, hv⟩, -⟩ := hS fun i => if i ∈ l then v i else 0
    refine ⟨x, mem_vanishing.2 ⟨hx, ?_⟩, ?_⟩
    · intro i hi
      obtain ⟨hi, hil⟩ := Finset.mem_filter.1 hi
      rw [hv i hi, if_neg hil]
    · intro i hi
      obtain ⟨hi, hil⟩ := Finset.mem_filter.1 hi
      rw [hv i hi, if_pos hil]
  · intro x hx hzero
    obtain ⟨hx, hout⟩ := mem_vanishing.1 hx
    -- zero at the pivots, so zero on the first columns, and then on all of `S`
    have hin : ∀ i ∈ l, x i = 0 := h.eq_zero_of_prefix hl hx fun i hil hi =>
      hzero i (Finset.mem_filter.2 ⟨List.mem_toFinset.2 hi, hil⟩)
    apply hS.eq_zero hx
    intro i hi
    by_cases hil : i ∈ l
    · exact hin i hil
    · exact hout i (Finset.mem_filter.2 ⟨hi, hil⟩)

end Reduced

/-! ## Weights -/

section Weights

variable {R : Type*} [LinearOrder R] {w : J → R} {a : R}

/-- The weights of some columns, the greatest first. -/
def descending (w : J → R) (S : Finset J) : List R := (S.val.map w).sort (· ≥ ·)

theorem pairwise_descending (w : J → R) (S : Finset J) : (descending w S).Pairwise (· ≥ ·) :=
  Multiset.pairwise_sort _ _

theorem length_descending (w : J → R) (S : Finset J) : (descending w S).length = S.card := by
  simp [descending]

theorem countP_descending (w : J → R) (S : Finset J) (a : R) :
    (descending w S).countP (a ≤ ·) = (S.filter (a ≤ w ·)).card := by
  rw [← Multiset.coe_countP, descending, Multiset.sort_eq, Multiset.countP_map]
  rfl

/-- The columns above a bound come first. -/
theorem prefix_filter_le {cols : List J} (h : cols.Pairwise (w · ≥ w ·)) :
    (cols.filter (a ≤ w ·)) <+: cols := by
  induction cols with
  | nil => exact List.nil_prefix
  | cons j cols ih =>
    obtain ⟨hj, hcols⟩ := List.pairwise_cons.1 h
    by_cases haj : a ≤ w j
    · rw [List.filter_cons_of_pos (by simpa using haj)]
      exact List.cons_prefix_cons.2 ⟨rfl, ih hcols⟩
    · have hnil : (j :: cols).filter (a ≤ w ·) = [] := by
        rw [List.filter_eq_nil_iff]
        intro i hi
        rcases List.mem_cons.1 hi with rfl | hi
        · simpa using haj
        · simpa using (hj i hi).trans_lt (not_le.1 haj)
      rw [hnil]
      exact List.nil_prefix

/-- Along an order of falling weights, the pivots have the greatest weights of all information
sets. -/
theorem Reduced.forall₂_descending [DecidableEq J] [Finite J] {K : ℕ} {rows : Fin K → J → F}
    {scanned piv : List J} (h : Reduced C rows scanned piv) (hall : ∀ j, j ∈ scanned)
    (hw : scanned.Pairwise (w · ≥ w ·)) (hfull : piv.length = K) (hS : InformationSet C S) :
    List.Forall₂ (· ≤ ·) (descending w S) (descending w piv.toFinset) := by
  apply OrderStatistic.forall₂_of_countP_le (pairwise_descending w S) (pairwise_descending w _)
  · rw [length_descending, length_descending]
    exact hS.card_eq (h.informationSet hfull)
  · intro a
    have hmem (j : J) : j ∈ scanned.filter (a ≤ w ·) ↔ a ≤ w j := by simp [hall]
    have hle := h.card_filter_le hS (prefix_filter_le (a := a) hw)
    simp only [hmem] at hle
    rwa [countP_descending, countP_descending]

end Weights

end RowReduction
