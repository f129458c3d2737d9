import Mathlib.LinearAlgebra.Dual.Lemmas
import Mathlib.LinearAlgebra.Matrix.Rank

/-!
# Row reduction along an order of the columns

Gauss-Jordan elimination that takes the columns one after the other, in a given order. What it
keeps is stated for the rows as a family: they span the same space, the pivot columns found so far
are unit columns, and the rows without a pivot vanish on the columns that have been passed. The
pivot columns are then the greedy choice: a column is one exactly when the columns before it do
not determine it.

## Main definitions

* `RowReduction.Determines`: the values of a vector on some columns settle its value on another;
* `RowReduction.addRow`: adding multiples of one row to the others;
* `RowReduction.Reduced`: the state of the elimination.

## Main results

* `RowReduction.determines_span_iff`: a column is determined by others exactly when it is a
  combination of them;
* `RowReduction.Reduced.skip`, `RowReduction.Reduced.swap`, `RowReduction.Reduced.pivot`: the steps
  of the elimination;
* `RowReduction.Reduced.finrank_eq_iff`: all rows get a pivot exactly when the rank is full;
* `RowReduction.Reduced.eq_sum`: a vector is the combination of the reduced rows with its values at
  the pivots.
-/

namespace RowReduction

variable {F J ι : Type*} [Field F]

/-! ## Determined columns -/

/-- A vector of the space that vanishes on the columns `S` vanishes on `j`. -/
def Determines (C : Submodule F (J → F)) (S : Set J) (j : J) : Prop :=
  ∀ x ∈ C, (∀ i ∈ S, x i = 0) → x j = 0

/-- A column is determined by others exactly when it is a combination of them. -/
theorem determines_span_iff [Fintype ι] (G : Matrix ι J F) (S : Set J) (j : J) :
    Determines (Submodule.span F (Set.range G.row)) S j ↔
      G.col j ∈ Submodule.span F (G.col '' S) := by
  classical
  constructor
  · intro h
    by_contra hj
    -- a functional that vanishes on the columns of `S` is a combination of rows that does
    obtain ⟨φ, hφj, hφ⟩ := Submodule.exists_dual_map_eq_bot_of_notMem hj inferInstance
    have hcol : ∀ k, (∑ r, φ (fun s => if r = s then 1 else 0) • G.row r) k = φ (G.col k) := by
      intro k
      rw [LinearMap.pi_apply_eq_sum_univ φ (G.col k), Finset.sum_apply]
      exact Finset.sum_congr rfl fun r _ => mul_comm _ _
    refine hφj ((hcol j).symm.trans (h _ ?_ fun k hk => ?_))
    · exact Submodule.sum_mem _ fun r _ =>
        Submodule.smul_mem _ _ (Submodule.subset_span ⟨r, rfl⟩)
    · rw [hcol k, ← Submodule.mem_bot F, ← hφ]
      exact Submodule.mem_map_of_mem (Submodule.subset_span ⟨k, hk, rfl⟩)
  · intro hj x hx hzero
    obtain ⟨a, rfl⟩ := (Submodule.mem_span_range_iff_exists_fun F).1 hx
    have hcol : ∀ k, (∑ r, a r • G.row r) k = Fintype.linearCombination F a (G.col k) := by
      intro k
      rw [Fintype.linearCombination_apply, Finset.sum_apply]
      exact Finset.sum_congr rfl fun r _ => mul_comm _ _
    have hker : Submodule.span F (G.col '' S) ≤ LinearMap.ker (Fintype.linearCombination F a) := by
      rw [Submodule.span_le]
      rintro _ ⟨k, hk, rfl⟩
      exact (hcol k).symm.trans (hzero k hk)
    exact (hcol j).trans (hker hj)

/-! ## Row operations -/

section addRow

variable [DecidableEq ι]

/-- Add a multiple of the row `p` to every other row. -/
def addRow (p : ι) (a : ι → F) (rows : ι → J → F) (r : ι) : J → F :=
  if r = p then rows p else rows r + a r • rows p

@[simp]
theorem addRow_self (p : ι) (a : ι → F) (rows : ι → J → F) : addRow p a rows p = rows p :=
  if_pos rfl

theorem addRow_of_ne {p r : ι} (h : r ≠ p) (a : ι → F) (rows : ι → J → F) :
    addRow p a rows r = rows r + a r • rows p :=
  if_neg h

theorem span_addRow (p : ι) (a : ι → F) (rows : ι → J → F) :
    Submodule.span F (Set.range (addRow p a rows)) = Submodule.span F (Set.range rows) := by
  have hrow : ∀ r, rows r ∈ Submodule.span F (Set.range rows) := fun r =>
    Submodule.subset_span ⟨r, rfl⟩
  have hnew : ∀ r, addRow p a rows r ∈ Submodule.span F (Set.range (addRow p a rows)) := fun r =>
    Submodule.subset_span ⟨r, rfl⟩
  apply le_antisymm
  · rw [Submodule.span_le]
    rintro _ ⟨r, rfl⟩
    by_cases hr : r = p
    · rw [hr, addRow_self]
      exact hrow p
    · rw [addRow_of_ne hr]
      exact Submodule.add_mem _ (hrow r) (Submodule.smul_mem _ _ (hrow p))
  · rw [Submodule.span_le]
    rintro _ ⟨r, rfl⟩
    have hp : rows p ∈ Submodule.span F (Set.range (addRow p a rows)) := by
      simpa using hnew p
    by_cases hr : r = p
    · rwa [hr]
    · -- the multiple of the pivot row can be taken away again
      have hback : rows r = addRow p a rows r - a r • rows p := by
        rw [addRow_of_ne hr, add_sub_cancel_right]
      rw [hback]
      exact Submodule.sub_mem _ (hnew r) (Submodule.smul_mem _ _ hp)

end addRow

/-! ## The elimination -/

section append_singleton

variable {scanned piv : List J} {j : J}

/-- Splitting a list at an element splits it before its last element or there. -/
theorem append_singleton_eq_iff {l l' : List J} {i : J} :
    scanned ++ [j] = l ++ i :: l' ↔
      (∃ t, l' = t ++ [j] ∧ scanned = l ++ i :: t) ∨ (l' = [] ∧ i = j ∧ l = scanned) := by
  constructor
  · intro h
    rcases List.eq_nil_or_concat l' with rfl | ⟨t, k, rfl⟩
    · obtain ⟨rfl, hij⟩ := List.append_inj' h rfl
      exact Or.inr ⟨rfl, (List.singleton_inj.1 hij).symm, rfl⟩
    · have h' : scanned ++ [j] = (l ++ i :: t) ++ [k] := by simpa using h
      obtain ⟨hscanned, hjk⟩ := List.append_inj' h' rfl
      exact Or.inl ⟨t, by rw [List.concat_eq_append, List.singleton_inj.1 hjk], hscanned⟩
  · rintro (⟨t, rfl, rfl⟩ | ⟨rfl, rfl, rfl⟩)
    · simp
    · rfl

/-- The elements of a list with one appended. -/
theorem get_append_singleton (i : Fin (piv ++ [j]).length) :
    (∃ hi : (i : ℕ) < piv.length, (piv ++ [j]).get i = piv.get ⟨i, hi⟩) ∨
      ((i : ℕ) = piv.length ∧ (piv ++ [j]).get i = j) := by
  have hlt : (i : ℕ) < piv.length + 1 := by simpa using i.isLt
  rcases Nat.lt_succ_iff_lt_or_eq.1 hlt with hi | hi
  · exact Or.inl ⟨hi, List.getElem_append_left hi⟩
  · exact Or.inr ⟨hi, by simp [hi]⟩

end append_singleton

/-- The rows span `C`, the columns `scanned` have been passed, and `piv` are the pivot columns
among them: the pivot of the row `i` is the `i`-th one. -/
structure Reduced {K : ℕ} (C : Submodule F (J → F)) (rows : Fin K → J → F) (scanned piv : List J) :
    Prop where
  span : Submodule.span F (Set.range rows) = C
  length_le : piv.length ≤ K
  subset : piv ⊆ scanned
  /-- The pivot columns are unit columns. -/
  unit : ∀ (r : Fin K) (i : Fin piv.length), rows r (piv.get i) = if (r : ℕ) = i then 1 else 0
  /-- The rows without a pivot vanish on the columns that have been passed. -/
  rest : ∀ r : Fin K, piv.length ≤ r → ∀ j ∈ scanned, rows r j = 0
  /-- A column is a pivot column exactly when those before it do not determine it. -/
  greedy : ∀ l j l', scanned = l ++ j :: l' → (j ∈ piv ↔ ¬Determines C {i | i ∈ l} j)

namespace Reduced

variable {K : ℕ} {C : Submodule F (J → F)} {rows : Fin K → J → F} {scanned piv : List J} {j : J}

theorem nil (rows : Fin K → J → F) :
    Reduced (Submodule.span F (Set.range rows)) rows [] [] where
  span := rfl
  length_le := K.zero_le
  subset := List.Subset.refl []
  unit _ i := i.elim0
  rest _ _ j hj := absurd hj List.not_mem_nil
  greedy l j l' h := by simp at h

/-- A combination of the rows has its coefficients at the pivots. -/
theorem sum_apply_get (h : Reduced C rows scanned piv) (a : Fin K → F) {r : Fin K}
    (hr : (r : ℕ) < piv.length) : (∑ s, a s • rows s) (piv.get ⟨r, hr⟩) = a r := by
  rw [Finset.sum_apply, Finset.sum_eq_single r]
  · rw [Pi.smul_apply, h.unit, if_pos rfl, smul_eq_mul, mul_one]
  · intro s _ hs
    rw [Pi.smul_apply, h.unit, if_neg (mt Fin.ext hs), smul_zero]
  · intro hr'
    exact absurd (Finset.mem_univ r) hr'

/-- A vector of the space that vanishes at the pivots is a combination of the rows without one. -/
theorem eq_sum_of_vanishes (h : Reduced C rows scanned piv) {x : J → F} (hx : x ∈ C)
    (hzero : ∀ i ∈ piv, x i = 0) :
    ∃ a : Fin K → F, x = ∑ r, a r • rows r ∧ ∀ r : Fin K, (r : ℕ) < piv.length → a r = 0 := by
  rw [← h.span] at hx
  obtain ⟨a, rfl⟩ := (Submodule.mem_span_range_iff_exists_fun F).1 hx
  refine ⟨a, rfl, fun r hr => ?_⟩
  rw [← h.sum_apply_get a hr]
  exact hzero _ (List.get_mem piv ⟨r, hr⟩)

/-- The columns passed determine a column on which the rows without a pivot vanish. -/
theorem determines (h : Reduced C rows scanned piv)
    (hj : ∀ r : Fin K, piv.length ≤ r → rows r j = 0) : Determines C {i | i ∈ scanned} j := by
  intro x hx hzero
  obtain ⟨a, rfl, ha⟩ := h.eq_sum_of_vanishes hx fun i hi => hzero i (h.subset hi)
  rw [Finset.sum_apply]
  refine Finset.sum_eq_zero fun r _ => ?_
  rcases lt_or_ge (r : ℕ) piv.length with hr | hr
  · simp [ha r hr]
  · simp [hj r hr]

/-- A column without a pivot is passed. -/
theorem skip (h : Reduced C rows scanned piv) (hnew : j ∉ scanned)
    (hj : ∀ r : Fin K, piv.length ≤ r → rows r j = 0) : Reduced C rows (scanned ++ [j]) piv where
  span := h.span
  length_le := h.length_le
  subset := fun _ hi => List.mem_append_left _ (h.subset hi)
  unit := h.unit
  rest := by
    intro r hr i hi
    rcases List.mem_append.1 hi with hi | hi
    · exact h.rest r hr i hi
    · rw [List.mem_singleton.1 hi]
      exact hj r hr
  greedy := by
    intro l i l' hsplit
    rcases append_singleton_eq_iff.1 hsplit with ⟨t, -, hscanned⟩ | ⟨-, rfl, rfl⟩
    · exact h.greedy l i t hscanned
    · exact iff_of_false (fun hi => hnew (h.subset hi)) (not_not.2 (h.determines hj))

/-- Two rows without a pivot change places. -/
theorem swap (h : Reduced C rows scanned piv) {p q : Fin K} (hp : piv.length ≤ p)
    (hq : piv.length ≤ q) : Reduced C (rows ∘ Equiv.swap p q) scanned piv where
  span := by rw [(Equiv.swap p q).surjective.range_comp, h.span]
  length_le := h.length_le
  subset := h.subset
  unit := by
    intro r i
    -- the rows with a pivot stay where they are
    by_cases hr : r = p ∨ r = q
    · have hlen : piv.length ≤ Equiv.swap p q r := by
        rcases hr with rfl | rfl
        · rwa [Equiv.swap_apply_left]
        · rwa [Equiv.swap_apply_right]
      have hpr : piv.length ≤ r := by rcases hr with rfl | rfl <;> assumption
      have hi := i.isLt
      rw [Function.comp_apply, h.unit, if_neg (by omega), if_neg (by omega)]
    · obtain ⟨hrp, hrq⟩ := not_or.1 hr
      rw [Function.comp_apply, Equiv.swap_apply_of_ne_of_ne hrp hrq, h.unit]
  rest := by
    intro r hr i hi
    have hlen : piv.length ≤ Equiv.swap p q r := by
      rw [Equiv.swap_apply_def]
      split_ifs <;> assumption
    exact h.rest _ hlen i hi
  greedy := h.greedy

/-- The first row without a pivot gets the column as its pivot, and the column is cleared from the
other rows. -/
theorem pivot (h : Reduced C rows scanned piv) (hlt : piv.length < K)
    (hone : rows ⟨piv.length, hlt⟩ j = 1) :
    Reduced C (addRow ⟨piv.length, hlt⟩ (fun r => -rows r j) rows) (scanned ++ [j])
      (piv ++ [j]) where
  span := by rw [span_addRow, h.span]
  length_le := by simpa using hlt
  subset := List.append_subset.2
    ⟨fun _ hi => List.mem_append_left _ (h.subset hi), List.subset_append_right _ _⟩
  unit := by
    intro r i
    by_cases hr : r = ⟨piv.length, hlt⟩
    · -- the row of the pivot is left as it was
      subst hr
      rw [addRow_self]
      rcases get_append_singleton i with ⟨hi, hget⟩ | ⟨hi, hget⟩
      · rw [hget, h.unit]
      · rw [hget, hone, if_pos hi.symm]
    · -- another row changes in the columns outside of the pivots only
      have hrlen : (r : ℕ) ≠ piv.length := fun hlen => hr (Fin.ext hlen)
      rw [addRow_of_ne hr]
      rcases get_append_singleton i with ⟨hi, hget⟩ | ⟨hi, hget⟩
      · have hpiv : rows ⟨piv.length, hlt⟩ (piv.get ⟨i, hi⟩) = 0 := by
          rw [h.unit, if_neg (Nat.ne_of_gt hi)]
        rw [hget, Pi.add_apply, Pi.smul_apply, hpiv, smul_zero, add_zero, h.unit]
      · rw [hget, Pi.add_apply, Pi.smul_apply, hone, smul_eq_mul, mul_one, add_neg_cancel,
          if_neg (fun hlen => hrlen (hlen.trans hi))]
  rest := by
    intro r hr i hi
    rw [List.length_append, List.length_singleton] at hr
    have hne : r ≠ ⟨piv.length, hlt⟩ := fun heq => by
      rw [heq] at hr
      exact absurd hr (Nat.not_succ_le_self _)
    rw [addRow_of_ne hne, Pi.add_apply, Pi.smul_apply]
    rcases List.mem_append.1 hi with hi | hi
    · rw [h.rest r (by omega) i hi, h.rest _ le_rfl i hi, smul_zero, add_zero]
    · rw [List.mem_singleton.1 hi, hone, smul_eq_mul, mul_one, add_neg_cancel]
  greedy := by
    intro l i l' hsplit
    -- the row of the pivot shows that the column is not determined by those before it
    have hmem : rows ⟨piv.length, hlt⟩ ∈ C := h.span ▸ Submodule.subset_span ⟨_, rfl⟩
    have hvanish : ∀ k ∈ scanned, rows ⟨piv.length, hlt⟩ k = 0 := h.rest _ le_rfl
    rcases append_singleton_eq_iff.1 hsplit with ⟨t, -, hscanned⟩ | ⟨-, rfl, rfl⟩
    · -- the new pivot is no column passed before
      have hij : i ≠ j := by
        rintro rfl
        have hi := hvanish i (by simp [hscanned])
        exact one_ne_zero (hone.symm.trans hi)
      rw [List.mem_append, List.mem_singleton, or_iff_left hij]
      exact h.greedy l i t hscanned
    · refine iff_of_true (by simp) fun hdet => ?_
      exact one_ne_zero (hone.symm.trans (hdet _ hmem hvanish))

/-- The columns that have been passed are all determined when every row has a pivot. -/
theorem skip_of_full (h : Reduced C rows scanned piv) (hnew : j ∉ scanned)
    (hfull : piv.length = K) : Reduced C rows (scanned ++ [j]) piv :=
  h.skip hnew fun r hr => absurd r.isLt (by omega)

/-- A vector is the combination of the reduced rows with its values at the pivots. -/
theorem eq_sum (h : Reduced C rows scanned piv) (hfull : piv.length = K) {x : J → F} (hx : x ∈ C) :
    x = ∑ r : Fin K, x (piv.get (r.cast hfull.symm)) • rows r := by
  rw [← h.span] at hx
  obtain ⟨a, rfl⟩ := (Submodule.mem_span_range_iff_exists_fun F).1 hx
  refine Finset.sum_congr rfl fun r _ => ?_
  congr 1
  exact (h.sum_apply_get a (r := r) (by omega)).symm

theorem linearIndependent (h : Reduced C rows scanned piv) (hfull : piv.length = K) :
    LinearIndependent F rows := by
  rw [Fintype.linearIndependent_iff]
  intro a ha r
  rw [← h.sum_apply_get a (r := r) (by omega), ha, Pi.zero_apply]

theorem nodup (h : Reduced C rows scanned piv) : piv.Nodup := by
  rw [List.nodup_iff_injective_get]
  intro i i' heq
  have hlt : (i : ℕ) < K := i.isLt.trans_le h.length_le
  by_contra hne
  have hi := h.unit ⟨i, hlt⟩ i
  rw [heq, h.unit, if_neg fun hval => hne (Fin.ext hval), if_pos rfl] at hi
  exact zero_ne_one hi

/-- When all columns have been passed, every row has a pivot exactly when the rank is full. -/
theorem finrank_eq_iff (h : Reduced C rows scanned piv) (hall : ∀ j, j ∈ scanned) :
    Module.finrank F C = K ↔ piv.length = K := by
  constructor
  · intro hrank
    by_contra hne
    have hlt : piv.length < K := lt_of_le_of_ne h.length_le hne
    -- the first row without a pivot is zero
    have hzero : rows ⟨piv.length, hlt⟩ = 0 := funext fun j => h.rest _ le_rfl j (hall j)
    have hind : LinearIndependent F rows := by
      rw [linearIndependent_iff_card_eq_finrank_span, Fintype.card_fin, Set.finrank, h.span, hrank]
    exact hind.ne_zero _ hzero
  · intro hfull
    rw [← h.span, finrank_span_eq_card (h.linearIndependent hfull), Fintype.card_fin]

end Reduced

end RowReduction
