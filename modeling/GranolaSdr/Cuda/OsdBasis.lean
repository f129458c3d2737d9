import GranolaSdr.Cuda.OsdSearch
import GranolaSdr.Lib.BinaryCode
import GranolaSdr.Lib.InformationSet

/-!
# The most reliable basis

The elimination of `osd_decode_n174` takes the columns in the order of reliability and passes those
that depend on the columns before. Its pivots are an information set of the code, and the most
reliable one: sorted by reliability, no other information set is ahead at any place.

## Main definitions

* `code`: the code of a generator;
* `pivots`: the positions that the elimination selects.

## Main results

* `most_reliable_basis`: what the pivots and the eliminated rows are.
-/

namespace GranolaSdr.Cuda.Osd

open RowReduction

/-- The code of a generator. -/
def code (K : ℕ) (gen : ℕ → UInt8) : Submodule (ZMod 2) (Fin N → ZMod 2) :=
  Submodule.span (ZMod 2) (Set.range (generator K gen).row)

/-- The positions of the pivot columns. -/
def pivots (llr : Fin N → ℚ) {K : ℕ} (e : Elimination K) : Finset (Fin N) :=
  (e.pivot_col.map fun c => (perm llr).get c).toFinset

section Basis

variable (llr : Fin N → ℚ) {K : ℕ} (gen : ℕ → UInt8)

theorem mem_perm (p : Fin N) : p ∈ (perm llr).toList :=
  (List.mergeSort_perm _ _).mem_iff.2 (List.mem_finRange p)

/-- The reliability falls along the columns. -/
theorem pairwise_perm_ge : (perm llr).toList.Pairwise (|llr ·| ≥ |llr ·|) := by
  apply (pairwise_perm llr).imp
  rintro p q (hlt | ⟨heq, -⟩)
  · exact hlt.le
  · exact heq.ge

/-- A pivot column has a one in its own row only. -/
theorem get_pivot_col (i : Fin (reduce (buildRows K gen (perm llr))).pivot_col.length) (r : Fin K) :
    ((reduce (buildRows K gen (perm llr))).rows.get r).get
      ((reduce (buildRows K gen (perm llr))).pivot_col.get i) = decide ((r : ℕ) = i) := by
  -- the entry of the reduced matrix, as a bit of the row
  have hunit := (reduced_reduce llr gen).unit r (i.cast (List.length_map ..).symm)
  rw [rowsVec, List.get_eq_getElem, List.getElem_map, Bits.vec_apply] at hunit
  rw [← Gf2.bit_inj, List.get_eq_getElem]
  by_cases hri : (r : ℕ) = i
  · rw [decide_eq_true hri, Gf2.bit_true]
    exact hunit.trans (if_pos hri)
  · rw [decide_eq_false hri, Gf2.bit_false]
    exact hunit.trans (if_neg hri)

/-- At full rank the elimination selects `K` columns. Their positions are an information set of the
code, and the most reliable one; each is one in its own row only, and the rows still span the
code. -/
theorem most_reliable_basis (hrank : (generator K gen).rank = K) :
    let e := reduce (buildRows K gen (perm llr))
    e.pivot_col.length = K ∧ (pivots llr e).card = K ∧
      InformationSet (code K gen) (pivots llr e) ∧
      (∀ S, InformationSet (code K gen) S →
        List.Forall₂ (· ≤ ·) (descending (|llr ·|) S) (descending (|llr ·|) (pivots llr e))) ∧
      (∀ (i : Fin e.pivot_col.length) (r : Fin K),
        (e.rows.get r).get (e.pivot_col.get i) = decide ((r : ℕ) = i)) ∧
      Submodule.span (ZMod 2) (Set.range (rowsVec (permEquiv llr) e.rows)) = code K gen := by
  intro e
  have hred := reduced_reduce (K := K) llr gen
  have hlen : e.pivot_col.length = K := (rank_reduce_eq_iff llr gen).2 hrank
  have hfull : (e.pivot_col.map (permEquiv llr)).length = K := (List.length_map ..).trans hlen
  refine ⟨hlen, ?_, hred.informationSet hfull, ?_, get_pivot_col llr gen, hred.span⟩
  · exact (List.toFinset_card_of_nodup hred.nodup).trans hfull
  · -- the columns are taken in the order of reliability
    intro S hS
    exact hred.forall₂_descending (mem_perm llr) (pairwise_perm_ge llr) hfull hS

end Basis

/-- The generator of 91 rows that repeats its message in the first 91 bits. -/
def firstBits (n : ℕ) : UInt8 := if n % N = n / N then 1 else 0

theorem rank_firstBits : (generator K_MAX firstBits).rank = K_MAX := by
  have hsys (r s : Fin K_MAX) :
      generator K_MAX firstBits r (s.castLE (by decide)) = if r = s then 1 else 0 := by
    have hs : (s : ℕ) < N := s.isLt.trans (by decide)
    have hmod : (r * N + s) % N = s := by rw [Nat.mul_add_mod', Nat.mod_eq_of_lt hs]
    have hdiv : (r * N + s) / N = r := by
      rw [Nat.mul_comm, Nat.mul_add_div (by decide), Nat.div_eq_of_lt hs, Nat.add_zero]
    rw [generator, Matrix.of_apply, firstBits, Fin.val_castLE, hmod, hdiv]
    by_cases hrs : r = s
    · simp [hrs]
    · have hval : (s : ℕ) ≠ r := fun h => hrs (Fin.ext h.symm)
      simp [hrs, hval]
  rw [(LinearCode.linearIndependent_of_systematic hsys).rank_matrix, Fintype.card_fin]

theorem most_reliable_basis_firstBits :
    (generator K_MAX firstBits).rank = K_MAX ∧
      (pivots (fun p => p) (reduce (buildRows K_MAX firstBits (perm fun p => p)))).card = K_MAX :=
  ⟨rank_firstBits, (most_reliable_basis (fun p => p) firstBits rank_firstBits).2.1⟩

end GranolaSdr.Cuda.Osd
