import GranolaSdr.Lib.BinaryField
import GranolaSdr.Lib.Gf2
import Mathlib.Data.List.GetD
import Mathlib.LinearAlgebra.Matrix.Rank

/-!
# Linear codes by a generator and by parity checks

A generator and a matrix of parity checks describe the same code as soon as every row of the
generator passes the checks, the rows of both are independent, and their numbers add up to the
length. Independence of rows given as bit vectors can be tested by elimination.

## Main definitions

* `Gf2.ofBools`: the bit vector with given bits;
* `Gf2.vec`: a bit vector as a vector over the field with two elements.

## Main results

* `LinearCode.mulVec_eq_zero_iff`: the vectors that pass the checks are the combinations of the
  generator's rows;
* `LinearCode.eq_sum_of_mem`: a codeword of a systematic generator is the combination with the
  coefficients it shows at the systematic positions;
* `Gf2.linearIndependent_vec`: independent bit vectors are linearly independent.
-/

namespace LinearCode

variable {F J : Type*} [Field F] {K M : ℕ}

section Systematic

variable {G : Matrix (Fin K) J F} {sys : Fin K → J}

/-- A combination of systematic rows has its coefficients at the systematic positions. -/
theorem sum_apply_systematic (hsys : ∀ r s, G r (sys s) = if r = s then 1 else 0) (a : Fin K → F)
    (s : Fin K) : (∑ r, a r • G r) (sys s) = a s := by
  rw [Finset.sum_apply, Finset.sum_eq_single s]
  · rw [Pi.smul_apply, hsys, if_pos rfl, smul_eq_mul, mul_one]
  · intro r _ hr
    rw [Pi.smul_apply, hsys, if_neg hr, smul_zero]
  · intro hs
    exact absurd (Finset.mem_univ s) hs

/-- A codeword of a systematic generator is the combination with the coefficients it shows at the
systematic positions. -/
theorem eq_sum_of_mem (hsys : ∀ r s, G r (sys s) = if r = s then 1 else 0) {x : J → F}
    (hx : x ∈ Submodule.span F (Set.range G.row)) : x = ∑ r, x (sys r) • G r := by
  obtain ⟨a, rfl⟩ := (Submodule.mem_span_range_iff_exists_fun F).1 hx
  refine Finset.sum_congr rfl fun r _ => ?_
  congr 1
  exact (sum_apply_systematic hsys a r).symm

theorem linearIndependent_of_systematic
    (hsys : ∀ r s, G r (sys s) = if r = s then 1 else 0) : LinearIndependent F G.row := by
  rw [Fintype.linearIndependent_iff]
  intro a ha r
  have hsum : (∑ s, a s • G s) = 0 := ha
  rw [← sum_apply_systematic hsys a r, hsum, Pi.zero_apply]

end Systematic

/-- The vectors that pass the parity checks are the combinations of the generator's rows. -/
theorem mulVec_eq_zero_iff [Fintype J] {H : Matrix (Fin M) J F} {G : Matrix (Fin K) J F}
    (hpass : ∀ r, H.mulVec (G r) = 0) (hH : LinearIndependent F H.row)
    (hG : LinearIndependent F G.row) (hdim : M + K = Fintype.card J) (x : J → F) :
    H.mulVec x = 0 ↔ x ∈ Submodule.span F (Set.range G.row) := by
  have hle : Submodule.span F (Set.range G.row) ≤ LinearMap.ker H.mulVecLin := by
    rw [Submodule.span_le]
    rintro _ ⟨r, rfl⟩
    exact hpass r
  -- both spaces have the dimension that the checks leave
  have hker : Module.finrank F (LinearMap.ker H.mulVecLin) = K := by
    have hnullity := LinearMap.finrank_range_add_finrank_ker H.mulVecLin
    have hrank : Module.finrank F (LinearMap.range H.mulVecLin) = M := by
      rw [← Matrix.rank, hH.rank_matrix, Fintype.card_fin]
    rw [hrank, Module.finrank_fintype_fun_eq_card] at hnullity
    omega
  have hspan : Module.finrank F (Submodule.span F (Set.range G.row)) = K := by
    rw [finrank_span_eq_card hG, Fintype.card_fin]
  rw [Submodule.eq_of_le_of_finrank_eq hle (hspan.trans hker.symm)]
  rfl

end LinearCode

namespace Gf2

variable {n m : ℕ}

/-- The value of a function at a number that is computed first, and not each time it is used. -/
def withValue {α : Type*} (k : ℕ) (f : ℕ → α) : α :=
  match k with
  | 0 => f 0
  | k + 1 => f (k + 1)

@[simp]
theorem withValue_eq {α : Type*} (k : ℕ) (f : ℕ → α) : withValue k f = f k := by
  cases k <;> rfl

/-- The bit vector with given bits, the first one in the lowest place. -/
def ofBools (n : ℕ) (bs : List Bool) : BitVec n := BitVec.ofNat n (bs.foldr Nat.bit 0)

theorem testBit_foldr_bit (bs : List Bool) (i : ℕ) :
    (bs.foldr Nat.bit 0).testBit i = bs.getD i false := by
  induction bs generalizing i with
  | nil => simp
  | cons b bs ih =>
    cases i with
    | zero => rw [List.foldr_cons, Nat.testBit_bit_zero, List.getD_cons_zero]
    | succ i => rw [List.foldr_cons, Nat.testBit_bit_succ, ih, List.getD_cons_succ]

theorem getLsbD_ofBools (bs : List Bool) {i : ℕ} (hi : i < n) :
    (ofBools n bs).getLsbD i = bs.getD i false := by
  rw [ofBools, BitVec.getLsbD_ofNat, decide_eq_true hi, Bool.true_and, testBit_foldr_bit]

/-- A bit vector as a vector over the field with two elements. -/
def vec (b : BitVec n) (p : Fin n) : ZMod 2 := bit (b.getLsbD p)

@[simp]
theorem vec_zero : vec 0#n = 0 := by
  funext p
  simp [vec]

@[simp]
theorem vec_xor (a b : BitVec n) : vec (a ^^^ b) = vec a + vec b := by
  funext p
  simp [vec]

theorem vec_foldr_xor (l : List (BitVec n)) :
    vec (l.foldr (· ^^^ ·) 0#n) = (l.map vec).sum := by
  induction l with
  | nil => exact vec_zero
  | cons b l ih => rw [List.foldr_cons, vec_xor, ih, List.map_cons, List.sum_cons]

@[simp]
theorem vec_twoPow (p : Fin n) : vec (BitVec.twoPow n p) = Pi.single p 1 := by
  funext q
  rw [vec, BitVec.getLsbD_twoPow, Pi.single_apply]
  by_cases hq : q = p
  · subst hq
    simp
  · have hval : (p : ℕ) ≠ q := fun h => hq (Fin.ext h.symm)
    simp [hq, hval]

theorem vec_combine (b : Fin m → BitVec n) (a : Fin m → Bool) :
    vec (combine (List.ofFn b) (List.ofFn a)) = ∑ i, bit (a i) • vec (b i) := by
  induction m with
  | zero => simp
  | succ m ih =>
    rw [List.ofFn_succ, List.ofFn_succ, combine_cons, vec_xor, ih, Fin.sum_univ_succ]
    congr 1
    cases a 0 <;> simp

/-- Independent bit vectors are linearly independent. -/
theorem linearIndependent_vec {b : Fin m → BitVec n} (h : Independent (List.ofFn b)) :
    LinearIndependent (ZMod 2) fun i => vec (b i) := by
  rw [Fintype.linearIndependent_iff]
  intro a ha i
  have hzero : combine (List.ofFn b) (List.ofFn fun i => decide (a i = 1)) = 0 := by
    have hvec : vec (combine (List.ofFn b) (List.ofFn fun i => decide (a i = 1))) = 0 := by
      rw [vec_combine, ← ha]
      simp only [bit_decide]
    refine BitVec.eq_of_getLsbD_eq fun p hp => ?_
    have hbit := congrFun hvec ⟨p, hp⟩
    rw [vec, Pi.zero_apply, ← bit_false, bit_inj] at hbit
    rw [hbit, BitVec.ofNat_eq_ofNat, BitVec.getLsbD_zero]
  have hfalse := h _ (by simp) hzero
  rw [List.mem_ofFn] at hfalse
  have hi : decide (a i = 1) = false :=
    Bool.eq_false_of_not_eq_true fun htrue => hfalse ⟨i, htrue⟩
  rw [← bit_decide (a i), hi, bit_false]

end Gf2
