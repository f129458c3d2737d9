import Mathlib.Algebra.BigOperators.Intervals
import Mathlib.Algebra.BigOperators.Module
import Mathlib.Algebra.BigOperators.Ring.Finset
import Mathlib.Algebra.Order.BigOperators.Group.Finset
import Mathlib.Algebra.Ring.Int.Defs
import Mathlib.Data.Int.ConditionallyCompleteOrder
import Mathlib.Data.Int.Interval
import Mathlib.Tactic.Linarith
import Mathlib.Tactic.Ring

/-!
# Mixing and filtering

Signals over the integers: mixing with an oscillator, convolution with finitely many taps around
zero, and decimation. Mixing before a filter is the same as rotating the taps before, and the output
after. A signal that vanishes outside of a stretch needs only the taps that meet it.

## Main definitions

* `Oscillator`: a signal that turns sums of indices into products;
* `mix`, `convolve`, `decimate`: the operations;
* `stretch`: finitely many samples as a signal.

## Main results

* `convolve_mix`: the taps are rotated in place of the signal;
* `sum_eq_sum_clipped`: the taps that meet a stretch;
* `neg_le_sum_mul`: falling weights keep a lower bound of the partial sums.
-/

namespace Dsp

variable {R : Type*} [CommRing R]

/-- A signal whose value at a sum of indices is the product of its values. -/
structure Oscillator (e : ℤ → R) : Prop where
  zero : e 0 = 1
  add : ∀ a b, e (a + b) = e a * e b

/-- The product of a signal with an oscillator. -/
def mix (e x : ℤ → R) (i : ℤ) : R := x i * e i

/-- The convolution of a signal with the taps from `-half` to `half`. -/
noncomputable def convolve (half : ℕ) (h x : ℤ → R) (n : ℤ) : R :=
  ∑ t ∈ Finset.Icc (-half : ℤ) half, h t * x (n - t)

/-- Every `decim`-th sample of a signal. -/
def decimate (decim : ℕ) (x : ℤ → R) (k : ℕ) : R := x (k * decim : ℕ)

/-- Some samples as a signal, zero outside of them. -/
def stretch (samples : List R) (i : ℤ) : R := if 0 ≤ i then samples.getD i.toNat 0 else 0

theorem stretch_of_lt {samples : List R} {i : ℤ} (h : i < 0) : stretch samples i = 0 :=
  if_neg (not_le.2 h)

theorem stretch_of_le {samples : List R} {i : ℤ} (h : (samples.length : ℤ) ≤ i) :
    stretch samples i = 0 := by
  rw [stretch]
  split_ifs
  · rw [List.getD_eq_getElem?_getD, List.getElem?_eq_none (by omega)]
    rfl
  · rfl

/-- Symmetric taps may be applied in either direction. -/
theorem convolve_of_symmetric {half : ℕ} {h : ℤ → R} (hsymm : ∀ t, h (-t) = h t) (x : ℤ → R)
    (n : ℤ) : convolve half h x n = ∑ t ∈ Finset.Icc (-half : ℤ) half, h t * x (n + t) := by
  refine Finset.sum_nbij' (fun t => -t) (fun t => -t) ?_ ?_ ?_ ?_ ?_
  · intro t ht
    simp only [Finset.mem_Icc] at ht ⊢
    omega
  · intro t ht
    simp only [Finset.mem_Icc] at ht ⊢
    omega
  · exact fun t _ => neg_neg t
  · exact fun t _ => neg_neg t
  · intro t _
    rw [hsymm, sub_eq_add_neg]

/-- The mixing of a signal before symmetric taps is a rotation of the taps, and of the output. -/
theorem convolve_mix (half : ℕ) {h : ℤ → R} (hsymm : ∀ t, h (-t) = h t) {e : ℤ → R}
    (he : Oscillator e) (x : ℤ → R) (n : ℤ) :
    convolve half h (mix e x) n =
      e n * ∑ t ∈ Finset.Icc (-half : ℤ) half, h t * e t * x (n + t) := by
  rw [convolve_of_symmetric hsymm, Finset.mul_sum]
  refine Finset.sum_congr rfl fun t _ => ?_
  rw [mix, he.add]
  ring

/-- Only the taps that meet the stretch contribute. -/
theorem sum_eq_sum_clipped (half : ℕ) (g : ℤ → R) (samples : List R) (c : ℤ) :
    ∑ t ∈ Finset.Icc (-half : ℤ) half, g t * stretch samples (c + t) =
      ∑ t ∈ Finset.Icc (max (-half : ℤ) (-c)) (min (half : ℤ) (samples.length - 1 - c)),
        g t * stretch samples (c + t) := by
  refine (Finset.sum_subset (fun t ht => ?_) fun t ht hout => ?_).symm
  · rw [Finset.mem_Icc] at ht ⊢
    omega
  · rw [Finset.mem_Icc] at ht hout
    by_cases hlow : c + t < 0
    · rw [stretch_of_lt hlow, mul_zero]
    · rw [stretch_of_le (by omega), mul_zero]

/-! ## Falling weights -/

/-- A sum with falling weights is bounded as its partial sums without them are. -/
theorem neg_le_sum_mul {R : Type*} [CommRing R] [LinearOrder R] [IsStrictOrderedRing R]
    {f x : ℕ → R} {n : ℕ} {bound : R} (hf : ∀ i, i + 1 < n → f (i + 1) ≤ f i)
    (hlast : 0 ≤ f (n - 1)) (hx : ∀ k, -bound ≤ ∑ i ∈ Finset.range k, x i) :
    -(f 0 * bound) ≤ ∑ i ∈ Finset.range n, f i * x i := by
  have hparts := Finset.sum_range_by_parts f x n
  simp only [smul_eq_mul] at hparts
  have hfall : ∑ i ∈ Finset.range (n - 1), (f (i + 1) - f i) * ∑ j ∈ Finset.range (i + 1), x j ≤
      ∑ i ∈ Finset.range (n - 1), (f (i + 1) - f i) * -bound := by
    apply Finset.sum_le_sum
    intro i hi
    have hlt := Finset.mem_range.1 hi
    exact mul_le_mul_of_nonpos_left (hx (i + 1)) (sub_nonpos.2 (hf i (by omega)))
  rw [← Finset.sum_mul, Finset.sum_range_sub] at hfall
  have hend := mul_le_mul_of_nonneg_left (hx n) hlast
  linarith

end Dsp
