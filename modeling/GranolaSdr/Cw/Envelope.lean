import Mathlib.Algebra.BigOperators.Intervals
import Mathlib.Algebra.CharZero.Defs
import Mathlib.Algebra.Field.Basic
import Mathlib.Tactic.LinearCombination
import Mathlib.Tactic.NormNum
import Mathlib.Tactic.Ring

/-!
# Smoothing of the envelope

The first stage of `CwMorse::decode` of `src/gm/hf/cw_morse.cc`: a moving average of five samples,
kept as a running sum. The sum is primed with the first sample in place of the two before it. These
two terms are counted when they enter but never leave, so the first sample weighs on every average.

## Main definitions

* `smooth`: the smoothed envelope, in exact arithmetic;
* `centred`: the mean of five samples.

## Main results

* `smooth_eq`: the smoothed envelope in closed form;
* `smooth_eq_centred_iff`: the running sum yields a centred average if the first sample equals it.
-/

namespace GranolaSdr.Cw.Envelope

variable {F : Type*} [Field F]

/-- The state of the loop: a running sum, the number of its terms, and the output. -/
structure Smoothing (F : Type*) where
  acc : F
  cnt : ℤ
  s : List F

namespace Smoothing

/-- Priming adds the samples from two before the first on, with the first one for those. -/
def prime (env : List F) : Smoothing F :=
  ([-2, -1, 0, 1, 2].filter fun i : ℤ => i < env.length).foldl
    (fun p i => { p with acc := p.acc + env.getD i.toNat 0, cnt := p.cnt + 1 })
    ⟨0, 0, []⟩

/-- The next sample enters the sum. -/
def enter (env : List F) (i : ℕ) (p : Smoothing F) : Smoothing F :=
  if i + 3 < env.length then { p with acc := p.acc + env.getD (i + 3) 0, cnt := p.cnt + 1 } else p

/-- The last sample leaves the sum. -/
def leave (env : List F) (i : ℕ) (p : Smoothing F) : Smoothing F :=
  if 2 ≤ i then { p with acc := p.acc - env.getD (i - 2) 0, cnt := p.cnt - 1 } else p

/-- A round of the loop. -/
def next (env : List F) (p : Smoothing F) (i : ℕ) : Smoothing F :=
  leave env i (enter env i { p with s := p.s ++ [p.acc / p.cnt] })

end Smoothing

/-- The smoothed envelope. -/
def smooth (env : List F) : List F :=
  ((List.range env.length).foldl (Smoothing.next env) (.prime env)).s

/-- The mean of five samples around an index. -/
def centred (env : List F) (i : ℕ) : F := (∑ j ∈ Finset.Icc (i - 2) (i + 2), env.getD j 0) / 5

/-! ## The running sum -/

/-- The sum holds the samples between two indices, and the first sample twice more. -/
structure Sums (env : List F) (lo hi : ℕ) (p : Smoothing F) : Prop where
  acc : p.acc = 2 * env.getD 0 0 + ∑ j ∈ Finset.Ico lo hi, env.getD j 0
  cnt : p.cnt = 2 + (hi - lo)

theorem prime_s (env : List F) : (Smoothing.prime env).s = [] := by
  unfold Smoothing.prime
  exact List.foldlRecOn _ _ (motive := fun p : Smoothing F => p.s = []) rfl fun _ h _ _ => h

theorem sums_prime {env : List F} (hne : env ≠ []) :
    Sums env 0 (min env.length 3) (.prime env) := by
  match env with
  | [a] =>
    -- the two indices before the first sample are read as the first sample
    constructor
    · simp [Smoothing.prime]
      ring
    · simp [Smoothing.prime]
  | [a, b] =>
    constructor
    · simp [Smoothing.prime, Finset.sum_range_succ]
      ring
    · simp [Smoothing.prime]
  | a :: b :: c :: env =>
    have hfilter : [-2, -1, 0, 1, 2].filter (fun i : ℤ => i < (a :: b :: c :: env).length) =
        [-2, -1, 0, 1, 2] := by
      simp only [List.length_cons, List.filter_eq_self, List.forall_mem_cons]
      simp
      omega
    have hmin : min (a :: b :: c :: env).length 3 = 3 := by simp
    rw [hmin]
    constructor
    · rw [Smoothing.prime, hfilter]
      simp [Finset.sum_range_succ]
      ring
    · rw [Smoothing.prime, hfilter]
      simp

theorem Sums.enter {env : List F} {lo i : ℕ} (hlo : lo ≤ i) (hi : i < env.length) {p : Smoothing F}
    (h : Sums env lo (min env.length (i + 3)) p) :
    Sums env lo (min env.length (i + 4)) (p.enter env i) := by
  unfold Smoothing.enter
  split_ifs with hin
  · rw [min_eq_right hin.le] at h
    rw [min_eq_right (show i + 3 + 1 ≤ env.length from hin)]
    constructor
    · show p.acc + env.getD (i + 3) 0 = _
      rw [h.acc, Finset.sum_Ico_succ_top (hlo.trans (Nat.le_add_right i 3)), add_assoc]
    · show p.cnt + 1 = _
      rw [h.cnt]
      push_cast
      ring
  · -- no sample is left
    rw [min_eq_left (by omega)] at h ⊢
    exact h

theorem Sums.leave {env : List F} {i hi : ℕ} (hlt : i < hi) {p : Smoothing F}
    (h : Sums env (i - 2) hi p) : Sums env (i + 1 - 2) hi (p.leave env i) := by
  unfold Smoothing.leave
  split_ifs with hout
  · have hlo : i + 1 - 2 = i - 2 + 1 := by omega
    rw [hlo]
    constructor
    · show p.acc - env.getD (i - 2) 0 = _
      rw [h.acc, Finset.sum_eq_sum_Ico_succ_bot (by omega)]
      ring
    · show p.cnt - 1 = _
      rw [h.cnt]
      push_cast
      ring
  · -- the window starts at the first sample still
    have hlo : i + 1 - 2 = i - 2 := by omega
    rwa [hlo]

/-- What the loop computes at an index: the samples around it and the first one twice more. -/
def biased (env : List F) (i : ℕ) : F :=
  (env.getD 0 0 + env.getD 0 0 +
      ∑ j ∈ Finset.Ico (i - 2) (min env.length (i + 3)), env.getD j 0) /
    ((2 + ((min env.length (i + 3) : ℕ) - (i - 2 : ℕ)) : ℤ) : F)

/-- The loop, by induction on the number of rounds. -/
theorem foldl_next {env : List F} {n : ℕ} (hn : n ≤ env.length) (hne : env ≠ []) :
    let p := (List.range n).foldl (Smoothing.next env) (.prime env)
    p.s = (List.range n).map (biased env) ∧ Sums env (n - 2) (min env.length (n + 3)) p := by
  induction n with
  | zero => exact ⟨prime_s env, sums_prime hne⟩
  | succ n ih =>
    obtain ⟨hs, hsums⟩ := ih (Nat.le_of_succ_le hn)
    rw [List.range_succ, List.foldl_append]
    generalize (List.range n).foldl (Smoothing.next env) (.prime env) = p at hs hsums
    -- the value is computed before the sums move on to the next index
    have hout : (Smoothing.next env p n).s = p.s ++ [biased env n] := by
      have hvalue : p.acc / p.cnt = biased env n := by rw [hsums.acc, hsums.cnt, biased, two_mul]
      rw [← hvalue, Smoothing.next, Smoothing.leave, Smoothing.enter]
      split_ifs <;> rfl
    refine ⟨?_, ?_⟩
    · rw [List.map_append, ← hs]
      exact hout
    · have hsums' : Sums env (n - 2) (min env.length (n + 3))
          { p with s := p.s ++ [p.acc / p.cnt] } := ⟨hsums.acc, hsums.cnt⟩
      exact (hsums'.enter (Nat.sub_le n 2) hn).leave (by omega)

/-- The smoothed envelope in closed form. -/
theorem smooth_eq (env : List F) : smooth env = (List.range env.length).map (biased env) := by
  rcases eq_or_ne env [] with rfl | hne
  · rfl
  · exact (foldl_next le_rfl hne).1

variable [CharZero F]

/-- At an index with two samples on each side the average is centred if and only if it equals the
first sample. -/
theorem smooth_eq_centred_iff (env : List F) {i : ℕ} (hlow : 2 ≤ i) (hhigh : i + 3 ≤ env.length) :
    (smooth env)[i]? = some (centred env i) ↔ env.getD 0 0 = centred env i := by
  have hi : i < (List.range env.length).length := by rw [List.length_range]; omega
  have hvalue : (smooth env)[i]? = some (biased env i) := by
    rw [smooth_eq, List.getElem?_map, List.getElem?_eq_getElem hi, List.getElem_range]
    rfl
  have hwindow : Finset.Icc (i - 2) (i + 2) = Finset.Ico (i - 2) (min env.length (i + 3)) := by
    ext j
    simp only [Finset.mem_Icc, Finset.mem_Ico]
    omega
  -- five samples are counted, and the first one twice more
  have hcnt : (2 + ((min env.length (i + 3) : ℕ) - (i - 2 : ℕ)) : ℤ) = 7 := by omega
  rw [hvalue, Option.some_inj, biased, hcnt, centred, hwindow]
  generalize ∑ j ∈ Finset.Ico (i - 2) (min env.length (i + 3)), env.getD j 0 = sum
  push_cast
  rw [div_eq_div_iff (by norm_num) (by norm_num), eq_div_iff (by norm_num)]
  constructor <;> intro h
  · exact mul_left_cancel₀ (show (2 : F) ≠ 0 by norm_num) (by linear_combination h)
  · linear_combination 2 * h

/-- A first sample that is no longer among the five is averaged in. -/
theorem smooth_ne_centred :
    ¬∀ (env : List ℚ) (i : ℕ), 2 ≤ i → i + 3 ≤ env.length →
      (smooth env)[i]? = some (centred env i) := by
  intro h
  have h3 := h [7, 0, 0, 0, 0, 0] 3 (by decide) (by decide)
  rw [smooth_eq] at h3
  norm_num [biased, centred, Finset.sum_Icc_succ_top, Finset.sum_Ico_succ_top] at h3

/-- An envelope whose first sample is the average of its middle ones. -/
theorem smooth_eq_centred_iff_example :
    (smooth [2, 1, 2, 3, 4, (0 : ℚ)])[3]? = some (centred [2, 1, 2, 3, 4, 0] 3) ↔
      ([2, 1, 2, 3, 4, 0] : List ℚ).getD 0 0 = centred [2, 1, 2, 3, 4, 0] 3 :=
  smooth_eq_centred_iff _ (by decide) (by decide)

end GranolaSdr.Cw.Envelope
