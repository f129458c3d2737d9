import GranolaSdr.Lib.Mixing
import Mathlib.Algebra.BigOperators.Field
import Mathlib.Algebra.BigOperators.Group.Finset.Interval
import Mathlib.Analysis.SpecialFunctions.Trigonometric.Bounds

/-!
# Extraction of a frame

`extract_frame` of `src/gm/hf/refine.cc` mixes a stretch of samples down to a frequency, filters it
with a windowed sinc and decimates it, all in one loop: the taps are rotated once, the range of taps
is clipped at the ends of the stretch, and the phase of the output is advanced from sample to sample
and kept at length one.

## Main definitions

* `tap`: the taps of the low-pass filter;
* `extract_frame`: the loop, in exact arithmetic, where a read outside of the stretch fails.

## Main results

* `sum_tap`: the taps are of sum one;
* `extract_frame_eq`: the loop reads nothing outside of the stretch, and its outputs are the mixed
  signal, filtered and decimated.
-/

namespace GranolaSdr.Hf.ExtractFrame

open Dsp Real

/-- The sample rate of a frame. -/
def kRefineSr : ℕ := 12800

/-- The decimation. -/
def decim (sr_in : ℕ) : ℕ := sr_in / kRefineSr

/-- The taps reach so far to each side. -/
def half (sr_in : ℕ) : ℕ := 4 * decim sr_in

/-- The cutoff, below half of the output rate. -/
noncomputable def fc (sr_in : ℕ) : ℝ := 0.40 * kRefineSr / sr_in

/-- A tap before normalisation. -/
noncomputable def rawTap (sr_in : ℕ) (t : ℤ) : ℝ :=
  let sinc := if t = 0 then 2.0 * fc sr_in else sin (2.0 * π * fc sr_in * t) / (π * t)
  let win := 0.5 * (1 - cos (2.0 * π * (t + half sr_in) / (2.0 * half sr_in)))
  sinc * win

/-- The taps of the low-pass filter, of sum one. -/
noncomputable def tap (sr_in : ℕ) (t : ℤ) : ℝ :=
  rawTap sr_in t / ∑ t ∈ Finset.Icc (-half sr_in : ℤ) (half sr_in), rawTap sr_in t

/-- The phase that mixing advances by in a sample. -/
noncomputable def w (freq_hz : ℝ) (sr_in : ℕ) : ℝ := -2.0 * π * freq_hz / sr_in

/-- A number of length one. -/
noncomputable def cis (phase : ℝ) : ℂ := ⟨cos phase, sin phase⟩

/-- A tap with the phase of its sample. -/
noncomputable def g (freq_hz : ℝ) (sr_in : ℕ) (t : ℤ) : ℂ :=
  tap sr_in t * cis (w freq_hz sr_in * t)

/-- Read a sample; there is none outside of the stretch. -/
def read (samples : List ℂ) (i : ℤ) : Option ℂ := if 0 ≤ i then samples[i.toNat]? else none

/-- The inner loop, over the taps from `t` on. -/
noncomputable def accumulate (g : ℤ → ℂ) (samples : List ℂ) (c t0 : ℤ) : ℕ → Option ℂ
  | 0 => some 0
  | n + 1 => do
    let acc ← accumulate g samples c t0 n
    let x ← read samples (c + (t0 + n))
    return acc + g (t0 + n) * x

/-- The phase of the next output. Every 1024 outputs its length is set to one. -/
noncomputable def advance (rot_step : ℂ) (k : ℕ) (phasor : ℂ) : ℂ :=
  let phasor := phasor * rot_step
  if k &&& 1023 = 0 then
    let m := ‖phasor‖
    if 1e-6 < m then phasor / m else phasor
  else phasor

/-- The outer loop, after some outputs: the phase of the next one, and the outputs so far. -/
noncomputable def outputs (samples : List ℂ) (freq_hz : ℝ) (sr_in : ℕ) :
    ℕ → Option (ℂ × List ℂ)
  | 0 => some (1, [])
  | k + 1 => do
    let (phasor, out) ← outputs samples freq_hz sr_in k
    let c : ℤ := k * decim sr_in
    let t0 := max (-half sr_in : ℤ) (-c)
    let t1 := min (half sr_in : ℤ) (samples.length - 1 - c)
    let acc ← accumulate (g freq_hz sr_in) samples c t0 (t1 + 1 - t0).toNat
    return (advance (cis (w freq_hz sr_in * decim sr_in)) k phasor, out ++ [phasor * acc])

/-- `extract_frame` -/
noncomputable def extract_frame (samples : List ℂ) (freq_hz : ℝ) (sr_in n_out : ℕ) :
    Option (List ℂ) :=
  (outputs samples freq_hz sr_in n_out).map Prod.snd

/-! ## The oscillator -/

theorem cis_eq_exp (phase : ℝ) : cis phase = Complex.exp (phase * Complex.I) := by
  rw [Complex.exp_mul_I, ← Complex.ofReal_cos, ← Complex.ofReal_sin, cis, Complex.mk_eq_add_mul_I]

theorem cis_add (a b : ℝ) : cis (a + b) = cis a * cis b := by
  rw [cis_eq_exp, cis_eq_exp, cis_eq_exp, ← Complex.exp_add, Complex.ofReal_add, add_mul]

theorem norm_cis (phase : ℝ) : ‖cis phase‖ = 1 := by
  rw [cis_eq_exp, Complex.norm_exp_ofReal_mul_I]

/-- The phases of the samples. -/
theorem oscillator_cis (w : ℝ) : Oscillator fun i : ℤ => cis (w * i) where
  zero := by
    rw [Int.cast_zero, mul_zero, cis_eq_exp, Complex.ofReal_zero, zero_mul, Complex.exp_zero]
  add a b := by rw [Int.cast_add, mul_add, cis_add]

/-- Setting the length of the phase to one changes nothing, as it is one already. -/
theorem advance_cis (step phase : ℝ) (k : ℕ) :
    advance (cis step) k (cis phase) = cis (phase + step) := by
  simp only [advance, ← cis_add, norm_cis, Complex.ofReal_one, div_one, ite_self]

/-! ## The taps -/

theorem half_pos {sr_in : ℕ} (hsr : kRefineSr ≤ sr_in) : 0 < half sr_in :=
  Nat.mul_pos (by decide) (Nat.div_pos hsr (by decide))

theorem half_ne_zero {sr_in : ℕ} (hsr : kRefineSr ≤ sr_in) : (half sr_in : ℝ) ≠ 0 :=
  Nat.cast_ne_zero.2 (half_pos hsr).ne'

theorem rawTap_neg {sr_in : ℕ} (hsr : kRefineSr ≤ sr_in) (t : ℤ) :
    rawTap sr_in (-t) = rawTap sr_in t := by
  have hhalf := half_ne_zero hsr
  have htwo : (2.0 : ℝ) = 2 := by norm_num
  have hsinc : sin (2 * π * fc sr_in * (-t : ℤ)) / (π * (-t : ℤ)) =
      sin (2 * π * fc sr_in * t) / (π * t) := by
    rw [Int.cast_neg, mul_neg, mul_neg, sin_neg, neg_div_neg_eq]
  -- the window turns once over the taps
  have hwin : cos (2 * π * ((-t : ℤ) + half sr_in) / (2 * half sr_in)) =
      cos (2 * π * (t + half sr_in) / (2 * half sr_in)) := by
    have hturn : 2 * π * ((-t : ℤ) + half sr_in) / (2 * half sr_in) =
        2 * π - 2 * π * (t + half sr_in) / (2 * half sr_in) := by
      push_cast
      field_simp
      ring
    rw [hturn, cos_two_pi_sub]
  rw [rawTap, rawTap, htwo, hsinc, hwin]
  simp only [neg_eq_zero]

/-- The taps are symmetric. -/
theorem tap_neg {sr_in : ℕ} (hsr : kRefineSr ≤ sr_in) (t : ℤ) : tap sr_in (-t) = tap sr_in t := by
  rw [tap, tap, rawTap_neg hsr]

/-! ### Their sum

The window falls from the middle on, and so do the factors `1 / t`. The partial sums of the sines
are bounded below by a quarter of their frequency, so the tap in the middle outweighs what the side
lobes take away. -/

theorem sum_sin_mul (x : ℝ) (n : ℕ) :
    (∑ i ∈ Finset.range n, sin (2 * x * (i + 1))) * (2 * sin x) =
      cos x - cos (x * (2 * n + 1)) := by
  induction n with
  | zero => simp
  | succ n ih =>
    have hstep := cos_sub_cos (x * (2 * n + 1)) (x * (2 * (n + 1 : ℕ) + 1))
    have hmean : (x * (2 * n + 1) + x * (2 * (n + 1 : ℕ) + 1)) / 2 = 2 * x * (n + 1) := by
      push_cast
      ring
    have hdiff : (x * (2 * n + 1) - x * (2 * (n + 1 : ℕ) + 1)) / 2 = -x := by
      push_cast
      ring
    rw [hmean, hdiff, sin_neg] at hstep
    rw [Finset.sum_range_succ, add_mul, ih]
    linarith

theorem neg_half_le_sum_sin {x : ℝ} (hpos : 0 < x) (hle : x ≤ π / 2) (n : ℕ) :
    -(x / 2) ≤ ∑ i ∈ Finset.range n, sin (2 * x * (i + 1)) := by
  have hsin : x / 2 ≤ sin x := by
    have hpi : (1 : ℝ) / 2 ≤ 2 / π := by
      rw [div_le_div_iff₀ two_pos pi_pos]
      linarith [pi_le_four]
    calc x / 2 = 1 / 2 * x := by ring
      _ ≤ 2 / π * x := mul_le_mul_of_nonneg_right hpi hpos.le
      _ ≤ sin x := mul_le_sin hpos.le hle
  have hsin_pos : 0 < 2 * sin x := by linarith
  refine le_of_mul_le_mul_right ?_ hsin_pos
  rw [sum_sin_mul]
  have hcos := one_sub_sq_div_two_le_cos (x := x)
  have hone := cos_le_one (x * (2 * n + 1))
  have hmul := mul_le_mul_of_nonneg_left hsin hpos.le
  linarith

/-- The window from the middle on, divided by the distance from it. -/
noncomputable def weight (half i : ℕ) : ℝ := 0.5 * (1 + cos (π * (i + 1) / half)) / (π * (i + 1))

theorem rawTap_succ {sr_in : ℕ} (hsr : kRefineSr ≤ sr_in) (i : ℕ) :
    rawTap sr_in (i + 1 : ℕ) =
      weight (half sr_in) i * sin (2 * (π * fc sr_in) * (i + 1)) := by
  have hhalf := half_ne_zero hsr
  have htwo : (2.0 : ℝ) = 2 := by norm_num
  have hturn : 2 * π * (((i + 1 : ℕ) : ℤ) + half sr_in) / (2 * half sr_in) =
      π * (i + 1) / half sr_in + π := by
    push_cast
    field_simp
  have hfreq : 2 * π * fc sr_in * ((i + 1 : ℕ) : ℤ) = 2 * (π * fc sr_in) * (i + 1) := by
    push_cast
    ring
  rw [rawTap, htwo, hturn, cos_add_pi, hfreq]
  rw [if_neg (by omega), weight]
  push_cast
  ring

theorem rawTap_zero {sr_in : ℕ} (hsr : kRefineSr ≤ sr_in) : rawTap sr_in 0 = 2 * fc sr_in := by
  have hhalf := half_ne_zero hsr
  have hturn : 2.0 * π * ((0 : ℤ) + half sr_in) / (2.0 * half sr_in) = π := by
    push_cast
    field_simp
    ring
  rw [rawTap, hturn, cos_pi]
  norm_num

theorem weight_nonneg (half i : ℕ) : 0 ≤ weight half i := by
  have hcos := neg_one_le_cos (π * (i + 1) / half)
  have hpos : 0 ≤ 0.5 * (1 + cos (π * (i + 1) / half)) := by linarith
  exact div_nonneg hpos (by positivity)

theorem weight_succ_le {half i : ℕ} (hi : i + 1 < half) : weight half (i + 1) ≤ weight half i := by
  have hhalf : (0 : ℝ) < half := Nat.cast_pos.2 (by omega)
  have hcos : cos (π * ((i + 1 : ℕ) + 1) / half) ≤ cos (π * (i + 1) / half) := by
    apply cos_le_cos_of_nonneg_of_le_pi
    · positivity
    · rw [div_le_iff₀ hhalf]
      refine mul_le_mul_of_nonneg_left ?_ pi_pos.le
      exact_mod_cast hi
    · gcongr
      exact Nat.le_succ i
  have hlow := neg_one_le_cos (π * (i + 1) / half)
  apply div_le_div₀
  · linarith
  · linarith
  · positivity
  · gcongr
    exact Nat.le_succ i

/-- The sum that the taps are divided by. -/
theorem sum_rawTap_pos {sr_in : ℕ} (hsr : kRefineSr ≤ sr_in) :
    0 < ∑ t ∈ Finset.Icc (-half sr_in : ℤ) (half sr_in), rawTap sr_in t := by
  have hsr_pos : (0 : ℝ) < sr_in := Nat.cast_pos.2 (lt_of_lt_of_le (by decide) hsr)
  have hfc : 0 < fc sr_in := div_pos (by norm_num [kRefineSr]) hsr_pos
  have hfc_le : fc sr_in ≤ 1 / 2 := by
    have hcast : (kRefineSr : ℝ) ≤ sr_in := Nat.cast_le.2 hsr
    rw [fc, div_le_iff₀ hsr_pos]
    linarith
  have hsines := neg_half_le_sum_sin (mul_pos pi_pos hfc)
    (by linarith [mul_le_mul_of_nonneg_left hfc_le pi_pos.le])
  have hlobes := Dsp.neg_le_sum_mul (f := weight (half sr_in)) (n := half sr_in)
    (fun i hi => weight_succ_le hi) (weight_nonneg _ _) hsines
  -- the weight next to the middle is at most `1 / π`
  have hweight : weight (half sr_in) 0 * (π * fc sr_in / 2) ≤ fc sr_in / 2 := by
    have hcos := cos_le_one (π / half sr_in)
    have hle : weight (half sr_in) 0 ≤ 1 / π := by
      rw [weight, Nat.cast_zero, zero_add, mul_one]
      apply div_le_div_of_nonneg_right _ pi_pos.le
      linarith
    calc weight (half sr_in) 0 * (π * fc sr_in / 2) ≤ 1 / π * (π * fc sr_in / 2) := by
          gcongr
      _ = fc sr_in / 2 := by
          field_simp
  have hsum := Finset.sum_Icc_of_even_eq_range (rawTap_neg hsr) (half sr_in)
  rw [Finset.sum_range_succ', smul_add] at hsum
  simp only [rawTap_succ hsr, Nat.cast_zero, rawTap_zero hsr, nsmul_eq_mul] at hsum
  rw [hsum]
  push_cast
  linarith

/-- The taps are of sum one. -/
theorem sum_tap {sr_in : ℕ} (hsr : kRefineSr ≤ sr_in) :
    ∑ t ∈ Finset.Icc (-half sr_in : ℤ) (half sr_in), tap sr_in t = 1 := by
  simp only [tap]
  rw [← Finset.sum_div]
  exact div_self (sum_rawTap_pos hsr).ne'

/-! ## The loops -/

theorem read_of_mem {samples : List ℂ} {i : ℤ} (hlow : 0 ≤ i) (hhigh : i < samples.length) :
    read samples i = some (stretch samples i) := by
  rw [read, stretch, if_pos hlow, if_pos hlow, List.getD_eq_getElem?_getD,
    List.getElem?_eq_getElem (by omega)]
  rfl

/-- The inner loop reads samples of the stretch only. -/
theorem accumulate_eq {samples : List ℂ} (g : ℤ → ℂ) {c t0 : ℤ} {n : ℕ}
    (hlow : 0 ≤ c + t0) (hhigh : c + t0 + n ≤ samples.length) :
    accumulate g samples c t0 n =
      some (∑ j ∈ Finset.range n, g (t0 + j) * stretch samples (c + (t0 + j))) := by
  induction n with
  | zero => rfl
  | succ n ih =>
    rw [accumulate, ih (by push_cast at hhigh; omega), read_of_mem (by omega) (by omega),
      Finset.sum_range_succ]
    rfl

/-- The sum of an output over all taps. -/
theorem accumulate_clipped (samples : List ℂ) (g : ℤ → ℂ) (half : ℕ) (c : ℤ) :
    accumulate g samples c (max (-half : ℤ) (-c))
        (min (half : ℤ) (samples.length - 1 - c) + 1 - max (-half : ℤ) (-c)).toNat =
      some (∑ t ∈ Finset.Icc (-half : ℤ) half, g t * stretch samples (c + t)) := by
  rw [sum_eq_sum_clipped, Int.Icc_eq_finset_map, Finset.sum_map]
  generalize hn : (min (half : ℤ) (samples.length - 1 - c) + 1 - max (-half : ℤ) (-c)).toNat = n
  rcases Nat.eq_zero_or_pos n with rfl | hpos
  · rfl
  · exact accumulate_eq g (by omega) (by omega)

/-- The outer loop, with the phase of the next output. -/
theorem outputs_eq (samples : List ℂ) (freq_hz : ℝ) {sr_in : ℕ} (hsr : kRefineSr ≤ sr_in) (n : ℕ) :
    outputs samples freq_hz sr_in n = some (cis (w freq_hz sr_in * (n * decim sr_in : ℕ)),
      (List.range n).map (decimate (decim sr_in) (convolve (half sr_in)
        (fun t => (tap sr_in t : ℂ))
        (mix (fun i => cis (w freq_hz sr_in * i)) (stretch samples))))) := by
  induction n with
  | zero =>
    rw [outputs, Nat.zero_mul, Nat.cast_zero, mul_zero, cis_eq_exp, Complex.ofReal_zero, zero_mul,
      Complex.exp_zero]
    rfl
  | succ k ih =>
    -- the rotation of the taps and of the output is the mixing of the samples
    have hmix := convolve_mix (half sr_in) (h := fun t => (tap sr_in t : ℂ))
      (fun t => congrArg _ (tap_neg hsr t)) (oscillator_cis (w freq_hz sr_in)) (stretch samples)
      (k * decim sr_in : ℕ)
    have hphase : w freq_hz sr_in * (k * decim sr_in : ℕ) + w freq_hz sr_in * decim sr_in =
        w freq_hz sr_in * ((k + 1) * decim sr_in : ℕ) := by
      push_cast
      ring
    rw [outputs, ih]
    dsimp only [Option.bind_eq_bind, Option.bind_some]
    rw [accumulate_clipped]
    dsimp only [Option.bind_eq_bind, Option.bind_some]
    rw [advance_cis, hphase, List.range_succ, List.map_append, List.map_singleton, decimate, hmix]
    push_cast
    rfl

/-- The loop reads nothing outside of the samples, and its outputs are the samples mixed with
`exp (i * w * k)`, convolved with the taps of the filter and decimated. -/
theorem extract_frame_eq (samples : List ℂ) (freq_hz : ℝ) {sr_in : ℕ} (hsr : kRefineSr ≤ sr_in)
    (n_out : ℕ) :
    extract_frame samples freq_hz sr_in n_out =
      some ((List.range n_out).map (decimate (decim sr_in) (convolve (half sr_in)
        (fun t => (tap sr_in t : ℂ))
        (mix (fun i => Complex.exp (w freq_hz sr_in * i * Complex.I)) (stretch samples))))) := by
  have hosc : (fun i : ℤ => Complex.exp (w freq_hz sr_in * i * Complex.I)) =
      fun i : ℤ => cis (w freq_hz sr_in * i) := by
    funext i
    rw [cis_eq_exp]
    push_cast
    rfl
  rw [extract_frame, outputs_eq samples freq_hz hsr, hosc]
  rfl

/-- Two samples at the rate of the composite ring, fewer than the taps on one side. -/
theorem extract_frame_eq_pair :
    extract_frame [1, Complex.I] 100 409600 3 =
      some ((List.range 3).map (decimate 32 (convolve 128 (fun t => (tap 409600 t : ℂ))
        (mix (fun i => Complex.exp (w 100 409600 * i * Complex.I)) (stretch [1, Complex.I]))))) :=
  extract_frame_eq [1, Complex.I] 100 (by decide) 3

end GranolaSdr.Hf.ExtractFrame
