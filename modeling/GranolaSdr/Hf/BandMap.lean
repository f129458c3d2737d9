import GranolaSdr.Lib.Rounding
import Mathlib.Data.List.Zip
import Mathlib.Tactic.NormNum

/-!
# The band map

The channelizer packs the windows of the HF band table one after the other into a composite spectrum
of 4096 bins. `src/gm/hf/band_map.cc` takes an offset in an FFT of the composite signal back to the
frequency it was received at.

## Main definitions

* `HFBand`, `kHFBands`: the band table;
* `init_band_map`: where the windows lie in the composite spectrum;
* `composite_bin_to_rf_hz`: the received frequency, with its roundings to double and to float;
* `BandMapRow.Falls`: an offset lies in a window.

## Main results

* `composite_bin_to_rf_hz_mem`: an offset in a window is given a frequency of this window.
-/

namespace GranolaSdr.Hf.BandMap

open Rounding

/-- A window of the wideband spectrum, in bins of 100 Hz. -/
structure HFBand where
  wb_start : ℕ
  wb_end : ℕ
  bw : ℕ
  name : String
deriving DecidableEq

/-- The band table. -/
def kHFBands : List HFBand :=
  [⟨18390, 18460, 70, "160m"⟩,
   ⟨35720, 35820, 100, "80m"⟩,
   ⟨53560, 53740, 180, "60m"⟩,
   ⟨70680, 70820, 140, "40m"⟩,
   ⟨71090, 71160, 70, "40m-2"⟩,
   ⟨101290, 101420, 130, "30m"⟩,
   ⟨140700, 141000, 300, "20m"⟩,
   ⟨180700, 181130, 430, "17m"⟩,
   ⟨210720, 210950, 230, "15m"⟩,
   ⟨249140, 249310, 170, "12m"⟩,
   ⟨280730, 281000, 270, "10m"⟩,
   ⟨503110, 503200, 90, "6m"⟩]

/-- The size of the composite spectrum. -/
def kIfftSize : ℤ := 4096

/-- The rate of the wideband signal. -/
def kWbSampleRate : ℚ := 140000000

/-- The size of the wideband FFT. -/
def kWidebandFftSize : ℚ := 1400000

/-- The window of a band in the composite spectrum. -/
structure BandMapRow where
  ifft_start : ℤ
  ifft_end : ℤ
  wb_start : ℤ
deriving DecidableEq

/-- The rows of the bands, the first of them at an offset. -/
def band_map_from : ℤ → List HFBand → List BandMapRow
  | _, [] => []
  | offset, band :: bands =>
    ⟨offset, offset + band.bw, band.wb_start⟩ :: band_map_from (offset + band.bw) bands

/-- `init_band_map`. -/
def init_band_map (bands : List HFBand) : List BandMapRow := band_map_from 0 bands

/-- The value of a `double` and of a `float` operation. -/
def double (x : ℚ) : ℚ := binary64.round x

@[inherit_doc double]
def float (x : ℚ) : ℚ := binary32.round x

/-- The bin of an offset in the composite spectrum, and its fractional position. -/
def ifft_position (freq_offset rfft_size : Int32) : ℤ × ℚ :=
  let ifft_pos := double (double (freq_offset.toInt * kIfftSize) / rfft_size.toInt)
  let ifft_bin := ⌊ifft_pos⌋
  if ifft_bin < 0 then (ifft_bin + kIfftSize, double (ifft_pos + kIfftSize))
  else (ifft_bin, ifft_pos)

/-- The received frequency of a position in a window. -/
def BandMapRow.rf_hz (row : BandMapRow) (ifft_pos : ℚ) : ℚ :=
  let wb_pos := double (row.wb_start + double (ifft_pos - row.ifft_start))
  float (double (double (wb_pos * kWbSampleRate) / kWidebandFftSize))

/-- `composite_bin_to_rf_hz`. An offset in no window is returned as it is. -/
def composite_bin_to_rf_hz (bands : List HFBand) (freq_offset rfft_size : Int32) : ℚ :=
  let (ifft_bin, ifft_pos) := ifft_position freq_offset rfft_size
  match (init_band_map bands).find? fun row =>
      row.ifft_start ≤ ifft_bin ∧ ifft_bin < row.ifft_end with
  | some row => row.rf_hz ifft_pos
  | none => float freq_offset.toInt

/-- The place of an offset in the composite spectrum: negative offsets are at its end. -/
def position (freq_offset rfft_size : Int32) : ℚ :=
  let pos := (freq_offset.toInt * 4096 : ℚ) / rfft_size.toInt
  if pos < 0 then pos + 4096 else pos

/-- An offset in an FFT of some size lies in a window. -/
def BandMapRow.Falls (row : BandMapRow) (freq_offset rfft_size : Int32) : Prop :=
  row.ifft_start ≤ position freq_offset rfft_size ∧
    position freq_offset rfft_size < row.ifft_end

instance (row : BandMapRow) (freq_offset rfft_size : Int32) :
    Decidable (row.Falls freq_offset rfft_size) :=
  inferInstanceAs (Decidable (_ ∧ _))

/-- A table whose windows have the widths it says, fit into the composite spectrum, and end at
frequencies that a `float` holds. -/
structure WellFormed (bands : List HFBand) : Prop where
  width : ∀ band ∈ bands, band.wb_end = band.wb_start + band.bw
  total : (bands.map (·.bw)).sum ≤ 4096
  highest : ∀ band ∈ bands, band.wb_end ≤ 600000

theorem wellFormed_kHFBands : WellFormed kHFBands := ⟨by decide, by decide, by decide⟩

/-! ## Rows -/

/-- What a row says of its band. -/
structure RowOf (offset total : ℤ) (band : HFBand) (row : BandMapRow) : Prop where
  wb_start : row.wb_start = band.wb_start
  ifft_end : row.ifft_end = row.ifft_start + band.bw
  start_le : offset ≤ row.ifft_start
  end_le : row.ifft_end ≤ total

theorem rowOf_of_mem_zip {offset : ℤ} {bands : List HFBand} {band : HFBand} {row : BandMapRow}
    (h : (band, row) ∈ bands.zip (band_map_from offset bands)) :
    RowOf offset (offset + (bands.map (·.bw)).sum) band row := by
  induction bands generalizing offset with
  | nil => cases h
  | cons first bands ih =>
    rw [band_map_from, List.zip_cons_cons, List.mem_cons] at h
    rw [List.map_cons, List.sum_cons, Nat.cast_add]
    rcases h with h | h
    · cases h
      exact ⟨rfl, rfl, le_rfl, by dsimp only; omega⟩
    · have hrow := ih h
      exact ⟨hrow.wb_start, hrow.ifft_end, le_trans (by omega) hrow.start_le,
        hrow.end_le.trans (by omega)⟩

theorem le_ifft_start_of_mem {offset : ℤ} {bands : List HFBand} {row : BandMapRow}
    (h : row ∈ band_map_from offset bands) : offset ≤ row.ifft_start := by
  induction bands generalizing offset with
  | nil => cases h
  | cons band bands ih =>
    rw [band_map_from, List.mem_cons] at h
    rcases h with rfl | h
    · exact le_rfl
    · exact le_trans (by omega) (ih h)

/-- The windows follow one another. -/
theorem pairwise_band_map_from (offset : ℤ) (bands : List HFBand) :
    (band_map_from offset bands).Pairwise fun row next => row.ifft_end ≤ next.ifft_start := by
  induction bands generalizing offset with
  | nil => exact List.Pairwise.nil
  | cons band bands ih =>
    exact List.Pairwise.cons (fun row hrow => le_ifft_start_of_mem hrow) (ih _)

/-- The search finds the window that a bin lies in. -/
theorem find?_init_band_map {bands : List HFBand} {row : BandMapRow} {bin : ℤ}
    (hrow : row ∈ init_band_map bands) (h : row.ifft_start ≤ bin ∧ bin < row.ifft_end) :
    (init_band_map bands).find? (fun row => row.ifft_start ≤ bin ∧ bin < row.ifft_end) =
      some row := by
  obtain ⟨before, after, happend⟩ := List.append_of_mem hrow
  have hpairwise := pairwise_band_map_from 0 bands
  rw [← init_band_map, happend, List.pairwise_append] at hpairwise
  rw [List.find?_eq_some_iff_append]
  refine ⟨by simpa using h, before, after, happend, fun earlier hearlier => ?_⟩
  have hend := hpairwise.2.2 earlier hearlier row List.mem_cons_self
  simp only [Bool.not_eq_true', decide_eq_false_iff_not, not_and, not_lt]
  omega

/-! ## Roundings -/

theorem representable_double {n : ℤ} (h : |n| < 2 ^ 53) : binary64.Representable n :=
  Format.representable_intCast (by decide) h

theorem double_mem_Icc {a b : ℤ} (ha : |a| < 2 ^ 53) (hb : |b| < 2 ^ 53) {x : ℚ}
    (hx : x ∈ Set.Icc (a : ℚ) b) : double x ∈ Set.Icc (a : ℚ) b :=
  Format.round_mem_Icc (representable_double ha) (representable_double hb) hx

/-- A quotient of two `int`s is not rounded up to the next integer. -/
theorem double_div_mem_Ico {a n k : ℤ} (hn : 0 < n) (hn' : n < 2 ^ 31) (hk : |k| ≤ 4096)
    (hle : (k : ℚ) ≤ a / n) (hlt : (a : ℚ) / n < k + 1) :
    (k : ℚ) ≤ double (a / n) ∧ double (a / n) < k + 1 := by
  obtain ⟨hk₁, hk₂⟩ := abs_le.1 hk
  have hnQ : (0 : ℚ) < n := by exact_mod_cast hn
  refine ⟨Format.le_round (representable_double ?_) hle, ?_⟩
  · rw [abs_lt]
    omega
  · -- the quotient is at least the `n`-th part of one below the next integer
    have hnext : binary64.Representable ((k : ℚ) + 1 - 1 / 2 ^ 31) := by
      refine ⟨(k + 1) * 2 ^ 31 - 1, -31, ?_, by decide, ?_⟩
      · show |(k + 1) * 2 ^ 31 - 1| < 2 ^ 53
        rw [abs_lt]
        omega
      · push_cast
        rw [zpow_neg]
        norm_num
        ring
    have hbelow : (a : ℚ) / n ≤ k + 1 - 1 / 2 ^ 31 := by
      have ha : a ≤ (k + 1) * n - 1 := by
        have ha' : a < (k + 1) * n := by exact_mod_cast (div_lt_iff₀ hnQ).1 hlt
        omega
      have haQ : (a : ℚ) ≤ (k + 1) * n - 1 := by exact_mod_cast ha
      have hnQ' : (n : ℚ) < 2 ^ 31 := by exact_mod_cast hn'
      rw [div_le_iff₀ hnQ]
      linarith
    have hround : double (a / n) ≤ k + 1 - 1 / 2 ^ 31 := Format.round_le hnext hbelow
    have hpos : (0 : ℚ) < 1 / 2 ^ 31 := by norm_num
    linarith

theorem double_product (freq_offset : Int32) :
    double (freq_offset.toInt * kIfftSize) = (freq_offset.toInt * 4096 : ℤ) := by
  have hlt := freq_offset.toInt_lt
  have hle := freq_offset.le_toInt
  have hcast : (freq_offset.toInt : ℚ) * kIfftSize = (freq_offset.toInt * 4096 : ℤ) := by
    push_cast
    rfl
  rw [hcast]
  refine Format.round_eq_self (representable_double ?_)
  rw [abs_lt]
  omega

/-- The position is computed to within its bin. -/
theorem ifft_position_spec {freq_offset rfft_size : Int32} (hsize : 0 < rfft_size.toInt)
    (hlo : 0 ≤ position freq_offset rfft_size) (hhi : position freq_offset rfft_size < 4096) :
    (ifft_position freq_offset rfft_size).1 = ⌊position freq_offset rfft_size⌋ ∧
      (ifft_position freq_offset rfft_size).2 ∈ Set.Icc (⌊position freq_offset rfft_size⌋ : ℚ)
        ((⌊position freq_offset rfft_size⌋ + 1 : ℤ) : ℚ) := by
  have hsize' := rfft_size.toInt_lt
  set pos : ℚ := (freq_offset.toInt * 4096 : ℤ) / rfft_size.toInt with hpos
  have hposition : position freq_offset rfft_size = if pos < 0 then pos + 4096 else pos := by
    rw [hpos]
    push_cast
    rfl
  unfold ifft_position
  rw [double_product, ← hpos]
  rw [hposition] at hlo hhi ⊢
  -- the rounding of the quotient does not change its bin
  have hfloor : |⌊pos⌋| ≤ 4096 → ⌊double pos⌋ = ⌊pos⌋ ∧ double pos ∈ Set.Icc (⌊pos⌋ : ℚ)
      ((⌊pos⌋ + 1 : ℤ) : ℚ) := by
    intro hsmall
    have hround :=
      double_div_mem_Ico hsize hsize' hsmall (Int.floor_le pos) (Int.lt_floor_add_one pos)
    refine ⟨Int.floor_eq_iff.2 hround, hround.1, ?_⟩
    push_cast
    exact hround.2.le
  by_cases hneg : pos < 0
  · rw [if_pos hneg] at hlo hhi ⊢
    have hk : -4096 ≤ ⌊pos⌋ := Int.le_floor.2 (by push_cast; linarith)
    have hk' : ⌊pos⌋ < 0 := Int.floor_lt.2 (by push_cast; exact hneg)
    obtain ⟨hbin, hmem⟩ := hfloor (abs_le.2 ⟨hk, by omega⟩)
    -- a negative position is moved to the end of the spectrum
    have hwrap : ⌊pos + 4096⌋ = ⌊pos⌋ + kIfftSize := Int.floor_add_intCast pos 4096
    have hsum : double pos + kIfftSize ∈ Set.Icc ((⌊pos⌋ + kIfftSize : ℤ) : ℚ)
        ((⌊pos⌋ + kIfftSize + 1 : ℤ) : ℚ) := by
      obtain ⟨hmem₁, hmem₂⟩ := hmem
      push_cast at hmem₂ ⊢
      constructor <;> linarith
    simp only [hbin, if_pos hk', hwrap]
    refine ⟨trivial, double_mem_Icc ?_ ?_ hsum⟩ <;>
    · rw [abs_lt, kIfftSize]
      omega
  · rw [if_neg hneg] at hlo hhi ⊢
    have hk : 0 ≤ ⌊pos⌋ := Int.floor_nonneg.2 hlo
    have hk' : ⌊pos⌋ < 4096 := Int.floor_lt.2 (by push_cast; exact hhi)
    obtain ⟨hbin, hmem⟩ := hfloor (abs_le.2 ⟨by omega, hk'.le⟩)
    simp only [hbin, if_neg (not_lt.2 hk)]
    exact ⟨trivial, hmem⟩

/-- The limits of a window are numbers that a `float` holds. -/
theorem representable_float {n : ℕ} (h : n ≤ 600000) : binary32.Representable (100 * n) := by
  refine ⟨25 * n, 2, ?_, by decide, ?_⟩
  · show |(25 * n : ℤ)| < 2 ^ 24
    rw [abs_lt]
    omega
  · push_cast
    ring

/-- A position in a window is given a frequency of the window, each rounding included. -/
theorem rf_hz_mem {row : BandMapRow} {band : HFBand} {total : ℤ}
    (hrow : RowOf 0 total band row) (htotal : total ≤ 4096)
    (hwidth : band.wb_end = band.wb_start + band.bw) (hhighest : band.wb_end ≤ 600000) {pos : ℚ}
    (hpos : pos ∈ Set.Icc (row.ifft_start : ℚ) row.ifft_end) :
    row.rf_hz pos ∈ Set.Icc (100 * band.wb_start : ℚ) (100 * band.wb_end) := by
  obtain ⟨hstart, hend, hle, hle'⟩ := hrow
  have hfits := hle'.trans htotal
  obtain ⟨hpos₁, hpos₂⟩ := hpos
  rw [hend] at hpos₂
  push_cast at hpos₂
  -- one bound for each operation, between numbers that its format holds
  have hoffset : double (pos - row.ifft_start) ∈ Set.Icc ((0 : ℤ) : ℚ) (band.bw : ℤ) := by
    refine double_mem_Icc (by decide) (abs_lt.2 (by omega)) ⟨?_, ?_⟩ <;> push_cast <;> linarith
  have hwb_pos : double (row.wb_start + double (pos - row.ifft_start)) ∈
      Set.Icc ((band.wb_start : ℤ) : ℚ) (band.wb_end : ℤ) := by
    obtain ⟨hoffset₁, hoffset₂⟩ := hoffset
    push_cast at hoffset₁ hoffset₂
    refine double_mem_Icc (abs_lt.2 (by omega)) (abs_lt.2 (by omega)) ⟨?_, ?_⟩
    · rw [hstart]
      push_cast
      linarith
    · rw [hstart, hwidth]
      push_cast
      linarith
  obtain ⟨hwb₁, hwb₂⟩ := hwb_pos
  set wb_pos := double (row.wb_start + double (pos - row.ifft_start))
  have hproduct : double (wb_pos * kWbSampleRate) ∈ Set.Icc ((band.wb_start * 140000000 : ℤ) : ℚ)
      (band.wb_end * 140000000 : ℤ) := by
    refine double_mem_Icc (abs_lt.2 (by omega)) (abs_lt.2 (by omega)) ?_
    rw [kWbSampleRate]
    push_cast at hwb₁ hwb₂ ⊢
    constructor <;> linarith
  obtain ⟨hproduct₁, hproduct₂⟩ := hproduct
  have hquotient : double (double (wb_pos * kWbSampleRate) / kWidebandFftSize) ∈
      Set.Icc ((100 * band.wb_start : ℤ) : ℚ) (100 * band.wb_end : ℤ) := by
    refine double_mem_Icc (abs_lt.2 (by omega)) (abs_lt.2 (by omega)) ?_
    rw [kWidebandFftSize]
    push_cast at hproduct₁ hproduct₂ ⊢
    constructor
    · rw [le_div_iff₀ (by norm_num)]
      linarith
    · rw [div_le_iff₀ (by norm_num)]
      linarith
  push_cast at hquotient
  exact Format.round_mem_Icc (representable_float (by omega)) (representable_float hhighest)
    hquotient

/-- An offset in a window is given a frequency of the window. -/
theorem composite_bin_to_rf_hz_mem {bands : List HFBand} (hbands : WellFormed bands)
    {band : HFBand} {row : BandMapRow} (hrow : (band, row) ∈ bands.zip (init_band_map bands))
    {freq_offset rfft_size : Int32} (hsize : 0 < rfft_size.toInt)
    (hfalls : row.Falls freq_offset rfft_size) :
    composite_bin_to_rf_hz bands freq_offset rfft_size ∈
      Set.Icc (100 * band.wb_start : ℚ) (100 * band.wb_end) := by
  have hof := rowOf_of_mem_zip hrow
  obtain ⟨hband, hmem⟩ := List.of_mem_zip hrow
  have htotal : 0 + ((bands.map (·.bw)).sum : ℕ) ≤ (4096 : ℤ) := by
    have := hbands.total
    omega
  obtain ⟨hfalls₁, hfalls₂⟩ := hfalls
  have hlo : 0 ≤ position freq_offset rfft_size :=
    le_trans (by exact_mod_cast hof.start_le) hfalls₁
  have hhi : position freq_offset rfft_size < 4096 :=
    hfalls₂.trans_le (by exact_mod_cast hof.end_le.trans htotal)
  obtain ⟨hbin, hpos⟩ := ifft_position_spec hsize hlo hhi
  -- the bin is in the window with the position, so the search finds the window
  have hbin₁ : row.ifft_start ≤ ⌊position freq_offset rfft_size⌋ := Int.le_floor.2 hfalls₁
  have hbin₂ : ⌊position freq_offset rfft_size⌋ < row.ifft_end := Int.floor_lt.2 hfalls₂
  have hfind := find?_init_band_map hmem ⟨hbin₁, hbin₂⟩
  unfold composite_bin_to_rf_hz
  simp only [hbin, hfind]
  refine rf_hz_mem hof htotal (hbands.width band hband) (hbands.highest band hband) ⟨?_, ?_⟩
  · exact le_trans (by exact_mod_cast hbin₁) hpos.1
  · exact hpos.2.trans (by exact_mod_cast hbin₂)

end GranolaSdr.Hf.BandMap
