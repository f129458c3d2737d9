import GranolaSdr.Hf.BandMap

/-!
# The uploader's band filter

`src/psk_uploader.py` reports a spot only if its frequency is in one of its own band windows, which
are meant to be those of the receiver's band table.

## Main definitions

* `BAND_WINDOWS`, `in_band`: the windows, and the test.

## Main results

* `in_band_composite_bin_to_rf_hz_iff`: of the receiver's windows, the test accepts all but the
  second one of 40 m.
-/

namespace GranolaSdr.Uploader

open Hf.BandMap

/-- The windows in Hz. -/
def BAND_WINDOWS : List (ℤ × ℤ) :=
  [(1839000, 1846000),
   (3572000, 3582000),
   (5356000, 5374000),
   (7068000, 7082000),
   (10129000, 10142000),
   (14070000, 14100000),
   (18070000, 18113000),
   (21072000, 21095000),
   (24914000, 24931000),
   (28073000, 28100000),
   (50311000, 50320000)]

/-- `int` of a float cuts off its fraction. -/
def truncate (x : ℚ) : ℤ := if 0 ≤ x then ⌊x⌋ else ⌈x⌉

/-- The test of a frequency. -/
def in_band (freq_hz : ℚ) : Bool :=
  BAND_WINDOWS.any fun (lo, hi) => lo ≤ truncate freq_hz && truncate freq_hz ≤ hi

theorem truncate_mem_Icc {a b : ℕ} {x : ℚ} (h : x ∈ Set.Icc (a : ℚ) b) :
    (a : ℤ) ≤ truncate x ∧ truncate x ≤ b := by
  have hnonneg : 0 ≤ x := le_trans (Nat.cast_nonneg a) h.1
  rw [truncate, if_pos hnonneg]
  have hfloor : (⌊x⌋ : ℚ) ≤ b := (Int.floor_le x).trans h.2
  exact ⟨Int.le_floor.2 (by exact_mod_cast h.1), by exact_mod_cast hfloor⟩

/-- The receiver's second window of 40 m is apart from all windows of the uploader, and each other
one is one of them. -/
theorem window_cases : ∀ band ∈ kHFBands,
    band.name ≠ "40m-2" ∧ (100 * (band.wb_start : ℤ), 100 * (band.wb_end : ℤ)) ∈ BAND_WINDOWS ∨
      band.name = "40m-2" ∧ ∀ window ∈ BAND_WINDOWS,
        window.2 < 100 * band.wb_start ∨ 100 * band.wb_end < window.1 := by
  decide

theorem in_band_iff (freq_hz : ℚ) :
    in_band freq_hz ↔
      ∃ window ∈ BAND_WINDOWS, window.1 ≤ truncate freq_hz ∧ truncate freq_hz ≤ window.2 := by
  simp only [in_band, List.any_eq_true, Bool.and_eq_true, decide_eq_true_eq]

/-- The test accepts a frequency that the receiver computes exactly if it is not in the second
window of 40 m. -/
theorem in_band_composite_bin_to_rf_hz_iff {band : HFBand} {row : BandMapRow}
    (hrow : (band, row) ∈ kHFBands.zip (init_band_map kHFBands)) {freq_offset rfft_size : Int32}
    (hsize : 0 < rfft_size.toInt) (hfalls : row.Falls freq_offset rfft_size) :
    in_band (composite_bin_to_rf_hz kHFBands freq_offset rfft_size) ↔ band.name ≠ "40m-2" := by
  have hmem := composite_bin_to_rf_hz_mem wellFormed_kHFBands hrow hsize hfalls
  have hlimits : composite_bin_to_rf_hz kHFBands freq_offset rfft_size ∈
      Set.Icc ((100 * band.wb_start : ℕ) : ℚ) (100 * band.wb_end : ℕ) := by
    push_cast
    exact hmem
  obtain ⟨hlo, hhi⟩ := truncate_mem_Icc hlimits
  rw [in_band_iff]
  rcases window_cases band (List.of_mem_zip hrow).1 with ⟨hname, hwindow⟩ | ⟨hname, happart⟩
  · refine iff_of_true ⟨_, hwindow, ?_⟩ hname
    push_cast at hlo hhi
    exact ⟨hlo, hhi⟩
  · refine iff_of_false ?_ (not_not.2 hname)
    -- the window lies between two of the uploader's
    rintro ⟨window, hwindow, hwindow₁, hwindow₂⟩
    rcases happart window hwindow with hbelow | habove
    · omega
    · omega

/-- The middle of the window of 80 m, in the FFT of 65536 points. -/
theorem in_band_composite_bin_to_rf_hz_middle :
    in_band (composite_bin_to_rf_hz kHFBands 1920 65536) ↔ "80m" ≠ "40m-2" := by
  have hrow : ((⟨35720, 35820, 100, "80m"⟩ : HFBand), (⟨70, 170, 35720⟩ : BandMapRow)) ∈
      kHFBands.zip (init_band_map kHFBands) := by decide
  exact in_band_composite_bin_to_rf_hz_iff hrow (by decide) (by decide +kernel)

/-- The middle of the second window of 40 m is not accepted. -/
theorem second_window_not_in_band :
    (⟨490, 560, 71090⟩ : BandMapRow).Falls 8400 65536 ∧
      (⟨71090, 71160, 70, "40m-2"⟩, ⟨490, 560, 71090⟩) ∈ kHFBands.zip (init_band_map kHFBands) ∧
      in_band (composite_bin_to_rf_hz kHFBands 8400 65536) = false :=
  ⟨by decide +kernel, by decide, by decide +kernel⟩

end GranolaSdr.Uploader
