import GranolaSdr.Hf.BandMap
import GranolaSdr.Lib.Memory

/-!
# The packing of the bands

`HFChannelizer::doCopy` copies the windows of the band table from the wideband spectrum into the
composite spectrum, one after the other. The band map, in exact arithmetic, takes every place of the
composite spectrum back to where the copies brought it from.

## Main definitions

* `composite_assembly`: the composite spectrum, if every copy stays within the buffers;
* `Placed`: a composite bin is a wideband bin, whatever the spectrum is;
* `rf_hz_rounded`, `rf_hz_exact`: `composite_bin_to_rf_hz` with any roundings, and with none.

## Main results

* `composite_assembly_isSome`: the copies stay within the buffers;
* `placed_of_row`, `exists_row_of_placed`: which wideband bin is at a composite bin;
* `rf_hz_exact_of_placed`: the band map inverts the packing.
-/

namespace GranolaSdr.Hf.BandMap

variable {α : Type*}

/-! ## The channelizer -/

/-- The cells of `channelData_d`: the composite spectrum and 1024 bytes. -/
def kChannelCells : ℕ := 4096 + 1024 / 8

/-- The cells of `fftData_d`: twice `NLARGE` and a margin. -/
def kFftCells : ℕ := 2 * 700000 + 1024

/-- The copies of the windows, the first of them to an offset. A copy that leaves a buffer has no
meaning. -/
def copy_bands (fftData_d : ℕ → α) : ℕ → (ℕ → α) → List HFBand → Option (ℕ → α)
  | _, channelData_d, [] => some channelData_d
  | offset, channelData_d, b :: bins =>
    if offset + b.bw ≤ kChannelCells ∧ b.wb_start + b.bw ≤ kFftCells then
      copy_bands fftData_d (offset + b.bw)
        (Memory.copy channelData_d offset fftData_d b.wb_start b.bw) bins
    else none

/-- The composite assembly of `HFChannelizer::doCopy`. -/
def composite_assembly (zero : α) (fftData_d channelData_d : ℕ → α) (bins : List HFBand) :
    Option (ℕ → α) :=
  copy_bands fftData_d 0 (fun i => if i < 4096 then zero else channelData_d i) bins

/-- The assembly brings a wideband bin to a composite bin, whatever the buffers hold. -/
def Placed (bands : List HFBand) (composite_bin wideband_bin : ℕ) : Prop :=
  ∀ (α : Type) (zero : α) (fftData_d channelData_d : ℕ → α), ∃ composite,
    composite_assembly zero fftData_d channelData_d bands = some composite ∧
      composite composite_bin = fftData_d wideband_bin

/-- The total width of the windows. -/
def totalWidth (bands : List HFBand) : ℕ := (bands.map (·.bw)).sum

theorem totalWidth_cons (band : HFBand) (bands : List HFBand) :
    totalWidth (band :: bands) = band.bw + totalWidth bands := by
  rw [totalWidth, List.map_cons, List.sum_cons, totalWidth]

theorem copy_bands_isSome_iff (fftData_d : ℕ → α) {offset : ℕ} (hoffset : offset ≤ kChannelCells)
    (channelData_d : ℕ → α) (bands : List HFBand) :
    (copy_bands fftData_d offset channelData_d bands).isSome ↔
      offset + totalWidth bands ≤ kChannelCells ∧
        ∀ band ∈ bands, band.wb_start + band.bw ≤ kFftCells := by
  induction bands generalizing offset channelData_d with
  | nil => simpa [copy_bands, totalWidth] using hoffset
  | cons band bands ih =>
    rw [copy_bands, totalWidth_cons, List.forall_mem_cons, ← Nat.add_assoc]
    split_ifs with hfits
    · rw [ih hfits.1]
      exact ⟨fun ⟨hchannel, hfft⟩ => ⟨hchannel, hfits.2, hfft⟩,
        fun ⟨hchannel, _, hfft⟩ => ⟨hchannel, hfft⟩⟩
    · -- the first copy leaves a buffer
      refine iff_of_false (by simp) ?_
      rintro ⟨hchannel, hfft, -⟩
      omega

/-- Cells outside the windows are left as they were. -/
theorem copy_bands_of_outside {fftData_d channelData_d composite : ℕ → α} {offset : ℕ}
    {bands : List HFBand}
    (hcopy : copy_bands fftData_d offset channelData_d bands = some composite) {c : ℕ}
    (hc : c < offset ∨ offset + totalWidth bands ≤ c) : composite c = channelData_d c := by
  induction bands generalizing offset channelData_d with
  | nil =>
    rw [copy_bands, Option.some.injEq] at hcopy
    rw [hcopy]
  | cons band bands ih =>
    rw [copy_bands] at hcopy
    rw [totalWidth_cons] at hc
    split_ifs at hcopy with hfits
    -- neither the later copies nor the first one reach the cell
    rw [ih hcopy (by omega), Memory.copy_of_outside (by omega)]

/-- The window of a row holds the bins of its band. -/
theorem copy_bands_of_mem {fftData_d channelData_d composite : ℕ → α} {offset : ℕ}
    {bands : List HFBand}
    (hcopy : copy_bands fftData_d offset channelData_d bands = some composite)
    {band : HFBand} {row : BandMapRow} (hrow : (band, row) ∈ bands.zip (band_map_from offset bands))
    {c k : ℕ} (hc : (c : ℤ) = row.ifft_start + k) (hk : k < band.bw) :
    composite c = fftData_d (band.wb_start + k) := by
  induction bands generalizing offset channelData_d with
  | nil => exact absurd hrow List.not_mem_nil
  | cons first bands ih =>
    rw [copy_bands] at hcopy
    rw [band_map_from, List.zip_cons_cons, List.mem_cons, Prod.mk.injEq] at hrow
    split_ifs at hcopy with hfits
    rcases hrow with ⟨rfl, rfl⟩ | hrow
    · -- the later windows lie behind the first
      obtain rfl : c = offset + k := by
        dsimp only at hc
        omega
      rw [copy_bands_of_outside hcopy (Or.inl (by omega)), Memory.copy_add _ _ _ _ hk]
    · exact ih hcopy (by exact_mod_cast hrow)

/-- Every place before the end of the last window lies in a window. -/
theorem exists_row {bands : List HFBand} {offset : ℤ} {c : ℤ} (hle : offset ≤ c)
    (hlt : c < offset + totalWidth bands) :
    ∃ band row, (band, row) ∈ bands.zip (band_map_from offset bands) ∧
      row.ifft_start ≤ c ∧ c < row.ifft_end := by
  induction bands generalizing offset with
  | nil =>
    rw [totalWidth, List.map_nil, List.sum_nil] at hlt
    omega
  | cons first bands ih =>
    rw [totalWidth_cons, Nat.cast_add] at hlt
    by_cases hfirst : c < offset + first.bw
    · exact ⟨first, _, List.mem_cons_self, hle, hfirst⟩
    · obtain ⟨band, row, hrow, hc⟩ := ih (not_lt.1 hfirst) (by omega)
      exact ⟨band, row, List.mem_cons_of_mem _ hrow, hc⟩

/-- The assembly succeeds if the windows lie in the spectra. -/
theorem composite_assembly_isSome {bands : List HFBand} (htotal : totalWidth bands ≤ 4096)
    (hfft : ∀ band ∈ bands, band.wb_start + band.bw ≤ kFftCells) (zero : α)
    (fftData_d channelData_d : ℕ → α) :
    (composite_assembly zero fftData_d channelData_d bands).isSome := by
  refine (copy_bands_isSome_iff fftData_d (Nat.zero_le _) _ bands).2 ⟨?_, hfft⟩
  rw [kChannelCells]
  omega

/-- What is placed comes from a window, as far behind its start as it is put. -/
theorem exists_row_of_placed {bands : List HFBand} {c b : ℕ} (hplaced : Placed bands c b) :
    ∃ band row k, (band, row) ∈ bands.zip (init_band_map bands) ∧ k < band.bw ∧
      (c : ℤ) = row.ifft_start + k ∧ b = band.wb_start + k := by
  -- every wideband bin holds its own number, and every other cell holds another number than `b`
  obtain ⟨composite, hcopy, hc⟩ := hplaced ℕ (b + 1) id fun _ => b + 1
  by_cases hwindow : c < totalWidth bands
  · have hlt : (c : ℤ) < 0 + totalWidth bands := by omega
    obtain ⟨band, row, hrow, hstart, hend⟩ := exists_row (Int.natCast_nonneg c) hlt
    have hof := rowOf_of_mem_zip hrow
    rw [hof.ifft_end] at hend
    obtain ⟨k, hk⟩ := Int.eq_ofNat_of_zero_le (sub_nonneg.2 hstart)
    have hk' : (c : ℤ) = row.ifft_start + k := by omega
    have hbin := copy_bands_of_mem hcopy hrow hk' (by omega)
    exact ⟨band, row, k, hrow, by omega, hk', hc.symm.trans hbin⟩
  · -- what lies behind the windows is not copied
    have hbehind : 0 + totalWidth bands ≤ c := by omega
    have houtside := copy_bands_of_outside hcopy (Or.inr hbehind)
    rw [hc] at houtside
    dsimp only [id] at houtside
    split_ifs at houtside <;> omega

/-- Every bin of a window is placed. -/
theorem placed_of_row {bands : List HFBand} (htotal : totalWidth bands ≤ 4096)
    (hfft : ∀ band ∈ bands, band.wb_start + band.bw ≤ kFftCells) {band : HFBand}
    {row : BandMapRow} (hrow : (band, row) ∈ bands.zip (init_band_map bands)) {c k : ℕ}
    (hk : k < band.bw) (hc : (c : ℤ) = row.ifft_start + k) :
    Placed bands c (band.wb_start + k) := by
  intro α zero fftData_d channelData_d
  obtain ⟨composite, hcopy⟩ := Option.isSome_iff_exists.1
    (composite_assembly_isSome htotal hfft zero fftData_d channelData_d)
  exact ⟨composite, hcopy, copy_bands_of_mem hcopy hrow hc hk⟩

/-- Every composite bin of the windows is placed. -/
theorem exists_placed {bands : List HFBand} (htotal : totalWidth bands ≤ 4096)
    (hfft : ∀ band ∈ bands, band.wb_start + band.bw ≤ kFftCells) {c : ℕ}
    (hc : c < totalWidth bands) : ∃ b, Placed bands c b := by
  have hlt : (c : ℤ) < 0 + totalWidth bands := by omega
  obtain ⟨band, row, hrow, hstart, hend⟩ := exists_row (Int.natCast_nonneg c) hlt
  rw [(rowOf_of_mem_zip hrow).ifft_end] at hend
  obtain ⟨k, hk⟩ := Int.eq_ofNat_of_zero_le (sub_nonneg.2 hstart)
  have hk' : (c : ℤ) = row.ifft_start + k := by omega
  exact ⟨_, placed_of_row htotal hfft hrow (by omega) hk'⟩

/-! ## The band map in exact arithmetic -/

/-- `composite_bin_to_rf_hz` with any roundings to double and to float. -/
def rf_hz_rounded (double float : ℚ → ℚ) (bands : List HFBand) (freq_offset rfft_size : Int32) :
    ℚ :=
  let pos := double (double (freq_offset.toInt * kIfftSize) / rfft_size.toInt)
  let bin := ⌊pos⌋
  let ifft_bin := if bin < 0 then bin + kIfftSize else bin
  let ifft_pos := if bin < 0 then double (pos + kIfftSize) else pos
  match (init_band_map bands).find? fun row =>
      row.ifft_start ≤ ifft_bin ∧ ifft_bin < row.ifft_end with
  | some row =>
    let wb_pos := double (row.wb_start + double (ifft_pos - row.ifft_start))
    float (double (double (wb_pos * kWbSampleRate) / kWidebandFftSize))
  | none => float freq_offset.toInt

/-- The code rounds to the formats of `double` and `float`. -/
theorem rf_hz_rounded_double_float (bands : List HFBand) (freq_offset rfft_size : Int32) :
    rf_hz_rounded double float bands freq_offset rfft_size =
      composite_bin_to_rf_hz bands freq_offset rfft_size := by
  unfold rf_hz_rounded composite_bin_to_rf_hz ifft_position
  dsimp only
  split_ifs <;> rfl

/-- `composite_bin_to_rf_hz` in exact arithmetic. -/
def rf_hz_exact (bands : List HFBand) (freq_offset rfft_size : Int32) : ℚ :=
  rf_hz_rounded id id bands freq_offset rfft_size

/-- A place in a window is taken to where its bin came from. -/
theorem rf_hz_exact_of_row {bands : List HFBand} {row : BandMapRow} {freq_offset rfft_size : Int32}
    {c : ℕ} {frac : ℚ} (hrow : row ∈ init_band_map bands)
    (hc : row.ifft_start ≤ c ∧ (c : ℤ) < row.ifft_end) (hfrac : 0 ≤ frac ∧ frac < 1)
    (hpos : (freq_offset.toInt * 4096 / rfft_size.toInt : ℚ) = c + frac ∨
      (freq_offset.toInt * 4096 / rfft_size.toInt : ℚ) = c + frac - 4096 ∧ c < 4096) :
    rf_hz_exact bands freq_offset rfft_size =
      100 * (row.wb_start + (c - row.ifft_start) + frac) := by
  have hsize : (kIfftSize : ℚ) = 4096 := by norm_num [kIfftSize]
  have hfind := find?_init_band_map hrow hc
  have hfloor : ⌊(c + frac : ℚ)⌋ = c := by
    rw [Int.floor_eq_iff]
    push_cast
    constructor <;> linarith
  unfold rf_hz_exact rf_hz_rounded
  simp only [id, hsize]
  rcases hpos with hpos | ⟨hpos, hlt⟩
  · rw [hpos, hfloor, if_neg (by omega), if_neg (by omega), hfind]
    dsimp only
    rw [kWbSampleRate, kWidebandFftSize]
    ring
  · -- a negative place is moved to the end of the spectrum
    have hbin : ⌊(c + frac - 4096 : ℚ)⌋ = c - 4096 := by
      rw [Int.floor_eq_iff]
      push_cast
      constructor <;> linarith
    have hneg : (c : ℤ) - 4096 < 0 := by omega
    have hwrap : (c : ℤ) - 4096 + kIfftSize = c := by
      rw [kIfftSize]
      omega
    rw [hpos, hbin, if_pos hneg, if_pos hneg, hwrap, hfind]
    dsimp only
    rw [kWbSampleRate, kWidebandFftSize]
    ring

/-- The negative alias of an offset is its difference to the size. -/
theorem toInt_sub_of_lt {freq_offset rfft_size : Int32} (hle : 0 ≤ freq_offset.toInt)
    (hlt : freq_offset.toInt < rfft_size.toInt) :
    (freq_offset - rfft_size).toInt = freq_offset.toInt - rfft_size.toInt := by
  have hsize := rfft_size.toInt_lt
  rw [Int32.toInt_sub]
  exact Int.bmod_eq_of_le (by omega) (by omega)

/-- An offset in the first 4096 bins lies between zero and the size. -/
theorem offset_mem_Ico {freq_offset rfft_size : Int32} (hsize : 0 < rfft_size.toInt) {c : ℕ}
    (hc : c < 4096) {frac : ℚ} (hfrac : 0 ≤ frac ∧ frac < 1)
    (hoffset : (freq_offset.toInt * 4096 / rfft_size.toInt : ℚ) = c + frac) :
    0 ≤ freq_offset.toInt ∧ freq_offset.toInt < rfft_size.toInt := by
  have hsizeQ : (0 : ℚ) < rfft_size.toInt := by exact_mod_cast hsize
  have hcQ : (0 : ℚ) ≤ c := Nat.cast_nonneg c
  have hltQ : (c : ℚ) + 1 ≤ 4096 := by exact_mod_cast hc
  rw [div_eq_iff hsizeQ.ne'] at hoffset
  constructor
  · have : (0 : ℚ) ≤ freq_offset.toInt := by nlinarith
    exact_mod_cast this
  · have : (freq_offset.toInt : ℚ) < rfft_size.toInt := by nlinarith
    exact_mod_cast this

/-- The negative alias of an offset lies one composite spectrum lower. -/
theorem alias_position {freq_offset rfft_size : Int32} (hsize : 0 < rfft_size.toInt) {c : ℕ}
    (hc : c < 4096) {frac : ℚ} (hfrac : 0 ≤ frac ∧ frac < 1)
    (hoffset : (freq_offset.toInt * 4096 / rfft_size.toInt : ℚ) = c + frac) :
    ((freq_offset - rfft_size).toInt * 4096 / rfft_size.toInt : ℚ) = c + frac - 4096 := by
  obtain ⟨hle, hlt⟩ := offset_mem_Ico hsize hc hfrac hoffset
  have hsizeQ : (rfft_size.toInt : ℚ) ≠ 0 := by exact_mod_cast hsize.ne'
  rw [toInt_sub_of_lt hle hlt, Int.cast_sub, sub_mul, sub_div, hoffset,
    mul_div_cancel_left₀ _ hsizeQ]

/-- The band map inverts the packing: an offset in an FFT of any size that lies in a packed bin, and
its negative alias, are given the frequency of the wideband bin that was put there, and the rest of
the offset. -/
theorem rf_hz_exact_of_placed {bands : List HFBand}
    (hrows : ∀ band ∈ bands, band.wb_start < band.wb_end ∧ band.bw = band.wb_end - band.wb_start)
    (htotal : totalWidth bands ≤ 4096) {c b : ℕ} (hplaced : Placed bands c b)
    {freq_offset rfft_size : Int32} (hsize : 0 < rfft_size.toInt) {frac : ℚ}
    (hfrac : 0 ≤ frac ∧ frac < 1)
    (hoffset : (freq_offset.toInt * 4096 / rfft_size.toInt : ℚ) = c + frac) :
    (∃ band ∈ bands, band.wb_start ≤ b ∧ b < band.wb_end) ∧
      rf_hz_exact bands freq_offset rfft_size = 100 * b + 100 * frac ∧
      rf_hz_exact bands (freq_offset - rfft_size) rfft_size = 100 * b + 100 * frac := by
  obtain ⟨band, row, k, hrow, hk, hc, rfl⟩ := exists_row_of_placed hplaced
  obtain ⟨hband, hmem⟩ := List.of_mem_zip hrow
  obtain ⟨hwidth, hbw⟩ := hrows band hband
  have hof := rowOf_of_mem_zip hrow
  have hend := hof.end_le
  have hwindow : row.ifft_start ≤ c ∧ (c : ℤ) < row.ifft_end := by
    rw [hof.ifft_end]
    omega
  have hlt : c < 4096 := by
    rw [totalWidth] at htotal
    omega
  -- the bin is as far behind the start of its band as behind the start of its row
  have hresult : (row.wb_start + (c - row.ifft_start) + frac : ℚ) =
      ((band.wb_start + k : ℕ) : ℚ) + frac := by
    have hcQ : (c : ℚ) = row.ifft_start + k := by exact_mod_cast hc
    rw [hof.wb_start, hcQ]
    push_cast
    ring
  have halias := alias_position hsize hlt hfrac hoffset
  refine ⟨⟨band, hband, by omega, by omega⟩, ?_, ?_⟩
  · rw [rf_hz_exact_of_row hmem hwindow hfrac (Or.inl hoffset), hresult, mul_add]
  · rw [rf_hz_exact_of_row hmem hwindow hfrac (Or.inr ⟨halias, hlt⟩), hresult, mul_add]

/-- In the table of the code, the first bin of the second window. -/
theorem rf_hz_exact_of_placed_80m :
    (∃ band ∈ kHFBands, band.wb_start ≤ 35720 ∧ 35720 < band.wb_end) ∧
      rf_hz_exact kHFBands 1125 65536 = 100 * (35720 : ℕ) + 100 * (5 / 16) ∧
      rf_hz_exact kHFBands (1125 - 65536) 65536 = 100 * (35720 : ℕ) + 100 * (5 / 16) := by
  have hfirst : (⟨35720, 35820, 100, "80m"⟩, ⟨70, 170, 35720⟩) ∈
      kHFBands.zip (init_band_map kHFBands) := List.mem_cons_of_mem _ List.mem_cons_self
  have hplaced : Placed kHFBands 70 (35720 + 0) :=
    placed_of_row (by decide) (by decide) hfirst (by decide) rfl
  have hoffset : (((1125 : Int32).toInt : ℚ) * 4096 / ((65536 : Int32).toInt : ℚ)) =
      ((70 : ℕ) : ℚ) + 5 / 16 := by
    have hfreq : (1125 : Int32).toInt = 1125 := rfl
    have hsize : (65536 : Int32).toInt = 65536 := rfl
    rw [hfreq, hsize]
    norm_num
  exact rf_hz_exact_of_placed (by decide) (by decide) hplaced (by decide) (by norm_num) hoffset

end GranolaSdr.Hf.BandMap
