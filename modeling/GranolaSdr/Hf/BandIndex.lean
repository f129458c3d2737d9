import GranolaSdr.Hf.BandMap

/-!
# The band of an offset

`composite_bin_to_band_idx` of `src/gm/hf/band_map.cc` looks an offset up in the same table as
`composite_bin_to_rf_hz`, but by the nearest bin, computed in single precision, where the latter
takes the bin that the offset lies in. The two agree unless rounding carries the offset over an edge
of a window: in the last half bin before a window, and just below zero.

## Main definitions

* `band_map_ifft_bin`, `composite_bin_to_band_idx`: the nearest bin, and its window;
* `rf_window`: the window by which `composite_bin_to_rf_hz` computes the frequency;
* `Reached`: an edge is at most half a bin above an offset in single precision.

## Main results

* `composite_bin_to_rf_hz_eq`: the frequency in terms of the window;
* `composite_bin_to_band_idx_eq_iff`: when the two windows are the same.
-/

namespace GranolaSdr.Hf.BandMap

open Rounding

/-- An offset as a position in the composite spectrum, in single precision. -/
def float_pos (freq_offset rfft_size : Int32) : ℚ :=
  float (float (float freq_offset.toInt * kIfftSize) / float rfft_size.toInt)

/-- `roundf`: the nearest integer; of two, the one farther from zero. -/
def roundf (x : ℚ) : ℤ := if x < 0 then ⌈x - 1 / 2⌉ else ⌊x + 1 / 2⌋

/-- `band_map_ifft_bin` -/
def band_map_ifft_bin (freq_offset rfft_size : Int32) : ℤ :=
  let ifft_bin := roundf (float_pos freq_offset rfft_size)
  if ifft_bin < 0 then ifft_bin + kIfftSize else ifft_bin

/-- The index of the window that a bin lies in. -/
def windowOf (rows : List BandMapRow) (ifft_bin : ℤ) : Option ℕ :=
  rows.findIdx? fun row => row.ifft_start ≤ ifft_bin ∧ ifft_bin < row.ifft_end

/-- `composite_bin_to_band_idx` -/
def composite_bin_to_band_idx (bands : List HFBand) (freq_offset rfft_size : Int32) : ℤ :=
  match windowOf (init_band_map bands) (band_map_ifft_bin freq_offset rfft_size) with
  | some i => i
  | none => -1

/-- The index of the window by which `composite_bin_to_rf_hz` computes the frequency. -/
def rf_window (bands : List HFBand) (freq_offset rfft_size : Int32) : Option ℕ :=
  windowOf (init_band_map bands) (ifft_position freq_offset rfft_size).1

/-- The frequency is computed by the row of the window, and is the offset if there is none. -/
theorem composite_bin_to_rf_hz_eq (bands : List HFBand) (freq_offset rfft_size : Int32) :
    composite_bin_to_rf_hz bands freq_offset rfft_size =
      match (rf_window bands freq_offset rfft_size).bind ((init_band_map bands)[·]?) with
      | some row => row.rf_hz (ifft_position freq_offset rfft_size).2
      | none => float freq_offset.toInt := by
  rw [rf_window, windowOf, ← List.find?_eq_bind_findIdx?_getElem?]
  rfl

/-! ## Edges -/

/-- A bin lies in a window. -/
def BandMapRow.Contains (row : BandMapRow) (bin : ℤ) : Prop :=
  row.ifft_start ≤ bin ∧ bin < row.ifft_end

/-- A number is an edge of a window that is not empty. -/
def Edge (bands : List HFBand) (e : ℤ) : Prop :=
  ∃ row ∈ init_band_map bands, row.ifft_start < row.ifft_end ∧
    (e = row.ifft_start ∨ e = row.ifft_end)

/-- The sum of the widths. -/
def windowsWidth (bands : List HFBand) : ℤ := ((bands.map (·.bw)).sum : ℕ)

theorem ifft_end_le_of_mem {offset : ℤ} {bands : List HFBand} {row : BandMapRow}
    (h : row ∈ band_map_from offset bands) : row.ifft_end ≤ offset + windowsWidth bands := by
  induction bands generalizing offset with
  | nil => cases h
  | cons band bands ih =>
    rw [windowsWidth, List.map_cons, List.sum_cons]
    rw [band_map_from, List.mem_cons] at h
    rcases h with rfl | h
    · dsimp only
      omega
    · have hle := ih h
      rw [windowsWidth] at hle
      omega

/-- The windows leave no gaps. -/
theorem exists_contains {offset : ℤ} {bands : List HFBand} {bin : ℤ} (hlow : offset ≤ bin)
    (hhigh : bin < offset + windowsWidth bands) : ∃ row ∈ band_map_from offset bands,
      row.Contains bin := by
  induction bands generalizing offset with
  | nil => simp [windowsWidth] at hhigh; omega
  | cons band bands ih =>
    rw [windowsWidth, List.map_cons, List.sum_cons] at hhigh
    by_cases hbin : bin < offset + band.bw
    · exact ⟨_, List.mem_cons_self, hlow, hbin⟩
    · obtain ⟨row, hrow, hcontains⟩ := ih (not_lt.1 hbin) (by rw [windowsWidth]; omega)
      exact ⟨row, List.mem_cons_of_mem _ hrow, hcontains⟩

/-- Windows that have a bin in common are the same. -/
theorem eq_of_contains {bands : List HFBand} {row row' : BandMapRow} (h : row ∈ init_band_map bands)
    (h' : row' ∈ init_band_map bands) {bin : ℤ} (hbin : row.Contains bin)
    (hbin' : row'.Contains bin) : row = row' :=
  Option.some.inj ((find?_init_band_map h hbin).symm.trans (find?_init_band_map h' hbin'))

/-- A window with one of two bins of the same index has the other as well. -/
theorem contains_of_windowOf_eq {bands : List HFBand} {a b : ℤ}
    (h : windowOf (init_band_map bands) a = windowOf (init_band_map bands) b) {row : BandMapRow}
    (hrow : row ∈ init_band_map bands) (ha : row.Contains a) : row.Contains b := by
  have hfind : (init_band_map bands).find? (fun row => row.ifft_start ≤ b ∧ b < row.ifft_end) =
      some row := by
    rw [← find?_init_band_map hrow ha, List.find?_eq_bind_findIdx?_getElem?,
      List.find?_eq_bind_findIdx?_getElem?]
    exact congrArg (Option.bind · _) h.symm
  have hb := List.find?_some hfind
  show row.ifft_start ≤ b ∧ b < row.ifft_end
  exact of_decide_eq_true hb

/-- An edge separates two bins. -/
theorem windowOf_ne_of_edge {bands : List HFBand} {a b e : ℤ} (he : Edge bands e) (hae : a < e)
    (heb : e ≤ b) (hsign : a < 0 → b ≤ 0) :
    windowOf (init_band_map bands) a ≠ windowOf (init_band_map bands) b := by
  intro heq
  obtain ⟨row, hrow, hnonempty, hedge⟩ := he
  have hstart := le_ifft_start_of_mem hrow
  have hend := ifft_end_le_of_mem hrow
  by_cases ha : 0 ≤ a
  · -- the window of the lower bin would have the edge in its interior
    have hcover : ∃ row' ∈ init_band_map bands, row'.Contains a := exists_contains ha (by omega)
    obtain ⟨row', hrow', hcontains⟩ := hcover
    obtain ⟨-, hhigh⟩ := contains_of_windowOf_eq heq hrow' hcontains
    obtain ⟨hlow, -⟩ := hcontains
    rcases hedge with rfl | rfl
    · have hmem : row.Contains row.ifft_start := ⟨le_rfl, hnonempty⟩
      rw [eq_of_contains hrow hrow' hmem ⟨by omega, by omega⟩] at hae
      omega
    · have hmem : row.Contains (row.ifft_end - 1) := ⟨by omega, by omega⟩
      rw [eq_of_contains hrow hrow' hmem ⟨by omega, by omega⟩] at heb
      omega
  · -- the upper bin is the first of the spectrum, which is in a window
    have hb := hsign (not_le.1 ha)
    have hcover : ∃ row' ∈ init_band_map bands, row'.Contains b :=
      exists_contains (by omega) (by omega)
    obtain ⟨row', hrow', hcontains⟩ := hcover
    obtain ⟨hlow, -⟩ := contains_of_windowOf_eq heq.symm hrow' hcontains
    have hstart' := le_ifft_start_of_mem hrow'
    omega

/-- Only the windows with a bin matter to its index. -/
theorem windowOf_congr {rows : List BandMapRow} {a b : ℤ}
    (h : ∀ row ∈ rows, row.Contains a ↔ row.Contains b) : windowOf rows a = windowOf rows b := by
  unfold windowOf
  induction rows with
  | nil => rfl
  | cons row rows ih =>
    obtain ⟨hrow, hrows⟩ := List.forall_mem_cons.1 h
    unfold BandMapRow.Contains at hrow
    rw [List.findIdx?_cons, List.findIdx?_cons, ih hrows]
    simp only [hrow]

/-- Two bins have the same window if no edge separates them, and only then. -/
theorem windowOf_eq_iff {bands : List HFBand} {a b : ℤ} (hsign : a < 0 → b ≤ 0)
    (hsign' : b < 0 → a ≤ 0) :
    windowOf (init_band_map bands) a = windowOf (init_band_map bands) b ↔
      ∀ e, Edge bands e → (e ≤ a ↔ e ≤ b) := by
  constructor
  · intro h e he
    constructor
    · intro hea
      by_contra heb
      exact windowOf_ne_of_edge he (not_le.1 heb) hea hsign' h.symm
    · intro heb
      by_contra hea
      exact windowOf_ne_of_edge he (not_le.1 hea) heb hsign h
  · intro h
    refine windowOf_congr fun row hrow => ?_
    by_cases hnonempty : row.ifft_start < row.ifft_end
    · have hstart := h row.ifft_start ⟨row, hrow, hnonempty, .inl rfl⟩
      have hend := h row.ifft_end ⟨row, hrow, hnonempty, .inr rfl⟩
      exact and_congr hstart (by rw [← not_le, ← not_le, hend])
    · -- an empty window has no bins
      constructor <;> rintro ⟨hlow, hhigh⟩ <;> omega

/-! ## The bin of an offset -/

/-- A quotient of two `int`s is not rounded up to an integer, however large. -/
theorem double_div_lt {a n e : ℤ} (ha : |a| ≤ 2 ^ 43) (hn : 0 < n) (hn' : n < 2 ^ 31)
    (he : -4096 ≤ e) (hlt : (a : ℚ) / n < e) : double (a / n) < e := by
  obtain ⟨ha₁, ha₂⟩ := abs_le.1 ha
  have hnQ : (0 : ℚ) < n := by exact_mod_cast hn
  have halt : a < e * n := by exact_mod_cast (div_lt_iff₀ hnQ).1 hlt
  by_cases hnext : a ≤ (e - 1) * n
  · -- there is an integer between
    have hbound : (a : ℚ) / n ≤ (min (e - 1) (2 ^ 43) : ℤ) := by
      rw [div_le_iff₀ hnQ, ← Int.cast_mul, Int.cast_le]
      rcases min_cases (e - 1) (2 ^ 43) with ⟨hmin, -⟩ | ⟨hmin, -⟩
      · rwa [hmin]
      · rw [hmin]
        omega
    have hround : double (a / n) ≤ (min (e - 1) (2 ^ 43) : ℤ) :=
      Format.round_le (representable_double (by rw [abs_lt]; omega)) hbound
    have hmin : ((min (e - 1) (2 ^ 43) : ℤ) : ℚ) < e := by
      exact_mod_cast lt_of_le_of_lt (min_le_left _ _) (sub_one_lt e)
    exact hround.trans_lt hmin
  · -- the quotient is at most this part below
    obtain ⟨d, hd⟩ := Int.eq_ofNat_of_zero_le hn.le
    have hpow : n ≤ 2 ^ (Nat.log 2 d + 1) := by
      rw [hd]
      exact_mod_cast (Nat.lt_pow_succ_log_self one_lt_two d).le
    have hpow' : 2 ^ (Nat.log 2 d + 1) ≤ 2 * n := by
      have hlog := Nat.pow_log_le_self 2 (x := d) (by omega)
      rw [hd, pow_succ, mul_comm]
      exact_mod_cast Nat.mul_le_mul_left 2 hlog
    generalize Nat.log 2 d + 1 = j at hpow hpow'
    have hpart : binary64.Representable (e - 1 / 2 ^ j) := by
      refine ⟨e * 2 ^ j - 1, -j, ?_, ?_, ?_⟩
      · show |e * 2 ^ j - 1| < 2 ^ 53
        rw [abs_lt]
        constructor <;> nlinarith
      · show (-1074 : ℤ) ≤ -j
        have hj : j < 33 := (pow_lt_pow_iff_right₀ (show (1 : ℤ) < 2 by decide)).1 (by omega)
        omega
      · push_cast
        rw [zpow_neg, zpow_natCast, sub_mul, one_mul, mul_assoc,
          mul_inv_cancel₀ (pow_ne_zero j two_ne_zero), mul_one, one_div]
    have hbelow : (a : ℚ) / n ≤ e - 1 / 2 ^ j := by
      have haQ : (a : ℚ) ≤ e * n - 1 := by exact_mod_cast Int.le_sub_one_of_lt halt
      have hnQ' : (n : ℚ) ≤ 2 ^ j := by exact_mod_cast hpow
      have hratio : 1 / 2 ^ j * (n : ℚ) ≤ 1 := by
        rw [one_div, inv_mul_le_iff₀ (by positivity), mul_one]
        exact hnQ'
      rw [div_le_iff₀ hnQ, sub_mul]
      linarith
    have hround : double (a / n) ≤ e - 1 / 2 ^ j := Format.round_le hpart hbelow
    have hpos : (0 : ℚ) < 1 / 2 ^ j := by positivity
    linarith

/-- The bin of an offset is that of its exact position. -/
theorem le_ifft_position_iff {freq_offset rfft_size : Int32} (hsize : 0 < rfft_size.toInt) {e : ℤ}
    (he : 0 ≤ e) :
    e ≤ (ifft_position freq_offset rfft_size).1 ↔ e ≤ position freq_offset rfft_size := by
  have hsize' := rfft_size.toInt_lt
  have hlt := freq_offset.toInt_lt
  have hle := freq_offset.le_toInt
  set pos : ℚ := (freq_offset.toInt * 4096 : ℤ) / rfft_size.toInt with hpos
  have hposition : position freq_offset rfft_size = if pos < 0 then pos + 4096 else pos := by
    rw [hpos]
    push_cast
    rfl
  have ha : |freq_offset.toInt * 4096| ≤ 2 ^ 43 := by
    rw [abs_le]
    omega
  -- the rounding of the quotient passes no integer
  have hround : ∀ k : ℤ, -4096 ≤ k → (k ≤ ⌊double pos⌋ ↔ (k : ℚ) ≤ pos) := by
    intro k hk
    rw [Int.le_floor]
    constructor
    · intro h
      by_contra hlt
      exact absurd h (not_le.2 (double_div_lt ha hsize hsize' hk (not_le.1 hlt)))
    · intro h
      refine Format.le_round (representable_double ?_) h
      have hsizeQ : (0 : ℚ) < rfft_size.toInt := by exact_mod_cast hsize
      rw [hpos, le_div_iff₀ hsizeQ] at h
      have hk' : k * rfft_size.toInt ≤ freq_offset.toInt * 4096 := by exact_mod_cast h
      rw [abs_lt]
      constructor <;> nlinarith
  have hneg : ⌊double pos⌋ < 0 ↔ pos < 0 := by
    have hzero := hround 0 (by decide)
    rw [Int.cast_zero] at hzero
    rw [← not_le, ← not_le, hzero]
  unfold ifft_position
  rw [double_product, ← hpos, hposition]
  simp only [hneg]
  split_ifs with hlt
  · -- a negative position is moved to the end of the spectrum
    have hmoved := hround (e - 4096) (by omega)
    push_cast at hmoved
    show e ≤ ⌊double pos⌋ + 4096 ↔ _
    rw [← sub_le_iff_le_add, hmoved, sub_le_iff_le_add]
  · exact hround e (by omega)

/-- An edge is at most half a bin above an offset in single precision; where the offset is moved to
the end of the spectrum, it is less than half a bin above it. -/
def Reached (freq_offset rfft_size : Int32) (e : ℤ) : Prop :=
  if float_pos freq_offset rfft_size ≤ -1 / 2 then
    e < float_pos freq_offset rfft_size + 4096 + 1 / 2
  else e ≤ float_pos freq_offset rfft_size + 1 / 2

theorem le_band_map_ifft_bin_iff (freq_offset rfft_size : Int32) (e : ℤ) :
    e ≤ band_map_ifft_bin freq_offset rfft_size ↔ Reached freq_offset rfft_size e := by
  unfold band_map_ifft_bin Reached
  generalize float_pos freq_offset rfft_size = q
  have hnegative : roundf q < 0 ↔ q ≤ -1 / 2 := by
    unfold roundf
    split_ifs with hq
    · rw [← Int.le_sub_one_iff, Int.ceil_le]
      push_cast
      constructor <;> intro h <;> linarith
    · rw [Int.floor_lt]
      push_cast
      constructor <;> intro h <;> linarith
  simp only [hnegative]
  split_ifs with hhalf
  · have hq : q < 0 := by linarith
    rw [roundf, if_pos hq, ← sub_le_iff_le_add, Int.le_ceil_iff, kIfftSize]
    push_cast
    constructor <;> intro h <;> linarith
  · by_cases hq : q < 0
    · -- just below zero the nearest bin is the first
      have hzero : roundf q = 0 := by
        rw [roundf, if_pos hq, Int.ceil_eq_iff]
        push_cast
        constructor <;> linarith
      rw [hzero]
      constructor
      · intro h
        have hQ : (e : ℚ) ≤ 0 := by exact_mod_cast h
        linarith
      · intro h
        have hlt : e < 1 := by
          have hQ : (e : ℚ) < 1 := by linarith
          exact_mod_cast hQ
        omega
    · rw [roundf, if_neg hq, Int.le_floor]

/-! ## Offsets far below zero -/

theorem float_near {x : ℚ} (hx : 1 ≤ |x|) : |float x - x| ≤ |x| / 2 ^ 24 := by
  have hleast : (2 : ℚ) ^ (binary32.emin + binary32.fraction) ≤ |x| :=
    le_trans (zpow_le_one_of_nonpos₀ one_le_two (by decide)) hx
  exact Format.abs_round_sub_le hleast

/-- A negative `int` in single precision. -/
theorem float_neg_bounds {n : ℚ} (hn : n ≤ -1) :
    (1 + 1 / 2 ^ 24) * n ≤ float n ∧ float n ≤ (1 - 1 / 2 ^ 24) * n := by
  have hnear := float_near (x := n) (by rw [abs_of_nonpos (by linarith)]; linarith)
  rw [abs_of_nonpos (show n ≤ 0 by linarith)] at hnear
  obtain ⟨hlow, hhigh⟩ := abs_le.1 hnear
  constructor <;> linarith

theorem float_pos_bounds {n : ℚ} (hn : 1 ≤ n) :
    (1 - 1 / 2 ^ 24) * n ≤ float n ∧ float n ≤ (1 + 1 / 2 ^ 24) * n := by
  have hnear := float_near (x := n) (by rw [abs_of_nonneg (by linarith)]; linarith)
  rw [abs_of_nonneg (show 0 ≤ n by linarith)] at hnear
  obtain ⟨hlow, hhigh⟩ := abs_le.1 hnear
  constructor <;> linarith

/-- The roundings do not carry an offset over the place where the spectrum begins. -/
theorem float_pos_le {freq_offset rfft_size : Int32} (hsize : 0 < rfft_size.toInt)
    (h : freq_offset.toInt < -rfft_size.toInt) :
    float_pos freq_offset rfft_size ≤ -4096 + 1 / 256 := by
  have hn : (1 : ℚ) ≤ rfft_size.toInt := by exact_mod_cast hsize
  have ha : (freq_offset.toInt : ℚ) ≤ -rfft_size.toInt := by exact_mod_cast h.le
  -- three roundings before the last one, each with a relative error of at most 2^-24
  obtain ⟨hsize₁, hsize₂⟩ := float_pos_bounds hn
  obtain ⟨-, hoffset⟩ := float_neg_bounds (n := freq_offset.toInt) (by linarith)
  obtain ⟨-, hproduct⟩ := float_neg_bounds (n := float freq_offset.toInt * kIfftSize)
    (by rw [kIfftSize]; push_cast; linarith)
  rw [kIfftSize] at hproduct
  push_cast at hproduct
  have hpos : 0 < float rfft_size.toInt := by linarith
  -- the bound is a float itself, so the last rounding does not pass it
  have hpart : binary32.Representable (-4096 + 1 / 256) :=
    ⟨-1048575, -8, by decide, by decide, by norm_num⟩
  refine Format.round_le hpart ?_
  rw [div_le_iff₀ hpos, kIfftSize]
  push_cast
  linarith

theorem le_float_pos {freq_offset rfft_size : Int32} (hsize : 0 < rfft_size.toInt)
    (h : -rfft_size.toInt ≤ freq_offset.toInt) :
    -4096 - 1 / 256 ≤ float_pos freq_offset rfft_size := by
  have hn : (1 : ℚ) ≤ rfft_size.toInt := by exact_mod_cast hsize
  have ha : (-rfft_size.toInt : ℚ) ≤ freq_offset.toInt := by exact_mod_cast h
  obtain ⟨hsize₁, hsize₂⟩ := float_pos_bounds hn
  have hpos : 0 < float rfft_size.toInt := by linarith
  -- the bound is a float, as above
  have hpart : binary32.Representable (-4096 - 1 / 256) :=
    ⟨-1048577, -8, by decide, by decide, by norm_num⟩
  have hzero : binary32.Representable 0 := ⟨0, 0, by decide, by decide, by norm_num⟩
  refine Format.le_round hpart ?_
  rw [le_div_iff₀ hpos]
  by_cases hneg : freq_offset.toInt < 0
  · have hoff : (freq_offset.toInt : ℚ) ≤ -1 := by exact_mod_cast Int.le_sub_one_of_lt hneg
    obtain ⟨hoffset, hoffset'⟩ := float_neg_bounds hoff
    obtain ⟨hproduct, -⟩ := float_neg_bounds (n := float freq_offset.toInt * kIfftSize)
      (by rw [kIfftSize]; push_cast; linarith)
    rw [kIfftSize] at hproduct ⊢
    push_cast at hproduct ⊢
    linarith
  · -- an offset that is not negative is scaled to one that is not
    have hoff : (0 : ℚ) ≤ freq_offset.toInt := by exact_mod_cast not_lt.1 hneg
    have hoffset : 0 ≤ float freq_offset.toInt := Format.le_round hzero hoff
    have hproduct : 0 ≤ float (float freq_offset.toInt * kIfftSize) :=
      Format.le_round hzero (mul_nonneg hoffset (by decide))
    linarith

/-- No bin of the two is negative while the other is positive. -/
theorem bins_nonpos (freq_offset : Int32) {rfft_size : Int32} (hsize : 0 < rfft_size.toInt) :
    ((ifft_position freq_offset rfft_size).1 < 0 → band_map_ifft_bin freq_offset rfft_size ≤ 0) ∧
      (band_map_ifft_bin freq_offset rfft_size < 0 →
        (ifft_position freq_offset rfft_size).1 ≤ 0) := by
  -- the bin of the position is negative where the offset is beyond the size
  have hneg : (ifft_position freq_offset rfft_size).1 < 0 ↔
      freq_offset.toInt < -rfft_size.toInt := by
    have hsizeQ : (0 : ℚ) < rfft_size.toInt := by exact_mod_cast hsize
    rw [← not_le, le_ifft_position_iff hsize le_rfl, not_le, Int.cast_zero, position,
      ← Int.cast_lt (R := ℚ)]
    push_cast
    have hiff : (freq_offset.toInt * 4096 : ℚ) / rfft_size.toInt < -4096 ↔
        (freq_offset.toInt : ℚ) < -rfft_size.toInt := by
      rw [div_lt_iff₀ hsizeQ]
      constructor <;> intro h <;> linarith
    rw [← hiff]
    split_ifs with hneg
    · constructor <;> intro h <;> linarith
    · constructor <;> intro h <;> linarith
  constructor
  · intro h
    by_contra hpos
    have hreached := (le_band_map_ifft_bin_iff freq_offset rfft_size 1).1 (not_le.1 hpos)
    have hle := float_pos_le hsize (hneg.1 h)
    unfold Reached at hreached
    split_ifs at hreached with hhalf
    · push_cast at hreached
      linarith
    · exact hhalf (by linarith)
  · intro h
    by_contra hpos
    have hle := le_float_pos hsize (not_lt.1 fun hlt => hpos (hneg.2 hlt).le)
    refine not_le.2 h ((le_band_map_ifft_bin_iff freq_offset rfft_size 0).2 ?_)
    unfold Reached
    split_ifs with hhalf
    · push_cast
      linarith
    · push_cast
      linarith

/-! ## Agreement -/

/-- The window is the one by which the frequency is computed, and there is none for both or for
neither, if and only if every edge of a window is at or below the position of the offset exactly if
it is reached in single precision. -/
theorem composite_bin_to_band_idx_eq_iff (bands : List HFBand) {freq_offset rfft_size : Int32}
    (hsize : 0 < rfft_size.toInt) :
    composite_bin_to_band_idx bands freq_offset rfft_size =
        (match rf_window bands freq_offset rfft_size with
          | some i => (i : ℤ)
          | none => -1) ↔
      ∀ e, Edge bands e → ((e : ℚ) ≤ position freq_offset rfft_size ↔
        Reached freq_offset rfft_size e) := by
  obtain ⟨hsign, hsign'⟩ := bins_nonpos freq_offset hsize
  -- no index is -1
  have hindex : ∀ i j : Option ℕ,
      ((match i with | some i => (i : ℤ) | none => -1) =
        match j with | some j => (j : ℤ) | none => -1) ↔ j = i := by
    rintro (_ | i) (_ | j)
    · simp
    · simp
    · simp
    · simp [eq_comm]
  rw [composite_bin_to_band_idx, hindex, rf_window, windowOf_eq_iff hsign hsign']
  refine forall_congr' fun e => forall_congr' fun he => ?_
  -- an edge is not negative, where the position is compared by its bin
  have hnonneg : 0 ≤ e := by
    obtain ⟨row, hrow, hnonempty, hedge⟩ := he
    have hstart := le_ifft_start_of_mem hrow
    omega
  rw [le_ifft_position_iff hsize hnonneg, le_band_map_ifft_bin_iff]

/-- An offset in the last half bin of the 160m window is labelled 80m. -/
theorem composite_bin_to_band_idx_ne :
    ¬∀ (bands : List HFBand) (freq_offset rfft_size : Int32), 0 < rfft_size.toInt →
      composite_bin_to_band_idx bands freq_offset rfft_size =
        match rf_window bands freq_offset rfft_size with
        | some i => (i : ℤ)
        | none => -1 := by
  intro h
  have hne := h kHFBands 1119 65536 (by decide)
  have hbin : (ifft_position 1119 65536).1 = 69 := by decide +kernel
  have hnearest : band_map_ifft_bin 1119 65536 = 70 := by decide +kernel
  rw [composite_bin_to_band_idx, rf_window, hbin, hnearest] at hne
  exact absurd hne (by decide +kernel)

/-- An offset well inside the 160m window, in an FFT of the usual size. -/
theorem composite_bin_to_band_idx_eq_iff_inside :
    composite_bin_to_band_idx kHFBands 640 65536 =
        (match rf_window kHFBands 640 65536 with
          | some i => (i : ℤ)
          | none => -1) ↔
      ∀ e, Edge kHFBands e → ((e : ℚ) ≤ position 640 65536 ↔ Reached 640 65536 e) :=
  composite_bin_to_band_idx_eq_iff kHFBands (by decide)

end GranolaSdr.Hf.BandMap
