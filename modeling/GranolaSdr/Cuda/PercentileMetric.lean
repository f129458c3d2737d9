import GranolaSdr.Lib.OrderStatistic
import Mathlib.Data.List.Induction
import Mathlib.Data.Nat.Init

/-!
# The detection metric of the CW skimmer

A keyed carrier is bimodal, so its high magnitudes stand well above its median. The skimmer counts
the magnitudes of a bin over the window in a histogram of the 256 byte values, and walks up it until
the counts reach half and four fifths of the window. Their distance is the metric.

A window has 1000 rows at the most, so no count wraps; the float of the metric is exact.

## Main definitions

* `hist`: the histogram of a bin over the window;
* `scan`: the walk over the histogram, with its latch and its early exit;
* `snr`: the metric.

## Main results

* `percentiles_of_window`: the walk stops at two order statistics of the window.
-/

namespace GranolaSdr.Cuda.Percentile

open OrderStatistic

/-- The histogram of the magnitudes `v` of a bin. -/
def hist (window : List UInt8) : Vector ℕ 256 :=
  window.foldl (fun hist v => hist.set v.toNat (hist.get ⟨v.toNat, v.toNat_lt⟩ + 1) v.toNat_lt)
    (Vector.replicate 256 0)

/-- What the walk has found. -/
structure Walk where
  cum : ℕ
  p50 : ℕ
  p80 : ℕ
  g50 : Bool

/-- The walk up the counts from the value `h`. -/
def scan (med_t p80_t : ℕ) : List ℕ → ℕ → Walk → Walk
  | [], _, s => s
  | count :: hist, h, s =>
    let cum := s.cum + count
    -- the median is taken once, the second value ends the walk
    let latch := !s.g50 && decide (med_t ≤ cum)
    let s := { s with cum, p50 := if latch then h else s.p50, g50 := s.g50 || latch }
    if p80_t ≤ cum then { s with p80 := h } else scan med_t p80_t hist (h + 1) s

/-- The walk over the histogram of a window. -/
def percentiles (window : List UInt8) : Walk :=
  scan (window.length / 2) (window.length * 4 / 5) (hist window).toList 0 ⟨0, 0, 0, false⟩

/-- The metric of a bin. -/
def snr (window : List UInt8) : ℤ := (percentiles window).p80 - (percentiles window).p50

/-! ## The histogram -/

/-- The magnitudes of a window as numbers. -/
def values (window : List UInt8) : List ℕ := window.map UInt8.toNat

theorem getElem_hist (window : List UInt8) {h : ℕ} (hh : h < 256) :
    (hist window)[h] = (values window).count h := by
  induction window using List.reverseRecOn with
  | nil => simp [hist, values]
  | append_singleton window v ih =>
    have hget (xs : Vector ℕ 256) (i : Fin 256) : xs.get i = xs[(i : ℕ)] := rfl
    rw [hist, values, List.foldl_append, List.map_append, List.count_append]
    simp only [hget, List.foldl_cons, List.foldl_nil, List.map_cons, List.map_nil,
      Vector.getElem_set, List.count_singleton, beq_iff_eq]
    rw [hist, values] at ih
    split <;> simp_all

theorem toList_hist (window : List UInt8) :
    (hist window).toList = (List.range' 0 256).map (values window).count := by
  apply List.ext_getElem
  · simp
  · intro h h₁ h₂
    simp only [Vector.getElem_toList, List.getElem_map, List.getElem_range']
    rw [getElem_hist]
    simp

/-! ## The walk -/

section Walk

variable {vals : List ℕ} {m t h : ℕ} {s : Walk}

theorem countP_le_eq_add_count (vals : List ℕ) (h : ℕ) :
    vals.countP (· ≤ h) = vals.countP (· < h) + vals.count h := by
  induction vals with
  | nil => rfl
  | cons v vals ih =>
    simp only [List.countP_cons, List.count_cons, ih, decide_eq_true_eq, beq_iff_eq]
    grind

theorem countP_lt_succ (vals : List ℕ) (h : ℕ) :
    vals.countP (· < h + 1) = vals.countP (· ≤ h) := by
  simp only [Nat.lt_succ_iff]

/-- What the walk keeps before the value `h`: the count of the values below it, which has not
reached the second threshold, and the median as soon as it has reached the first. -/
structure Inv (vals : List ℕ) (m t h : ℕ) (s : Walk) : Prop where
  cum : s.cum = vals.countP (· < h)
  lt : s.cum < t
  p50 : s.g50 = true → IsKth vals m s.p50
  not_g50 : s.g50 = false → s.cum < m

/-- The latch takes the median at the first value up to which half of the window lies. -/
theorem isKth_latch (hi : Inv vals m t h s) (hm : m ≤ vals.countP (· ≤ h)) :
    IsKth vals m (if !s.g50 && decide (m ≤ vals.countP (· ≤ h)) then h else s.p50) := by
  cases hg : s.g50 with
  | false =>
    simp only [Bool.not_false, Bool.true_and, hm, decide_true, if_true]
    exact ⟨hi.cum ▸ hi.not_g50 hg, hm⟩
  | true => simpa using hi.p50 hg

theorem scan_isKth (hmt : m ≤ t) (n : ℕ) (hi : Inv vals m t h s)
    (hn : t ≤ vals.countP (· < h + n)) :
    IsKth vals m (scan m t ((List.range' h n).map vals.count) h s).p50 ∧
      IsKth vals t (scan m t ((List.range' h n).map vals.count) h s).p80 := by
  induction n generalizing h s with
  | zero =>
    have hlt := hi.lt
    rw [hi.cum] at hlt
    exact absurd hn hlt.not_ge
  | succ n ih =>
    rw [List.range'_succ, List.map_cons, scan, hi.cum, ← countP_le_eq_add_count]
    dsimp only
    -- the walk ends at this value, or goes on with the invariant at the next one
    split
    next ht => exact ⟨isKth_latch hi (hmt.trans ht), hi.cum ▸ hi.lt, ht⟩
    next ht =>
      apply ih _ (by rwa [Nat.add_right_comm])
      constructor
      · exact (countP_lt_succ vals h).symm
      · exact not_le.1 ht
      · -- the median was taken before, or is taken here
        intro hg
        rcases Bool.or_eq_true_iff.1 hg with hg | hg
        · rw [hg]
          simpa using hi.p50 hg
        · exact isKth_latch hi (of_decide_eq_true (Bool.and_eq_true_iff.1 hg).2)
      · intro hg
        simp only [Bool.or_eq_false_iff, Bool.and_eq_false_iff, Bool.not_eq_false'] at hg
        rcases hg with ⟨hg, hlatch⟩
        rw [hg] at hlatch
        simpa using hlatch

end Walk

/-- The walk starts below every magnitude, and with a threshold of one row at least. -/
theorem inv_start (window : List UInt8) (hn : 2 ≤ window.length) :
    Inv (values window) (window.length / 2) (window.length * 4 / 5) 0 ⟨0, 0, 0, false⟩ := by
  constructor
  · simp
  · show 0 < window.length * 4 / 5
    omega
  · simp
  · intro _
    show 0 < window.length / 2
    omega

/-- No magnitude lies above the histogram. -/
theorem countP_lt_256 (window : List UInt8) :
    (values window).countP (· < 0 + 256) = window.length := by
  rw [← List.length_map UInt8.toNat]
  apply List.countP_eq_length.2
  intro v hv
  obtain ⟨b, -, rfl⟩ := List.mem_map.1 hv
  simpa using b.toNat_lt

theorem isKth_percentiles (window : List UInt8) (hn : 2 ≤ window.length) :
    IsKth (values window) (window.length / 2) (percentiles window).p50 ∧
      IsKth (values window) (window.length * 4 / 5) (percentiles window).p80 := by
  have hscan := scan_isKth (by omega) 256 (inv_start window hn)
    (by rw [countP_lt_256]; omega)
  rwa [← toList_hist] at hscan

/-- The walk stops at two order statistics of every window, the second of which is not the less one,
and the metric is zero exactly when they coincide. -/
theorem percentiles_of_window (window : List UInt8) (hn : 2 ≤ window.length) :
    kthSmallest (values window) (window.length / 2) = some (percentiles window).p50 ∧
      kthSmallest (values window) (4 * window.length / 5) = some (percentiles window).p80 ∧
      (percentiles window).p50 ≤ (percentiles window).p80 ∧
      (snr window = 0 ↔
        kthSmallest (values window) (window.length / 2) =
          kthSmallest (values window) (4 * window.length / 5)) := by
  obtain ⟨h50, h80⟩ := isKth_percentiles window hn
  have heq50 := (kthSmallest_eq_some_iff (by omega)).2 h50
  have heq80 := (kthSmallest_eq_some_iff (by omega)).2 h80
  rw [Nat.mul_comm 4]
  refine ⟨heq50, heq80, h50.le h80 (by omega), ?_⟩
  rw [heq50, heq80, snr, Int.sub_eq_zero, Int.natCast_inj, Option.some_inj]
  exact eq_comm

theorem percentiles_of_window_keyed :
    2 ≤ [200, 10, 10, 200, 10].length ∧
      kthSmallest (values [200, 10, 10, 200, 10]) 4 =
        some (percentiles [200, 10, 10, 200, 10]).p80 :=
  ⟨by decide, (percentiles_of_window [200, 10, 10, 200, 10] (by decide)).2.1⟩

end GranolaSdr.Cuda.Percentile
