import GranolaSdr.Cuda.MagWindow
import Mathlib.Algebra.BigOperators.Fin
import Mathlib.Algebra.Order.Field.Rat
import Mathlib.Algebra.Order.Floor.Ring
import Mathlib.Data.Finset.Lattice.Fold
import Mathlib.Data.Rat.Floor
import Mathlib.Order.Lattice.Nat
import Mathlib.Tactic.Linarith
import Mathlib.Tactic.NormNum

/-!
# The sync score of a candidate

A candidate of a sync scan is a place in a window of the magnitude ring at which a frame may start.
Its score compares the tones of the three Costas blocks with other magnitudes, over the sync symbols
that lie in the window. Here the two metrics are sums over the symbols, read from the ring itself.

## Main definitions

* `Position`: where a frame may start;
* `maxLog`, `legacy`: the two metrics, as a total and the number of its terms;
* `score`: the score of a candidate that reaches the threshold.

## Main results

* `bounded_maxLog`, `bounded_legacy`: a term of a metric is a difference of two bytes;
* `abs_tdiv_le`, `abs_div_le`: so is an average, up to rounding.
-/

namespace GranolaSdr.Cuda.SyncScan

/-- The tones of the three Costas blocks. -/
abbrev Costas := Fin 3 → Vector (Fin 8) 7

/-- Where a frame may start: its lowest bin, its first block, and its steps of the oversampling. -/
structure Position where
  fo : ℕ
  time_off : ℕ
  time_sub : ℕ
  freq_sub : ℕ
  deriving DecidableEq

/-- The time offsets of a scan. -/
def time_offsets : ℕ := 30

/-- The positions of a scan. All eight tones lie in the bins. -/
structure Position.InRange (p : Position) (w : MagWindow) : Prop where
  fo : p.fo + 8 ≤ w.num_bins
  time_off : p.time_off < time_offsets
  time_sub : p.time_sub < w.time_osr
  freq_sub : p.freq_sub < w.freq_osr

section Metric

variable (costas : Costas) (w : MagWindow) (p : Position)

/-- The block of a sync symbol. -/
def Position.block (m : Fin 3) (k : Fin 7) : ℕ := p.time_off + 36 * m + k

/-- The magnitude of a tone in a block. -/
def Position.tone (block : ℕ) (j : ℤ) : ℤ :=
  w.magnitude p.time_sub p.freq_sub block (p.fo + j)

/-- The sync tone of a symbol. -/
def Position.sync (m : Fin 3) (k : Fin 7) : ℤ := p.tone w (p.block m k) ((costas m).get k : ℕ)

/-- The greatest magnitude of the other tones of a symbol. -/
def Position.bestOther (m : Fin 3) (k : Fin 7) : ℕ :=
  (Finset.univ.erase ((costas m).get k)).sup fun j : Fin 8 =>
    w.magnitude p.time_sub p.freq_sub (p.block m k) (p.fo + (j : ℕ))

/-- The blocks and tones that the legacy metric compares a sync tone with: the tones beside it, and
the same tone in the symbols before and after it. -/
def Position.neighbours (m : Fin 3) (k : Fin 7) : List (ℕ × ℤ) :=
  let tone : ℕ := (costas m).get k
  let block := p.block m k
  (if 0 < tone then [(block, (tone : ℤ) - 1)] else []) ++
    (if tone < 7 then [(block, (tone : ℤ) + 1)] else []) ++
    (if 0 < (k : ℕ) then [(block - 1, (tone : ℤ))] else []) ++
    (if (k : ℕ) < 6 ∧ block + 1 < w.num_blocks then [(block + 1, (tone : ℤ))] else [])

/-- The sum over the sync symbols that lie in the window. -/
def overSymbols (term : Fin 3 → Fin 7 → ℤ × ℕ) : ℤ × ℕ :=
  ∑ m, ∑ k, if p.block m k < w.num_blocks then term m k else 0

/-- The max-log metric: the sync tone against the best other tone. -/
def maxLog : ℤ × ℕ :=
  overSymbols w p fun m k => (p.sync costas w m k - p.bestOther costas w m k, 1)

/-- The legacy metric: the sync tone against its neighbours in frequency and time. -/
def legacy : ℤ × ℕ :=
  overSymbols w p fun m k => ((p.neighbours costas w m k).map fun nb =>
    (p.sync costas w m k - p.tone w nb.1 nb.2, 1)).sum

end Metric

/-- A number without its fraction. -/
def trunc (q : ℚ) : ℤ := if 0 ≤ q then ⌊q⌋ else ⌈q⌉

/-- The average of the legacy metric, an integer, if it reaches the threshold. -/
def legacyAverage (min_score : ℚ) (total : ℤ × ℕ) : Option ℤ :=
  if total.2 = 0 then none
  else if total.1.tdiv total.2 < trunc min_score then none
  else some (total.1.tdiv total.2)

/-- The average of the max-log metric, if it reaches the threshold. -/
def maxLogAverage (min_score : ℚ) (total : ℤ × ℕ) : Option ℤ :=
  if total.2 = 0 then none
  else if (total.1 : ℚ) / total.2 < min_score then none
  else some (trunc ((total.1 : ℚ) / total.2))

/-- The score of a candidate that reaches the threshold. -/
def score (costas : Costas) (w : MagWindow) (legacy_costas : Bool) (min_score : ℚ)
    (p : Position) : Option ℤ :=
  if legacy_costas then legacyAverage min_score (legacy costas w p)
  else maxLogAverage min_score (maxLog costas w p)

/-! ## Bounds -/

/-- A total of so many differences of bytes. -/
def Bounded (total : ℤ × ℕ) : Prop := |total.1| ≤ 255 * total.2

theorem Bounded.add {s t : ℤ × ℕ} (hs : Bounded s) (ht : Bounded t) : Bounded (s + t) := by
  unfold Bounded at hs ht ⊢
  have htriangle : |s.1 + t.1| ≤ |s.1| + |t.1| := abs_add_le s.1 t.1
  rw [Prod.fst_add, Prod.snd_add, Nat.cast_add]
  linarith

theorem bounded_zero : Bounded 0 := by
  show |(0 : ℤ)| ≤ 255 * ((0 : ℕ) : ℤ)
  decide

/-- The difference of two bytes. -/
theorem bounded_sub {a b : ℤ} (ha : 0 ≤ a ∧ a ≤ 255) (hb : 0 ≤ b ∧ b ≤ 255) :
    Bounded (a - b, 1) := by
  show |a - b| ≤ 255 * ((1 : ℕ) : ℤ)
  rw [abs_le]
  omega

theorem bounded_overSymbols (w : MagWindow) (p : Position) {term : Fin 3 → Fin 7 → ℤ × ℕ}
    (h : ∀ m k, Bounded (term m k)) : Bounded (overSymbols w p term) := by
  refine Finset.sum_induction _ Bounded (fun _ _ => Bounded.add) bounded_zero fun m _ => ?_
  refine Finset.sum_induction _ Bounded (fun _ _ => Bounded.add) bounded_zero fun k _ => ?_
  split_ifs
  · exact h m k
  · exact bounded_zero

variable {costas : Costas} {w : MagWindow} {p : Position}

/-- A magnitude is a byte. -/
theorem magnitude_le (time_sub freq_sub block : ℕ) (bin : ℤ) :
    w.magnitude time_sub freq_sub block bin ≤ 255 := by
  unfold MagWindow.magnitude
  split_ifs
  · exact Nat.le_of_lt_succ (UInt8.toNat_lt _)
  · exact Nat.zero_le 255

theorem tone_mem (block : ℕ) (j : ℤ) : 0 ≤ p.tone w block j ∧ p.tone w block j ≤ 255 :=
  ⟨Int.natCast_nonneg _, Int.ofNat_le.2 (magnitude_le _ _ _ _)⟩

theorem bounded_maxLog : Bounded (maxLog costas w p) := by
  refine bounded_overSymbols w p fun m k => bounded_sub (tone_mem _ _) ⟨Int.natCast_nonneg _, ?_⟩
  exact Int.ofNat_le.2 (Finset.sup_le fun j _ => magnitude_le _ _ _ _)

theorem bounded_legacy : Bounded (legacy costas w p) := by
  refine bounded_overSymbols w p fun m k => ?_
  refine List.sum_induction Bounded (fun _ _ => Bounded.add) bounded_zero fun t ht => ?_
  obtain ⟨nb, -, rfl⟩ := List.mem_map.1 ht
  exact bounded_sub (tone_mem _ _) (tone_mem _ _)

theorem abs_trunc_le {q : ℚ} {n : ℕ} (h : |q| ≤ n) : |trunc q| ≤ n := by
  rw [abs_le] at h ⊢
  unfold trunc
  split_ifs with hq
  · have hlow : (0 : ℤ) ≤ ⌊q⌋ := Int.floor_nonneg.2 hq
    have hhigh : ⌊q⌋ ≤ (n : ℤ) := Int.floor_le_iff.2 (by push_cast; linarith)
    omega
  · have hlow : -(n : ℤ) ≤ ⌈q⌉ := Int.le_ceil_iff.2 (by push_cast; linarith)
    have hhigh : ⌈q⌉ ≤ (0 : ℤ) := Int.ceil_le.2 (by push_cast; linarith)
    omega

/-- An average of differences of bytes is as small as they are. -/
theorem abs_tdiv_le {total : ℤ × ℕ} (h : Bounded total) : |total.1.tdiv total.2| ≤ 255 := by
  unfold Bounded at h
  rw [Int.abs_eq_natAbs] at h ⊢
  have hle : total.1.natAbs ≤ total.2 * 255 := by omega
  rw [Int.natAbs_tdiv, Int.natAbs_natCast]
  exact Int.ofNat_le.2 (Nat.div_le_of_le_mul hle)

theorem abs_div_le {total : ℤ × ℕ} (h : Bounded total) : |(total.1 : ℚ) / total.2| ≤ 255 := by
  rcases Nat.eq_zero_or_pos total.2 with hzero | hpos
  · rw [hzero, Nat.cast_zero, div_zero, abs_zero]
    norm_num
  · rw [abs_div, Nat.abs_cast, div_le_iff₀ (Nat.cast_pos.2 hpos)]
    exact_mod_cast h

end GranolaSdr.Cuda.SyncScan
