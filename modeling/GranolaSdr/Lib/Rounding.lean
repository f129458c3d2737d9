import Mathlib.Data.Int.Log
import Mathlib.Data.Rat.Floor
import Mathlib.Algebra.Order.Floor.Ring
import Mathlib.Tactic.Linarith
import Mathlib.Tactic.Positivity
import Mathlib.Tactic.Ring

/-!
# Rounding to a binary format

Round to nearest, ties to even, in a binary floating-point format with a least exponent and none
greatest. Numbers are rationals, so that a sequence of operations is evaluated exactly between its
roundings.

## Main definitions

* `roundEven`: the nearest integer, and the even one of two;
* `Format`, `binary32`, `binary64`: binary formats;
* `Format.Representable`, `Format.round`: the numbers of a format, and the nearest of them.

## Main results

* `Format.le_round`, `Format.round_le`: no number of the format is passed;
* `Format.round_eq_self`: the numbers of the format are left as they are;
* `Format.abs_round_sub_le`: the relative error of other numbers.
-/

namespace Rounding

/-! ## Integers -/

/-- The nearest integer; of two, the even one. -/
def roundEven (x : ℚ) : ℤ :=
  if 2 * (x - ⌊x⌋) < 1 ∨ 2 * (x - ⌊x⌋) = 1 ∧ Even ⌊x⌋ then ⌊x⌋ else ⌊x⌋ + 1

theorem floor_le_roundEven (x : ℚ) : ⌊x⌋ ≤ roundEven x := by
  unfold roundEven
  split_ifs <;> omega

theorem roundEven_le_floor_add_one (x : ℚ) : roundEven x ≤ ⌊x⌋ + 1 := by
  unfold roundEven
  split_ifs <;> omega

theorem roundEven_intCast (n : ℤ) : roundEven n = n := by
  unfold roundEven
  rw [Int.floor_intCast, sub_self, mul_zero, if_pos (.inl one_pos)]

theorem le_roundEven {n : ℤ} {x : ℚ} (h : n ≤ x) : n ≤ roundEven x :=
  (Int.le_floor.2 h).trans (floor_le_roundEven x)

theorem roundEven_le {n : ℤ} {x : ℚ} (h : x ≤ n) : roundEven x ≤ n := by
  rcases h.lt_or_eq with hlt | rfl
  · have hfloor : ⌊x⌋ < n := Int.floor_lt.2 hlt
    exact (roundEven_le_floor_add_one x).trans hfloor
  · rw [roundEven_intCast]

/-- The nearest integer is at most a half away. -/
theorem abs_roundEven_sub_le (x : ℚ) : |roundEven x - x| ≤ 1 / 2 := by
  have hfloor := Int.floor_le x
  have hlt := Int.lt_floor_add_one x
  unfold roundEven
  split_ifs with h
  · rw [abs_le]
    rcases h with h | ⟨h, -⟩ <;> constructor <;> linarith
  · have hhalf : ¬2 * (x - ⌊x⌋) < 1 := fun hlt => h (.inl hlt)
    rw [abs_le]
    push_cast
    constructor <;> linarith

/-! ## Formats -/

/-- A binary format: the number of digits after the leading one, and the least exponent of the last
digit. -/
structure Format where
  fraction : ℕ
  emin : ℤ

/-- Single precision. -/
def binary32 : Format := ⟨23, -149⟩

/-- Double precision. -/
def binary64 : Format := ⟨52, -1074⟩

namespace Format

variable (F : Format)

/-- The numbers of a format. -/
def Representable (a : ℚ) : Prop :=
  ∃ m e : ℤ, |m| < 2 ^ (F.fraction + 1) ∧ F.emin ≤ e ∧ a = m * 2 ^ e

/-- The exponent of the last digit that a number keeps. -/
def exponent (x : ℚ) : ℤ := max (Int.log 2 |x| - F.fraction) F.emin

/-- The nearest number of a format. -/
def round (x : ℚ) : ℚ := roundEven (x / 2 ^ F.exponent x) * 2 ^ F.exponent x

variable {F}

theorem representable_intCast (hemin : F.emin ≤ 0) {n : ℤ} (h : |n| < 2 ^ (F.fraction + 1)) :
    F.Representable n := ⟨n, 0, h, hemin, by simp⟩

theorem round_zero : F.round 0 = 0 := by
  have hzero : roundEven 0 = 0 := roundEven_intCast 0
  rw [round, zero_div, hzero, Int.cast_zero, zero_mul]

/-- A multiple of the last digit is not passed. -/
theorem le_round_of_multiple {x : ℚ} {k : ℤ} (h : k * 2 ^ F.exponent x ≤ x) :
    k * 2 ^ F.exponent x ≤ F.round x := by
  have hu : (0 : ℚ) < 2 ^ F.exponent x := zpow_pos two_pos _
  have hk : k ≤ roundEven (x / 2 ^ F.exponent x) := le_roundEven ((le_div_iff₀ hu).2 h)
  exact mul_le_mul_of_nonneg_right (by exact_mod_cast hk) hu.le

theorem round_le_of_multiple {x : ℚ} {k : ℤ} (h : x ≤ k * 2 ^ F.exponent x) :
    F.round x ≤ k * 2 ^ F.exponent x := by
  have hu : (0 : ℚ) < 2 ^ F.exponent x := zpow_pos two_pos _
  have hk : roundEven (x / 2 ^ F.exponent x) ≤ k := roundEven_le ((div_le_iff₀ hu).2 h)
  exact mul_le_mul_of_nonneg_right (by exact_mod_cast hk) hu.le

/-- A number of the format is a multiple of the last digit that `x` keeps, or there is a multiple
between it and `x` in magnitude. -/
theorem Representable.multiple_or_lt {a x : ℚ} (ha : F.Representable a) (hx : x ≠ 0) :
    (∃ k : ℤ, a = k * 2 ^ F.exponent x) ∨
      ∃ k : ℤ, |a| < k * 2 ^ F.exponent x ∧ k * 2 ^ F.exponent x ≤ |x| := by
  obtain ⟨m, e, hm, hemin, rfl⟩ := ha
  have htwo : (2 : ℚ) ≠ 0 := two_ne_zero
  rcases le_or_gt (F.exponent x) e with he | he
  · refine .inl ⟨m * 2 ^ (e - F.exponent x).toNat, ?_⟩
    have hexp : e = (e - F.exponent x).toNat + F.exponent x := by omega
    push_cast
    rw [mul_assoc, ← zpow_natCast, ← zpow_add₀ htwo, ← hexp]
  · -- the last digit of `x` is not a least one, so its place is that of its leading digit
    have hlog : F.exponent x = Int.log 2 |x| - F.fraction := by
      unfold exponent at he ⊢
      omega
    have hk : ((2 ^ F.fraction : ℤ) : ℚ) * 2 ^ F.exponent x = 2 ^ Int.log 2 |x| := by
      push_cast
      rw [← zpow_natCast, ← zpow_add₀ htwo, hlog]
      congr 1
      ring
    refine .inr ⟨2 ^ F.fraction, ?_, ?_⟩
    · have hmQ : |(m : ℚ)| < 2 ^ (F.fraction + 1) := by exact_mod_cast hm
      have hu : (0 : ℚ) < 2 ^ e := zpow_pos two_pos _
      calc |(m : ℚ) * 2 ^ e|
          = |(m : ℚ)| * 2 ^ e := by rw [abs_mul, abs_of_pos hu]
        _ < 2 ^ (F.fraction + 1) * 2 ^ e := mul_lt_mul_of_pos_right hmQ hu
        _ = 2 ^ ((F.fraction : ℤ) + (e + 1)) := by
            rw [← zpow_natCast, ← zpow_add₀ htwo]
            congr 1
            push_cast
            ring
        _ ≤ 2 ^ ((F.fraction : ℤ) + F.exponent x) := zpow_le_zpow_right₀ one_le_two (by omega)
        _ = ((2 ^ F.fraction : ℤ) : ℚ) * 2 ^ F.exponent x := by
            push_cast
            rw [zpow_add₀ htwo, zpow_natCast]
    · rw [hk]
      exact Int.zpow_log_le_self one_lt_two (abs_pos.2 hx)

/-- No number of the format is passed from above. -/
theorem le_round {a x : ℚ} (ha : F.Representable a) (h : a ≤ x) : a ≤ F.round x := by
  rcases eq_or_ne x 0 with rfl | hx
  · rwa [round_zero]
  rcases ha.multiple_or_lt hx with ⟨k, rfl⟩ | ⟨k, hlt, hle⟩
  · exact le_round_of_multiple h
  · -- `a` is nearer to zero than `x`, so `x` is positive and a multiple lies between
    have hpos : 0 < x := by
      by_contra hneg
      rw [abs_of_nonpos (not_lt.1 hneg)] at hle
      have := neg_le_abs a
      linarith
    rw [abs_of_pos hpos] at hle
    exact (le_abs_self a).trans (hlt.le.trans (le_round_of_multiple hle))

/-- No number of the format is passed from below. -/
theorem round_le {a x : ℚ} (ha : F.Representable a) (h : x ≤ a) : F.round x ≤ a := by
  rcases eq_or_ne x 0 with rfl | hx
  · rwa [round_zero]
  rcases ha.multiple_or_lt hx with ⟨k, rfl⟩ | ⟨k, hlt, hle⟩
  · exact round_le_of_multiple h
  · -- `a` is nearer to zero than `x`, so `x` is negative and a multiple lies between
    have hneg : x < 0 := by
      by_contra hpos
      rw [abs_of_nonneg (not_lt.1 hpos)] at hle
      have := le_abs_self a
      linarith
    rw [abs_of_neg hneg] at hle
    have hmultiple : x ≤ (-k : ℤ) * 2 ^ F.exponent x := by
      push_cast
      linarith
    have hround := round_le_of_multiple hmultiple
    have habs := neg_abs_le a
    push_cast at hround
    linarith

/-- A number between two numbers of the format is rounded to one between them. -/
theorem round_mem_Icc {a b x : ℚ} (ha : F.Representable a) (hb : F.Representable b)
    (hx : x ∈ Set.Icc a b) : F.round x ∈ Set.Icc a b :=
  ⟨le_round ha hx.1, round_le hb hx.2⟩

/-- The numbers of the format are left as they are. -/
theorem round_eq_self {a : ℚ} (ha : F.Representable a) : F.round a = a :=
  le_antisymm (round_le ha le_rfl) (le_round ha le_rfl)

/-- The relative error, for numbers that keep all digits. -/
theorem abs_round_sub_le {x : ℚ} (hx : 2 ^ (F.emin + F.fraction) ≤ |x|) :
    |F.round x - x| ≤ |x| / 2 ^ (F.fraction + 1) := by
  have hpos : 0 < |x| := (zpow_pos two_pos _).trans_le hx
  have hlog : F.emin + F.fraction ≤ Int.log 2 |x| :=
    (Int.zpow_le_iff_le_log one_lt_two hpos).1 (by exact_mod_cast hx)
  have hexponent : F.exponent x = Int.log 2 |x| - F.fraction := max_eq_left (by omega)
  have hu : (0 : ℚ) < 2 ^ F.exponent x := zpow_pos two_pos _
  -- the last digit is at most this part of the number
  have hdigit : (2 : ℚ) ^ F.exponent x * 2 ^ F.fraction ≤ |x| := by
    have hself := Int.zpow_log_le_self (b := 2) one_lt_two hpos
    rw [hexponent, ← zpow_natCast, ← zpow_add₀ two_ne_zero, sub_add_cancel]
    exact_mod_cast hself
  have hround : F.round x - x =
      (roundEven (x / 2 ^ F.exponent x) - x / 2 ^ F.exponent x) * 2 ^ F.exponent x := by
    rw [round, sub_mul, div_mul_cancel₀ x hu.ne']
  rw [hround, abs_mul, abs_of_pos hu, le_div_iff₀ (by positivity), pow_succ]
  calc |(roundEven (x / 2 ^ F.exponent x) : ℚ) - x / 2 ^ F.exponent x| * 2 ^ F.exponent x *
        (2 ^ F.fraction * 2)
      ≤ 1 / 2 * 2 ^ F.exponent x * (2 ^ F.fraction * 2) := by
        gcongr
        exact abs_roundEven_sub_le _
    _ = 2 ^ F.exponent x * 2 ^ F.fraction := by ring
    _ ≤ |x| := hdigit

end Format

end Rounding
