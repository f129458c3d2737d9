import Mathlib.Algebra.Field.ZMod
import Mathlib.Data.ZMod.Basic

/-!
# Bits as elements of the field with two elements

## Main definitions

* `Gf2.bit`: a Boolean as an element of `ZMod 2`.

## Main results

* `Gf2.bit_xor`: exclusive or is addition;
* `Gf2.bit_decide`: every element is a bit;
* `Gf2.sum_toNat_and_one_eq_zero_iff`: the parity of a number of bits is their sum.
-/

namespace Gf2

/-- A bit as an element of the field with two elements. -/
def bit (b : Bool) : ZMod 2 := if b then 1 else 0

@[simp]
theorem bit_false : bit false = 0 := rfl

@[simp]
theorem bit_true : bit true = 1 := rfl

theorem bit_injective : Function.Injective bit := by
  intro a b
  revert a b
  decide

@[simp]
theorem bit_inj {a b : Bool} : bit a = bit b ↔ a = b := bit_injective.eq_iff

/-- Exclusive or is addition. -/
@[simp]
theorem bit_xor (a b : Bool) : bit (xor a b) = bit a + bit b := by
  cases a <;> cases b <;> decide

/-- Every element is a bit. -/
@[simp]
theorem bit_decide (z : ZMod 2) : bit (decide (z = 1)) = z := by
  revert z
  decide

theorem neg_eq (z : ZMod 2) : -z = z := by
  revert z
  decide

theorem eq_zero_or_one (z : ZMod 2) : z = 0 ∨ z = 1 := by
  revert z
  decide

theorem natCast_toNat (b : Bool) : ((b.toNat : ℕ) : ZMod 2) = bit b := by
  cases b <;> rfl

/-- The number of ones among some bits is even exactly when the bits add up to zero. -/
theorem sum_toNat_and_one_eq_zero_iff (l : List Bool) :
    (l.map Bool.toNat).sum &&& 1 = 0 ↔ (l.map bit).sum = 0 := by
  have hcast : (((l.map Bool.toNat).sum : ℕ) : ZMod 2) = (l.map bit).sum := by
    induction l with
    | nil => rfl
    | cons b l ih =>
      rw [List.map_cons, List.sum_cons, List.map_cons, List.sum_cons, Nat.cast_add, ih,
        natCast_toNat]
  rw [← hcast, ZMod.natCast_eq_zero_iff, Nat.and_one_is_mod]
  exact Nat.dvd_iff_mod_eq_zero.symm

end Gf2
