import Mathlib.Algebra.BigOperators.Group.List.Defs
import Mathlib.Algebra.Group.Nat.Defs
import Mathlib.Data.List.Forall2
import Mathlib.Data.Nat.Notation

/-!
# Mixed-radix numbers

A number written with one radix per position, least significant position first. `unpack` peels
the digits off with `%` and `/`; `pack` rebuilds the number.

## Main results

* `MixedRadix.unpack_pack`: unpacking a packed digit string gives it back;
* `MixedRadix.pack_lt`: a packed number is below the product of the radices.
-/

namespace MixedRadix

/-- The digits of `v` in the given radices, least significant first. -/
def unpack : List ℕ → ℕ → List ℕ
  | [], _ => []
  | b :: bs, v => v % b :: unpack bs (v / b)

/-- The number with the given digits. -/
def pack : List ℕ → List ℕ → ℕ
  | b :: bs, d :: ds => d + b * pack bs ds
  | _, _ => 0

/-- Each digit is below the radix of its position. -/
abbrev Valid (bs ds : List ℕ) : Prop := List.Forall₂ (fun b d => d < b) bs ds

theorem unpack_pack {bs ds : List ℕ} (h : Valid bs ds) : unpack bs (pack bs ds) = ds := by
  induction h with
  | nil => rfl
  | cons hd _ ih =>
    rw [pack, unpack, Nat.add_mul_mod_self_left, Nat.mod_eq_of_lt hd,
      Nat.add_mul_div_left _ _ (Nat.zero_lt_of_lt hd), Nat.div_eq_of_lt hd, Nat.zero_add, ih]

theorem pack_lt {bs ds : List ℕ} (h : Valid bs ds) : pack bs ds < bs.prod := by
  induction h with
  | nil => simp [pack]
  | @cons b d bs ds hd _ ih =>
    rw [pack, List.prod_cons]
    calc d + b * pack bs ds < b + b * pack bs ds := Nat.add_lt_add_right hd _
      _ = b * (pack bs ds + 1) := by rw [Nat.mul_succ, Nat.add_comm]
      _ ≤ b * bs.prod := Nat.mul_le_mul_left b ih

end MixedRadix
