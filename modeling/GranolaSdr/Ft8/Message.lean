import Mathlib.Algebra.Group.Nat.Defs
import Mathlib.Data.Fin.Basic

/-!
# FT8 message texts

How the decoder renders a standard or non-standard message: the addressee, the sender and an extra
field, joined by single blanks.

## Main definitions

* `unpackgrid`: the extra field of a standard message, a grid locator or a report;
* `Extra`: the extra fields of both message types;
* `ftx_message_text`: the text of a decoded message.
-/

namespace GranolaSdr.Ft8

/-- The number of packed grid locators. -/
def MAXGRID4 : ℕ := 32400

/-- The character `n` places after `c`. -/
def charAfter (c : Char) (n : ℕ) : Char := Char.ofNat (c.toNat + n)

/-- The digits of `value` from the divisor `10 ^ (width - 1)` down. -/
def ddDigits : ℕ → ℕ → List Char
  | 0, _ => []
  | width + 1, value =>
    charAfter '0' (value / 10 ^ width) :: ddDigits width (value % 10 ^ width)

/-- A number with `width` digits after its sign; a plus sign is only written on demand. -/
def int_to_dd (value : ℤ) (width : ℕ) (full_sign : Bool) : List Char :=
  (if value < 0 then ['-'] else if full_sign then ['+'] else []) ++ ddDigits width value.natAbs

/-- The extra field of a standard message: a grid locator up to `MAXGRID4`, above it a special
word or a signal report. -/
def unpackgrid (igrid4 : ℕ) (ir : Bool) : List Char :=
  if igrid4 ≤ MAXGRID4 then
    (if ir then ['R', ' '] else []) ++
      [charAfter 'A' (igrid4 / 10 / 10 / 18 % 18), charAfter 'A' (igrid4 / 10 / 10 % 18),
        charAfter '0' (igrid4 / 10 % 10), charAfter '0' (igrid4 % 10)]
  else
    match igrid4 - MAXGRID4 with
    | 1 => []
    | 2 => ['R', 'R', 'R']
    | 3 => ['R', 'R', '7', '3']
    | 4 => ['7', '3']
    | irpt => (if ir then ['R'] else []) ++ int_to_dd (irpt - 35) 2 true

/-- The extra field of a decoded message. -/
inductive Extra where
  /-- A standard message: the 15-bit grid field and the flag before it. -/
  | standard (igrid4 : Fin (2 ^ 15)) (ir : Bool)
  /-- A message with a non-standard callsign: the report number. -/
  | nonstandard (nrpt : Fin 4)

/-- The text of an extra field. -/
def Extra.text : Extra → List Char
  | .standard igrid4 ir => unpackgrid igrid4 ir
  | .nonstandard 1 => ['R', 'R', 'R']
  | .nonstandard 2 => ['R', 'R', '7', '3']
  | .nonstandard 3 => ['7', '3']
  | .nonstandard _ => []

/-- The three fields of a message, joined by blanks. -/
def ftx_message_text (call_to call_de extra : List Char) : List Char :=
  call_to ++ [' '] ++ call_de ++ [' '] ++ extra

end GranolaSdr.Ft8
