import Mathlib.Data.List.Induction
import Mathlib.Data.Nat.Bitwise
import Mathlib.Tactic.Ring

/-!
# Bit fields

Natural numbers written as strings of bits, most significant first, and fields read out of a
longer string.

## Main definitions

* `BitField.toBits n v`: the low `n` bits of `v`;
* `BitField.ofBits`: the number a bit string denotes;
* `BitField.read bits offset n`: the number denoted by the `n` bits from `offset` on;
* `BitField.encode`: the bits of a list of fields, each a width and a value.

## Main results

* `BitField.ofBits_toBits`: reading `n` bits of `v` gives `v % 2 ^ n`;
* `BitField.read_encode`: each field is read back at its offset.
-/

namespace BitField

/-- The low `n` bits of `v`, most significant first. -/
def toBits : ℕ → ℕ → List Bool
  | 0, _ => []
  | n + 1, v => toBits n (v / 2) ++ [decide (v % 2 = 1)]

/-- The number a bit string denotes, most significant bit first. -/
def ofBits (bits : List Bool) : ℕ := bits.foldl (fun v b => 2 * v + b.toNat) 0

/-- The number denoted by the `n` bits of `bits` from `offset` on. -/
def read (bits : List Bool) (offset n : ℕ) : ℕ := ofBits ((bits.drop offset).take n)

@[simp]
theorem length_toBits (n v : ℕ) : (toBits n v).length = n := by
  induction n generalizing v with
  | zero => rfl
  | succ n ih => simp [toBits, ih]

theorem ofBits_append_singleton (bits : List Bool) (b : Bool) :
    ofBits (bits ++ [b]) = 2 * ofBits bits + b.toNat := by
  simp [ofBits]

/-- Reading the low `n` bits of `v` gives `v % 2 ^ n`. -/
theorem ofBits_toBits (n v : ℕ) : ofBits (toBits n v) = v % 2 ^ n := by
  induction n generalizing v with
  | zero => simp [toBits, ofBits, Nat.mod_one]
  | succ n ih =>
    rw [toBits, ofBits_append_singleton, ih, Nat.pow_succ, Nat.mul_comm (2 ^ n), Nat.mod_mul]
    have hbit : (decide (v % 2 = 1)).toNat = v % 2 := by
      rcases Nat.mod_two_eq_zero_or_one v with h | h <;> simp [h]
    rw [hbit, Nat.add_comm]

/-- A field of the right part of a concatenation. -/
theorem read_append_right (xs ys : List Bool) (offset n : ℕ) :
    read (xs ++ ys) (xs.length + offset) n = read ys offset n := by
  rw [read, List.drop_append, List.drop_eq_nil_of_le (by omega), List.nil_append,
    Nat.add_sub_cancel_left, read]

/-- A field at the front of a string. -/
theorem read_append_left (xs ys : List Bool) : read (xs ++ ys) 0 xs.length = ofBits xs := by
  simp [read]

/-- One more bit of a field. -/
theorem read_succ {bits : List Bool} {offset n : ℕ} (h : offset + n < bits.length) :
    read bits offset (n + 1) =
      2 * read bits offset n + (bits.getD (offset + n) false).toNat := by
  have hlt : n < (bits.drop offset).length := by rw [List.length_drop]; omega
  rw [read, List.take_add_one, List.getElem?_eq_getElem hlt, Option.toList_some,
    ofBits_append_singleton, List.getElem_drop, List.getD_eq_getElem _ _ h, read]

/-- A single bit is a field of width one. -/
theorem toNat_getD {bits : List Bool} {offset : ℕ} (h : offset < bits.length) :
    (bits.getD offset false).toNat = read bits offset 1 := by
  rw [read_succ (n := 0) h]
  simp [read, ofBits]

/-- The bits of a list of fields, each given by its width and value. -/
def encode (fields : List (ℕ × ℕ)) : List Bool := fields.flatMap fun f => toBits f.1 f.2

/-- The offset of field `i`: the widths before it. -/
def offset (fields : List (ℕ × ℕ)) (i : ℕ) : ℕ := ((fields.take i).map Prod.fst).sum

theorem length_encode (fields : List (ℕ × ℕ)) :
    (encode fields).length = (fields.map Prod.fst).sum := by
  simp [encode, List.length_flatMap]

/-- The bits before, of and after field `i`. -/
theorem encode_split (fields : List (ℕ × ℕ)) {i : ℕ} (hi : i < fields.length) :
    encode fields = encode (fields.take i) ++
      (toBits fields[i].1 fields[i].2 ++ encode (fields.drop (i + 1))) := by
  calc encode fields
      = encode (fields.take i ++ fields[i] :: fields.drop (i + 1)) := by
        rw [← List.drop_eq_getElem_cons hi, List.take_append_drop]
    _ = _ := by simp only [encode, List.flatMap_append, List.flatMap_cons]

/-- A field ends within the bits of all fields. -/
theorem offset_add_le (fields : List (ℕ × ℕ)) {i : ℕ} (hi : i < fields.length) :
    offset fields i + fields[i].1 ≤ (encode fields).length := by
  rw [encode_split fields hi, List.length_append, List.length_append, length_encode, length_toBits,
    offset]
  omega

/-- Each field is read back at its offset, whatever follows the fields. -/
theorem read_encode (fields : List (ℕ × ℕ)) (tail : List Bool) {i : ℕ} (hi : i < fields.length) :
    read (encode fields ++ tail) (offset fields i) fields[i].1 =
      fields[i].2 % 2 ^ fields[i].1 := by
  have hoffset : offset fields i = (encode (fields.take i)).length + 0 := by
    rw [length_encode, offset, Nat.add_zero]
  have hfront := read_append_left (toBits fields[i].1 fields[i].2)
    (encode (fields.drop (i + 1)) ++ tail)
  rw [length_toBits] at hfront
  rw [encode_split fields hi, hoffset, List.append_assoc, List.append_assoc, read_append_right,
    hfront, ofBits_toBits]

end BitField
