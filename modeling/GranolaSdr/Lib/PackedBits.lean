import Mathlib.Data.List.Basic
import Mathlib.Data.Nat.Bitwise

/-!
# Bits packed into bytes

A sequence of bytes as a sequence of bits, the first of a byte weighing most.

## Main definitions

* `PackedBits.bit`: a bit of the bytes;
* `PackedBits.mask`, `PackedBits.setBit`: the byte with one bit, and a bit that is set;
* `PackedBits.copy`: a loop that copies bytes;
* `PackedBits.setWhere`: a loop that sets the bits of a range for which a test holds.

## Main results

* `PackedBits.ext_bits`: bytes with the same bits are the same;
* `PackedBits.bit_setBit`, `PackedBits.bit_set`, `PackedBits.bit_copy`,
  `PackedBits.bit_setWhere`: the bits afterwards.
-/

namespace PackedBits

/-- Bit `n` of some bytes, and zero behind their end. -/
def bit (bytes : List UInt8) (n : ℕ) : Bool := (bytes.getD (n / 8) 0).toNat.testBit (7 - n % 8)

/-- The byte that only has bit `n % 8`. -/
def mask (n : ℕ) : UInt8 := 0x80 >>> UInt8.ofNat (n % 8)

/-- Set bit `n`. -/
def setBit (bytes : List UInt8) (n : ℕ) : List UInt8 := bytes.modify (n / 8) (· ||| mask n)

theorem testBit_mask (n : ℕ) {r : ℕ} (hr : r < 8) :
    (mask n).toNat.testBit (7 - r) = decide (r = n % 8) := by
  have hall : ∀ m : Fin 8, ∀ r : Fin 8,
      ((0x80 : UInt8) >>> UInt8.ofNat m).toNat.testBit (7 - r) = decide ((r : ℕ) = m) := by
    decide
  exact hall ⟨n % 8, Nat.mod_lt n (by decide)⟩ ⟨r, hr⟩

theorem bit_of_le {bytes : List UInt8} {n : ℕ} (h : 8 * bytes.length ≤ n) :
    bit bytes n = false := by
  have hbyte : bytes.getD (n / 8) 0 = 0 := by
    rw [List.getD_eq_getElem?_getD, List.getElem?_eq_none (by omega), Option.getD_none]
  rw [bit, hbyte, UInt8.toNat_zero, Nat.zero_testBit]

theorem bit_replicate_zero (len n : ℕ) : bit (List.replicate len 0) n = false := by
  have hbyte : (List.replicate len (0 : UInt8)).getD (n / 8) 0 = 0 := by
    rw [List.getD_eq_getElem?_getD, List.getElem?_replicate]
    split_ifs <;> rfl
  rw [bit, hbyte, UInt8.toNat_zero, Nat.zero_testBit]

/-- A byte is known by its bits. -/
theorem eq_of_testBit {a b : UInt8}
    (h : ∀ r < 8, a.toNat.testBit (7 - r) = b.toNat.testBit (7 - r)) : a = b := by
  apply UInt8.toNat_inj.1
  apply Nat.eq_of_testBit_eq
  intro i
  rcases Nat.lt_or_ge i 8 with hi | hi
  · have hbit := h (7 - i) (by omega)
    rwa [show 7 - (7 - i) = i by omega] at hbit
  · have hlt : ∀ c : UInt8, c.toNat < 2 ^ i := fun c =>
      c.toNat_lt.trans_le (Nat.pow_le_pow_right (by decide) hi)
    rw [Nat.testBit_lt_two_pow (hlt a), Nat.testBit_lt_two_pow (hlt b)]

/-- Bytes with the same bits are the same. -/
theorem ext_bits {a b : List UInt8} (hlen : a.length = b.length)
    (h : ∀ n < 8 * a.length, bit a n = bit b n) : a = b := by
  apply List.ext_getElem hlen
  intro i ha hb
  apply eq_of_testBit
  intro r hr
  have hbit := h (8 * i + r) (by omega)
  rwa [bit, bit, show (8 * i + r) / 8 = i by omega, show (8 * i + r) % 8 = r by omega,
    List.getD_eq_getElem _ _ ha, List.getD_eq_getElem _ _ hb] at hbit

/-- Writing a byte changes its own bits only. -/
theorem bit_modify {bytes : List UInt8} {k : ℕ} (hk : k < bytes.length) (f : UInt8 → UInt8)
    (i : ℕ) : bit (bytes.modify k f) i =
      if i / 8 = k then (f (bytes.getD k 0)).toNat.testBit (7 - i % 8) else bit bytes i := by
  rw [bit, List.getD_eq_getElem?_getD, List.getElem?_modify]
  by_cases h : i / 8 = k
  · subst h
    rw [List.getElem?_eq_getElem hk, List.getD_eq_getElem _ _ hk]
    simp
  · rw [if_neg h, bit, List.getD_eq_getElem?_getD]
    simp [Ne.symm h]

theorem bit_set {bytes : List UInt8} {k : ℕ} (hk : k < bytes.length) (b : UInt8) (i : ℕ) :
    bit (bytes.set k b) i = if i / 8 = k then b.toNat.testBit (7 - i % 8) else bit bytes i := by
  rw [← bit_modify hk fun _ => b]
  congr 1
  apply List.ext_getElem?
  intro j
  rw [List.getElem?_set, List.getElem?_modify]
  by_cases hj : k = j
  · subst hj
    simp [hk]
  · simp [hj]

@[simp]
theorem length_setBit (bytes : List UInt8) (n : ℕ) : (setBit bytes n).length = bytes.length :=
  List.length_modify ..

/-- Setting a bit changes no other bit. -/
theorem bit_setBit {bytes : List UInt8} {n : ℕ} (h : n < 8 * bytes.length) (i : ℕ) :
    bit (setBit bytes n) i = (decide (i = n) || bit bytes i) := by
  rw [setBit, bit_modify (by omega)]
  split_ifs with hbyte
  · have hbit : decide (i % 8 = n % 8) = decide (i = n) := by
      apply decide_eq_decide.2
      omega
    rw [UInt8.toNat_or, Nat.testBit_or, testBit_mask n (Nat.mod_lt i (by decide)), hbit,
      Bool.or_comm, bit, hbyte]
  · have hne : i ≠ n := by
      rintro rfl
      exact hbyte rfl
    rw [decide_eq_false hne, Bool.false_or]

/-! ## Loops over bytes and bits -/

/-- Copy the first `len` bytes of a source over some bytes. -/
def copy (source : List UInt8) (len : ℕ) (bytes : List UInt8) : List UInt8 :=
  (List.range len).foldl (fun bytes k => bytes.set k (source.getD k 0)) bytes

theorem copy_succ (source : List UInt8) (len : ℕ) (bytes : List UInt8) :
    copy source (len + 1) bytes = (copy source len bytes).set len (source.getD len 0) := by
  rw [copy, List.range_succ, List.foldl_append]
  rfl

@[simp]
theorem length_copy (source : List UInt8) (len : ℕ) (bytes : List UInt8) :
    (copy source len bytes).length = bytes.length := by
  induction len with
  | zero => rfl
  | succ len ih => rw [copy_succ, List.length_set, ih]

theorem bit_copy (source : List UInt8) {len : ℕ} {bytes : List UInt8} (h : len ≤ bytes.length)
    (i : ℕ) :
    bit (copy source len bytes) i = if i / 8 < len then bit source i else bit bytes i := by
  induction len with
  | zero => rfl
  | succ len ih =>
    rw [copy_succ, bit_set (by rw [length_copy]; omega), ih (by omega)]
    by_cases hi : i / 8 = len
    · rw [if_pos hi, if_pos (by omega), bit, hi]
    · rw [if_neg hi]
      congr 1
      apply propext
      omega

/-- Set the bits `start + i` for which the test of `i` holds, over the first `len` of them. -/
def setWhere (test : ℕ → Bool) (start : ℕ) (bytes : List UInt8) (len : ℕ) : List UInt8 :=
  (List.range len).foldl (fun bytes i => if test i then setBit bytes (start + i) else bytes) bytes

section setWhere

variable {test : ℕ → Bool} {start : ℕ} {bytes : List UInt8}

theorem setWhere_succ (len : ℕ) :
    setWhere test start bytes (len + 1) =
      if test len then setBit (setWhere test start bytes len) (start + len)
      else setWhere test start bytes len := by
  rw [setWhere, List.range_succ, List.foldl_append]
  rfl

@[simp]
theorem length_setWhere (len : ℕ) : (setWhere test start bytes len).length = bytes.length := by
  induction len with
  | zero => rfl
  | succ len ih =>
    rw [setWhere_succ]
    split_ifs
    · rw [length_setBit, ih]
    · exact ih

/-- The loop sets the bits of its range for which the test holds, and changes no other bit. -/
theorem bit_setWhere {len : ℕ} (h : start + len ≤ 8 * bytes.length) (i : ℕ) :
    bit (setWhere test start bytes len) i =
      (decide (start ≤ i ∧ i < start + len) && test (i - start) || bit bytes i) := by
  induction len with
  | zero =>
    have hrange : ¬ (start ≤ i ∧ i < start + 0) := by omega
    rw [decide_eq_false hrange]
    rfl
  | succ len ih =>
    rw [setWhere_succ]
    by_cases hi : i = start + len
    · -- the bit of this step, which the steps before leave alone
      subst hi
      have hprev : ¬ (start ≤ start + len ∧ start + len < start + len) := by omega
      have hnow : start ≤ start + len ∧ start + len < start + (len + 1) := by omega
      rw [decide_eq_false hprev, Bool.false_and, Bool.false_or] at ih
      rw [decide_eq_true hnow, Bool.true_and, Nat.add_sub_cancel_left]
      split_ifs with htest
      · rw [bit_setBit (by rw [length_setWhere]; omega), htest, decide_eq_true rfl, Bool.true_or,
          Bool.true_or]
      · rw [ih (by omega), Bool.eq_false_iff.2 htest, Bool.false_or]
    · have hrange : decide (start ≤ i ∧ i < start + (len + 1)) =
          decide (start ≤ i ∧ i < start + len) := by
        apply decide_eq_decide.2
        omega
      rw [hrange, ← ih (by omega)]
      split_ifs
      · rw [bit_setBit (by rw [length_setWhere]; omega), decide_eq_false hi, Bool.false_or]
      · rfl

end setWhere

end PackedBits
