import Mathlib.Algebra.Group.Nat.Even
import Mathlib.Tactic.Ring
import Mathlib.Data.Nat.Find
import Mathlib.Order.Monotone.Basic

/-!
# End-tagged dense codes

An `(s, c)`-dense code writes a natural number as a string of symbols below `s + c`. A symbol
below `s` ends its codeword and a symbol at or above `s` continues it, so no codeword is a proper
prefix of another. The numbers coded with `k` continuation symbols are the interval
`[base k, base (k + 1))`, and there are `s * c ^ k` of them.

## Main definitions

* `DenseCode.base`: the first number coded with `k` continuation symbols;
* `DenseCode.depth`: the number of continuation symbols of a number;
* `DenseCode.codeword`: the codeword of a number.

## Main results

* `DenseCode.base_depth_le` and `DenseCode.lt_base_depth_succ`: a number lies in the interval of
  its depth;
* `DenseCode.foldl_take_digits`: reading a prefix of the continuation symbols gives the leading
  part of the number;
* `DenseCode.value_codeword`: reading a whole codeword gives the number back.
-/

namespace DenseCode

variable {s c : ℕ}

/-- The first number coded with `k` continuation symbols: the shorter codewords number
`s * (1 + c + ⋯ + c ^ (k - 1))`. -/
def base (s c : ℕ) : ℕ → ℕ
  | 0 => 0
  | k + 1 => base s c k + s * c ^ k

@[simp]
theorem base_zero : base s c 0 = 0 := rfl

theorem base_succ (k : ℕ) : base s c (k + 1) = base s c k + s * c ^ k := rfl

theorem base_mono : Monotone (base s c) :=
  monotone_nat_of_le_succ fun k => by simp [base_succ]

/-- Every number is below some offset as soon as both symbol classes are inhabited. -/
theorem exists_lt_base_succ (hs : 0 < s) (hc : 0 < c) (x : ℕ) : ∃ k, x < base s c (k + 1) := by
  have hgrow : ∀ k, k < base s c (k + 1) := by
    intro k
    induction k with
    | zero => simpa [base_succ] using hs
    | succ k ih =>
      have hstep : 0 < s * c ^ (k + 1) := Nat.mul_pos hs (Nat.pow_pos hc)
      rw [base_succ]
      omega
  exact ⟨x, hgrow x⟩

/-- The number of continuation symbols in the codeword of `x`: the least `k` with
`x < base (k + 1)`. -/
def depth (hs : 0 < s) (hc : 0 < c) (x : ℕ) : ℕ := Nat.find (exists_lt_base_succ hs hc x)

theorem lt_base_depth_succ (hs : 0 < s) (hc : 0 < c) (x : ℕ) :
    x < base s c (depth hs hc x + 1) :=
  Nat.find_spec (exists_lt_base_succ hs hc x)

theorem base_depth_le (hs : 0 < s) (hc : 0 < c) (x : ℕ) : base s c (depth hs hc x) ≤ x := by
  rcases hk : depth hs hc x with _ | k
  · simp
  · have hmin : ¬x < base s c (k + 1) :=
      Nat.find_min (exists_lt_base_succ hs hc x) (hk ▸ Nat.lt_succ_self k : k < depth hs hc x)
    exact Nat.le_of_not_lt hmin

/-- A number below `base (k + 1)` has at most `k` continuation symbols. -/
theorem depth_le (hs : 0 < s) (hc : 0 < c) {x k : ℕ} (h : x < base s c (k + 1)) :
    depth hs hc x ≤ k :=
  Nat.find_min' (exists_lt_base_succ hs hc x) h

/-- The `k` base-`c` digits of `n`, most significant first. -/
def digits (c : ℕ) : ℕ → ℕ → List ℕ
  | 0, _ => []
  | k + 1, n => digits c k (n / c) ++ [n % c]

@[simp]
theorem length_digits (k n : ℕ) : (digits c k n).length = k := by
  induction k generalizing n with
  | zero => rfl
  | succ k ih => simp [digits, ih]

theorem digits_lt (hc : 0 < c) {k n d : ℕ} (hd : d ∈ digits c k n) : d < c := by
  induction k generalizing n with
  | zero => simp [digits] at hd
  | succ k ih =>
    rcases List.mem_append.1 hd with h | h
    · exact ih h
    · rw [List.mem_singleton.1 h]
      exact Nat.mod_lt _ hc

/-- The first `i` digits of a `k`-digit number are the digits of its quotient by `c ^ (k - i)`. -/
theorem take_digits {k i : ℕ} (hi : i ≤ k) (n : ℕ) :
    (digits c k n).take i = digits c i (n / c ^ (k - i)) := by
  induction k generalizing n with
  | zero => simp [Nat.le_zero.1 hi, digits]
  | succ k ih =>
    rcases Nat.lt_or_ge i (k + 1) with hlt | hge
    · have hik : i ≤ k := Nat.lt_succ_iff.1 hlt
      rw [digits, List.take_append_of_le_length (by simpa using hik), ih hik,
        Nat.div_div_eq_div_mul, Nat.succ_sub hik, Nat.pow_succ, Nat.mul_comm c]
    · have hik : i = k + 1 := Nat.le_antisymm hi hge
      subst hik
      rw [List.take_of_length_le (by simp), Nat.sub_self, Nat.pow_zero, Nat.div_one]

/-- Horner evaluation of the digits is `n` reduced modulo `c ^ k`. -/
theorem foldl_digits (k n : ℕ) :
    (digits c k n).foldl (fun j d => j * c + d) 0 = n % c ^ k := by
  induction k generalizing n with
  | zero => simp [digits, Nat.mod_one]
  | succ k ih =>
    rw [digits, List.foldl_append, ih, List.foldl_cons, List.foldl_nil, Nat.pow_succ,
      Nat.mul_comm (c ^ k) c, Nat.mod_mul]
    ring

/-- The number of values reached by `k` continuation symbols bounds the quotient `digits` writes. -/
theorem quotient_lt (hs : 0 < s) (hc : 0 < c) (x : ℕ) :
    (x - base s c (depth hs hc x)) / s < c ^ depth hs hc x := by
  have hlt := lt_base_depth_succ hs hc x
  have hle := base_depth_le hs hc x
  rw [base_succ] at hlt
  rw [Nat.div_lt_iff_lt_mul hs, Nat.mul_comm]
  omega

/-- The continuation digits of the codeword of `x`, before the shift by `s`. -/
def contDigits (hs : 0 < s) (hc : 0 < c) (x : ℕ) : List ℕ :=
  digits c (depth hs hc x) ((x - base s c (depth hs hc x)) / s)

@[simp]
theorem length_contDigits (hs : 0 < s) (hc : 0 < c) (x : ℕ) :
    (contDigits hs hc x).length = depth hs hc x := by
  simp [contDigits]

/-- Horner evaluation of the first `i` continuation digits: the quotient with its last
`depth - i` digits dropped. -/
theorem foldl_take_digits (hs : 0 < s) (hc : 0 < c) (x : ℕ) {i : ℕ} (hi : i ≤ depth hs hc x) :
    ((contDigits hs hc x).take i).foldl (fun j d => j * c + d) 0 =
      (x - base s c (depth hs hc x)) / s / c ^ (depth hs hc x - i) := by
  have hlt : (x - base s c (depth hs hc x)) / s / c ^ (depth hs hc x - i) < c ^ i := by
    rw [Nat.div_lt_iff_lt_mul (Nat.pow_pos hc), ← Nat.pow_add, Nat.add_sub_cancel' hi]
    exact quotient_lt hs hc x
  rw [contDigits, take_digits hi, foldl_digits, Nat.mod_eq_of_lt hlt]

/-- A prefix of the continuation digits never points past the number itself: the value reached
after `i` of them, scaled by `s` and offset by `base i`, is at most `x`. -/
theorem prefix_value_le (hs : 0 < s) (hc : 0 < c) (x : ℕ) {i : ℕ} (hi : i ≤ depth hs hc x) :
    base s c i + ((contDigits hs hc x).take i).foldl (fun j d => j * c + d) 0 * s ≤ x := by
  rw [foldl_take_digits hs hc x hi]
  have hbase : base s c i ≤ base s c (depth hs hc x) := base_mono hi
  have hquot : (x - base s c (depth hs hc x)) / s / c ^ (depth hs hc x - i) * s ≤
      x - base s c (depth hs hc x) :=
    (Nat.mul_le_mul_right s (Nat.div_le_self _ _)).trans (Nat.div_mul_le_self _ _)
  have := base_depth_le hs hc x
  omega

/-- The codeword of `x`: its continuation digits shifted up by `s`, then the remainder
modulo `s`. -/
def codeword (hs : 0 < s) (hc : 0 < c) (x : ℕ) : List ℕ :=
  (contDigits hs hc x).map (· + s) ++ [(x - base s c (depth hs hc x)) % s]

@[simp]
theorem length_codeword (hs : 0 < s) (hc : 0 < c) (x : ℕ) :
    (codeword hs hc x).length = depth hs hc x + 1 := by
  simp [codeword]

/-- Reading a codeword back: the Horner value of its continuation digits times `s`, plus its last
symbol, plus the offset of its depth. -/
theorem value_codeword (hs : 0 < s) (hc : 0 < c) (x : ℕ) :
    (contDigits hs hc x).foldl (fun j d => j * c + d) 0 * s +
      (x - base s c (depth hs hc x)) % s + base s c (depth hs hc x) = x := by
  have hfold := foldl_take_digits hs hc x (le_refl (depth hs hc x))
  rw [List.take_of_length_le (by simp), Nat.sub_self, Nat.pow_zero, Nat.div_one] at hfold
  rw [hfold, Nat.div_add_mod']
  exact Nat.sub_add_cancel (base_depth_le hs hc x)

end DenseCode
