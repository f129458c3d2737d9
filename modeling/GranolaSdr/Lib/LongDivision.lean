import Mathlib.Algebra.Group.Nat.Defs
import Mathlib.Data.List.Induction
import Mathlib.Tactic.Ring

/-!
# Long division

A number written with its most significant digit first, divided by a small number digit after
digit.

## Main definitions

* `LongDivision.value`: the number with some digits in a base;
* `LongDivision.divide`: the digits of the quotient, and the remainder;
* `LongDivision.digits`: the last digits of a number.

## Main results

* `LongDivision.value_divide`, `LongDivision.divide_snd`: quotient and remainder are those of the
  number;
* `LongDivision.value_digits`, `LongDivision.value_inj`: a number and its digits.
-/

namespace LongDivision

variable {b d : ℕ}

/-- The number with some digits, the most significant one first. -/
def value (b : ℕ) (digits : List ℕ) : ℕ := digits.foldl (fun n x => n * b + x) 0

/-- The digits of a quotient so far and the remainder, after one more digit. -/
def step (b d : ℕ) (s : List ℕ × ℕ) (x : ℕ) : List ℕ × ℕ :=
  (s.1 ++ [(s.2 * b + x) / d], (s.2 * b + x) % d)

def divide (b d : ℕ) (digits : List ℕ) : List ℕ × ℕ := digits.foldl (step b d) ([], 0)

theorem value_concat (digits : List ℕ) (x : ℕ) :
    value b (digits ++ [x]) = value b digits * b + x := by
  rw [value, List.foldl_append]
  rfl

theorem value_cons (x : ℕ) (digits : List ℕ) :
    value b (x :: digits) = x * b ^ digits.length + value b digits := by
  induction digits using List.reverseRecOn with
  | nil => rw [value, value, List.length_nil, Nat.pow_zero]; simp
  | append_singleton digits y ih =>
    rw [← List.cons_append, value_concat, value_concat, ih, List.length_append,
      List.length_singleton, Nat.pow_succ]
    ring

theorem divide_concat (digits : List ℕ) (x : ℕ) :
    divide b d (digits ++ [x]) = step b d (divide b d digits) x := by
  rw [divide, List.foldl_append]
  rfl

theorem value_lt {digits : List ℕ} (h : ∀ x ∈ digits, x < b) :
    value b digits < b ^ digits.length := by
  induction digits using List.reverseRecOn with
  | nil => exact Nat.zero_lt_one
  | append_singleton digits x ih =>
    have hx : x < b := h x (by simp)
    have hdigits := ih fun y hy => h y (List.mem_append_left _ hy)
    rw [value_concat, List.length_append, List.length_singleton, Nat.pow_succ]
    calc value b digits * b + x < value b digits * b + b := Nat.add_lt_add_left hx _
      _ = (value b digits + 1) * b := (Nat.succ_mul _ _).symm
      _ ≤ b ^ digits.length * b := Nat.mul_le_mul_right b hdigits

/-- The remainder is small, and with the quotient it makes up the number. -/
theorem divide_spec (hd : 0 < d) (digits : List ℕ) :
    (divide b d digits).2 < d ∧
      value b (divide b d digits).1 * d + (divide b d digits).2 = value b digits := by
  induction digits using List.reverseRecOn with
  | nil => exact ⟨hd, Nat.zero_mul d⟩
  | append_singleton digits x ih =>
    obtain ⟨-, hvalue⟩ := ih
    rw [divide_concat, step, value_concat, value_concat, ← hvalue]
    refine ⟨Nat.mod_lt _ hd, ?_⟩
    have hsplit := Nat.div_add_mod' ((divide b d digits).2 * b + x) d
    calc (value b (divide b d digits).1 * b + ((divide b d digits).2 * b + x) / d) * d +
          ((divide b d digits).2 * b + x) % d
        = value b (divide b d digits).1 * b * d + (((divide b d digits).2 * b + x) / d * d +
          ((divide b d digits).2 * b + x) % d) := by ring
      _ = (value b (divide b d digits).1 * d + (divide b d digits).2) * b + x := by
        rw [hsplit]
        ring

theorem divide_snd (hd : 0 < d) (digits : List ℕ) :
    (divide b d digits).2 = value b digits % d := by
  obtain ⟨hlt, hvalue⟩ := divide_spec (b := b) hd digits
  rw [← hvalue, Nat.mul_add_mod_of_lt hlt]

theorem value_divide (hd : 0 < d) (digits : List ℕ) :
    value b (divide b d digits).1 = value b digits / d := by
  obtain ⟨hlt, hvalue⟩ := divide_spec (b := b) hd digits
  rw [← hvalue, Nat.mul_comm, Nat.mul_add_div hd, Nat.div_eq_of_lt hlt, Nat.add_zero]

/-- Some digits of a number, the least significant ones. -/
def digits (b : ℕ) : ℕ → ℕ → List ℕ
  | 0, _ => []
  | n + 1, v => digits b n (v / b) ++ [v % b]

theorem length_digits (n v : ℕ) : (digits b n v).length = n := by
  induction n generalizing v with
  | zero => rfl
  | succ n ih => rw [digits, List.length_append, ih, List.length_singleton]

theorem value_digits (n v : ℕ) : value b (digits b n v) = v % b ^ n := by
  induction n generalizing v with
  | zero => rw [Nat.pow_zero, Nat.mod_one]; rfl
  | succ n ih =>
    rw [digits, value_concat, ih, Nat.pow_succ', Nat.mod_mul, Nat.mul_comm, Nat.add_comm]

theorem lt_of_mem_digits (hb : 0 < b) {n v x : ℕ} (h : x ∈ digits b n v) : x < b := by
  induction n generalizing v with
  | zero => cases h
  | succ n ih =>
    rcases List.mem_append.1 h with h | h
    · exact ih h
    · rw [List.mem_singleton.1 h]
      exact Nat.mod_lt v hb

/-- Numbers of equally many digits are equal only if the digits are. -/
theorem value_inj {xs ys : List ℕ} (hlen : xs.length = ys.length) (hxs : ∀ x ∈ xs, x < b)
    (hys : ∀ y ∈ ys, y < b) (h : value b xs = value b ys) : xs = ys := by
  have hdigits : ∀ zs : List ℕ, (∀ z ∈ zs, z < b) → digits b zs.length (value b zs) = zs := by
    intro zs hzs
    induction zs using List.reverseRecOn with
    | nil => rfl
    | append_singleton zs z ih =>
      have hz : z < b := hzs z (by simp)
      rw [List.length_append, List.length_singleton, digits, value_concat,
        Nat.mul_add_mod_of_lt hz, Nat.mul_comm, Nat.mul_add_div (Nat.zero_lt_of_lt hz),
        Nat.div_eq_of_lt hz, Nat.add_zero, ih fun y hy => hzs y (List.mem_append_left _ hy)]
  rw [← hdigits xs hxs, ← hdigits ys hys, hlen, h]

end LongDivision
