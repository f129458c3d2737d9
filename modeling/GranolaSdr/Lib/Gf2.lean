import Mathlib.Data.BitVec
import Mathlib.Data.List.Basic

/-!
# Linear algebra over GF(2) on bit vectors

Vectors are bit vectors, sums are exclusive ors, and coefficients are Booleans.

## Main definitions

* `Gf2.combine`: the sum of the rows whose coefficient is set;
* `Gf2.Independent`: no other coefficients than zeros give the zero vector;
* `Gf2.independentCheck`: an executable test of independence, by elimination;
* `Gf2.shiftIn`: a register after a sequence of bits has been shifted in.

## Main results

* `Gf2.combine_xor`: combinations are linear in the coefficients;
* `Gf2.independent_of_check`: rows that pass the test are independent;
* `Gf2.shiftIn_eq_combine`: the value of a linear register is a combination of the bits.
-/

namespace Gf2

variable {n : ℕ}

/-- The sum of the rows whose coefficient is set. -/
def combine : List (BitVec n) → List Bool → BitVec n
  | r :: rows, c :: cs => (if c then r else 0) ^^^ combine rows cs
  | _, _ => 0

@[simp]
theorem combine_nil (cs : List Bool) : combine ([] : List (BitVec n)) cs = 0 := by
  cases cs <;> rfl

@[simp]
theorem combine_nil_right (rows : List (BitVec n)) : combine rows [] = 0 := by
  cases rows <;> rfl

@[simp]
theorem combine_cons (r : BitVec n) (rows : List (BitVec n)) (c : Bool) (cs : List Bool) :
    combine (r :: rows) (c :: cs) = (if c then r else 0) ^^^ combine rows cs := rfl

/-- No other coefficients than zeros give the zero vector. -/
def Independent (rows : List (BitVec n)) : Prop :=
  ∀ cs : List Bool, cs.length = rows.length → combine rows cs = 0 → true ∉ cs

theorem independent_nil : Independent ([] : List (BitVec n)) := by
  intro cs hlen _
  simp [List.length_eq_zero_iff.1 hlen]

/-- Combinations are linear in the coefficients. -/
theorem combine_xor (rows : List (BitVec n)) {cs ds : List Bool} (hlen : cs.length = ds.length) :
    combine rows (List.zipWith xor cs ds) = combine rows cs ^^^ combine rows ds := by
  induction rows generalizing cs ds with
  | nil => simp
  | cons r rows ih =>
    cases cs with
    | nil =>
      obtain rfl := List.length_eq_zero_iff.1 hlen.symm
      simp
    | cons c cs =>
      cases ds with
      | nil => exact nomatch hlen
      | cons d ds =>
        rw [List.zipWith_cons_cons, combine_cons, combine_cons, combine_cons,
          ih (Nat.succ.inj hlen)]
        have hhead : (if xor c d then r else 0) =
            (if c then r else 0) ^^^ (if d then r else 0) := by
          cases c <;> cases d <;> simp
        rw [hhead]
        ac_rfl

theorem combine_eq_zero (rows : List (BitVec n)) {cs : List Bool} (h : true ∉ cs) :
    combine rows cs = 0 := by
  induction rows generalizing cs with
  | nil => simp
  | cons r rows ih =>
    cases cs with
    | nil => simp
    | cons c cs =>
      obtain ⟨hc, hcs⟩ := not_or.1 (mt List.mem_cons.2 h)
      have hc : c = false := Bool.eq_false_iff.2 (Ne.symm hc)
      rw [combine_cons, hc, ih hcs]
      simp

/-- A bit that is clear in all rows is clear in their combinations. -/
theorem getLsbD_combine {rows : List (BitVec n)} {t : ℕ} (h : ∀ r ∈ rows, r.getLsbD t = false)
    (cs : List Bool) : (combine rows cs).getLsbD t = false := by
  induction rows generalizing cs with
  | nil => simp
  | cons r rows ih =>
    cases cs with
    | nil => simp
    | cons c cs =>
      have hhead : (if c then r else 0).getLsbD t = false := by
        split_ifs
        · exact h r List.mem_cons_self
        · exact BitVec.getLsbD_zero
      rw [combine_cons, BitVec.getLsbD_xor, hhead,
        ih (fun s hs => h s (List.mem_cons_of_mem r hs)) cs, Bool.xor_false]

theorem combine_append {rows : List (BitVec n)} {cs : List Bool} (h : cs.length = rows.length)
    (rows' : List (BitVec n)) (cs' : List Bool) :
    combine (rows ++ rows') (cs ++ cs') = combine rows cs ^^^ combine rows' cs' := by
  induction rows generalizing cs with
  | nil => simp [List.length_eq_zero_iff.1 h]
  | cons r rows ih =>
    cases cs with
    | nil => exact nomatch h
    | cons c cs =>
      rw [List.cons_append, List.cons_append, combine_cons, combine_cons, ih (Nat.succ.inj h),
        BitVec.xor_assoc]

/-- A combination with coefficients that vanish outside a window is one of the window's rows. -/
theorem combine_range_window (rows : ℕ → BitVec n) {f : ℕ → Bool} {p k len : ℕ} (h : p + k ≤ len)
    (hf : ∀ i, i < p ∨ p + k ≤ i → f i = false) :
    combine ((List.range len).map rows) ((List.range len).map f) =
      combine ((List.range' p k).map rows) ((List.range' p k).map f) := by
  have hsplit : List.range len =
      List.range' 0 p ++ (List.range' p k ++ List.range' (p + k) (len - (p + k))) := by
    have hlow := List.range'_append_1 (s := 0) (m := p) (n := k + (len - (p + k)))
    rw [Nat.zero_add] at hlow
    rw [List.range'_append_1, hlow, List.range_eq_range']
    congr 1
    omega
  -- outside the window every coefficient is zero
  have hzero : ∀ l : List ℕ, (∀ i ∈ l, i < p ∨ p + k ≤ i) → true ∉ l.map f := by
    intro l hl hmem
    obtain ⟨i, hi, htrue⟩ := List.mem_map.1 hmem
    exact Bool.false_ne_true ((hf i (hl i hi)).symm.trans htrue)
  have hlow : true ∉ (List.range' 0 p).map f :=
    hzero _ fun i hi => Or.inl (by simpa using (List.mem_range'_1.1 hi).2)
  have hhigh : true ∉ (List.range' (p + k) (len - (p + k))).map f :=
    hzero _ fun i hi => Or.inr (List.mem_range'_1.1 hi).1
  rw [hsplit, List.map_append, List.map_append, List.map_append, List.map_append,
    combine_append (by simp), combine_append (by simp), combine_eq_zero _ hlow,
    combine_eq_zero _ hhigh]
  simp

/-! ## Shift registers -/

section shiftIn

variable {step : BitVec n → Bool → BitVec n}

/-- The register after the first bits of a sequence have been shifted in. -/
def shiftIn (step : BitVec n → Bool → BitVec n) (f : ℕ → Bool) (len : ℕ) : BitVec n :=
  (List.range len).foldl (fun c i => step c (f i)) 0

theorem shiftIn_succ (f : ℕ → Bool) (len : ℕ) :
    shiftIn step f (len + 1) = step (shiftIn step f len) (f len) := by
  rw [shiftIn, List.range_succ, List.foldl_append]
  rfl

theorem shiftIn_add (f : ℕ → Bool) (m k : ℕ) :
    shiftIn step f (m + k) =
      (List.range k).foldl (fun c i => step c (f (m + i))) (shiftIn step f m) := by
  rw [shiftIn, List.range_add, List.foldl_append, List.foldl_map]
  rfl

theorem shiftIn_congr {f g : ℕ → Bool} {len : ℕ} (h : ∀ i < len, f i = g i) :
    shiftIn step f len = shiftIn step g len := by
  induction len with
  | zero => rfl
  | succ len ih =>
    rw [shiftIn_succ, shiftIn_succ, ih fun i hi => h i (Nat.lt_succ_of_lt hi),
      h len (Nat.lt_succ_self len)]

/-- A register whose step adds up when its value and its input do. -/
def LinearStep (step : BitVec n → Bool → BitVec n) : Prop :=
  ∀ c c' b b', step (c ^^^ c') (xor b b') = step c b ^^^ step c' b'

theorem LinearStep.zero (h : LinearStep step) : step 0 false = 0 := by
  have hself := h 0 0 false false
  rwa [BitVec.xor_self, BitVec.xor_self] at hself

theorem LinearStep.combine (h : LinearStep step) (rows : List (BitVec n)) (cs : List Bool) :
    step (combine rows cs) false = Gf2.combine (rows.map (step · false)) cs := by
  induction rows generalizing cs with
  | nil =>
    exact (congrArg (step · false) (combine_nil cs)).trans (h.zero.trans (combine_nil cs).symm)
  | cons r rows ih =>
    cases cs with
    | nil => exact h.zero
    | cons c cs =>
      have hhead : step (if c then r else 0) false = if c then step r false else 0 := by
        split_ifs
        · rfl
        · exact h.zero
      rw [List.map_cons, combine_cons, combine_cons, ← ih cs, ← hhead, ← h, Bool.xor_false]

/-- What a single bit leaves in the register after so many further zeros. -/
def echo (step : BitVec n → Bool → BitVec n) : ℕ → BitVec n
  | 0 => step 0 true
  | k + 1 => step (echo step k) false

/-- The value of a linear register is the combination of the echoes of its bits. -/
theorem shiftIn_eq_combine (h : LinearStep step) (f : ℕ → Bool) (len : ℕ) :
    shiftIn step f len = combine ((List.range len).map fun i => echo step (len - 1 - i))
      ((List.range len).map f) := by
  induction len with
  | zero => rfl
  | succ len ih =>
    -- the last bit's own echo, and one more step for the echoes of those before it
    have hlast : step 0 (f len) = if f len then echo step 0 else 0 := by
      cases f len
      · exact h.zero
      · rfl
    have hmap : ((List.range len).map fun i => echo step (len - 1 - i)).map (step · false) =
        (List.range len).map fun i => echo step (len + 1 - 1 - i) := by
      rw [List.map_map]
      refine List.map_congr_left fun i hi => ?_
      have hlt := List.mem_range.1 hi
      rw [show len + 1 - 1 - i = len - 1 - i + 1 by omega]
      rfl
    calc shiftIn step f (len + 1)
        = step (shiftIn step f len ^^^ 0) (xor false (f len)) := by
          rw [shiftIn_succ, Bool.false_xor]
          simp
      _ = step (shiftIn step f len) false ^^^ step 0 (f len) := h _ _ _ _
      _ = combine ((List.range len).map fun i => echo step (len + 1 - 1 - i))
            ((List.range len).map f) ^^^ if f len then echo step 0 else 0 := by
          rw [ih, h.combine, hmap, hlast]
      _ = combine ((List.range (len + 1)).map fun i => echo step (len + 1 - 1 - i))
            ((List.range (len + 1)).map f) := by
          rw [List.range_succ, List.map_append, List.map_append, combine_append (by simp)]
          simp

end shiftIn

/-! ## Elimination -/

/-- Clear a bit of a row by adding the pivot row if the bit is set. -/
def clear (pivot : BitVec n) (t : ℕ) (row : BitVec n) : BitVec n :=
  if row.getLsbD t then row ^^^ pivot else row

theorem getLsbD_clear {pivot : BitVec n} {t : ℕ} (h : pivot.getLsbD t = true) (row : BitVec n) :
    (clear pivot t row).getLsbD t = false := by
  rw [clear]
  split_ifs with hrow
  · rw [BitVec.getLsbD_xor, hrow, h, Bool.xor_self]
  · simpa using hrow

/-- Clearing a bit of all rows changes a combination by the pivot at most. -/
theorem combine_map_clear (pivot : BitVec n) (t : ℕ) (rows : List (BitVec n)) (cs : List Bool) :
    ∃ c : Bool, combine (rows.map (clear pivot t)) cs =
      combine rows cs ^^^ (if c then pivot else 0) := by
  induction rows generalizing cs with
  | nil => exact ⟨false, by simp⟩
  | cons r rows ih =>
    cases cs with
    | nil => exact ⟨false, by simp⟩
    | cons c cs =>
      obtain ⟨d, hd⟩ := ih cs
      -- the pivot is added once for each selected row that has the bit
      refine ⟨xor (c && r.getLsbD t) d, ?_⟩
      have hhead : (if c then clear pivot t r else 0) =
          (if c then r else 0) ^^^ (if c && r.getLsbD t then pivot else 0) := by
        rw [clear]
        cases c <;> cases r.getLsbD t <;> simp
      have htail : (if xor (c && r.getLsbD t) d then pivot else 0) =
          (if c && r.getLsbD t then pivot else 0) ^^^ (if d then pivot else 0) := by
        cases c && r.getLsbD t <;> cases d <;> simp
      rw [List.map_cons, combine_cons, combine_cons, hd, hhead, htail]
      ac_rfl

/-- Eliminate one row after the other, with the top bit as the pivot, and refuse a zero row. -/
def independentCheck : ℕ → List (BitVec n) → Bool
  | _, [] => true
  | 0, _ :: _ => false
  | fuel + 1, r :: rows =>
    let t := r.toNat.log2
    r.getLsbD t && independentCheck fuel (rows.map (clear r t))

theorem independent_of_check {fuel : ℕ} {rows : List (BitVec n)} (h : independentCheck fuel rows) :
    Independent rows := by
  induction fuel generalizing rows with
  | zero =>
    cases rows with
    | nil => exact independent_nil
    | cons r rows => exact nomatch h
  | succ fuel ih =>
    cases rows with
    | nil => exact independent_nil
    | cons r rows =>
      simp only [independentCheck, Bool.and_eq_true] at h
      obtain ⟨hpivot, hrest⟩ := h
      rintro (_ | ⟨c, cs⟩) hlen hzero
      · exact nomatch hlen
      obtain ⟨d, hd⟩ := combine_map_clear r r.toNat.log2 rows cs
      have hclear : (combine (rows.map (clear r r.toNat.log2)) cs).getLsbD r.toNat.log2 = false :=
        getLsbD_combine (List.forall_mem_map.2 fun s _ => getLsbD_clear hpivot s) cs
      -- the cleared rows give the pivot or zero, and the pivot bit decides which
      have hrows : combine rows cs = if c then r else 0 := (BitVec.xor_eq_zero_iff.1 hzero).symm
      have hsum : combine (rows.map (clear r r.toNat.log2)) cs = if xor c d then r else 0 := by
        rw [hd, hrows]
        cases c <;> cases d <;> simp
      have hcd : xor c d = false := by
        cases hxor : xor c d with
        | false => rfl
        | true => simp [hsum, hxor, hpivot] at hclear
      have hcs : true ∉ cs := by
        refine ih hrest cs ?_ ?_
        · rw [List.length_map]
          exact Nat.succ.inj hlen
        · rw [hsum, hcd]
          rfl
      have hc : c = false := by
        cases c with
        | false => rfl
        | true =>
          have hr : r = 0 := by simpa [combine_eq_zero rows hcs] using hrows.symm
          simp [hr] at hpivot
      simpa [hc] using hcs

end Gf2
