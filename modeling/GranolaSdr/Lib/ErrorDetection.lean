import GranolaSdr.Lib.Gf2
import Mathlib.Data.List.Sublists

/-!
# Errors that a linear check detects

A check adds up the columns of the set bits of a word. An error goes undetected when its own columns
add up to zero.

## Main definitions

* `Gf2.selected`: the columns of the set bits;
* `Gf2.parity`: whether a vector has an odd number of set bits.

## Main results

* `Gf2.getLsbD_shiftIn_shiftConcat`: a register without feedback;
* `Gf2.combine_eq_foldr`: the sum of the selected columns;
* `Gf2.combine_ne_zero_of_odd`: columns of odd parity detect an odd number of errors;
* `Gf2.combine_ne_zero_of_count_two`: columns that differ detect two errors.
-/

namespace Gf2

variable {n : ℕ}

/-- The rows whose coefficient is set. -/
def selected : List (BitVec n) → List Bool → List (BitVec n)
  | r :: rows, c :: cs => if c then r :: selected rows cs else selected rows cs
  | _, _ => []

theorem combine_eq_foldr (rows : List (BitVec n)) (cs : List Bool) :
    combine rows cs = (selected rows cs).foldr (· ^^^ ·) 0 := by
  induction rows generalizing cs with
  | nil => simp [selected]
  | cons r rows ih =>
    cases cs with
    | nil => rfl
    | cons c cs =>
      rw [combine_cons, ih, selected]
      split_ifs
      · rfl
      · exact BitVec.zero_xor

theorem selected_sublist (rows : List (BitVec n)) (cs : List Bool) :
    (selected rows cs).Sublist rows := by
  induction rows generalizing cs with
  | nil => simp [selected]
  | cons r rows ih =>
    cases cs with
    | nil => exact List.nil_sublist _
    | cons c cs =>
      rw [selected]
      split_ifs
      · exact (ih cs).cons_cons r
      · exact (ih cs).cons r

theorem length_selected {rows : List (BitVec n)} {cs : List Bool} (h : cs.length = rows.length) :
    (selected rows cs).length = cs.count true := by
  induction rows generalizing cs with
  | nil => simp [List.length_eq_zero_iff.1 h, selected]
  | cons r rows ih =>
    cases cs with
    | nil => exact nomatch h
    | cons c cs =>
      have hrest := ih (Nat.succ.inj h)
      cases c with
      | true => rw [List.count_cons_self, ← hrest, selected, if_pos rfl, List.length_cons]
      | false => simp [selected, hrest]

/-! ## The plain register -/

theorem linearStep_shiftConcat : LinearStep (BitVec.shiftConcat (n := n)) := by
  intro c c' b b'
  refine BitVec.eq_of_getLsbD_eq fun i hi => ?_
  rw [BitVec.getLsbD_xor, BitVec.getLsbD_shiftConcat, BitVec.getLsbD_shiftConcat,
    BitVec.getLsbD_shiftConcat, ← Bool.and_xor_distrib_left]
  split_ifs
  · rfl
  · rw [BitVec.getLsbD_xor]

/-- A register without feedback holds the last bits. -/
theorem getLsbD_shiftIn_shiftConcat (f : ℕ → Bool) (len : ℕ) {b : ℕ} (hb : b < n) :
    (shiftIn (BitVec.shiftConcat (n := n)) f len).getLsbD b =
      (decide (b < len) && f (len - 1 - b)) := by
  induction len generalizing b with
  | zero => exact BitVec.getLsbD_zero
  | succ len ih =>
    rw [shiftIn_succ, BitVec.getLsbD_shiftConcat, decide_eq_true hb, Bool.true_and]
    split_ifs with hzero
    · rw [hzero]
      simp
    · rw [ih (by omega), show len - 1 - (b - 1) = len + 1 - 1 - b by omega]
      congr 1
      apply decide_eq_decide.2
      omega

/-! ## Parity -/

/-- Whether an odd number of bits is set. -/
def parity (x : BitVec n) : Bool := (List.range n).foldr (fun i p => xor (x.getLsbD i) p) false

theorem parity_xor (x y : BitVec n) : parity (x ^^^ y) = xor (parity x) (parity y) := by
  unfold parity
  induction List.range n with
  | nil => rfl
  | cons i l ih =>
    rw [List.foldr_cons, List.foldr_cons, List.foldr_cons, ih, BitVec.getLsbD_xor, Bool.xor_assoc,
      Bool.xor_assoc, Bool.xor_left_comm (y.getLsbD i)]

theorem parity_zero : parity (0 : BitVec n) = false := by
  have hself := parity_xor (0 : BitVec n) 0
  rwa [BitVec.xor_self, Bool.xor_self] at hself

/-- A sum of vectors of odd parity has the parity of their number. -/
theorem parity_foldr {l : List (BitVec n)} (h : ∀ r ∈ l, parity r = true) :
    parity (l.foldr (· ^^^ ·) 0) = decide (l.length % 2 = 1) := by
  induction l with
  | nil => exact parity_zero
  | cons r l ih =>
    rw [List.foldr_cons, parity_xor, h r List.mem_cons_self,
      ih fun s hs => h s (List.mem_cons_of_mem r hs), List.length_cons, Bool.true_xor,
      ← decide_not]
    apply decide_eq_decide.2
    omega

/-- When all columns have odd parity, no odd number of errors goes undetected. -/
theorem combine_ne_zero_of_odd {rows : List (BitVec n)} (hrows : ∀ r ∈ rows, parity r = true)
    {cs : List Bool} (hlen : cs.length = rows.length) (hodd : cs.count true % 2 = 1) :
    combine rows cs ≠ 0 := by
  intro hzero
  have hparity := parity_foldr (l := selected rows cs) fun r hr =>
    hrows r ((selected_sublist rows cs).subset hr)
  rw [← combine_eq_foldr, hzero, parity_zero, length_selected hlen, decide_eq_true hodd] at hparity
  exact Bool.false_ne_true hparity

/-- When no two columns are equal, no two errors go undetected. -/
theorem combine_ne_zero_of_count_two {rows : List (BitVec n)} (hrows : rows.Nodup)
    {cs : List Bool} (hlen : cs.length = rows.length) (hcount : cs.count true = 2) :
    combine rows cs ≠ 0 := by
  intro hzero
  obtain ⟨r, s, hrs⟩ := List.length_eq_two.1 ((length_selected hlen).trans hcount)
  have hsub := selected_sublist rows cs
  rw [hrs] at hsub
  have hne : r ≠ s := by
    have hnodup := hrows.sublist hsub
    simpa using hnodup
  apply hne
  rw [combine_eq_foldr, hrs, List.foldr_cons, List.foldr_cons, List.foldr_nil] at hzero
  have hadd := congrArg (· ^^^ s) hzero
  simpa [BitVec.xor_assoc] using hadd

end Gf2
