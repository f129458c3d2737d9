import GranolaSdr.Ft8.Text
import Mathlib.Algebra.Group.Int.Defs

/-!
# Grids and reports of FT8 messages

The last field of a standard message in `src/ft8_lib/ft8/message.c`: a grid locator, a word or a
report is packed into 15 bits and the flag that stands in front of them. The range of reports is not
checked when they are packed.

## Main definitions

* `packgrid`: the packed field;
* `Extra.Survives`: the grids, words and reports that the field has a place for.

## Main results

* `unpackgrid_packgrid_iff`: these and no others are read back as they were.
-/

namespace GranolaSdr.Ft8

/-- Four characters that begin like a grid locator. -/
def isGrid (grid4 : List Char) : Bool :=
  in_range (charAt grid4 0) 'A' 'R' && in_range (charAt grid4 1) 'A' 'R' &&
    is_digit (charAt grid4 2) && is_digit (charAt grid4 3)

/-- The packed report in 16 bits. -/
def packReport (dd : ℤ) : ℕ := (MAXGRID4 + ((35 + dd) % 2 ^ 16).toNat) % 2 ^ 16

/-- The packed field, with the flag in its highest bit. -/
def packgrid (grid4 : List Char) : ℕ :=
  if grid4 = [] then MAXGRID4 + 1
  else if grid4 = ['R', 'R', 'R'] then MAXGRID4 + 2
  else if grid4 = ['R', 'R', '7', '3'] then MAXGRID4 + 3
  else if grid4 = ['7', '3'] then MAXGRID4 + 4
  else if isGrid grid4 then
    let igrid4 := (charAt grid4 0).toNat - 'A'.toNat
    let igrid4 := igrid4 * 18 + ((charAt grid4 1).toNat - 'A'.toNat)
    let igrid4 := igrid4 * 10 + ((charAt grid4 2).toNat - '0'.toNat)
    igrid4 * 10 + ((charAt grid4 3).toNat - '0'.toNat)
  else if charAt grid4 0 = 'R' then packReport (dd_to_int (grid4.drop 1) 3) ||| 0x8000
  else packReport (dd_to_int grid4 3)

/-- The field as the decoder reads it. -/
def readgrid (igrid4 : ℕ) : List Char := unpackgrid (igrid4 % 2 ^ 15) (igrid4.testBit 15)

/-- The fields that are read back. -/
def Survives (e : List Char) : Prop :=
  e = [] ∨ e = ['R', 'R', 'R'] ∨ e = ['R', 'R', '7', '3'] ∨ e = ['7', '3'] ∨
    e.length = 4 ∧ isGrid e = true ∨
    ∃ dd : ℤ, -30 ≤ dd ∧ dd ≤ 99 ∧ (e = int_to_dd dd 2 true ∨ e = 'R' :: int_to_dd dd 2 true)

/-! ## Reports -/

/-- The value of some digits. -/
theorem foldl_digits_lt {l : List Char} (h : ∀ c ∈ l, is_digit c = true) {start : ℕ} {b : ℕ}
    (hstart : start < b) :
    l.foldl (fun result c => result * 10 + (c.toNat - '0'.toNat)) start < b * 10 ^ l.length := by
  induction l generalizing start b with
  | nil => simpa using hstart
  | cons c l ih =>
    have hhigh : c ≤ '9' := of_decide_eq_true (Bool.and_eq_true_iff.1 (h c List.mem_cons_self)).2
    have hdigit : c.toNat - '0'.toNat ≤ 9 := toNat_sub_le hhigh
    have hnext : start * 10 + (c.toNat - '0'.toNat) < b * 10 := by omega
    have hrest := ih (fun d hd => h d (List.mem_cons_of_mem c hd)) hnext
    rw [List.foldl_cons, List.length_cons, Nat.pow_succ, Nat.mul_comm (10 ^ l.length),
      ← Nat.mul_assoc]
    exact hrest

/-- The value of the digits from a place on, within the first three characters. -/
theorem digits_lt (str : List Char) (i : ℕ) :
    (((str.take 3).drop i).takeWhile is_digit).foldl
      (fun result c => result * 10 + (c.toNat - '0'.toNat)) 0 < 10 ^ (3 - i) := by
  have hlen : (((str.take 3).drop i).takeWhile is_digit).length ≤ 3 - i := by
    have hsub := (List.takeWhile_sublist is_digit (l := (str.take 3).drop i)).length_le
    rw [List.length_drop, List.length_take] at hsub
    omega
  have hlt := foldl_digits_lt (fun c hc => List.mem_takeWhile_imp hc) Nat.zero_lt_one
    (l := ((str.take 3).drop i).takeWhile is_digit)
  rw [Nat.one_mul] at hlt
  exact hlt.trans_le (Nat.pow_le_pow_right (by decide) hlen)

/-- What is read of a string. With a sign there is room for two digits only. -/
theorem dd_to_int_bounds (str : List Char) :
    -99 ≤ dd_to_int str 3 ∧ dd_to_int str 3 ≤ 999 ∧
      (charAt str 0 = '-' ∨ charAt str 0 = '+' → dd_to_int str 3 ≤ 99) := by
  unfold dd_to_int
  dsimp only
  by_cases hneg : charAt str 0 = '-'
  · have hlt := digits_lt str 1
    rw [if_pos (Or.inl hneg), if_pos hneg]
    exact ⟨by omega, by omega, fun _ => by omega⟩
  · rw [if_neg hneg]
    refine ⟨by omega, ?_, fun hsign => ?_⟩
    · have hlt := digits_lt str (if charAt str 0 = '-' ∨ charAt str 0 = '+' then 1 else 0)
      have hpow : 10 ^ (3 - if charAt str 0 = '-' ∨ charAt str 0 = '+' then 1 else 0) ≤ 1000 := by
        split_ifs <;> decide
      omega
    · have hlt := digits_lt str 1
      rw [if_pos hsign]
      omega

/-- A string that begins with a blank is read as zero. -/
theorem dd_to_int_blank (str : List Char) : dd_to_int (' ' :: str) 3 = 0 := rfl

/-- Every report from -35 on has 35 added to it. -/
theorem packReport_of_le {dd : ℤ} (hlow : -35 ≤ dd) (hhigh : dd ≤ 999) :
    packReport dd = MAXGRID4 + (35 + dd).toNat := by
  unfold packReport MAXGRID4
  omega

/-- Lower ones wrap around to the last grids. -/
theorem packReport_of_lt {dd : ℤ} (hlow : -99 ≤ dd) (hhigh : dd < -35) :
    packReport dd < MAXGRID4 := by
  unfold packReport MAXGRID4
  omega

/-- A grid is read as characters that look like one. -/
theorem unpackgrid_grid {igrid4 : ℕ} (h : igrid4 ≤ MAXGRID4) :
    ∃ grid, isGrid grid = true ∧
      ∀ ir, unpackgrid igrid4 ir = (if ir then ['R', ' '] else []) ++ grid := by
  have hletter : ∀ k < 18, in_range (charAfter 'A' k) 'A' 'R' = true := by decide
  have hdigit : ∀ k < 10, is_digit (charAfter '0' k) = true := by decide
  refine ⟨_, ?_, fun ir => by rw [unpackgrid, if_pos h]⟩
  simp only [isGrid, Bool.and_eq_true]
  exact ⟨⟨⟨hletter _ (Nat.mod_lt _ (by decide)), hletter _ (Nat.mod_lt _ (by decide))⟩,
    hdigit _ (Nat.mod_lt _ (by decide))⟩, hdigit _ (Nat.mod_lt _ (by decide))⟩

/-- The field with the flag. -/
theorem readgrid_or (n : ℕ) : readgrid (n ||| 0x8000) = unpackgrid (n % 2 ^ 15) true := by
  have hbit : (0x8000 : ℕ).testBit 15 = true := by decide
  have hmod : (0x8000 : ℕ) % 2 ^ 15 = 0 := by decide
  rw [readgrid, Nat.testBit_or, hbit, Bool.or_true, Nat.or_mod_two_pow, hmod, Nat.or_zero]

/-- The field without it. -/
theorem readgrid_of_lt {n : ℕ} (h : n < 2 ^ 15) : readgrid n = unpackgrid n false := by
  rw [readgrid, Nat.mod_eq_of_lt h, Nat.testBit_lt_two_pow h]

/-- What the field above the grids is read as. -/
theorem unpackgrid_report {irpt : ℕ} (hpos : 0 < irpt) (ir : Bool) :
    Survives (unpackgrid (MAXGRID4 + irpt) ir) ∨ 4 < irpt ∧
      unpackgrid (MAXGRID4 + irpt) ir =
        (if ir then ['R'] else []) ++ int_to_dd (irpt - 35) 2 true := by
  rw [unpackgrid, if_neg (by omega), Nat.add_sub_cancel_left]
  match irpt with
  | 0 => omega
  | 1 => exact Or.inl (Or.inl rfl)
  | 2 => exact Or.inl (Or.inr (Or.inl rfl))
  | 3 => exact Or.inl (Or.inr (Or.inr (Or.inl rfl)))
  | 4 => exact Or.inl (Or.inr (Or.inr (Or.inr (Or.inl rfl))))
  | irpt + 5 => exact Or.inr ⟨by omega, rfl⟩

/-- A report is read as a grid, as a word or as the number that it is, in case this is not too
low. -/
theorem readgrid_packReport {dd : ℤ} (hlow : -99 ≤ dd) (hhigh : dd ≤ 999) (r : Bool) :
    let e := readgrid (packReport dd ||| if r then 0x8000 else 0)
    (dd ≠ 0 ∧ ∃ grid, isGrid grid = true ∧ (e = 'R' :: ' ' :: grid ∨ e = grid ∧ r = false)) ∨
      Survives e ∨ -30 ≤ dd ∧ e = (if r then ['R'] else []) ++ int_to_dd dd 2 true := by
  intro e
  -- the flag of the R is the highest bit, and a shorter report leaves it alone
  have hflag : ∀ n < 2 ^ 15, readgrid (n ||| if r then 0x8000 else 0) = unpackgrid n r := by
    intro n hn
    cases r with
    | false => exact (congrArg readgrid (Nat.or_zero n)).trans (readgrid_of_lt hn)
    | true => exact (readgrid_or n).trans (by rw [Nat.mod_eq_of_lt hn])
  -- up to the last grid the number is read as one
  have hgrid : ∀ n ≤ MAXGRID4, e = unpackgrid n r → dd ≠ 0 → (dd ≠ 0 ∧ ∃ grid,
      isGrid grid = true ∧ (e = 'R' :: ' ' :: grid ∨ e = grid ∧ r = false)) := by
    intro n hn he hdd
    obtain ⟨grid, hlike, hread⟩ := unpackgrid_grid hn
    rw [hread r] at he
    refine ⟨hdd, grid, hlike, ?_⟩
    cases r with
    | false => exact Or.inr ⟨he, rfl⟩
    | true => exact Or.inl he
  rcases lt_or_ge dd (-35) with hwrap | hwrap
  · -- below -35 the sum wraps around, to a number among the grids
    have hlt := packReport_of_lt hlow hwrap
    exact Or.inl (hgrid _ hlt.le (hflag _ (hlt.trans (by decide))) (by omega))
  have hpack := packReport_of_le hwrap hhigh
  rcases lt_or_ge (MAXGRID4 + (35 + dd).toNat) (2 ^ 15) with hfits | hfits
  · have he : e = unpackgrid (MAXGRID4 + (35 + dd).toNat) r := by
      change readgrid (packReport dd ||| _) = _
      rw [hpack, hflag _ hfits]
    rcases Nat.eq_zero_or_pos (35 + dd).toNat with hzero | hpos
    · -- -35 is the last grid
      rw [hzero] at he
      exact Or.inl (hgrid _ le_rfl he (by omega))
    · rcases unpackgrid_report hpos r with hword | ⟨hlarge, hread⟩
      · exact Or.inr (Or.inl (he ▸ hword))
      · have hvalue : ((35 + dd).toNat : ℤ) - 35 = dd := by omega
        rw [hvalue] at hread
        exact Or.inr (Or.inr ⟨by omega, he.trans hread⟩)
  · -- The report has reached the flag, and what remains is a grid.
    have hrest : packReport dd % 2 ^ 15 ≤ MAXGRID4 := by
      rw [hpack]
      unfold MAXGRID4 at hfits ⊢
      omega
    have hbit : (packReport dd).testBit 15 = true := by
      have hhalf : packReport dd / 2 ^ 15 = 1 := by
        rw [hpack]
        unfold MAXGRID4 at hfits ⊢
        omega
      rw [Nat.testBit_eq_decide_div_mod_eq, hhalf]
      rfl
    have he : e = unpackgrid (packReport dd % 2 ^ 15) true := by
      cases hr : r with
      | false =>
        change readgrid (packReport dd ||| _) = _
        rw [hr, if_neg Bool.false_ne_true, Nat.or_zero, readgrid, hbit]
      | true =>
        change readgrid (packReport dd ||| _) = _
        rw [hr, if_pos rfl, readgrid_or]
    obtain ⟨grid, hlike, hread⟩ := unpackgrid_grid hrest
    refine Or.inl ⟨?_, grid, hlike, Or.inl (he.trans (hread true))⟩
    unfold MAXGRID4 at hfits
    omega

/-! ## Which fields are read back -/

/-- The index of a grid, with its last digit first. -/
theorem packgrid_grid {e : List Char} (h : isGrid e = true) (hword : e ≠ ['R', 'R', '7', '3']) :
    ∃ i ≤ 17, ∃ j ≤ 17, ∃ k ≤ 9, ∃ l ≤ 9, packgrid e = l + 10 * (k + 10 * (j + 18 * i)) ∧
      charAfter 'A' i = charAt e 0 ∧ charAfter 'A' j = charAt e 1 ∧
      charAfter '0' k = charAt e 2 ∧ charAfter '0' l = charAt e 3 := by
  have hchars : ((('A' ≤ charAt e 0 ∧ charAt e 0 ≤ 'R') ∧ 'A' ≤ charAt e 1 ∧ charAt e 1 ≤ 'R') ∧
      '0' ≤ charAt e 2 ∧ charAt e 2 ≤ '9') ∧ '0' ≤ charAt e 3 ∧ charAt e 3 ≤ '9' := by
    simpa [isGrid, in_range, is_digit] using h
  obtain ⟨⟨⟨⟨ha, ha'⟩, hb, hb'⟩, hc, hc'⟩, hd, hd'⟩ := hchars
  refine ⟨_, toNat_sub_le ha', _, toNat_sub_le hb', _, toNat_sub_le hc', _, toNat_sub_le hd', ?_,
    charAfter_sub ha, charAfter_sub hb, charAfter_sub hc, charAfter_sub hd⟩
  -- a grid is none of the words that are tried before it
  have hempty : e ≠ [] := by
    rintro rfl
    exact absurd h (by decide)
  have hrrr : e ≠ ['R', 'R', 'R'] := by
    rintro rfl
    exact absurd h (by decide)
  have h73 : e ≠ ['7', '3'] := by
    rintro rfl
    exact absurd h (by decide)
  rw [packgrid, if_neg hempty, if_neg hrrr, if_neg hword, if_neg h73, if_pos h]
  dsimp only
  omega

/-- A grid is read back as its first four characters. -/
theorem readgrid_packgrid_grid {e : List Char} (h : isGrid e = true)
    (hword : e ≠ ['R', 'R', '7', '3']) :
    readgrid (packgrid e) = [charAt e 0, charAt e 1, charAt e 2, charAt e 3] := by
  obtain ⟨i, hi, j, hj, k, hk, l, hl, hpack, ha, hb, hc, hd⟩ := packgrid_grid h hword
  have hmax : l + 10 * (k + 10 * (j + 18 * i)) ≤ MAXGRID4 := by
    unfold MAXGRID4
    omega
  have hl' : (l + 10 * (k + 10 * (j + 18 * i))) % 10 = l := by omega
  have hk' : (l + 10 * (k + 10 * (j + 18 * i))) / 10 % 10 = k := by omega
  have hj' : (l + 10 * (k + 10 * (j + 18 * i))) / 10 / 10 % 18 = j := by omega
  have hi' : (l + 10 * (k + 10 * (j + 18 * i))) / 10 / 10 / 18 % 18 = i := by omega
  rw [hpack, readgrid_of_lt (hmax.trans_lt (by decide)), unpackgrid, if_pos hmax, hl', hk', hj',
    hi', ha, hb, hc, hd]
  rfl

/-- The field and its flag have 16 bits. -/
theorem packgrid_lt (e : List Char) : packgrid e < 2 ^ 16 := by
  have hreport : ∀ dd, packReport dd < 2 ^ 16 := fun dd => Nat.mod_lt _ (by decide)
  by_cases hword : e = ['R', 'R', '7', '3']
  · rw [hword]
    decide
  by_cases hgrid : isGrid e = true
  · obtain ⟨i, hi, j, hj, k, hk, l, hl, hpack, -⟩ := packgrid_grid hgrid hword
    omega
  · unfold packgrid
    split_ifs
    · decide
    · decide
    · decide
    · exact Nat.or_lt_two_pow (hreport _) (by decide)
    · exact hreport _

/-- The reports of two digits are read back, from the lowest one that is not a word. -/
theorem readgrid_packgrid_report {dd : ℤ} (hlow : -30 ≤ dd) (hhigh : dd ≤ 99) :
    readgrid (packgrid (int_to_dd dd 2 true)) = int_to_dd dd 2 true ∧
      readgrid (packgrid ('R' :: int_to_dd dd 2 true)) = 'R' :: int_to_dd dd 2 true := by
  have hall : ∀ k < 130, readgrid (packgrid (int_to_dd ((k : ℕ) - 30) 2 true)) =
        int_to_dd (k - 30) 2 true ∧
      readgrid (packgrid ('R' :: int_to_dd (k - 30) 2 true)) =
        'R' :: int_to_dd (k - 30) 2 true := by
    decide +kernel
  have hk := hall (dd + 30).toNat (by omega)
  rwa [show (((dd + 30).toNat : ℕ) : ℤ) - 30 = dd by omega] at hk

/-- The sign is the first character of a report. -/
theorem charAt_int_to_dd (dd : ℤ) :
    charAt (int_to_dd dd 2 true) 0 = '-' ∨ charAt (int_to_dd dd 2 true) 0 = '+' := by
  unfold int_to_dd
  by_cases hneg : dd < 0
  · exact Or.inl (by rw [if_pos hneg]; rfl)
  · exact Or.inr (by rw [if_neg hneg]; rfl)

/-- What is read back is one of these fields. -/
theorem survives_of_readgrid {e : List Char} (h : readgrid (packgrid e) = e) : Survives e := by
  unfold packgrid at h
  split_ifs at h with hempty hrrr hrr73 h73 hgrid hr
  · exact Or.inl hempty
  · exact Or.inr (Or.inl hrrr)
  · exact Or.inr (Or.inr (Or.inl hrr73))
  · exact Or.inr (Or.inr (Or.inr (Or.inl h73)))
  · have hread := readgrid_packgrid_grid hgrid hrr73
    rw [packgrid, if_neg hempty, if_neg hrrr, if_neg hrr73, if_neg h73, if_pos hgrid, h] at hread
    exact Or.inr (Or.inr (Or.inr (Or.inr (Or.inl ⟨hread ▸ rfl, hgrid⟩))))
  · -- an R and a number: what is read is a report, or the number was out of range
    obtain ⟨c, rest, rfl⟩ := List.exists_cons_of_ne_nil hempty
    obtain rfl : c = 'R' := hr
    obtain ⟨hlow, hhigh, hsign⟩ := dd_to_int_bounds rest
    have hcases := readgrid_packReport hlow (by omega) true
    rw [if_pos rfl] at hcases
    change readgrid (packReport (dd_to_int rest 3) ||| 0x8000) = 'R' :: rest at h
    dsimp only at hcases
    rw [h] at hcases
    rcases hcases with ⟨hne, grid, -, hgrid | ⟨-, hfalse⟩⟩ | hword | ⟨hlow, he⟩
    · -- a blank and a grid behind the R have the value zero, which is not read like that
      rw [(List.cons.inj hgrid).2] at hne
      exact absurd (dd_to_int_blank grid) hne
    · exact absurd hfalse (by decide)
    · exact hword
    · have hrest : rest = int_to_dd (dd_to_int rest 3) 2 true := (List.cons.inj he).2
      have hhigh := hsign (hrest ▸ charAt_int_to_dd (dd_to_int rest 3))
      exact Or.inr (Or.inr (Or.inr (Or.inr (Or.inr ⟨_, hlow, hhigh, Or.inr he⟩))))
  · obtain ⟨hlow, hhigh, hsign⟩ := dd_to_int_bounds e
    have hcases := readgrid_packReport hlow (by omega) false
    rw [if_neg Bool.false_ne_true, Nat.or_zero] at hcases
    dsimp only at hcases
    rw [h] at hcases
    rcases hcases with ⟨hne, grid, hlike, rfl | ⟨rfl, -⟩⟩ | hword | ⟨hlow, he⟩
    · exact absurd rfl hr
    · exact absurd hlike hgrid
    · exact hword
    · have he : e = int_to_dd (dd_to_int e 3) 2 true := he
      have hhigh := hsign (he ▸ charAt_int_to_dd (dd_to_int e 3))
      exact Or.inr (Or.inr (Or.inr (Or.inr (Or.inr ⟨_, hlow, hhigh, Or.inl he⟩))))

/-- They are read back. -/
theorem readgrid_of_survives {e : List Char} (h : Survives e) : readgrid (packgrid e) = e := by
  rcases h with rfl | rfl | rfl | rfl | ⟨hlen, hgrid⟩ | ⟨dd, hlow, hhigh, rfl | rfl⟩
  · decide
  · decide
  · decide
  · decide
  · obtain ⟨a, b, c, d, rfl⟩ := List.length_eq_four.1 hlen
    by_cases hword : [a, b, c, d] = ['R', 'R', '7', '3']
    · rw [hword]
      decide
    · exact readgrid_packgrid_grid hgrid hword
  · exact (readgrid_packgrid_report hlow hhigh).1
  · exact (readgrid_packgrid_report hlow hhigh).2

/-- A field is read back exactly if it is a grid, one of the words or a report from -30 to 99 that
is written with its sign and two digits, with or without an `R` in front. -/
theorem unpackgrid_packgrid_iff (e : List Char) : readgrid (packgrid e) = e ↔ Survives e :=
  ⟨survives_of_readgrid, readgrid_of_survives⟩

end GranolaSdr.Ft8
