import GranolaSdr.Ft8.Message
import GranolaSdr.Lib.MixedRadix
import Mathlib.Data.List.DropRight
import Mathlib.Data.List.GetD

/-!
# Characters and tokens of FT8 texts

`src/ft8_lib/ft8/text.c`. A C string is the list of the characters in front of its terminating zero,
and a read of the terminator is a read behind the end of the list.

## Main definitions

* `CharTable`, `charn`, `nchar`: the alphabets, and the two directions of their tables;
* `trim_copy`, `copy_token`, `dd_to_int`: the functions on strings.

## Main results

* `charn_of_nchar`, `nchar_charn`: the two directions are inverse to each other.
-/

namespace GranolaSdr.Ft8

inductive CharTable where
  /-- The 42 characters of free texts. -/
  | full
  /-- The 38 characters of callsigns that are not standard. -/
  | alphanumSpaceSlash
  | alphanumSpace
  | lettersSpace
  | alphanum
  | numeric
  deriving DecidableEq

namespace CharTable

def hasSpace (table : CharTable) : Bool := table ≠ alphanum && table ≠ numeric

def hasDigits (table : CharTable) : Bool := table ≠ lettersSpace

def hasLetters (table : CharTable) : Bool := table ≠ numeric

/-- The characters behind the blank, the digits and the letters. -/
def others : CharTable → List Char
  | full => ['+', '-', '.', '/', '?']
  | alphanumSpaceSlash => ['/']
  | _ => []

/-- The number of characters. -/
def size (table : CharTable) : ℕ :=
  table.hasSpace.toNat + 10 * table.hasDigits.toNat + 26 * table.hasLetters.toNat +
    table.others.length

end CharTable

def is_digit (c : Char) : Bool := '0' ≤ c && c ≤ '9'

def is_letter (c : Char) : Bool := 'A' ≤ c && c ≤ 'Z' || 'a' ≤ c && c ≤ 'z'

def in_range (c min max : Char) : Bool := min ≤ c && c ≤ max

/-- The character with an index. -/
def charn (c : ℕ) (table : CharTable) : Char :=
  if table.hasSpace && c == 0 then ' '
  else
    let c := c - table.hasSpace.toNat
    if table.hasDigits && decide (c < 10) then charAfter '0' c
    else
      let c := c - 10 * table.hasDigits.toNat
      if table.hasLetters && decide (c < 26) then charAfter 'A' c
      else table.others.getD (c - 26 * table.hasLetters.toNat) '_'

/-- The index of a character. -/
def nchar (c : Char) (table : CharTable) : Option ℕ :=
  if table.hasSpace && c == ' ' then some 0
  else
    let n := table.hasSpace.toNat
    if table.hasDigits && is_digit c then some (n + (c.toNat - '0'.toNat))
    else
      let n := n + 10 * table.hasDigits.toNat
      if table.hasLetters && in_range c 'A' 'Z' then some (n + (c.toNat - 'A'.toNat))
      else
        let n := n + 26 * table.hasLetters.toNat
        (table.others.idxOf? c).map (n + ·)

/-! ## Strings -/

/-- The character at a place of a string, where it ends its terminator. -/
def charAt (s : List Char) (i : ℕ) : Char := s.getD i '\x00'

/-- Without the blanks at both ends. -/
def trim_copy (s : List Char) : List Char := (s.dropWhile (· = ' ')).rdropWhile (· = ' ')

def starts_with (s pre : List Char) : Bool := pre.isPrefixOf s

def ends_with (s suf : List Char) : Bool := suf.isSuffixOf s

/-- The characters up to the next blank, as many as there is room for, and what stands behind the
blanks. -/
def copy_token (length : ℕ) (s : List Char) : List Char × List Char :=
  ((s.takeWhile (· ≠ ' ')).take length, (s.dropWhile (· ≠ ' ')).dropWhile (· = ' '))

/-- The number that a string begins with, within its first characters. -/
def dd_to_int (str : List Char) (length : ℕ) : ℤ :=
  let negative := charAt str 0 = '-'
  let i := if negative ∨ charAt str 0 = '+' then 1 else 0
  let digits := ((str.take length).drop i).takeWhile is_digit
  let result : ℕ := digits.foldl (fun result c => result * 10 + (c.toNat - '0'.toNat)) 0
  if negative then -result else result

/-! ## The tables -/

/-- The character `n` places behind one that is not behind it itself. -/
theorem charAfter_sub {a c : Char} (h : a ≤ c) : charAfter a (c.toNat - a.toNat) = c := by
  have hle : a.toNat ≤ c.toNat := h
  rw [charAfter, Nat.add_sub_cancel' hle, Char.ofNat_toNat]

theorem toNat_sub_le {a b c : Char} (h : c ≤ b) : c.toNat - a.toNat ≤ b.toNat - a.toNat := by
  have hle : c.toNat ≤ b.toNat := h
  omega

section Offsets

variable (table : CharTable) (k : ℕ)

/-- The characters behind the blank. -/
theorem charn_space_add : charn (table.hasSpace.toNat + k) table =
    if table.hasDigits && decide (k < 10) then charAfter '0' k
    else if table.hasLetters && decide (k - 10 * table.hasDigits.toNat < 26) then
      charAfter 'A' (k - 10 * table.hasDigits.toNat)
    else table.others.getD
      (k - 10 * table.hasDigits.toNat - 26 * table.hasLetters.toNat) '_' := by
  have hfirst : ¬ (table.hasSpace && table.hasSpace.toNat + k == 0) = true := by
    cases table.hasSpace <;> simp
  rw [charn, if_neg hfirst, Nat.add_sub_cancel_left]

/-- The characters behind the digits. -/
theorem charn_digits_add : charn (table.hasSpace.toNat + (10 * table.hasDigits.toNat + k)) table =
    if table.hasLetters && decide (k < 26) then charAfter 'A' k
    else table.others.getD (k - 26 * table.hasLetters.toNat) '_' := by
  have hfirst : ¬ (table.hasDigits && decide (10 * table.hasDigits.toNat + k < 10)) = true := by
    cases table.hasDigits <;> simp
  rw [charn_space_add, if_neg hfirst, Nat.add_sub_cancel_left]

/-- The characters behind the letters. -/
theorem charn_letters_add :
    charn (table.hasSpace.toNat + (10 * table.hasDigits.toNat +
      (26 * table.hasLetters.toNat + k))) table = table.others.getD k '_' := by
  have hfirst : ¬ (table.hasLetters && decide (26 * table.hasLetters.toNat + k < 26)) = true := by
    cases table.hasLetters <;> simp
  rw [charn_digits_add, if_neg hfirst, Nat.add_sub_cancel_left]

end Offsets

/-- A character that has an index is the one with that index. -/
theorem charn_of_nchar {c : Char} {table : CharTable} {n : ℕ} (h : nchar c table = some n) :
    n < table.size ∧ charn n table = c := by
  unfold nchar at h
  dsimp only at h
  rw [CharTable.size]
  split_ifs at h with hspace hdigit hletter
  · obtain rfl := Option.some.inj h
    obtain ⟨htable, hc⟩ := Bool.and_eq_true_iff.1 hspace
    rw [charn, htable, eq_of_beq hc]
    exact ⟨by rw [Bool.toNat_true]; omega, rfl⟩
  · obtain rfl := Option.some.inj h
    obtain ⟨htable, hc⟩ := Bool.and_eq_true_iff.1 hdigit
    obtain ⟨hlow, hhigh⟩ := Bool.and_eq_true_iff.1 hc
    have hlt : c.toNat - '0'.toNat ≤ 9 := toNat_sub_le (of_decide_eq_true hhigh)
    rw [charn_space_add, htable, decide_eq_true (by omega), Bool.and_true, if_pos rfl,
      charAfter_sub (of_decide_eq_true hlow)]
    exact ⟨by rw [Bool.toNat_true]; omega, rfl⟩
  · obtain rfl := Option.some.inj h
    obtain ⟨htable, hc⟩ := Bool.and_eq_true_iff.1 hletter
    obtain ⟨hlow, hhigh⟩ := Bool.and_eq_true_iff.1 hc
    have hlt : c.toNat - 'A'.toNat ≤ 25 := toNat_sub_le (of_decide_eq_true hhigh)
    rw [Nat.add_assoc, charn_digits_add, htable, decide_eq_true (by omega), Bool.and_true,
      if_pos rfl, charAfter_sub (of_decide_eq_true hlow)]
    exact ⟨by rw [Bool.toNat_true]; omega, rfl⟩
  · -- the other characters of the alphabet are found by their place in a list
    obtain ⟨k, hk, rfl⟩ := Option.map_eq_some_iff.1 h
    obtain ⟨hlt, hget, -⟩ := List.idxOf?_eq_some_iff.1 hk
    rw [Nat.add_assoc, Nat.add_assoc, charn_letters_add, List.getD_eq_getElem _ _ hlt]
    exact ⟨by omega, hget⟩

theorem nchar_charn : ∀ (table : CharTable) {n : ℕ}, n < table.size →
    nchar (charn n table) table = some n := by
  have hall : ∀ table ∈ [CharTable.full, .alphanumSpaceSlash, .alphanumSpace, .lettersSpace,
      .alphanum, .numeric], ∀ n < table.size, nchar (charn n table) table = some n := by decide
  intro table n hn
  cases table <;> exact hall _ (by decide) n hn

/-! ## Blanks -/

/-- Blanks that are added at the ends are trimmed. -/
theorem trim_copy_pad (s : List Char) (front back : ℕ) :
    trim_copy (List.replicate front ' ' ++ s ++ List.replicate back ' ') = trim_copy s := by
  have hblank : ∀ n, ∀ c ∈ List.replicate n ' ', decide (c = ' ') = true := by
    intro n c hc
    exact decide_eq_true (List.eq_of_mem_replicate hc)
  have hback : ∀ l, List.rdropWhile (· = ' ') (l ++ List.replicate back ' ') =
      List.rdropWhile (· = ' ') l := by
    intro l
    rw [List.rdropWhile, List.reverse_append, List.reverse_replicate,
      List.dropWhile_append_of_pos (hblank back), List.rdropWhile]
  rw [trim_copy, List.append_assoc, List.dropWhile_append_of_pos (hblank front),
    List.dropWhile_append, trim_copy]
  by_cases hempty : (List.dropWhile (· = ' ') s).isEmpty
  · rw [if_pos hempty, List.isEmpty_iff.1 hempty,
      List.dropWhile_eq_nil_iff.2 (hblank back)]
  · rw [if_neg hempty, hback]

/-- Without blanks there is nothing to trim. -/
theorem trim_copy_of_notMem {s : List Char} (h : ' ' ∉ s) : trim_copy s = s := by
  have hfront : List.dropWhile (· = ' ') s = s := by
    rw [List.dropWhile_eq_self_iff]
    exact fun hl hblank => h (of_decide_eq_true hblank ▸ List.getElem_mem hl)
  rw [trim_copy, hfront, List.rdropWhile_eq_self_iff]
  exact fun hl hblank => h (of_decide_eq_true hblank ▸ List.getLast_mem hl)

/-! ## Numbers of characters -/

/-- The number of a text, whose characters are digits in the radices of their tables. -/
def packChars (tables : List CharTable) (text : List Char) : Option ℕ :=
  (tables.zip text).foldlM (fun n p => (nchar p.2 p.1).map (n * p.1.size + ·)) 0

/-- The text with a number. -/
def unpackChars (tables : List CharTable) (n : ℕ) : List Char :=
  (List.zipWith charn (MixedRadix.unpack (tables.reverse.map CharTable.size) n)
    tables.reverse).reverse

theorem unpackChars_concat (tables : List CharTable) (table : CharTable) (n : ℕ) :
    unpackChars (tables ++ [table]) n =
      unpackChars tables (n / table.size) ++ [charn (n % table.size) table] := by
  simp [unpackChars, MixedRadix.unpack]

theorem length_unpackChars (tables : List CharTable) (n : ℕ) :
    (unpackChars tables n).length = tables.length := by
  induction tables using List.reverseRecOn generalizing n with
  | nil => rfl
  | append_singleton tables table ih =>
    rw [unpackChars_concat, List.length_append, List.length_append, ih, List.length_singleton,
      List.length_singleton]

theorem packChars_concat {tables : List CharTable} {text : List Char}
    (hlen : tables.length = text.length) (table : CharTable) (c : Char) :
    packChars (tables ++ [table]) (text ++ [c]) =
      (packChars tables text).bind fun n => (nchar c table).map (n * table.size + ·) := by
  rw [packChars, List.zip_append hlen, List.foldlM_append]
  exact congrArg _ (funext fun n => bind_pure _)

/-- A text as long as tables of which there is a last one. -/
theorem exists_concat_of_length {tables : List CharTable} {table : CharTable} {text : List Char}
    (h : (tables ++ [table]).length = text.length) :
    ∃ front c, text = front ++ [c] ∧ tables.length = front.length := by
  have hne : text ≠ [] := by
    rintro rfl
    simp at h
  obtain ⟨front, c, rfl⟩ := (List.eq_nil_or_concat' text).resolve_left hne
  rw [List.length_append, List.length_append, List.length_singleton, List.length_singleton,
    Nat.add_right_cancel_iff] at h
  exact ⟨front, c, rfl, h⟩

/-- The product of the radices. -/
def space (tables : List CharTable) : ℕ := (tables.map CharTable.size).prod

/-- A text that has a number is the one with that number. -/
theorem unpackChars_of_packChars {tables : List CharTable} {text : List Char} {n : ℕ}
    (hlen : tables.length = text.length) (h : packChars tables text = some n) :
    n < space tables ∧ unpackChars tables n = text := by
  induction tables using List.reverseRecOn generalizing text n with
  | nil =>
    obtain rfl := List.length_eq_zero_iff.1 hlen.symm
    obtain rfl : 0 = n := Option.some.inj h
    exact ⟨Nat.zero_lt_one, rfl⟩
  | append_singleton tables table ih =>
    obtain ⟨text, c, rfl, hfront⟩ := exists_concat_of_length hlen
    rw [packChars_concat hfront] at h
    obtain ⟨m, hm, hn⟩ := Option.bind_eq_some_iff.1 h
    obtain ⟨k, hk, rfl⟩ := Option.map_eq_some_iff.1 hn
    obtain ⟨hlt, htext⟩ := ih hfront hm
    obtain ⟨hsize, hchar⟩ := charn_of_nchar hk
    -- the last character is the remainder, and the others are the quotient
    constructor
    · calc m * table.size + k < m * table.size + table.size := Nat.add_lt_add_left hsize _
        _ = (m + 1) * table.size := (Nat.succ_mul m table.size).symm
        _ ≤ space tables * table.size := Nat.mul_le_mul_right _ hlt
        _ = space (tables ++ [table]) := by simp [space]
    · rw [unpackChars_concat, Nat.mul_add_mod_of_lt hsize, Nat.mul_comm, Nat.mul_add_div (by omega),
        Nat.div_eq_of_lt hsize, Nat.add_zero, htext, hchar]

/-- The number of a text that has been read from one. -/
theorem packChars_unpackChars (tables : List CharTable) (n : ℕ) :
    packChars tables (unpackChars tables n) = some (n % space tables) := by
  induction tables using List.reverseRecOn generalizing n with
  | nil => rw [space, List.map_nil, List.prod_nil, Nat.mod_one]; rfl
  | append_singleton tables table ih =>
    have hsize : 0 < table.size := by cases table <;> decide
    rw [unpackChars_concat, packChars_concat (length_unpackChars tables _).symm, ih,
      nchar_charn table (Nat.mod_lt n hsize)]
    have hspace : space (tables ++ [table]) = table.size * space tables := by
      simp [space, Nat.mul_comm]
    rw [hspace, Nat.mod_mul, Nat.add_comm, Nat.mul_comm table.size]
    rfl

/-- Every character of a text that has a number is in one of the tables. -/
theorem exists_nchar_of_packChars {tables : List CharTable} {text : List Char} {n : ℕ}
    (hlen : tables.length = text.length) (h : packChars tables text = some n) {c : Char}
    (hc : c ∈ text) : ∃ table ∈ tables, ∃ k, nchar c table = some k := by
  induction tables using List.reverseRecOn generalizing text n with
  | nil =>
    obtain rfl := List.length_eq_zero_iff.1 hlen.symm
    cases hc
  | append_singleton tables table ih =>
    obtain ⟨text, d, rfl, hfront⟩ := exists_concat_of_length hlen
    rw [packChars_concat hfront] at h
    obtain ⟨m, hm, hn⟩ := Option.bind_eq_some_iff.1 h
    obtain ⟨k, hk, -⟩ := Option.map_eq_some_iff.1 hn
    rcases List.mem_append.1 hc with hc | hc
    · obtain ⟨t, ht, j, hj⟩ := ih hfront hm hc
      exact ⟨t, List.mem_append_left _ ht, j, hj⟩
    · obtain rfl := List.mem_singleton.1 hc
      exact ⟨table, by simp, k, hk⟩

/-- A text of characters of one table has a number. -/
theorem isSome_packChars_replicate {table : CharTable} {text : List Char}
    (h : ∀ c ∈ text, (nchar c table).isSome) :
    (packChars (List.replicate text.length table) text).isSome := by
  induction text using List.reverseRecOn with
  | nil => rfl
  | append_singleton text c ih =>
    obtain ⟨n, hn⟩ := Option.isSome_iff_exists.1 (ih fun d hd => h d (List.mem_append_left _ hd))
    obtain ⟨k, hk⟩ := Option.isSome_iff_exists.1 (h c (by simp))
    rw [List.length_append, List.length_singleton, List.replicate_succ',
      packChars_concat List.length_replicate, hn, Option.bind_some, hk]
    rfl

end GranolaSdr.Ft8
