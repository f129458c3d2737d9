import GranolaSdr.Ft8.CallsignTable
import GranolaSdr.Ft8.Text

/-!
# Callsigns in FT8 messages

How `src/ft8_lib/ft8/message.c` packs a callsign into 28 bits and a flag: one of three words, six
characters of a standard callsign, or the hash of any other one. The functions get a store of
callsigns as an interface, and its state.

## Main definitions

* `HashInterface`, `save_callsign`, `lookup_callsign`: the store and its hashes;
* `pack28`, `unpack28`: a callsign in 28 bits and a flag;
* `pack58`, `unpack58`: a callsign in 58 bits;
* `Plain`: the words and the standard callsigns whose six characters mean no other one.

## Main results

* `unpack28_iff`: the plain callsigns are read back, and no others.
-/

namespace GranolaSdr.Ft8

/-- Where callsigns are looked up and saved. -/
structure HashInterface (σ : Type*) where
  lookup_hash : ftx_callsign_hash_type_t → ℕ → σ → Option (List Char)
  save_hash : List Char → ℕ → σ → σ

namespace HashInterface

/-- No interface. -/
def null : HashInterface Unit := ⟨fun _ _ _ => none, fun _ _ s => s⟩

/-- The hash table of the receiver. -/
def table : HashInterface HashTable := ⟨hashtable_lookup, hashtable_add⟩

end HashInterface

/-- The number of words and of numbers and letters after `CQ`, and of values that are free. -/
def NTOKENS : ℕ := 2063592

/-- The number of hashes. -/
def MAX22 : ℕ := 4194304

/-- The number of the first eleven characters, with blanks behind them. -/
def callsign58 (callsign : List Char) : Option ℕ :=
  let c11 := callsign.take 11
  (packChars (List.replicate c11.length .alphanumSpaceSlash) c11).map (· * 38 ^ (11 - c11.length))

/-- The hash of 22 bits. Its leading bits are the shorter ones. -/
def hash22 (n58 : ℕ) : ℕ := (47055833459 * n58 % 2 ^ 64) >>> (64 - 22) &&& 0x3FFFFF

section Pack

variable {σ : Type*} (hash_if : HashInterface σ)

def save_callsign (callsign : List Char) (s : σ) : Option ℕ × σ :=
  match callsign58 callsign with
  | none => (none, s)
  | some n58 => (some (hash22 n58), hash_if.save_hash callsign (hash22 n58) s)

def add_brackets (original : List Char) : List Char := '<' :: original ++ ['>']

def lookup_callsign (hash_type : ftx_callsign_hash_type_t) (hash : ℕ) (s : σ) : List Char :=
  match hash_if.lookup_hash hash_type hash s with
  | none => ['<', '.', '.', '.', '>']
  | some c11 => add_brackets c11

/-- The alphabets of the six characters. -/
def basecallTables : List CharTable :=
  [.alphanumSpace, .alphanum, .numeric, .lettersSpace, .lettersSpace, .lettersSpace]

/-- A buffer of six characters, blanks at first, with a string copied into it. -/
def fill6 (s : List Char) : List Char := (s ++ List.replicate 6 ' ').take 6

/-- The six characters of a callsign. -/
def basecall6 (callsign : List Char) (length : ℕ) : List Char :=
  if starts_with callsign ['3', 'D', 'A', '0'] ∧ 4 < length ∧ length ≤ 7 then
    fill6 (['3', 'D', '0'] ++ (callsign.take length).drop 4)
  else if starts_with callsign ['3', 'X'] ∧ is_letter (charAt callsign 2) ∧ length ≤ 7 then
    fill6 ('Q' :: (callsign.take length).drop 2)
  else if is_digit (charAt callsign 2) ∧ length ≤ 6 then fill6 (callsign.take length)
  else if is_digit (charAt callsign 1) ∧ length ≤ 5 then fill6 (' ' :: callsign.take length)
  else fill6 []

def pack_basecall (callsign : List Char) (length : ℕ) : Option ℕ :=
  if 2 < length then packChars basecallTables (basecall6 callsign length) else none

/-- A suffix that has a flag. -/
def hasSuffix (callsign : List Char) : Bool :=
  ends_with callsign ['/', 'P'] || ends_with callsign ['/', 'R']

/-- The length without the suffix. -/
def length_base (callsign : List Char) : ℕ :=
  if hasSuffix callsign then callsign.length - 2 else callsign.length

/-- The 28 bits and the flag. -/
def pack28 (callsign : List Char) (s : σ) : Option (ℕ × Bool) × σ :=
  if callsign = ['D', 'E'] then (some (0, false), s)
  else if callsign = ['Q', 'R', 'Z'] then (some (1, false), s)
  else if callsign = ['C', 'Q'] then (some (2, false), s)
  else if starts_with callsign ['C', 'Q', '_'] ∧ callsign.length < 8 then (none, s)
  else
    match pack_basecall callsign (length_base callsign) with
    | some n28 =>
      let (saved, s) := save_callsign hash_if callsign s
      (saved.map fun _ => (NTOKENS + MAX22 + n28, hasSuffix callsign), s)
    | none =>
      if 3 ≤ callsign.length ∧ callsign.length ≤ 11 then
        let (saved, s) := save_callsign hash_if callsign s
        (saved.map fun n22 => (NTOKENS + n22, false), s)
      else (none, s)

/-- The callsign with these six characters. -/
def basecallText (callsign : List Char) : List Char :=
  if starts_with callsign ['3', 'D', '0'] ∧ charAt callsign 3 ≠ ' ' then
    ['3', 'D', 'A', '0'] ++ trim_copy (callsign.drop 3)
  else if charAt callsign 0 = 'Q' ∧ is_letter (charAt callsign 1) then
    ['3', 'X'] ++ trim_copy (callsign.drop 1)
  else trim_copy callsign

/-- The suffix that the flag stands for, which depends on the type of the message. -/
def suffix (ip : Bool) (i3 : ℕ) : Option (List Char) :=
  if ip then
    if i3 = 1 then some ['/', 'R'] else if i3 = 2 then some ['/', 'P'] else none
  else some []

/-- A standard callsign with its suffix, if it is not too short. -/
def appendSuffix (result : List Char) (ip : Bool) (i3 : ℕ) (s : σ) : Option (List Char) × σ :=
  if result.length < 3 then (none, s)
  else
    match suffix ip i3 with
    | none => (none, s)
    | some suffix => (some (result ++ suffix), (save_callsign hash_if (result ++ suffix) s).2)

/-- The word that is not a callsign, and a number or letters behind `CQ`. -/
def tokenText (n28 : ℕ) : Option (List Char) :=
  if n28 = 0 then some ['D', 'E']
  else if n28 = 1 then some ['Q', 'R', 'Z']
  else if n28 = 2 then some ['C', 'Q']
  else if n28 ≤ 1002 then some (['C', 'Q', ' '] ++ int_to_dd (n28 - 3) 3 false)
  else if n28 ≤ 532443 then
    let aaaa := unpackChars (List.replicate 4 .lettersSpace) (n28 - 1003)
    some (['C', 'Q', ' '] ++ aaaa.dropWhile (· = ' '))
  else none

/-- The callsign, if there is one with these bits. -/
def unpack28 (n28 : ℕ) (ip : Bool) (i3 : ℕ) (s : σ) : Option (List Char) × σ :=
  if n28 < NTOKENS then (tokenText n28, s)
  else if n28 - NTOKENS < MAX22 then
    (some (lookup_callsign hash_if .FTX_CALLSIGN_HASH_22_BITS (n28 - NTOKENS) s), s)
  else
    appendSuffix hash_if (basecallText (unpackChars basecallTables (n28 - NTOKENS - MAX22))) ip i3 s

/-- The number of a callsign that may begin with a bracket. -/
def pack58 (callsign : List Char) (s : σ) : Option ℕ × σ :=
  let src := if charAt callsign 0 = '<' then callsign.drop 1 else callsign
  let c11 := (src.takeWhile (· ≠ '<')).take 11
  match packChars (List.replicate c11.length .alphanumSpaceSlash) c11 with
  | none => (none, s)
  | some n58 =>
    let (saved, s) := save_callsign hash_if c11 s
    (saved.map fun _ => n58, s)

def unpack58 (n58 : ℕ) (s : σ) : List Char × σ :=
  let callsign := trim_copy (unpackChars (List.replicate 11 .alphanumSpaceSlash) n58)
  (callsign, if 3 ≤ callsign.length then (save_callsign hash_if callsign s).2 else s)

end Pack

/-! ## Standard callsigns -/

/-- The callsigns whose six characters stand for others. -/
def Alias (base : List Char) : Prop :=
  starts_with base ['3', 'D', '0'] = true ∧ 3 < base.length ∨
    charAt base 0 = 'Q' ∧ is_letter (charAt base 1) = true

theorem fill6_eq {s : List Char} (h : s.length ≤ 6) :
    fill6 s = s ++ List.replicate (6 - s.length) ' ' := by
  rw [fill6, List.take_append, List.take_of_length_le h, List.take_replicate,
    Nat.min_eq_left (by omega)]

theorem length_basecall6 (callsign : List Char) (length : ℕ) :
    (basecall6 callsign length).length = 6 := by
  have hfill : ∀ s, (fill6 s).length = 6 := by
    intro s
    rw [fill6, List.length_take, List.length_append, List.length_replicate]
    omega
  unfold basecall6
  split_ifs <;> exact hfill _

/-- The digit and the letters cannot be blank. -/
theorem packChars_fill6_nil : packChars basecallTables (fill6 []) = none := by decide

/-- A digit is no letter. -/
theorem is_letter_of_is_digit {c : Char} (h : is_digit c = true) : is_letter c = false := by
  have hle : c.toNat ≤ '9'.toNat := of_decide_eq_true (Bool.and_eq_true_iff.1 h).2
  have hupper : ¬ 'A' ≤ c := fun hc => absurd (hle.trans' hc) (by decide)
  have hlower : ¬ 'a' ≤ c := fun hc => absurd (hle.trans' hc) (by decide)
  rw [is_letter, decide_eq_false hupper, decide_eq_false hlower]
  rfl

/-- Blanks behind a string are trimmed. -/
theorem trim_copy_append {s : List Char} (h : ' ' ∉ s) (back : ℕ) :
    trim_copy (s ++ List.replicate back ' ') = s :=
  (trim_copy_pad s 0 back).trans (trim_copy_of_notMem h)

theorem basecallText_swazi {t : List Char} (hblank : ' ' ∉ t) (hne : t ≠ []) (hlen : t.length ≤ 3) :
    basecallText (fill6 (['3', 'D', '0'] ++ t)) = ['3', 'D', 'A', '0'] ++ t := by
  obtain ⟨c, r, rfl⟩ := List.exists_cons_of_ne_nil hne
  have hc : c ≠ ' ' := fun hc => hblank (hc ▸ List.mem_cons_self)
  have hlen' : (['3', 'D', '0'] ++ c :: r).length ≤ 6 := by
    rw [List.length_append]
    exact Nat.add_le_add_left hlen 3
  rw [fill6_eq hlen', basecallText, if_pos ⟨rfl, hc⟩]
  exact congrArg _ (trim_copy_append hblank _)

theorem basecallText_guinea {t : List Char} (hblank : ' ' ∉ t)
    (hletter : is_letter (charAt t 0) = true) (hlen : t.length ≤ 5) :
    basecallText (fill6 ('Q' :: t)) = ['3', 'X'] ++ t := by
  have hne : t ≠ [] := by
    rintro rfl
    exact absurd hletter (by decide)
  obtain ⟨c, r, rfl⟩ := List.exists_cons_of_ne_nil hne
  have hlen' : ('Q' :: c :: r).length ≤ 6 := Nat.succ_le_succ hlen
  have hfirst : ¬ (starts_with ('Q' :: c :: r ++ List.replicate (6 - ('Q' :: c :: r).length) ' ')
      ['3', 'D', '0'] = true ∧ charAt ('Q' :: c :: r ++
        List.replicate (6 - ('Q' :: c :: r).length) ' ') 3 ≠ ' ') := by
    rintro ⟨hstart, -⟩
    cases hstart
  rw [fill6_eq hlen', basecallText, if_neg hfirst, if_pos ⟨rfl, hletter⟩]
  exact congrArg _ (trim_copy_append hblank _)

theorem basecallText_short {s : List Char} (hblank : ' ' ∉ s) (hlen : s.length ≤ 5) :
    basecallText (fill6 (' ' :: s)) = s := by
  have hlen' : (' ' :: s).length ≤ 6 := Nat.succ_le_succ hlen
  rw [fill6_eq hlen', basecallText, if_neg (by rintro ⟨hstart, -⟩; cases hstart),
    if_neg (by rintro ⟨hstart, -⟩; cases hstart)]
  exact (trim_copy_pad s 1 _).trans (trim_copy_of_notMem hblank)

theorem basecallText_fill6_iff {s : List Char} (hblank : ' ' ∉ s) (hlow : 2 < s.length)
    (hlen : s.length ≤ 6) : basecallText (fill6 s) = s ↔ ¬ Alias s := by
  have htrim : trim_copy (fill6 s) = s := by
    rw [fill6_eq hlen]
    exact trim_copy_append hblank _
  obtain ⟨blanks, hblanks⟩ : ∃ k, fill6 s = s ++ List.replicate k ' ' := ⟨_, fill6_eq hlen⟩
  match s with
  | a :: b :: c :: r =>
    by_cases hswazi : starts_with (a :: b :: c :: r) ['3', 'D', '0'] = true
    · -- Swaziland: three characters are not changed, more of them are read with an A
      cases r with
      | nil =>
        have hthird : charAt (fill6 [a, b, c]) 3 = ' ' := rfl
        have hfirst : charAt [a, b, c] 0 ≠ 'Q' := by
          rintro rfl
          cases hswazi
        rw [basecallText, if_neg (fun h => h.2 hthird), if_neg (fun h => hfirst h.1), htrim]
        refine iff_of_true rfl ?_
        rintro (⟨-, hlong⟩ | ⟨hq, -⟩)
        · exact absurd hlong (by simp)
        · exact hfirst hq
      | cons d r =>
        have hd : d ≠ ' ' := by
          rintro rfl
          exact hblank (by simp)
        have hc : c = '0' := by
          obtain ⟨t, ht⟩ := List.isPrefixOf_iff_prefix.1 hswazi
          injection ht with _ ht
          injection ht with _ ht
          injection ht with ht
          exact ht.symm
        rw [basecallText, hblanks, if_pos ⟨hswazi, hd⟩]
        refine iff_of_false (fun h => ?_) (not_not.2 (Or.inl ⟨hswazi, by simp⟩))
        injection h with _ h
        injection h with _ h
        injection h with h
        rw [hc] at h
        cases h
    · -- blanks behind the callsign do not change how it starts
      have hstart : starts_with (fill6 (a :: b :: c :: r)) ['3', 'D', '0'] =
          starts_with (a :: b :: c :: r) ['3', 'D', '0'] := by
        rw [hblanks]
        rfl
      have hzero : charAt (fill6 (a :: b :: c :: r)) 0 = charAt (a :: b :: c :: r) 0 := by
        rw [hblanks]
        rfl
      have hone : charAt (fill6 (a :: b :: c :: r)) 1 = charAt (a :: b :: c :: r) 1 := by
        rw [hblanks]
        rfl
      rw [basecallText, if_neg (fun h => hswazi (hstart.symm.trans h.1)), hzero, hone]
      by_cases hguinea : charAt (a :: b :: c :: r) 0 = 'Q' ∧
          is_letter (charAt (a :: b :: c :: r) 1) = true
      · -- Guinea: the Q is read as 3X
        rw [if_pos hguinea]
        refine iff_of_false (fun h => ?_) (not_not.2 (Or.inr hguinea))
        injection h with h
        exact absurd (h.trans hguinea.1) (by decide)
      · rw [if_neg hguinea, htrim]
        exact iff_of_true rfl (not_or.2 ⟨fun h => hswazi h.1, hguinea⟩)

/-- What the six characters of a callsign are read as. -/
theorem basecallText_basecall6 {base : List Char} {n : ℕ} (hblank : ' ' ∉ base)
    (h : pack_basecall base base.length = some n) :
    basecallText (basecall6 base base.length) = base ↔ ¬ Alias base := by
  unfold pack_basecall at h
  split_ifs at h with hlen
  have hsix := h
  unfold basecall6 at hsix ⊢
  rw [List.take_length] at hsix ⊢
  split_ifs at hsix ⊢ with hswazi hguinea htwo hone
  · -- Swaziland: the A that was left out is read again
    obtain ⟨hstart, hlow, hhigh⟩ := hswazi
    obtain ⟨t, rfl⟩ := List.isPrefixOf_iff_prefix.1 hstart
    rw [List.length_append] at hlow hhigh
    have hdrop : (['3', 'D', 'A', '0'] ++ t).drop 4 = t := rfl
    have hne : t ≠ [] := List.ne_nil_of_length_pos (Nat.lt_of_add_lt_add_left hlow)
    rw [hdrop, basecallText_swazi (fun ht => hblank (List.mem_append_right _ ht)) hne
      (Nat.le_of_add_le_add_left hhigh)]
    refine iff_of_true rfl ?_
    rintro (⟨hstart, -⟩ | ⟨hq, -⟩)
    · cases hstart
    · cases hq
  · -- Guinea: the Q is read as 3X again
    obtain ⟨hstart, hletter, hhigh⟩ := hguinea
    obtain ⟨t, rfl⟩ := List.isPrefixOf_iff_prefix.1 hstart
    rw [List.length_append] at hhigh
    have hdrop : (['3', 'X'] ++ t).drop 2 = t := rfl
    rw [hdrop, basecallText_guinea (fun ht => hblank (List.mem_append_right _ ht)) hletter
      (Nat.le_of_add_le_add_left hhigh)]
    refine iff_of_true rfl ?_
    rintro (⟨hstart, -⟩ | ⟨hq, -⟩)
    · cases hstart
    · cases hq
  · exact basecallText_fill6_iff hblank hlen htwo.2
  · -- a blank in front, which is trimmed
    rw [basecallText_short hblank hone.2]
    refine iff_of_true rfl ?_
    rintro (⟨hstart, -⟩ | ⟨-, hletter⟩)
    · obtain ⟨t, rfl⟩ := List.isPrefixOf_iff_prefix.1 hstart
      exact absurd hone.1 (show ¬ is_digit 'D' = true by decide)
    · rw [is_letter_of_is_digit hone.1] at hletter
      cases hletter
  · rw [packChars_fill6_nil] at hsix
    cases hsix

/-- A character in front of the length is one of the characters taken. -/
theorem charAt_append_left {base rest : List Char} {i : ℕ} (h : i < base.length) :
    charAt (base ++ rest) i = charAt base i := List.getD_append base rest _ i h

theorem starts_with_append {base rest pre : List Char} (h : pre.length ≤ base.length) :
    starts_with (base ++ rest) pre = starts_with base pre := by
  have hiff : pre <+: base ++ rest ↔ pre <+: base := by
    constructor
    · intro hpre
      exact List.prefix_of_prefix_length_le hpre (List.prefix_append base rest) h
    · intro hpre
      exact hpre.trans (List.prefix_append base rest)
  rw [starts_with, starts_with, Bool.eq_iff_iff, List.isPrefixOf_iff_prefix,
    List.isPrefixOf_iff_prefix, hiff]

/-- A callsign is packed by the characters within its length. -/
theorem pack_basecall_append (base rest : List Char) :
    pack_basecall (base ++ rest) base.length = pack_basecall base base.length := by
  unfold pack_basecall
  by_cases hlow : 2 < base.length
  · rw [if_pos hlow, if_pos hlow]
    have hfour : starts_with (base ++ rest) ['3', 'D', 'A', '0'] ∧ 4 < base.length ∧
        base.length ≤ 7 ↔ starts_with base ['3', 'D', 'A', '0'] ∧ 4 < base.length ∧
          base.length ≤ 7 := by
      refine and_congr_left fun h => ?_
      rw [starts_with_append (show ['3', 'D', 'A', '0'].length ≤ base.length from h.1.le)]
    have hguinea : starts_with (base ++ rest) ['3', 'X'] = starts_with base ['3', 'X'] :=
      starts_with_append hlow.le
    have hone : charAt (base ++ rest) 1 = charAt base 1 :=
      charAt_append_left (Nat.one_lt_two.trans hlow)
    simp only [basecall6, hfour, hguinea, hone, charAt_append_left hlow, List.take_left,
      List.take_length]
  · rw [if_neg hlow, if_neg hlow]

/-- A callsign is its base and a suffix. -/
theorem exists_base (callsign : List Char) :
    ∃ base rest, callsign = base ++ rest ∧ length_base callsign = base.length ∧
      (hasSuffix callsign = false ∧ rest = [] ∨
        hasSuffix callsign = true ∧ (rest = ['/', 'P'] ∨ rest = ['/', 'R'])) := by
  unfold length_base
  by_cases hP : ends_with callsign ['/', 'P'] = true
  · obtain ⟨base, rfl⟩ := List.isSuffixOf_iff_suffix.1 hP
    have hsuffix : hasSuffix (base ++ ['/', 'P']) = true := by rw [hasSuffix, hP, Bool.true_or]
    exact ⟨base, _, rfl, by rw [if_pos hsuffix, List.length_append]; rfl,
      Or.inr ⟨hsuffix, Or.inl rfl⟩⟩
  · by_cases hR : ends_with callsign ['/', 'R'] = true
    · obtain ⟨base, rfl⟩ := List.isSuffixOf_iff_suffix.1 hR
      have hsuffix : hasSuffix (base ++ ['/', 'R']) = true := by rw [hasSuffix, hR, Bool.or_true]
      exact ⟨base, _, rfl, by rw [if_pos hsuffix, List.length_append]; rfl,
        Or.inr ⟨hsuffix, Or.inr rfl⟩⟩
    · have hsuffix : hasSuffix callsign = false := by
        rw [hasSuffix, Bool.eq_false_iff.2 hP, Bool.eq_false_iff.2 hR]
        rfl
      exact ⟨callsign, [], (List.append_nil _).symm, by rw [hsuffix]; rfl, Or.inl ⟨hsuffix, rfl⟩⟩

/-- The three words, and the callsigns whose six characters stand for no other one. -/
def Plain (callsign : List Char) : Prop :=
  callsign = ['D', 'E'] ∨ callsign = ['Q', 'R', 'Z'] ∨ callsign = ['C', 'Q'] ∨
    (pack_basecall callsign (length_base callsign)).isSome = true ∧
      ¬ Alias (callsign.take (length_base callsign))

/-- The alphabets of the six characters are part of the one of all callsigns. -/
theorem isSome_nchar_of_basecall {table : CharTable} (htable : table ∈ basecallTables) {c : Char}
    {k : ℕ} (h : nchar c table = some k) : (nchar c .alphanumSpaceSlash).isSome := by
  have hall : ∀ table ∈ basecallTables, ∀ k < table.size,
      (nchar (charn k table) .alphanumSpaceSlash).isSome := by decide
  obtain ⟨hlt, rfl⟩ := charn_of_nchar h
  exact hall table htable k hlt

/-- The characters of a standard callsign. -/
theorem isSome_nchar_of_pack_basecall {base : List Char} {n : ℕ}
    (h : pack_basecall base base.length = some n) :
    base.length ≤ 7 ∧ ∀ c ∈ base, (nchar c .alphanumSpaceSlash).isSome := by
  unfold pack_basecall at h
  split_ifs at h with hlow
  -- all six characters were found in the alphabets of their places
  have hmem : ∀ c ∈ basecall6 base base.length, (nchar c .alphanumSpaceSlash).isSome := by
    intro c hc
    have hlen : basecallTables.length = (basecall6 base base.length).length :=
      (length_basecall6 base base.length).symm
    obtain ⟨table, htable, k, hk⟩ := exists_nchar_of_packChars hlen h hc
    exact isSome_nchar_of_basecall htable hk
  have hfill : ∀ s : List Char, s.length ≤ 6 → ∀ c ∈ s, c ∈ fill6 s := by
    intro s hs c hc
    rw [fill6_eq hs]
    exact List.mem_append_left _ hc
  -- how the six characters come from the callsign decides which of them these are
  have hnil := h
  unfold basecall6 at hmem hnil
  rw [List.take_length] at hmem hnil
  split_ifs at hmem hnil with hswazi hguinea htwo hone
  · obtain ⟨hstart, hlow, hhigh⟩ := hswazi
    obtain ⟨t, rfl⟩ := List.isPrefixOf_iff_prefix.1 hstart
    rw [List.length_append] at hhigh
    refine ⟨by rwa [List.length_append], fun c hc => ?_⟩
    rcases List.mem_append.1 hc with hc | hc
    · have hall : ['3', 'D', 'A', '0'].all (fun c => (nchar c .alphanumSpaceSlash).isSome) := by
        decide
      exact List.all_eq_true.1 hall c hc
    · have ht : (['3', 'D', '0'] ++ t).length ≤ 6 := by
        rw [List.length_append]
        have hhigh : 4 + t.length ≤ 7 := hhigh
        change 3 + t.length ≤ 6
        omega
      exact hmem c (hfill _ ht c (List.mem_append_right _ hc))
  · obtain ⟨hstart, -, hhigh⟩ := hguinea
    obtain ⟨t, rfl⟩ := List.isPrefixOf_iff_prefix.1 hstart
    rw [List.length_append] at hhigh
    refine ⟨by rwa [List.length_append], fun c hc => ?_⟩
    rcases List.mem_append.1 hc with hc | hc
    · have hall : ['3', 'X'].all (fun c => (nchar c .alphanumSpaceSlash).isSome) := by decide
      exact List.all_eq_true.1 hall c hc
    · have ht : ('Q' :: t).length ≤ 6 := by
        rw [List.length_cons]
        have hhigh : 2 + t.length ≤ 7 := hhigh
        omega
      exact hmem c (hfill _ ht c (List.mem_cons_of_mem _ hc))
  · exact ⟨htwo.2.trans (by decide), fun c hc => hmem c (hfill _ htwo.2 c hc)⟩
  · have hlen : (' ' :: base).length ≤ 6 := Nat.succ_le_succ hone.2
    exact ⟨hone.2.trans (by decide), fun c hc =>
      hmem c (hfill _ hlen c (List.mem_cons_of_mem _ hc))⟩
  · rw [packChars_fill6_nil] at hnil
    cases hnil

/-- A standard callsign is not too long, and it has a hash. -/
theorem isSome_callsign58_of_standard {callsign : List Char} {n : ℕ}
    (h : pack_basecall callsign (length_base callsign) = some n) :
    (callsign58 callsign).isSome ∧ callsign.length ≤ 9 := by
  obtain ⟨base, rest, rfl, hlength, hrest⟩ := exists_base callsign
  rw [hlength, pack_basecall_append] at h
  obtain ⟨hbase, hchars⟩ := isSome_nchar_of_pack_basecall h
  have hlen : rest.length ≤ 2 ∧ rest.all (fun c => (nchar c .alphanumSpaceSlash).isSome) := by
    rcases hrest with ⟨-, rfl⟩ | ⟨-, rfl | rfl⟩ <;> decide
  have hnine : (base ++ rest).length ≤ 9 := by
    rw [List.length_append]
    exact Nat.add_le_add hbase hlen.1
  refine ⟨?_, hnine⟩
  have hall : ∀ c ∈ base ++ rest, (nchar c .alphanumSpaceSlash).isSome := by
    intro c hc
    exact (List.mem_append.1 hc).elim (hchars c) (List.all_eq_true.1 hlen.2 c)
  rw [callsign58, List.take_of_length_le (hnine.trans (by decide)), Option.isSome_map]
  exact isSome_packChars_replicate hall

/-- A callsign that has a hash does not begin with a bracket. -/
theorem head?_ne_of_callsign58 {callsign : List Char} {n58 : ℕ}
    (h : callsign58 callsign = some n58) : callsign.head? ≠ some '<' := by
  intro hhead
  obtain ⟨t, rfl⟩ := List.head?_eq_some_iff.1 hhead
  have htake : ('<' :: t).take 11 = '<' :: t.take 10 := rfl
  rw [callsign58, htake] at h
  obtain ⟨n, hn, -⟩ := Option.map_eq_some_iff.1 h
  obtain ⟨table, htable, k, hk⟩ :=
    exists_nchar_of_packChars List.length_replicate hn List.mem_cons_self
  rw [List.eq_of_mem_replicate htable] at hk
  have hnone : nchar '<' .alphanumSpaceSlash = none := by decide
  rw [hnone] at hk
  cases hk

/-- A standard callsign is plain if its six characters stand for no other one. -/
theorem plain_iff_of_standard {callsign : List Char} {n : ℕ}
    (h : pack_basecall callsign (length_base callsign) = some n) :
    Plain callsign ↔ ¬ Alias (callsign.take (length_base callsign)) := by
  constructor
  · rintro (rfl | rfl | rfl | ⟨-, halias⟩)
    · cases h
    · cases h
    · cases h
    · exact halias
  · exact fun halias => Or.inr (Or.inr (Or.inr ⟨h ▸ rfl, halias⟩))

/-- The number of a standard callsign. -/
theorem pack_basecall_lt {callsign : List Char} {length n : ℕ}
    (h : pack_basecall callsign length = some n) :
    n < 262177560 ∧ unpackChars basecallTables n = basecall6 callsign length := by
  unfold pack_basecall at h
  split_ifs at h
  have hlen : basecallTables.length = (basecall6 callsign length).length :=
    (length_basecall6 callsign length).symm
  exact unpackChars_of_packChars hlen h

theorem hash22_lt_max (n58 : ℕ) : hash22 n58 < MAX22 :=
  Nat.and_lt_two_pow (n := 22) _ (by decide)

theorem save_callsign_fst {σ : Type*} (hash_if : HashInterface σ) (callsign : List Char) (s : σ) :
    (save_callsign hash_if callsign s).1 = (callsign58 callsign).map hash22 := by
  unfold save_callsign
  cases callsign58 callsign <;> rfl

/-! ## Packed and unpacked callsigns -/

section RoundTrip

variable {σ τ : Type*} {hash_if : HashInterface σ}

/-- The ways in which a callsign is packed. -/
theorem pack28_eq_some {callsign : List Char} {s : σ} {n28 : ℕ} {ip : Bool}
    (h : (pack28 hash_if callsign s).1 = some (n28, ip)) :
    (ip = false ∧ (n28 = 0 ∧ callsign = ['D', 'E'] ∨ n28 = 1 ∧ callsign = ['Q', 'R', 'Z'] ∨
      n28 = 2 ∧ callsign = ['C', 'Q'])) ∨
    (∃ n, pack_basecall callsign (length_base callsign) = some n ∧ n28 = NTOKENS + MAX22 + n ∧
      ip = hasSuffix callsign) ∨
    (∃ n58, ¬ Plain callsign ∧ 3 ≤ callsign.length ∧ callsign.length ≤ 11 ∧
      callsign58 callsign = some n58 ∧ n28 = NTOKENS + hash22 n58 ∧ ip = false) := by
  unfold pack28 at h
  by_cases hDE : callsign = ['D', 'E']
  · rw [if_pos hDE] at h
    cases h
    exact Or.inl ⟨rfl, Or.inl ⟨rfl, hDE⟩⟩
  by_cases hQRZ : callsign = ['Q', 'R', 'Z']
  · rw [if_neg hDE, if_pos hQRZ] at h
    cases h
    exact Or.inl ⟨rfl, Or.inr (Or.inl ⟨rfl, hQRZ⟩)⟩
  by_cases hCQ : callsign = ['C', 'Q']
  · rw [if_neg hDE, if_neg hQRZ, if_pos hCQ] at h
    cases h
    exact Or.inl ⟨rfl, Or.inr (Or.inr ⟨rfl, hCQ⟩)⟩
  rw [if_neg hDE, if_neg hQRZ, if_neg hCQ] at h
  -- a call with a word behind the CQ is not packed
  by_cases hword : starts_with callsign ['C', 'Q', '_'] = true ∧ callsign.length < 8
  · rw [if_pos hword] at h
    cases h
  rw [if_neg hword] at h
  refine Or.inr ?_
  cases hpack : pack_basecall callsign (length_base callsign) with
  | some n =>
    -- a standard callsign is packed if it can be stored
    rw [hpack] at h
    change (save_callsign hash_if callsign s).1.map _ = _ at h
    rw [save_callsign_fst, Option.map_map] at h
    obtain ⟨n58, -, hn⟩ := Option.map_eq_some_iff.1 h
    cases hn
    exact Or.inl ⟨n, rfl, rfl, rfl⟩
  | none =>
    rw [hpack] at h
    -- any other one is sent as a hash, unless its length is wrong
    dsimp only at h
    split_ifs at h with hlen
    change (save_callsign hash_if callsign s).1.map _ = _ at h
    rw [save_callsign_fst, Option.map_map] at h
    obtain ⟨n58, hn58, hn⟩ := Option.map_eq_some_iff.1 h
    cases hn
    have hplain : ¬ Plain callsign := by
      rintro (hplain | hplain | hplain | ⟨hplain, -⟩)
      · exact hDE hplain
      · exact hQRZ hplain
      · exact hCQ hplain
      · rw [hpack] at hplain
        cases hplain
    exact Or.inr ⟨n58, hplain, hlen.1, hlen.2, hn58, rfl, rfl⟩

/-- What begins like numbers or letters after `CQ` is no standard callsign. -/
theorem pack_basecall_CQ {callsign : List Char} (h : starts_with callsign ['C', 'Q', '_'] = true)
    (length : ℕ) : pack_basecall callsign length = none := by
  obtain ⟨t, rfl⟩ := List.isPrefixOf_iff_prefix.1 h
  unfold pack_basecall
  by_cases hlen : 2 < length
  · rw [if_pos hlen, basecall6, if_neg (fun h => by cases h.1), if_neg (fun h => by cases h.1),
      if_neg (fun h => by cases h.1), if_neg (fun h => by cases h.1), packChars_fill6_nil]
  · rw [if_neg hlen]

/-- Plain callsigns are packed. -/
theorem exists_pack28_of_plain (hash_if : HashInterface σ) {callsign : List Char}
    (h : Plain callsign) (s : σ) :
    ∃ n28 ip, (pack28 hash_if callsign s).1 = some (n28, ip) := by
  rcases h with rfl | rfl | rfl | ⟨hpack, -⟩
  · exact ⟨0, false, rfl⟩
  · exact ⟨1, false, rfl⟩
  · exact ⟨2, false, rfl⟩
  · obtain ⟨n, hn⟩ := Option.isSome_iff_exists.1 hpack
    obtain ⟨n58, hn58⟩ := Option.isSome_iff_exists.1 (isSome_callsign58_of_standard hn).1
    have hDE : callsign ≠ ['D', 'E'] := by
      rintro rfl
      cases hn
    have hQRZ : callsign ≠ ['Q', 'R', 'Z'] := by
      rintro rfl
      cases hn
    have hCQ : callsign ≠ ['C', 'Q'] := by
      rintro rfl
      cases hn
    have hword : ¬ (starts_with callsign ['C', 'Q', '_'] = true ∧ callsign.length < 8) := by
      rintro ⟨hstart, -⟩
      rw [pack_basecall_CQ hstart] at hn
      cases hn
    refine ⟨NTOKENS + MAX22 + n, hasSuffix callsign, ?_⟩
    rw [pack28, if_neg hDE, if_neg hQRZ, if_neg hCQ, if_neg hword, hn]
    change (save_callsign hash_if callsign s).1.map _ = _
    rw [save_callsign_fst, hn58]
    rfl

/-- The bits fit. -/
theorem pack28_lt {callsign : List Char} {s : σ} {n28 : ℕ} {ip : Bool}
    (h : (pack28 hash_if callsign s).1 = some (n28, ip)) : n28 < 2 ^ 28 := by
  rcases pack28_eq_some h with ⟨-, h⟩ | ⟨n, hpack, rfl, -⟩ | ⟨n58, -, -, -, -, rfl, -⟩
  · omega
  · have hlt := (pack_basecall_lt hpack).1
    unfold NTOKENS MAX22
    omega
  · have hlt := hash22_lt_max n58
    unfold MAX22 at hlt
    unfold NTOKENS
    omega

/-- What is read of the bits of a callsign, if the type of the message agrees with the suffix. -/
theorem unpack28_iff {hash_if' : HashInterface τ} {callsign : List Char} {s : σ} {n28 : ℕ}
    {ip flag : Bool} {i3 : ℕ} (h : (pack28 hash_if callsign s).1 = some (n28, ip))
    (hblank : ' ' ∉ callsign) (hflag : flag = true → hasSuffix callsign = true)
    (hP : ends_with callsign ['/', 'P'] = true → i3 = 2)
    (hR : ends_with callsign ['/', 'R'] = true → i3 = 1) (s' : τ) :
    (unpack28 hash_if' n28 (ip || flag) i3 s').1 = some callsign ↔ Plain callsign := by
  rcases pack28_eq_some h with
    ⟨-, h⟩ | ⟨n, hpack, rfl, rfl⟩ | ⟨n58, hplain, hlow, -, hchars, rfl, -⟩
  · -- the three words
    rcases h with ⟨rfl, rfl⟩ | ⟨rfl, rfl⟩ | ⟨rfl, rfl⟩
    · exact iff_of_true rfl (Or.inl rfl)
    · exact iff_of_true rfl (Or.inr (Or.inl rfl))
    · exact iff_of_true rfl (Or.inr (Or.inr (Or.inl rfl)))
  · -- a standard callsign: its six characters are read, and the suffix is appended
    obtain ⟨base, rest, rfl, hlength, hrest⟩ := exists_base callsign
    have hstandard := hpack
    rw [hlength, pack_basecall_append] at hpack
    have hbase : ' ' ∉ base := fun hb => hblank (List.mem_append_left _ hb)
    have hsix := (pack_basecall_lt hpack).2
    have hplain : Plain (base ++ rest) ↔ ¬ Alias base := by
      rw [plain_iff_of_standard hstandard, hlength, List.take_left]
    have hflag' : (hasSuffix (base ++ rest) || flag) = hasSuffix (base ++ rest) := by
      cases flag with
      | false => exact Bool.or_false _
      | true => rw [hflag rfl, Bool.or_true]
    have hsuffix : suffix (hasSuffix (base ++ rest) || flag) i3 = some rest := by
      rw [hflag']
      rcases hrest with ⟨hno, rfl⟩ | ⟨hyes, rfl | rfl⟩
      · rw [hno]
        rfl
      · rw [hyes, hP (List.isSuffixOf_iff_suffix.2 (List.suffix_append base _))]
        rfl
      · rw [hyes, hR (List.isSuffixOf_iff_suffix.2 (List.suffix_append base _))]
        rfl
    have hlow : 2 < base.length := by
      by_contra hlow
      rw [pack_basecall, if_neg hlow] at hpack
      cases hpack
    -- the number lies above the words and the hashes
    have htoken : ¬ NTOKENS + MAX22 + n < NTOKENS := by omega
    have hhash : ¬ NTOKENS + MAX22 + n - NTOKENS < MAX22 := by omega
    have hindex : NTOKENS + MAX22 + n - NTOKENS - MAX22 = n := by omega
    rw [hplain, ← basecallText_basecall6 hbase hpack, unpack28, if_neg htoken, if_neg hhash, hindex,
      hsix, appendSuffix, hsuffix]
    by_cases hshort : (basecallText (basecall6 base base.length)).length < 3
    · rw [if_pos hshort]
      refine iff_of_false (fun h => by cases h) (fun h => ?_)
      rw [h] at hshort
      exact absurd hlow (Nat.not_lt.2 (Nat.le_of_lt_succ hshort))
    · rw [if_neg hshort]
      exact Option.some_inj.trans (List.append_left_inj rest)
  · -- A hash is read with brackets around the callsign, which no callsign with a hash has.
    have hhash : NTOKENS + hash22 n58 - NTOKENS < MAX22 := by
      rw [Nat.add_sub_cancel_left]
      exact hash22_lt_max n58
    have hbracket := head?_ne_of_callsign58 hchars
    refine iff_of_false (fun hread => ?_) hplain
    rw [unpack28, if_neg (Nat.not_lt.2 (Nat.le_add_right _ _)), if_pos hhash] at hread
    rw [← Option.some.inj hread, lookup_callsign] at hbracket
    split at hbracket
    · exact hbracket rfl
    · exact hbracket rfl

end RoundTrip

end GranolaSdr.Ft8
