import GranolaSdr.Ft8.Message

/-!
# The sender of an FT8 text

The uploader takes the first word of a decoded text that looks like a callsign for the sender. In a
text without `CQ` the first word is the addressee, so a plain callsign there is taken instead.

## Main definitions

* `split`, `isCandidate`, `extract_ft8_sender`: the uploader's search;
* `Token`, `CallToken`: the words a decoded text is made of.

## Main results

* `extract_ft8_sender_iff`: exactly when the search returns the sender.
-/

namespace GranolaSdr.Uploader

open Ft8

/-- The ASCII characters `str.split` splits at. -/
def isspace (c : Char) : Bool :=
  c == ' ' || (9 ≤ c.toNat && c.toNat ≤ 13) || (28 ≤ c.toNat && c.toNat ≤ 31)

/-- `str.split()`: the words between white space. -/
def split (text : List Char) : List (List Char) := (text.splitOnP isspace).filter (· ≠ [])

/-- The keywords that are no callsign. -/
def FT8_SKIP : List (List Char) :=
  [['C', 'Q'], ['D', 'X'], ['D', 'E'], ['Q', 'R', 'Z'], ['T', 'U', ';']]

/-- The test of the search: no keyword, no hashed callsign, and a letter and a digit in it. -/
def isCandidate (word : List Char) : Bool :=
  !(FT8_SKIP.contains word || word.head? == some '<') &&
    (word.any Char.isAlpha && word.any Char.isDigit)

/-- The first word that passes the test, or the empty text. -/
def extract_ft8_sender (text : List Char) : List Char :=
  ((split text).find? isCandidate).getD []

/-- A word of printable ASCII characters. -/
structure Token where
  chars : List Char
  nonempty : chars ≠ []
  graphic : ∀ c ∈ chars, 0x21 ≤ c.toNat ∧ c.toNat ≤ 0x7e

/-- A callsign: a word with a letter and a digit in it. -/
structure CallToken extends Token where
  letter : chars.any Char.isAlpha
  digit : chars.any Char.isDigit

theorem Token.not_isspace (word : Token) {c : Char} (hc : c ∈ word.chars) : isspace c = false := by
  obtain ⟨hlo, -⟩ := word.graphic c hc
  have hne : c ≠ ' ' := by
    rintro rfl
    exact absurd hlo (by decide)
  simp only [isspace, Bool.or_eq_false_iff, beq_eq_false_iff_ne, Bool.and_eq_false_iff,
    decide_eq_false_iff_not]
  exact ⟨⟨hne, by omega⟩, by omega⟩

/-- The first word of a text that starts with one. -/
theorem split_token_append (word : Token) (rest : List Char) :
    split (word.chars ++ [' '] ++ rest) = word.chars :: split rest := by
  rw [split, List.append_assoc, List.singleton_append,
    List.splitOnP_append_cons_of_forall_mem (fun _ => word.not_isspace) ' ' (by decide),
    List.filter_cons_of_pos (by simp [word.nonempty]), split]

/-- A rendered text is split into its fields. -/
theorem split_ftx_message_text (call_to call_de : Token) (extra : List Char) :
    split (ftx_message_text call_to.chars call_de.chars extra) =
      call_to.chars :: call_de.chars :: split extra := by
  have hassoc : ftx_message_text call_to.chars call_de.chars extra =
      call_to.chars ++ [' '] ++ (call_de.chars ++ [' '] ++ extra) := by
    simp [ftx_message_text]
  rw [hassoc, split_token_append, split_token_append]

/-- A callsign passes the test exactly if it is not bracketed. -/
theorem CallToken.isCandidate_iff (call : CallToken) :
    isCandidate call.chars ↔ call.chars.head? ≠ some '<' := by
  have hskip : call.chars ∉ FT8_SKIP := by
    intro hmem
    have hdigits : ∀ word ∈ FT8_SKIP, word.any Char.isDigit = false := by decide
    exact absurd call.digit (by simp [hdigits _ hmem])
  simp [isCandidate, hskip, call.letter, call.digit]

/-- The words the search returns pass the test. -/
theorem isCandidate_of_find? {words : List (List Char)}
    (h : (words.find? isCandidate).getD [] ≠ []) :
    isCandidate ((words.find? isCandidate).getD []) := by
  cases hfind : words.find? isCandidate with
  | none => simp [hfind] at h
  | some word => simpa using List.find?_some hfind

/-- For every addressee, sender and extra field, the search returns the sender exactly if the
sender is not bracketed and the addressee fails the test or is the sender itself. -/
theorem extract_ft8_sender_iff (call_to : Token) (call_de : CallToken) (extra : Extra) :
    extract_ft8_sender (ftx_message_text call_to.chars call_de.chars extra.text) = call_de.chars ↔
      call_de.chars.head? ≠ some '<' ∧
        (isCandidate call_to.chars = false ∨ call_to.chars = call_de.chars) := by
  rw [extract_ft8_sender, split_ftx_message_text call_to call_de.toToken]
  constructor
  · intro h
    have hde : isCandidate call_de.chars := by
      have hne := call_de.nonempty
      rw [← h] at hne ⊢
      exact isCandidate_of_find? hne
    refine ⟨call_de.isCandidate_iff.1 hde, ?_⟩
    cases hto : isCandidate call_to.chars with
    | false => exact Or.inl rfl
    | true => exact Or.inr (by simpa [List.find?_cons, hto] using h)
  · rintro ⟨hbracket, hto⟩
    have hde := call_de.isCandidate_iff.2 hbracket
    rcases hto with hto | hto
    · simp [hto, hde]
    · simp [hto, hde]

/-- A call to all stations is attributed to its sender. -/
theorem extract_ft8_sender_cq :
    extract_ft8_sender (ftx_message_text ['C', 'Q'] ['K', '1', 'A', 'B', 'C']
      (Extra.standard 10342 false).text) = ['K', '1', 'A', 'B', 'C'] :=
  (extract_ft8_sender_iff ⟨['C', 'Q'], by decide, by simp⟩
    ⟨⟨['K', '1', 'A', 'B', 'C'], by decide, by simp⟩, by decide, by decide⟩
    (.standard 10342 false)).2 ⟨by decide, .inl (by decide)⟩

/-- The report `BA6HT 9M8DEN -14` is attributed to its addressee. -/
theorem extract_ft8_sender_addressee :
    (Extra.standard 32421 false).text = "-14".toList ∧
      extract_ft8_sender (ftx_message_text "BA6HT".toList "9M8DEN".toList
        (Extra.standard 32421 false).text) = "BA6HT".toList ∧
      "BA6HT".toList ≠ "9M8DEN".toList := by
  decide +kernel

end GranolaSdr.Uploader
