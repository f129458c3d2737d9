import GranolaSdr.Cw.Callsign
import Mathlib.Data.List.Basic

/-!
# Morse code

The Morse table of `src/gm/hf/cw_morse.cc`, and what the decoder does with the marks and spaces of a
signal once it has told dits from dahs and the three kinds of spaces from each other. A message is
sent as a sequence of such signs, and reading the signs gives the message back.

## Main definitions

* `morseTable`, `Buffer.symbolToChar`, `Buffer.flushSymbol`: the table and its use by the decoder;
* `Letter`, `Word`, `Message`: what can be sent;
* `Message.signs`: the marks and spaces of a message;
* `Buffer.read`: the decoder on signs.

## Main results

* `read_signs`: the message is read from its signs.
-/

namespace GranolaSdr.Cw.Morse

inductive Element where
  | dit
  | dah
  deriving DecidableEq

open Element in
/-- The Morse table. -/
def morseTable : List (List Element × Char) :=
  [([dit, dah], 'A'), ([dah, dit, dit, dit], 'B'), ([dah, dit, dah, dit], 'C'),
   ([dah, dit, dit], 'D'), ([dit], 'E'), ([dit, dit, dah, dit], 'F'), ([dah, dah, dit], 'G'),
   ([dit, dit, dit, dit], 'H'), ([dit, dit], 'I'), ([dit, dah, dah, dah], 'J'),
   ([dah, dit, dah], 'K'), ([dit, dah, dit, dit], 'L'), ([dah, dah], 'M'), ([dah, dit], 'N'),
   ([dah, dah, dah], 'O'), ([dit, dah, dah, dit], 'P'), ([dah, dah, dit, dah], 'Q'),
   ([dit, dah, dit], 'R'), ([dit, dit, dit], 'S'), ([dah], 'T'), ([dit, dit, dah], 'U'),
   ([dit, dit, dit, dah], 'V'), ([dit, dah, dah], 'W'), ([dah, dit, dit, dah], 'X'),
   ([dah, dit, dah, dah], 'Y'), ([dah, dah, dit, dit], 'Z'),
   ([dah, dah, dah, dah, dah], '0'), ([dit, dah, dah, dah, dah], '1'),
   ([dit, dit, dah, dah, dah], '2'), ([dit, dit, dit, dah, dah], '3'),
   ([dit, dit, dit, dit, dah], '4'), ([dit, dit, dit, dit, dit], '5'),
   ([dah, dit, dit, dit, dit], '6'), ([dah, dah, dit, dit, dit], '7'),
   ([dah, dah, dah, dit, dit], '8'), ([dah, dah, dah, dah, dit], '9'),
   ([dah, dit, dit, dah, dit], '/'), ([dah, dit, dit, dit, dah], '='),
   ([dit, dah, dit, dah, dit], '+'), ([dah, dit, dit, dit, dit, dah], '-'),
   ([dit, dah, dit, dah, dit, dah], '.'), ([dah, dah, dit, dit, dah, dah], ','),
   ([dit, dit, dah, dah, dit, dit], '?')]

/-! ## The decoder's buffers -/

/-- The elements of the current character, and the text decoded so far. -/
structure Buffer where
  symbol_ : List Element
  text_ : Text
  deriving DecidableEq

namespace Buffer

/-- The buffers of a new decoder. -/
def empty : Buffer := ⟨[], []⟩

/-- The character of the current elements, if the table has one. -/
def symbolToChar (b : Buffer) : Option Char := morseTable.lookup b.symbol_

/-- `flushSymbol` ends a character, and a word as well if a space is added. -/
def flushSymbol (b : Buffer) (add_word_space : Bool) : Buffer where
  symbol_ := []
  text_ := b.text_ ++ b.symbolToChar.toList ++ if add_word_space then [' '] else []

end Buffer

/-! ## Messages -/

/-- An entry of the Morse table. -/
abbrev Letter := {entry : List Element × Char // entry ∈ morseTable}

/-- A word has a letter at least. -/
abbrev Word := {letters : List Letter // letters ≠ []}

/-- Words with single spaces between them. -/
abbrev Message := List Word

def Letter.code (letter : Letter) : List Element := letter.val.1

def Letter.char (letter : Letter) : Char := letter.val.2

def Word.text (word : Word) : Text := word.val.map Letter.char

def Message.text (message : Message) : Text := [' '].intercalate (message.map Word.text)

/-- Every code of the table is looked up as its own character, and none is empty. -/
theorem morseTable_spec : ∀ entry ∈ morseTable,
    morseTable.lookup entry.1 = some entry.2 ∧ entry.1 ≠ [] := by
  decide

theorem Letter.lookup_code (letter : Letter) : morseTable.lookup letter.code = some letter.char :=
  (morseTable_spec letter.val letter.property).1

theorem Letter.code_ne_nil (letter : Letter) : letter.code ≠ [] :=
  (morseTable_spec letter.val letter.property).2

/-! ## Signs -/

/-- The spaces between the elements of a letter, the letters of a word, and words. -/
inductive Gap where
  | element
  | letter
  | word
  deriving DecidableEq

/-- What a signal consists of. -/
inductive Sign where
  | mark (e : Element)
  | gap (g : Gap)
  deriving DecidableEq

def Sign.isMark : Sign → Bool
  | .mark _ => true
  | .gap _ => false

/-- The signs of a letter. -/
def Letter.signs (letter : Letter) : List Sign :=
  (letter.code.map Sign.mark).intersperse (.gap .element)

/-- The signs of a word. -/
def Word.signs (word : Word) : List Sign := [.gap .letter].intercalate (word.val.map Letter.signs)

/-- The signs of a message. -/
def Message.signs (message : Message) : List Sign :=
  [.gap .word].intercalate (message.map Word.signs)

theorem Message.text_cons_cons (word next : Word) (message : Message) :
    text (word :: next :: message) = word.text ++ [' '] ++ text (next :: message) := by
  rw [text, List.map_cons, List.map_cons, List.intercalate_cons_cons]
  rfl

theorem Message.signs_cons_cons (word next : Word) (message : Message) :
    signs (word :: next :: message) = word.signs ++ [.gap .word] ++ signs (next :: message) := by
  rw [signs, List.map_cons, List.map_cons, List.intercalate_cons_cons]
  rfl

namespace Buffer

/-- What the decoder does with a sign. -/
def read (b : Buffer) : Sign → Buffer
  | .mark e => { b with symbol_ := b.symbol_ ++ [e] }
  | .gap g =>
    if b.symbol_ = [] then b
    else
      match g with
      | .element => b
      | .letter => b.flushSymbol false
      | .word => b.flushSymbol true

/-! ## Reading a message -/

theorem read_gap_element (b : Buffer) : b.read (.gap .element) = b := by
  rw [read]
  split_ifs <;> rfl

theorem foldl_read_elements (b : Buffer) (code : List Element) :
    ((code.map Sign.mark).intersperse (.gap .element)).foldl read b =
      { b with symbol_ := b.symbol_ ++ code } := by
  induction code generalizing b with
  | nil =>
    rw [List.append_nil]
    rfl
  | cons e code ih =>
    cases code with
    | nil => rfl
    | cons e' code =>
      have hsigns : ((e :: e' :: code).map Sign.mark).intersperse (.gap .element) =
          .mark e :: .gap .element :: ((e' :: code).map Sign.mark).intersperse (.gap .element) :=
        rfl
      rw [hsigns, List.foldl_cons, List.foldl_cons, read_gap_element, ih, read,
        List.append_assoc, List.singleton_append]

/-- After a letter its elements are in the buffer. -/
theorem foldl_read_letter (letter : Letter) (text : Text) :
    letter.signs.foldl read ⟨[], text⟩ = ⟨letter.code, text⟩ := foldl_read_elements _ _

theorem flushSymbol_letter (letter : Letter) (text : Text) (add_word_space : Bool) :
    flushSymbol ⟨letter.code, text⟩ add_word_space =
      ⟨[], text ++ [letter.char] ++ if add_word_space then [' '] else []⟩ := by
  rw [flushSymbol, symbolToChar, letter.lookup_code]
  rfl

/-- After some letters the last one is in the buffer still, and the others have been decoded. -/
theorem foldl_read_letters {letters : List Letter} (hne : letters ≠ []) (text : Text) :
    ∃ b : Buffer,
      ([.gap .letter].intercalate (letters.map Letter.signs)).foldl read ⟨[], text⟩ = b ∧
      b.symbol_ ≠ [] ∧ ∀ add_word_space, b.flushSymbol add_word_space =
        ⟨[], text ++ letters.map Letter.char ++ if add_word_space then [' '] else []⟩ := by
  induction letters generalizing text with
  | nil => exact absurd rfl hne
  | cons letter letters ih =>
    cases letters with
    | nil =>
      refine ⟨⟨letter.code, text⟩, ?_, letter.code_ne_nil, flushSymbol_letter letter text⟩
      rw [List.map_singleton, List.intercalate_singleton, foldl_read_letter]
    | cons next letters =>
      -- the space ends the first letter
      have hgap : read ⟨letter.code, text⟩ (.gap .letter) = ⟨[], text ++ [letter.char]⟩ := by
        rw [read, if_neg letter.code_ne_nil]
        exact (flushSymbol_letter letter text false).trans (by simp)
      obtain ⟨b, hb, hsymbol, hflush⟩ := ih (by simp) (text ++ [letter.char])
      refine ⟨b, ?_, hsymbol, fun add_word_space => ?_⟩
      · rw [List.map_cons, List.map_cons, List.intercalate_cons_cons, List.foldl_append,
          List.foldl_append, foldl_read_letter, List.foldl_cons, List.foldl_nil, hgap,
          ← List.map_cons, hb]
      · rw [hflush, List.append_assoc text, List.singleton_append, ← List.map_cons]

/-- After the words of a message all but the last letter have been decoded. -/
theorem foldl_read_message (message : Message) (text : Text) :
    (message.signs.foldl read ⟨[], text⟩).flushSymbol false = ⟨[], text ++ message.text⟩ := by
  induction message generalizing text with
  | nil => exact congrArg (Buffer.mk []) (List.append_nil _)
  | cons word message ih =>
    obtain ⟨b, hb, hsymbol, hflush⟩ := foldl_read_letters word.property text
    rw [← Word.signs] at hb
    cases message with
    | nil =>
      rw [Message.signs, Message.text, List.map_singleton, List.map_singleton,
        List.intercalate_singleton, List.intercalate_singleton, hb, hflush]
      simp [Word.text]
    | cons next message =>
      -- the space ends the word
      have hgap : b.read (.gap .word) = ⟨[], text ++ (word.text ++ [' '])⟩ := by
        rw [read, if_neg hsymbol, ← List.append_assoc]
        exact hflush true
      rw [Message.signs_cons_cons, List.foldl_append, List.foldl_append, hb, List.foldl_cons,
        List.foldl_nil, hgap, ih, Message.text_cons_cons, List.append_assoc text]

end Buffer

/-- The message is read from its signs, once the last letter is flushed. -/
theorem read_signs (message : Message) :
    ((message.signs.foldl Buffer.read .empty).flushSymbol false).text_ = message.text := by
  rw [Buffer.empty, Buffer.foldl_read_message, List.nil_append]

/-! ## The order of the signs -/

/-- Marks with one space between any two that follow each other. -/
inductive Alternating : List Sign → Prop
  | mark (e : Element) : Alternating [.mark e]
  | cons (e : Element) (g : Gap) {signs : List Sign} (h : Alternating signs) :
      Alternating (.mark e :: .gap g :: signs)

theorem Alternating.append {signs rest : List Sign} (h : Alternating signs) (g : Gap)
    (hrest : Alternating rest) : Alternating (signs ++ .gap g :: rest) := by
  induction h with
  | mark e => exact .cons e g hrest
  | cons e g' h ih => exact .cons e g' ih

theorem Alternating.intercalate {parts : List (List Sign)} (hne : parts ≠ [])
    (hparts : ∀ part ∈ parts, Alternating part) (g : Gap) :
    Alternating ([.gap g].intercalate parts) := by
  induction parts with
  | nil => exact absurd rfl hne
  | cons part parts ih =>
    obtain ⟨hpart, hrest⟩ := List.forall_mem_cons.1 hparts
    cases parts with
    | nil => rwa [List.intercalate_singleton]
    | cons next parts =>
      rw [List.intercalate_cons_cons, List.append_assoc]
      exact hpart.append g (ih (by simp) hrest)

theorem alternating_letter (letter : Letter) : Alternating letter.signs := by
  have hcode : ∀ code : List Element, code ≠ [] →
      Alternating ((code.map Sign.mark).intersperse (.gap .element)) := by
    intro code hne
    induction code with
    | nil => exact absurd rfl hne
    | cons e code ih =>
      cases code with
      | nil => exact .mark e
      | cons e' code => exact .cons e .element (ih (by simp))
  exact hcode letter.code letter.code_ne_nil

theorem alternating_word (word : Word) : Alternating word.signs := by
  refine .intercalate (by simpa using word.property) (fun part hpart => ?_) .letter
  obtain ⟨letter, -, rfl⟩ := List.mem_map.1 hpart
  exact alternating_letter letter

/-- The signs of a message begin and end with a mark. -/
theorem alternating_message {message : Message} (hne : message ≠ []) :
    Alternating message.signs := by
  refine .intercalate (by simpa using hne) (fun part hpart => ?_) .word
  obtain ⟨word, -, rfl⟩ := List.mem_map.1 hpart
  exact alternating_word word

end GranolaSdr.Cw.Morse
