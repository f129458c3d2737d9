import GranolaSdr.Lib.EditDistance
import Mathlib.Data.Int.Notation

/-!
# Callsigns in decoded Morse code

How the tracker finds callsigns in a decoded text, and when it takes one callsign for a misread of
another.

## Main definitions

* `looksLikeCall`, `extractCall`, `tokens`: the callsigns of a text;
* `editDistLE1`: whether two callsigns are at most one edit apart.

## Main results

* `editDistLE1_iff`: `editDistLE1` holds of two callsigns within one edit;
* `editDistLE1_iff_levenshtein_le_one`: it decides whether the recursive distance is at most one.
-/

namespace GranolaSdr.Cw

/-- A decoded text, a token of it or a callsign. -/
abbrev Text := List Char

def isUpper (c : Char) : Bool := 'A' ≤ c && c ≤ 'Z'

def isDigit (c : Char) : Bool := '0' ≤ c && c ≤ '9'

/-- The index of the last digit, or -1. -/
def lastDigit (s : Text) : ℤ :=
  s.zipIdx.foldl (fun last e => if isDigit e.1 then (e.2 : ℤ) else last) (-1)

/-- The shape of an amateur callsign: a prefix of up to three characters that starts with a letter,
a digit and a suffix of up to four letters. -/
def looksLikeCall (s : Text) : Bool :=
  let n := s.length
  if n < 3 || 8 < n then false
  else if !s.all fun c => isUpper c || isDigit c then false
  else
    let last := lastDigit s
    -- the area digit stands behind a prefix of one to three characters
    if last < 1 || 3 < last then false
    else if !isUpper (s.headD ' ') then false
    else
      -- the letters behind the last digit
      let suffix := (n : ℤ) - 1 - last
      if suffix < 1 || 4 < suffix then false
      else (s.drop (last.toNat + 1)).all isUpper

/-- The procedural signals that a callsign can have run into. -/
def proceduralPrefixes : List Text := ["CQ".toList, "QRZ".toList, "TEST".toList, "DX".toList]

/-- The callsign in a token, behind a procedural prefix or the token itself. -/
def extractCall (tok : Text) : Option Text :=
  let stripped := proceduralPrefixes.findSome? fun p =>
    if p.length < tok.length && p.isPrefixOf tok && looksLikeCall (tok.drop p.length) then
      some (tok.drop p.length)
    else none
  -- `CQK4RO` has the shape of a callsign itself, so the prefix goes first
  match stripped with
  | some call => some call
  | none => if looksLikeCall tok then some tok else none

/-- The parts of a text between its blanks. -/
def tokens (txt : Text) : List Text := (txt.splitOn ' ').filter fun tok => !tok.isEmpty

/-! ## Misreads -/

/-- The loop over two callsigns of one length, with the number of differences so far. -/
def substitutionLoop : Text → Text → ℕ → Bool
  | x :: a, y :: b, diff =>
    if x ≠ y then if 1 < diff + 1 then false else substitutionLoop a b (diff + 1)
    else substitutionLoop a b diff
  | _, _, _ => true

/-- The loop over a callsign and a longer one, of which one character may be skipped. -/
def alignLoop : Text → Text → Bool → Bool
  | x :: s, y :: t, skipped =>
    if x = y then alignLoop s t skipped else if skipped then false else alignLoop (x :: s) t true
  | _, _, _ => true
termination_by _ t => t.length

/-- Whether two callsigns are at most one edit apart. -/
def editDistLE1 (a b : Text) : Bool :=
  if 1 < ((a.length : ℤ) - b.length).natAbs then false
  else if a.length = b.length then substitutionLoop a b 0
  else if a.length < b.length then alignLoop a b false
  else alignLoop b a false

open EditDistance

/-- After one difference the rest has to be equal. -/
theorem substitutionLoop_one_iff {a b : Text} (h : a.length = b.length) :
    substitutionLoop a b 1 = true ↔ a = b := by
  induction a generalizing b with
  | nil =>
    obtain rfl := List.length_eq_zero_iff.1 h.symm
    exact iff_of_true rfl rfl
  | cons x a ih =>
    cases b with
    | nil => cases h
    | cons y b =>
      rw [substitutionLoop]
      by_cases hxy : x = y
      · rw [if_neg (not_not.2 hxy), ih (Nat.succ.inj h), hxy, List.cons_inj_right]
      · rw [if_pos hxy, if_pos (by decide)]
        exact iff_of_false Bool.false_ne_true fun heq => hxy (List.cons.inj heq).1

theorem substitutionLoop_zero_iff {a b : Text} (h : a.length = b.length) :
    substitutionLoop a b 0 = true ↔ a = b ∨ Substitutes a b := by
  induction a generalizing b with
  | nil =>
    obtain rfl := List.length_eq_zero_iff.1 h.symm
    exact iff_of_true rfl (.inl rfl)
  | cons x a ih =>
    cases b with
    | nil => cases h
    | cons y b =>
      have hlen : a.length = b.length := Nat.succ.inj h
      rw [substitutionLoop]
      by_cases hxy : x = y
      · subst hxy
        rw [if_neg (not_not.2 rfl), ih hlen, substitutes_cons_self_iff]
      · -- this is the one difference
        rw [if_pos hxy, if_neg (by decide), Nat.zero_add, substitutionLoop_one_iff hlen,
          substitutes_cons_of_ne hxy]

/-- After the skip the rest has to be equal. -/
theorem alignLoop_true_iff {s t : Text} (h : t.length = s.length) :
    alignLoop s t true = true ↔ s = t := by
  induction s generalizing t with
  | nil =>
    obtain rfl := List.length_eq_zero_iff.1 h
    exact iff_of_true (by simp [alignLoop]) rfl
  | cons x s ih =>
    cases t with
    | nil => cases h
    | cons y t =>
      rw [alignLoop]
      by_cases hxy : x = y
      · rw [if_pos hxy, ih (Nat.succ.inj h), hxy, List.cons_inj_right]
      · rw [if_neg hxy, if_pos rfl]
        exact iff_of_false Bool.false_ne_true fun heq => hxy (List.cons.inj heq).1

/-- The loop skips the first character that differs, which is one that can be omitted if any
can. -/
theorem alignLoop_false_iff {s t : Text} (h : t.length = s.length + 1) :
    alignLoop s t false = true ↔ Omits s t := by
  induction s generalizing t with
  | nil =>
    cases t with
    | nil => cases h
    | cons y t =>
      obtain rfl := List.length_eq_zero_iff.1 (Nat.succ.inj h)
      exact iff_of_true (by simp [alignLoop]) (omits_self_cons y [])
  | cons x s ih =>
    cases t with
    | nil => cases h
    | cons y t =>
      have hlen : t.length = (x :: s).length := Nat.succ.inj h
      rw [alignLoop]
      by_cases hxy : x = y
      · subst hxy
        rw [if_pos rfl, ih hlen, omits_cons_self_iff]
      · -- the first character that differs is the one skipped
        rw [if_neg hxy, if_neg Bool.false_ne_true, alignLoop_true_iff hlen, omits_cons_iff]
        exact ⟨.inl, fun h => h.resolve_right fun h => hxy h.1⟩

/-- `editDistLE1` holds of two callsigns within one edit. -/
theorem editDistLE1_iff (a b : Text) : editDistLE1 a b = true ↔ Within 1 a b := by
  rw [editDistLE1]
  split_ifs with hfar heq hlt
  · refine iff_of_false not_false fun h => ?_
    obtain ⟨hle, hle'⟩ := length_of_within_one h
    omega
  · rw [substitutionLoop_zero_iff heq, within_one_iff_of_length_eq heq]
  · have hsucc : b.length = a.length + 1 := by omega
    rw [alignLoop_false_iff hsucc, within_one_iff_of_length_succ hsucc]
  · have hsucc : a.length = b.length + 1 := by omega
    rw [alignLoop_false_iff hsucc, within_one_comm, within_one_iff_of_length_succ hsucc]

/-- `editDistLE1` decides whether the Levenshtein distance is at most one. -/
theorem editDistLE1_iff_levenshtein_le_one (a b : Text) :
    editDistLE1 a b = true ↔ levenshtein a b ≤ 1 := by
  rw [levenshtein_le_iff]
  exact editDistLE1_iff a b

end GranolaSdr.Cw
