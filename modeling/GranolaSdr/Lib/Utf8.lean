import Mathlib.Data.List.Basic
import Mathlib.Data.UInt

/-!
# Well-formed UTF-8

The automaton that accepts the well-formed byte sequences: no overlong forms, no surrogates and
nothing beyond U+10FFFF.

## Main definitions

* `Utf8.State.next`: the transitions;
* `Utf8.Valid`: a byte sequence is well formed.

## Main results

* `Utf8.valid_append_iff`: a well-formed prefix can be taken off;
* `Utf8.valid_map_iff`: replacing ASCII bytes by ASCII bytes keeps the sequence well or ill formed.
-/

namespace Utf8

/-- What may follow: any character, so many continuation bytes, or one of the second bytes with a
narrower range. -/
inductive State where
  | accept
  | one
  | two
  | three
  | e0
  | ed
  | f0
  | f4
  deriving DecidableEq

/-- The state after a byte, unless the byte is refused. -/
def State.next : State → UInt8 → Option State
  | .accept, b =>
    if b < 0x80 then some .accept
    else if 0xC2 ≤ b ∧ b ≤ 0xDF then some .one
    else if b = 0xE0 then some .e0
    else if b = 0xED then some .ed
    else if 0xE1 ≤ b ∧ b ≤ 0xEF then some .two
    else if b = 0xF0 then some .f0
    else if b = 0xF4 then some .f4
    else if 0xF1 ≤ b ∧ b ≤ 0xF3 then some .three
    else none
  | .one, b => if 0x80 ≤ b ∧ b ≤ 0xBF then some .accept else none
  | .two, b => if 0x80 ≤ b ∧ b ≤ 0xBF then some .one else none
  | .three, b => if 0x80 ≤ b ∧ b ≤ 0xBF then some .two else none
  | .e0, b => if 0xA0 ≤ b ∧ b ≤ 0xBF then some .one else none
  | .ed, b => if 0x80 ≤ b ∧ b ≤ 0x9F then some .one else none
  | .f0, b => if 0x90 ≤ b ∧ b ≤ 0xBF then some .two else none
  | .f4, b => if 0x80 ≤ b ∧ b ≤ 0x8F then some .two else none

/-- The byte sequence is well formed. -/
def Valid (bytes : List UInt8) : Prop := bytes.foldlM State.next .accept = some .accept

instance (bytes : List UInt8) : Decidable (Valid bytes) := inferInstanceAs (Decidable (_ = _))

@[simp]
theorem valid_nil : Valid [] := rfl

theorem next_ascii (s : State) {b : UInt8} (h : b < 0x80) :
    s.next b = if s = .accept then some .accept else none := by
  have hlow : ∀ lo hi : UInt8, 0x80 ≤ lo → ¬(lo ≤ b ∧ b ≤ hi) := fun lo hi hlo hb =>
    absurd (UInt8.le_trans hlo hb.1) (UInt8.not_le.2 h)
  cases s with
  | accept => simp [State.next, h]
  | one | two | three | e0 | ed | f0 | f4 =>
    rw [State.next, if_neg (hlow _ _ (by decide)), if_neg (by simp)]

theorem valid_append_iff {front back : List UInt8} (h : Valid front) :
    Valid (front ++ back) ↔ Valid back := by
  rw [Valid, List.foldlM_append, h]
  rfl

/-- The automaton takes the same way when ASCII bytes are replaced by ASCII bytes. -/
theorem valid_map_iff {f : UInt8 → UInt8} (hascii : ∀ b < 0x80, f b < 0x80)
    (hother : ∀ b, 0x80 ≤ b → f b = b) (bytes : List UInt8) :
    Valid (bytes.map f) ↔ Valid bytes := by
  have hnext : (fun (s : State) b => s.next (f b)) = State.next := by
    funext s b
    rcases UInt8.lt_or_le b 0x80 with hb | hb
    · rw [next_ascii s hb, next_ascii s (hascii b hb)]
    · rw [hother b hb]
  rw [Valid, Valid, List.foldlM_map, hnext]

end Utf8
