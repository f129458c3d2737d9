import GranolaSdr.Lib.WebSocket

/-!
# Streams of samples

Samples of four bytes as they are sent: in little-endian bytes, with two channels interleaved, and
regrouped from pieces of any size into blocks of a fixed size.

## Main definitions

* `toLittleEndian`, `words`: samples as bytes, and the samples some bytes hold;
* `evens`, `odds`: the two channels of an interleaved stream;
* `regroup`: the blocks cut from a sequence of pieces, and what is left over.

## Main results

* `words_append`: the samples are recovered from their bytes, whatever follows;
* `flatten_regroup`: nothing is lost, repeated or reordered;
* `length_regroup_lt`: the rest is shorter than a block if no piece is longer than one.
-/

namespace SampleStream

open WebSocket (bigEndian ofBigEndian length_bigEndian ofBigEndian_bigEndian)

/-! ## Words -/

/-- The bytes of a word, the least significant first. -/
def toLittleEndian (word : UInt32) : List UInt8 := (bigEndian 4 word.toNat).reverse

/-- The word some bytes stand for. -/
def ofLittleEndian (bytes : List UInt8) : UInt32 := UInt32.ofNat (ofBigEndian bytes.reverse)

@[simp]
theorem length_toLittleEndian (word : UInt32) : (toLittleEndian word).length = 4 := by
  rw [toLittleEndian, List.length_reverse, length_bigEndian]

theorem ofLittleEndian_toLittleEndian (word : UInt32) :
    ofLittleEndian (toLittleEndian word) = word := by
  have hlt : word.toNat < 256 ^ 4 := word.toNat_lt
  rw [ofLittleEndian, toLittleEndian, List.reverse_reverse, ofBigEndian_bigEndian hlt]
  exact UInt32.ofNat_toNat

/-- The words some bytes hold. -/
def words : List UInt8 → List UInt32
  | a :: b :: c :: d :: rest => ofLittleEndian [a, b, c, d] :: words rest
  | _ => []

theorem words_toLittleEndian_append (word : UInt32) (rest : List UInt8) :
    words (toLittleEndian word ++ rest) = word :: words rest := by
  obtain ⟨a, b, c, d, hbytes⟩ : ∃ a b c d, toLittleEndian word = [a, b, c, d] :=
    ⟨_, _, _, _, rfl⟩
  have hword := ofLittleEndian_toLittleEndian word
  rw [hbytes] at hword ⊢
  show ofLittleEndian [a, b, c, d] :: words rest = word :: words rest
  rw [hword]

theorem words_append (samples : List UInt32) (rest : List UInt8) :
    words (samples.flatMap toLittleEndian ++ rest) = samples ++ words rest := by
  induction samples with
  | nil => rfl
  | cons word samples ih =>
    rw [List.flatMap_cons, List.append_assoc, words_toLittleEndian_append, ih, List.cons_append]

@[simp]
theorem words_flatMap (samples : List UInt32) :
    words (samples.flatMap toLittleEndian) = samples := by
  have happend : words (_ ++ []) = samples ++ [] := words_append samples []
  rwa [List.append_nil, List.append_nil] at happend

theorem length_flatMap_toLittleEndian (samples : List UInt32) :
    (samples.flatMap toLittleEndian).length = 4 * samples.length := by
  induction samples with
  | nil => rfl
  | cons word samples ih =>
    rw [List.flatMap_cons, List.length_append, length_toLittleEndian, ih, List.length_cons]
    omega

/-! ## Channels -/

section Channels

variable {α : Type*}

/-- Every second element, from the first. -/
def evens : List α → List α
  | [] => []
  | [a] => [a]
  | a :: _ :: rest => a :: evens rest

/-- Every second element, from the second. -/
def odds (samples : List α) : List α := evens samples.tail

theorem evens_flatMap (samples : List α) : evens (samples.flatMap fun a => [a, a]) = samples := by
  induction samples with
  | nil => rfl
  | cons a samples ih => exact congrArg (a :: ·) ih

theorem odds_flatMap (samples : List α) : odds (samples.flatMap fun a => [a, a]) = samples := by
  cases samples with
  | nil => rfl
  | cons a samples =>
    show evens (a :: samples.flatMap fun a => [a, a]) = a :: samples
    -- one place later the same pairs start with their second half
    induction samples generalizing a with
    | nil => rfl
    | cons b samples ih => exact congrArg (a :: ·) (ih b)

theorem length_flatMap_pair (samples : List α) :
    (samples.flatMap fun a => [a, a]).length = 2 * samples.length := by
  induction samples with
  | nil => rfl
  | cons a samples ih =>
    rw [List.flatMap_cons, List.length_append, ih, List.length_cons, List.length_cons,
      List.length_cons, List.length_nil]
    omega

end Channels

/-! ## Regrouping -/

section Regrouping

variable {α : Type*} (size : ℕ)

/-- The blocks cut from pieces that arrive one after the other, at most one after each piece, and
what is left over. -/
def regroup (held : List α) : List (List α) → List (List α) × List α
  | [] => ([], held)
  | piece :: pieces =>
    if size ≤ (held ++ piece).length then
      let later := regroup ((held ++ piece).drop size) pieces
      ((held ++ piece).take size :: later.1, later.2)
    else regroup (held ++ piece) pieces

variable {size}

theorem regroup_cons (held piece : List α) (pieces : List (List α)) :
    regroup size held (piece :: pieces) =
      ((regroup size held [piece]).1 ++ (regroup size (regroup size held [piece]).2 pieces).1,
        (regroup size (regroup size held [piece]).2 pieces).2) := by
  rw [regroup, regroup, regroup, regroup]
  split_ifs <;> rfl

theorem flatten_regroup (held : List α) (pieces : List (List α)) :
    (regroup size held pieces).1.flatten ++ (regroup size held pieces).2 =
      held ++ pieces.flatten := by
  induction pieces generalizing held with
  | nil =>
    show [] ++ held = held ++ []
    rw [List.nil_append, List.append_nil]
  | cons piece pieces ih =>
    rw [regroup]
    split_ifs with hfull
    · -- the block and what is kept behind it are what was there
      show ((held ++ piece).take size :: _).flatten ++ _ = _
      rw [List.flatten_cons, List.append_assoc, ih, ← List.append_assoc, List.take_append_drop,
        List.flatten_cons, List.append_assoc]
    · rw [ih, List.flatten_cons, List.append_assoc]

theorem length_of_mem_regroup {held : List α} {pieces : List (List α)} {block : List α}
    (hblock : block ∈ (regroup size held pieces).1) : block.length = size := by
  induction pieces generalizing held with
  | nil => exact absurd hblock List.not_mem_nil
  | cons piece pieces ih =>
    rw [regroup] at hblock
    split_ifs at hblock with hfull
    · rcases List.mem_cons.1 hblock with rfl | hlater
      · exact List.length_take_of_le hfull
      · exact ih hlater
    · exact ih hblock

/-- What is left over is shorter than a block: a piece adds at most one block, and one is cut. -/
theorem length_regroup_lt {held : List α} {pieces : List (List α)} (hheld : held.length < size)
    (hpieces : ∀ piece ∈ pieces, piece.length ≤ size) :
    (regroup size held pieces).2.length < size := by
  induction pieces generalizing held with
  | nil => exact hheld
  | cons piece pieces ih =>
    obtain ⟨hpiece, hpieces⟩ := List.forall_mem_cons.1 hpieces
    rw [regroup]
    split_ifs with hfull
    · -- fewer than two blocks are there, and one is cut off
      apply ih _ hpieces
      rw [List.length_drop, List.length_append]
      rw [List.length_append] at hfull
      omega
    · exact ih (not_le.1 hfull) hpieces

end Regrouping

end SampleStream
