import GranolaSdr.Js8.Message

/-!
# JS8 data frames

The content of a data frame is followed by a 0 and by 1s up to the end of the 72 message bits. In
a fast data frame, marked by its type bits, the content starts at the first bit; in one of the old
format it follows a 1 and the flag of compression.

## Main definitions

* `padded`: a content followed by its padding;
* `fastFrame`, `oldFrame`: the data frames with a given content.

## Main results

* `decodeJs8Message_data`: the content is recovered from either frame, at every length.
-/

namespace GranolaSdr.Js8

/-- A content padded to `n` bits by a 0 and then 1s. -/
def padded (n : ℕ) (content : List Bool) : List Bool :=
  content ++ false :: List.replicate (n - (content.length + 1)) true

/-- The type bits of a frame and its checksum. -/
def typeAndCrc (i3bit : Fin 8) (crc : Vector Bool 12) : List Bool :=
  BitField.toBits 3 i3bit ++ crc.toList

/-- A fast data frame. The two type bits next to the mark are free. -/
def fastFrame (content : List Bool) (typ : Fin 4) (crc : Vector Bool 12) : List Bool :=
  padded 72 content ++ typeAndCrc (Fin.natAdd 4 typ) crc

/-- A data frame of the old format. -/
def oldFrame (compressed : Bool) (content : List Bool) (typ : Fin 4) (crc : Vector Bool 12) :
    List Bool :=
  padded 72 (true :: compressed :: content) ++ typeAndCrc (Fin.castAdd 4 typ) crc

theorem length_padded {n : ℕ} {content : List Bool} (h : content.length < n) :
    (padded n content).length = n := by
  rw [padded, List.length_append, List.length_cons, List.length_replicate]
  omega

/-- The search for the last 0 runs over the 1s behind it. -/
theorem lastZero_eq {info : List Bool} {n j : ℕ} (hn : n ≤ j)
    (hzero : info.getD n false = false) (hones : ∀ i, n < i → i ≤ j → info.getD i false = true) :
    lastZero info j = n := by
  induction j with
  | zero => exact (Nat.le_zero.1 hn).symm
  | succ j ih =>
    rw [lastZero]
    rcases Nat.lt_or_eq_of_le hn with hlt | rfl
    · rw [hones (j + 1) hlt le_rfl, if_pos rfl]
      exact ih (Nat.lt_succ_iff.1 hlt) fun i hi hij => hones i hi (hij.trans (Nat.le_succ j))
    · rw [hzero]
      rfl

/-- The last 0 of a padded content stands right behind it. -/
theorem lastZero_padded {content : List Bool} (h : content.length < 72) (tail : List Bool) :
    lastZero (padded 72 content ++ tail) 71 = content.length := by
  have hbit : ∀ i < 72, (padded 72 content ++ tail).getD i false =
      (padded 72 content).getD i false := fun i hi =>
    List.getD_append _ _ _ _ (by rwa [length_padded h])
  refine lastZero_eq (Nat.le_of_lt_succ h) ?_ fun i hlt hi => ?_
  · rw [hbit _ h, padded, List.getD_append_right _ _ _ _ le_rfl, Nat.sub_self]
    rfl
  · obtain ⟨k, rfl⟩ := Nat.exists_eq_add_of_lt hlt
    rw [hbit _ (Nat.lt_succ_of_le hi), padded,
      List.getD_append_right _ _ _ _ (by omega), Nat.add_assoc, Nat.add_sub_cancel_left,
      List.getD_cons_succ, List.getD_replicate _ (by omega)]

/-- The type bits are read back behind the message bits. -/
theorem i3bit_frame {message : List Bool} (h : message.length = 72) (i3bit : Fin 8)
    (crc : Vector Bool 12) :
    bits_to_int (message ++ typeAndCrc i3bit crc) 72 3 = i3bit := by
  have hlen : 72 + 3 ≤ (message ++ typeAndCrc i3bit crc).length := by
    rw [List.length_append, h, typeAndCrc, List.length_append, BitField.length_toBits]
    omega
  have hread := BitField.read_append_right message (typeAndCrc i3bit crc) 0 3
  rw [h, Nat.add_zero] at hread
  have hfront := BitField.read_append_left (BitField.toBits 3 i3bit) crc.toList
  rw [BitField.length_toBits] at hfront
  rw [bits_to_int_eq_read hlen, hread, typeAndCrc, hfront, BitField.ofBits_toBits]
  exact Nat.mod_eq_of_lt i3bit.isLt

theorem take_padded {content tail : List Bool} {n : ℕ} :
    (padded n content ++ tail).take content.length = content := by
  rw [padded, List.append_assoc, List.take_left]

/-- A fast data frame is decoded to its decompressed content. -/
theorem decodeJs8Message_fastFrame (jsc_map : Fin Jsc.kJscSize → List Char) {content : List Bool}
    (h : content.length ≤ 71) (typ : Fin 4) (crc : Vector Bool 12) :
    decodeJs8Message jsc_map (fastFrame content typ crc) =
      dataText (Jsc.jsc_decompress jsc_map content) := by
  have hlt : content.length < 72 := Nat.lt_succ_of_le h
  have htype : ∀ typ : Fin 4, ((Fin.natAdd 4 typ : Fin 8) : ℕ) &&& 4 ≠ 0 := by decide
  rw [decodeJs8Message, fastFrame, i3bit_frame (length_padded hlt)]
  rw [if_pos (htype typ), lastZero_padded hlt, take_padded]

/-- A frame whose first bit is set is a data frame of the old format. -/
theorem four_le_bits_to_int (bits : List Bool) : 4 ≤ bits_to_int (true :: bits) 0 3 := by
  rcases bits with - | ⟨b₁, - | ⟨b₂, bits⟩⟩
  · decide
  · revert b₁
    decide
  · have hlen : 0 + 3 ≤ (true :: b₁ :: b₂ :: bits).length := by simp
    rw [bits_to_int_eq_read hlen]
    have htake : ((true :: b₁ :: b₂ :: bits).drop 0).take 3 = [true, b₁, b₂] := rfl
    have hread : ∀ b₁ b₂ : Bool, 4 ≤ BitField.ofBits [true, b₁, b₂] := by decide
    rw [BitField.read, htake]
    exact hread b₁ b₂

/-- An old-format frame is decoded by the decompressor or by the Huffman table, as its flag
says. -/
theorem decodeJs8Message_oldFrame (jsc_map : Fin Jsc.kJscSize → List Char) (compressed : Bool)
    {content : List Bool} (hpos : 1 ≤ content.length) (h : content.length ≤ 69) (typ : Fin 4)
    (crc : Vector Bool 12) :
    decodeJs8Message jsc_map (oldFrame compressed content typ crc) =
      dataText (if compressed then Jsc.jsc_decompress jsc_map content else huffDecode content) := by
  have hlt : (true :: compressed :: content).length < 72 := by
    simp only [List.length_cons]
    omega
  have htype : ∀ typ : Fin 4, ¬((Fin.castAdd 4 typ : Fin 8) : ℕ) &&& 4 ≠ 0 := by decide
  have hlast := lastZero_padded hlt (typeAndCrc (Fin.castAdd 4 typ) crc)
  -- the flag and the content stand behind the first bit, whatever the padding is
  have hframe : padded 72 (true :: compressed :: content) ++ typeAndCrc (Fin.castAdd 4 typ) crc =
      true :: compressed :: (padded 70 content ++ typeAndCrc (Fin.castAdd 4 typ) crc) := by
    have hfill : 72 - (content.length + 1 + 1 + 1) = 70 - (content.length + 1) := by omega
    simp only [padded, List.length_cons, List.cons_append, hfill]
  rw [decodeJs8Message, oldFrame, i3bit_frame (length_padded hlt)]
  rw [if_neg (htype typ), hlast, hframe, if_pos (four_le_bits_to_int _)]
  have hK : ¬(true :: compressed :: content).length ≤ 2 := by
    simp only [List.length_cons]
    omega
  have hcut : (true :: compressed :: content).length - 2 = content.length := by
    simp only [List.length_cons]
    omega
  rw [if_neg hK, hcut, List.drop_succ_cons, List.drop_succ_cons, List.drop_zero, take_padded]
  cases compressed
  · rfl
  · rfl

/-- The content of a data frame is recovered at every length and with every ending, and shown as
`[data]` where its text is empty: the fast frame's text is that of the decompressor, the old-format
frame's is as its flag says. -/
theorem decodeJs8Message_data (jsc_map : Fin Jsc.kJscSize → List Char) (content : List Bool)
    (typ : Fin 4) (crc : Vector Bool 12) :
    (content.length ≤ 71 →
      let text := Jsc.jsc_decompress jsc_map content
      decodeJs8Message jsc_map (fastFrame content typ crc) =
        ⟨if text.isEmpty then "[data]".toList else text, none⟩) ∧
    ∀ compressed : Bool, 1 ≤ content.length → content.length ≤ 69 →
      let text := if compressed then Jsc.jsc_decompress jsc_map content else huffDecode content
      decodeJs8Message jsc_map (oldFrame compressed content typ crc) =
        ⟨if text.isEmpty then "[data]".toList else text, none⟩ :=
  ⟨fun h => decodeJs8Message_fastFrame jsc_map h typ crc, fun compressed hpos h =>
    decodeJs8Message_oldFrame jsc_map compressed hpos h typ crc⟩

/-- A content that ends in a 0 and one that ends in a 1. -/
theorem decodeJs8Message_data_endings :
    decodeJs8Message (fun _ => ['e']) (fastFrame [true, false] 0 (Vector.replicate 12 false)) =
        ⟨if (Jsc.jsc_decompress (fun _ => ['e']) [true, false]).isEmpty then "[data]".toList
          else Jsc.jsc_decompress (fun _ => ['e']) [true, false], none⟩ ∧
    decodeJs8Message (fun _ => [])
        (oldFrame false [true, false, false, true] 0 (Vector.replicate 12 false)) =
      ⟨if (huffDecode [true, false, false, true]).isEmpty then "[data]".toList
        else huffDecode [true, false, false, true], none⟩ :=
  ⟨(decodeJs8Message_data (fun _ => ['e']) [true, false] 0 _).1 (by decide),
    (decodeJs8Message_data (fun _ => []) [true, false, false, true] 0 _).2 false (by decide)
      (by decide)⟩

end GranolaSdr.Js8
