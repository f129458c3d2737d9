import GranolaSdr.Lib.BitField
import GranolaSdr.Js8.Callsign
import GranolaSdr.Js8.Jsc

/-!
# JS8 message decoding

`decodeJs8Message` turns the 87 information bits of a JS8 frame into text: 72 message bits, 3 type
bits and 12 checksum bits. The type bits separate fast data frames from the rest, and the first
three message bits select one of the other frame types.

## Main results

* `bits_to_int_eq_read`: the source's bit extraction is the field read of `BitField`.
-/

namespace GranolaSdr.Js8

/-- Extract `n` bits starting at `offset` from a bit array, most significant first. -/
def bits_to_int (bits : List Bool) (offset n : ℕ) : ℕ :=
  (List.range n).foldl (fun v i => v <<< 1 ||| (bits.getD (offset + i) false).toNat) 0

/-- The directed commands, by their code. -/
def kDirCmds : List String :=
  [" SNR?", " DIT DIT", " NACK", " HEARING?", " GRID?", ">", " STATUS?", " STATUS", " HEARING",
    " MSG", " MSG TO:", " QUERY", " QUERY MSGS", " QUERY CALL", " ACK", " GRID", " INFO?",
    " INFO", " FB", " HW CPY?", " SK", " RR", " QSL?", " QSL", " CMD", " SNR", " NO", " YES",
    " 73", " HEARTBEAT SNR", " AGN?", " "]

/-- `kDirCmds[i]`. -/
def dirCmd (i : ℕ) : List Char := (kDirCmds.getD i "").toList

/-- The Huffman codes of the old-format data frames. -/
def kHuffTable : List (Char × String) :=
  [(' ', "01"), ('E', "100"), ('T', "1101"), ('A', "0011"), ('O', "11111"), ('I', "11100"),
    ('N', "10111"), ('S', "10100"), ('H', "00011"), ('R', "00000"), ('D', "111011"),
    ('L', "110011"), ('C', "110001"), ('U', "101101"), ('M', "101011"), ('W', "001011"),
    ('F', "001001"), ('G', "000101"), ('Y', "000011"), ('P', "1111011"), ('B', "1111001"),
    ('.', "1110100"), ('V', "1100101"), ('K', "1100100"), ('-', "1100001"), ('+', "1100000"),
    ('?', "1011001"), ('!', "1011000"), ('"', "1010101"), ('X', "1010100"), ('0', "0010101"),
    ('J', "0010100"), ('1', "0010001"), ('Q', "0010000"), ('2', "0001001"), ('Z', "0001000"),
    ('3', "0000101"), ('5', "0000100"), ('4', "11110101"), ('9', "11110100"),
    ('8', "11110001"), ('6', "11110000"), ('7', "11101011"), ('/', "11101010")]

/-- The bits of a code string. -/
def codeBits (code : String) : List Bool := code.toList.map (· = '1')

theorem codeBits_ne_nil {e : Char × String} (h : e ∈ kHuffTable) : codeBits e.2 ≠ [] := by
  revert e
  decide

/-- Decode Huffman codes until the bits run out or no code of the table matches. At each position
the first matching entry of the table is taken. -/
def huffDecode (bits : List Bool) : List Char :=
  match _h : kHuffTable.find? fun e => (codeBits e.2).isPrefixOf bits with
  | some e => e.1 :: huffDecode (bits.drop (codeBits e.2).length)
  | none => []
termination_by bits.length
decreasing_by
  have hne := List.length_pos_of_ne_nil (codeBits_ne_nil (List.mem_of_find?_eq_some _h))
  have hle : (codeBits e.2).length ≤ bits.length :=
    (List.isPrefixOf_iff_prefix.1 (by simpa using List.find?_some _h)).length_le
  rw [List.length_drop]
  omega

/-- The alphabet of the raw twelve-character form. -/
def kJs8Alphabet : List Char :=
  "0123456789ABCDEFGHIJKLMNOPQRSTUVWXYZabcdefghijklmnopqrstuvwxyz-+".toList

/-- The 72 message bits as twelve characters of six bits. -/
def extractMessage12 (info : List Bool) : List Char :=
  (List.range 12).map fun i => kJs8Alphabet.getD (bits_to_int info (i * 6) 6) '\x00'

/-- `snprintf` with `%d`, or with `%+d` when `plus` is set. -/
def formatInt (plus : Bool) (n : ℤ) : List Char :=
  (if plus && 0 ≤ n then ['+'] else []) ++ (toString n).toList

/-- The greatest index in `[1, j]` whose bit is clear, or 0. -/
def lastZero (info : List Bool) : ℕ → ℕ
  | 0 => 0
  | j + 1 => if info.getD (j + 1) false then lastZero info j else j + 1

/-- What `decodeJs8Message` produces: the text, and the sender if it writes one. -/
structure Decoded where
  text : List Char
  from_call : Option (List Char)
  deriving DecidableEq

/-- The text of a data frame, `[data]` when nothing was decoded. -/
def dataText (text : List Char) : Decoded :=
  ⟨if text.isEmpty then "[data]".toList else text, none⟩

/-- Decode the 87 information bits of a frame. -/
def decodeJs8Message (jsc_map : Fin Jsc.kJscSize → List Char) (info : List Bool) : Decoded :=
  let i3bit := bits_to_int info 72 3
  if i3bit &&& 4 ≠ 0 then
    -- fast data: all 72 bits are content, the last 0 bit ends it
    dataText (Jsc.jsc_decompress jsc_map (info.take (lastZero info 71)))
  else
    let packed_flag := bits_to_int info 0 3
    if 4 ≤ packed_flag then
      -- old-format data: `K` is the last 0 bit in `[1, 71]`, 0 standing for none
      let K := lastZero info 71
      if K ≤ 2 then dataText []
      else if info.getD 1 false then
        dataText (Jsc.jsc_decompress jsc_map ((info.drop 2).take (K - 2)))
      else dataText (huffDecode ((info.drop 2).take (K - 2)))
    else if packed_flag ≤ 2 then
      let packed_cs := bits_to_int info 3 50
      let packed_11 := bits_to_int info 53 11
      let packed_5 := bits_to_int info 64 5
      let num := packed_11 <<< 5 ||| packed_5
      let cs := unpackCallsign50 packed_cs
      if cs.isEmpty then ⟨extractMessage12 info, none⟩
      else if packed_flag = 0 then
        let isAlt := num >>> 15 &&& 1
        let grid := unpackGrid (num &&& 0x7FFF)
        let body := (if isAlt ≠ 0 then "@ALLCALL CQ" else "@HB HEARTBEAT").toList
        let body := if grid.isEmpty then body else body ++ ' ' :: grid
        ⟨cs ++ ": ".toList ++ body ++ [' '], some cs⟩
      else if packed_flag = 1 then
        let extra :=
          if num ≤ 32400 then unpackGrid num
          else if 32410 ≤ num ∧ num < 32767 then dirCmd ((num - 32410) &&& 0x1F)
          else []
        ⟨cs ++ [':'] ++ (if extra.isEmpty then [] else ' ' :: extra) ++ [' '], some cs⟩
      else
        let cmd_bits := if 32410 ≤ num then num - 32410 else 0
        ⟨cs ++ [':'] ++ dirCmd (cmd_bits &&& 0x1F) ++ [' '], some cs⟩
    else
      let packed_from := bits_to_int info 3 28
      let packed_to := bits_to_int info 31 28
      let packed_cmd := bits_to_int info 59 5
      let portable_from := info.getD 64 false
      let portable_to := info.getD 65 false
      let extra := bits_to_int info 66 6
      let from_ := unpackCallsign28 packed_from ++ if portable_from then "/P".toList else []
      let to_ := unpackCallsign28 packed_to ++ if portable_to then "/P".toList else []
      let cmd_idx := packed_cmd % 32
      let number :=
        if extra ≠ 0 then
          ' ' :: formatInt (cmd_idx = 25 || cmd_idx = 29) ((extra : ℤ) - 31)
        else []
      ⟨from_ ++ ": ".toList ++ to_ ++ dirCmd cmd_idx ++ number ++ [' '], some from_⟩

/-- The type bits of a frame that is not a fast data frame leave the third one clear. -/
theorem typ_and_four (typ : Fin 4) : (typ : ℕ) % 8 &&& 4 = 0 := by
  revert typ
  decide

/-- Extraction is the library's field read wherever the field lies within the bits. -/
theorem bits_to_int_eq_read {bits : List Bool} {offset n : ℕ} (h : offset + n ≤ bits.length) :
    bits_to_int bits offset n = BitField.read bits offset n := by
  induction n with
  | zero => simp [bits_to_int, BitField.read, BitField.ofBits]
  | succ n ih =>
    have hbit := (bits.getD (offset + n) false).toNat_lt
    have hor : bits_to_int bits offset n <<< 1 ||| (bits.getD (offset + n) false).toNat =
        2 * bits_to_int bits offset n + (bits.getD (offset + n) false).toNat := by
      rw [← Nat.shiftLeft_add_eq_or_of_lt (by simpa using hbit), Nat.shiftLeft_eq, pow_one,
        Nat.mul_comm]
    rw [BitField.read_succ (by omega), ← ih (by omega), ← hor]
    simp [bits_to_int, List.range_succ]

/-- A field of an encoded frame is read back at its offset. -/
theorem bits_to_int_encode (fields : List (ℕ × ℕ)) (tail : List Bool) {i : ℕ}
    (hi : i < fields.length) :
    bits_to_int (BitField.encode fields ++ tail) (BitField.offset fields i)
        (fields.getD i (0, 0)).1 =
      (fields.getD i (0, 0)).2 % 2 ^ (fields.getD i (0, 0)).1 := by
  have hlen : BitField.offset fields i + fields[i].1 ≤ (BitField.encode fields ++ tail).length := by
    rw [List.length_append]
    exact (BitField.offset_add_le fields hi).trans (Nat.le_add_right _ _)
  rw [List.getD_eq_getElem _ _ hi, bits_to_int_eq_read hlen]
  exact BitField.read_encode fields tail hi

end GranolaSdr.Js8
