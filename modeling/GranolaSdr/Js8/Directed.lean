import GranolaSdr.Js8.Message

/-!
# JS8 directed frames

A directed frame carries a sender, an addressee, a command and a number: the fields
`[3][28][28][5][1][1][6]` of the 72 message bits. Its text is built from the two unpacked
callsigns, and the sender doubles as the key of the published record.

`unpackCallsign28` drops the trailing blanks of a callsign only. A callsign with a one-letter
prefix is packed with a leading blank, which stays in the text and in the sender.

## Main results

* `decodeJs8Message_directed`: the text and the sender of a directed frame, in terms of the two
  unpacked callsigns;
* `decodeJs8Message_directed_iff`: a directed frame is decoded to its callsigns without blanks
  exactly when neither callsign is packed with a leading blank.
-/

namespace GranolaSdr.Js8

/-- The fields of a directed frame: frame type 3, sender, addressee, command, the two portable
flags and the number, then the type bits. -/
def directedFields (from_ to_ : StdCall) (cmd : Fin 32) (portable_from portable_to : Bool)
    (num : Fin 64) (typ : Fin 4) : List (ℕ × ℕ) :=
  [(3, 3), (28, from_.pack), (28, to_.pack), (5, cmd), (1, portable_from.toNat),
    (1, portable_to.toNat), (6, num), (3, typ)]

/-- The information bits of a directed frame, with its 12 checksum bits. -/
def directedFrame (from_ to_ : StdCall) (cmd : Fin 32) (portable_from portable_to : Bool)
    (num : Fin 64) (typ : Fin 4) (crc : Vector Bool 12) : List Bool :=
  BitField.encode (directedFields from_ to_ cmd portable_from portable_to num typ) ++ crc.toList

/-- A callsign followed by `/P` when its portable flag is set. -/
def withPortable (call : List Char) (portable : Bool) : List Char :=
  call ++ if portable then "/P".toList else []

/-- The text of a directed message. The number is absent when its field is 0, signed for the two
reports (codes 25 and 29) and plain otherwise. -/
def directedText (from_ to_ : List Char) (cmd : Fin 32) (num : Fin 64) : List Char :=
  from_ ++ ": ".toList ++ to_ ++ dirCmd cmd ++
    (if num = 0 then [] else ' ' :: formatInt (cmd = 25 || cmd = 29) ((num : ℤ) - 31)) ++ [' ']

@[simp]
theorem withPortable_inj {call call' : List Char} {portable : Bool} :
    withPortable call portable = withPortable call' portable ↔ call = call' := by
  simp [withPortable]

@[simp]
theorem directedText_inj {from_ to_ to_' : List Char} {cmd : Fin 32} {num : Fin 64} :
    directedText from_ to_ cmd num = directedText from_ to_' cmd num ↔ to_ = to_' := by
  simp [directedText]

section Directed

variable (jsc_map : Fin Jsc.kJscSize → List Char) (from_ to_ : StdCall) (cmd : Fin 32)
  (portable_from portable_to : Bool) (num : Fin 64) (typ : Fin 4) (crc : Vector Bool 12)

theorem length_directedFrame :
    (directedFrame from_ to_ cmd portable_from portable_to num typ crc).length = 87 := by
  simp [directedFrame, BitField.length_encode, directedFields]

/-- A field of a directed frame is read back at its offset. -/
theorem bits_to_int_directedFrame (i : Fin 8) :
    let fields := directedFields from_ to_ cmd portable_from portable_to num typ
    bits_to_int (directedFrame from_ to_ cmd portable_from portable_to num typ crc)
      (BitField.offset fields i) (fields.getD i (0, 0)).1 =
        (fields.getD i (0, 0)).2 % 2 ^ (fields.getD i (0, 0)).1 :=
  bits_to_int_encode _ crc.toList i.isLt

/-- The text and the sender of a directed frame, by the two unpacked callsigns. -/
theorem decodeJs8Message_directed :
    decodeJs8Message jsc_map (directedFrame from_ to_ cmd portable_from portable_to num typ crc) =
      ⟨directedText (withPortable (unpackCallsign28 from_.pack) portable_from)
          (withPortable (unpackCallsign28 to_.pack) portable_to) cmd num,
        some (withPortable (unpackCallsign28 from_.pack) portable_from)⟩ := by
  have hfield := bits_to_int_directedFrame from_ to_ cmd portable_from portable_to num typ crc
  have hlen := length_directedFrame from_ to_ cmd portable_from portable_to num typ crc
  unfold decodeJs8Message
  generalize directedFrame from_ to_ cmd portable_from portable_to num typ crc = info at *
  have hbit : ∀ i < 87, (info.getD i false).toNat = bits_to_int info i 1 := fun i hi => by
    rw [BitField.toNat_getD (by omega), bits_to_int_eq_read (by omega)]
  have hpack : ∀ call : StdCall, call.pack % 2 ^ 28 = call.pack := fun call =>
    Nat.mod_eq_of_lt (call.pack_lt.trans (by decide))
  have htype : bits_to_int info 72 3 = typ % 8 := hfield 7
  have hflag : bits_to_int info 0 3 = 3 := hfield 0
  have hfrom : bits_to_int info 3 28 = from_.pack := (hfield 1).trans (hpack from_)
  have hto : bits_to_int info 31 28 = to_.pack := (hfield 2).trans (hpack to_)
  have hcmd : bits_to_int info 59 5 = cmd := (hfield 3).trans (Nat.mod_eq_of_lt cmd.isLt)
  -- a flag is read as a bit of the message, and the layout gives it as a number
  have hinj : ∀ a b : Bool, a.toNat = b.toNat → a = b := by decide
  have hpfrom : info.getD 64 false = portable_from := by
    have h := (hbit 64 (by decide)).trans (hfield 4)
    exact hinj _ _ (h.trans (Nat.mod_eq_of_lt portable_from.toNat_lt))
  have hpto : info.getD 65 false = portable_to := by
    have h := (hbit 65 (by decide)).trans (hfield 5)
    exact hinj _ _ (h.trans (Nat.mod_eq_of_lt portable_to.toNat_lt))
  have hnum : bits_to_int info 66 6 = num := (hfield 6).trans (Nat.mod_eq_of_lt num.isLt)
  have hcmd32 : (cmd : ℕ) % 32 = cmd := Nat.mod_eq_of_lt cmd.isLt
  simp only [htype, typ_and_four typ, hflag, hfrom, hto, hcmd, hpfrom, hpto, hnum, hcmd32]
  by_cases h0 : num = 0
  · simp [directedText, withPortable, h0]
  · have hnum0 : (num : ℕ) ≠ 0 := fun h => h0 (Fin.ext h)
    have hcmd25 : decide (cmd = 25) = decide ((cmd : ℕ) = 25) := decide_eq_decide.2 Fin.ext_iff
    have hcmd29 : decide (cmd = 29) = decide ((cmd : ℕ) = 29) := decide_eq_decide.2 Fin.ext_iff
    simp only [directedText, withPortable, hnum0, h0, hcmd25, hcmd29, ne_eq, not_false_eq_true,
      not_true_eq_false, Nat.reduceLeDiff, reduceIte, List.append_assoc]

/-- A directed frame is decoded to its two callsigns without blanks, and names the sender
without blanks, exactly when neither callsign is packed with a leading blank. -/
theorem decodeJs8Message_directed_iff :
    decodeJs8Message jsc_map (directedFrame from_ to_ cmd portable_from portable_to num typ crc) =
        ⟨directedText (withPortable from_.name portable_from) (withPortable to_.name portable_to)
            cmd num,
          some (withPortable from_.name portable_from)⟩ ↔
      ¬from_.LeadingBlank ∧ ¬to_.LeadingBlank := by
  rw [decodeJs8Message_directed, Decoded.mk.injEq, Option.some.injEq, withPortable_inj,
    unpackCallsign28_pack_eq_name_iff]
  constructor
  · rintro ⟨htext, hfrom⟩
    rw [unpackCallsign28_of_not_leadingBlank hfrom, directedText_inj, withPortable_inj,
      unpackCallsign28_pack_eq_name_iff] at htext
    exact ⟨hfrom, htext⟩
  · rintro ⟨hfrom, hto⟩
    rw [unpackCallsign28_of_not_leadingBlank hfrom, unpackCallsign28_of_not_leadingBlank hto]
    exact ⟨rfl, hfrom⟩

end Directed

/-- A frame sent by `W1AW` to `KD0ABC` names the sender with a blank in front. -/
theorem decodeJs8Message_w1aw :
    decodeJs8Message (fun _ => [])
        (directedFrame w1aw kd0abc 0 false false 0 0 (Vector.replicate 12 false)) =
      ⟨" W1AW: KD0ABC SNR? ".toList, some " W1AW".toList⟩ ∧
    decodeJs8Message (fun _ => [])
        (directedFrame w1aw kd0abc 0 false false 0 0 (Vector.replicate 12 false)) ≠
      ⟨directedText (withPortable w1aw.name false) (withPortable kd0abc.name false) 0 0,
        some (withPortable w1aw.name false)⟩ := by
  rw [decodeJs8Message_directed]
  decide +kernel

end GranolaSdr.Js8
