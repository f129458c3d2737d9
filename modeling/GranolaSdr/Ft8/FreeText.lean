import GranolaSdr.Ft8.MessageCodec

/-!
# Free texts and telemetry

Both take the first 71 bits of a payload as one number: a free text has 13 digits of base 42, which
are obtained by long division of the bytes, and telemetry is shown in hexadecimal.

## Main results

* `free_text_iff`: the texts that are received as free texts;
* `telemetry_iff`: the numbers that are received, each from one payload only, in capital digits.
-/

namespace GranolaSdr.Ft8

open LongDivision
open Encode (Payload)

/-! ## The number of a payload -/

/-- Bytes as digits. -/
def toDigits (bytes : List UInt8) : List ℕ := bytes.map UInt8.toNat

theorem lt_of_mem_toDigits {bytes : List UInt8} : ∀ x ∈ toDigits bytes, x < 256 := by
  intro x hx
  obtain ⟨b, -, rfl⟩ := List.mem_map.1 hx
  exact b.toNat_lt

/-- The number of the bits of a free text or of telemetry. -/
def number71 (payload : List UInt8) : ℕ :=
  value 256 (toDigits (ftx_message_decode_telemetry payload))

/-- Some bytes of a payload, the first ones. -/
def firstDigits (payload : List UInt8) (n : ℕ) : List ℕ := (List.range n).map (byte payload)

theorem firstDigits_succ (payload : List UInt8) (n : ℕ) :
    firstDigits payload (n + 1) = firstDigits payload n ++ [byte payload n] := by
  rw [firstDigits, List.range_succ, List.map_append]
  rfl

/-- A byte with the last bit of the byte before it in front. -/
theorem toNat_telemetryByte (payload : List UInt8) (i : ℕ) :
    (telemetryByte payload i).toNat =
      (if i = 0 then 0 else byte payload (i - 1) % 2) * 2 ^ 7 + byte payload i / 2 := by
  -- the carry and the rest of the byte have no bit in common
  have hor : ∀ carry p : UInt8, carry.toNat < 2 →
      (carry <<< 7 ||| p >>> 1).toNat = carry.toNat * 2 ^ 7 + p.toNat / 2 := by
    intro carry p hcarry
    have hp := p.toNat_lt
    have hleft : (carry <<< 7).toNat = carry.toNat <<< 7 := by
      rw [UInt8.toNat_shiftLeft]
      change carry.toNat <<< 7 % 2 ^ 8 = _
      rw [Nat.mod_eq_of_lt]
      rw [Nat.shiftLeft_eq]
      omega
    have hright : (p >>> 1).toNat = p.toNat / 2 := by
      rw [UInt8.toNat_shiftRight]
      exact Nat.shiftRight_eq_div_pow _ 1
    rw [UInt8.toNat_or, hleft, hright, shiftLeft_or (by omega)]
  by_cases hi : i = 0
  · have h := hor 0 (payload.getD i 0) (by decide)
    rw [telemetryByte, if_pos hi, if_pos hi]
    exact h
  · have hbit : (payload.getD (i - 1) 0 &&& 0x01).toNat = byte payload (i - 1) % 2 := by
      rw [UInt8.toNat_and]
      exact Nat.and_one_is_mod _
    rw [telemetryByte, if_neg hi, if_neg hi, ← hbit]
    refine hor _ _ ?_
    rw [hbit]
    exact Nat.mod_lt _ Nat.zero_lt_two

/-- The number is that of the first 72 bits without the last one. -/
theorem number71_eq (payload : List UInt8) :
    number71 payload = value 256 (firstDigits payload 9) / 2 := by
  have hmain : ∀ n, value 256 (toDigits ((List.range n).map (telemetryByte payload))) =
      value 256 (firstDigits payload n) / 2 ∧
        (if n = 0 then 0 else byte payload (n - 1) % 2) =
          value 256 (firstDigits payload n) % 2 := by
    intro n
    induction n with
    | zero => exact ⟨(Nat.zero_div 2).symm, rfl⟩
    | succ n ih =>
      obtain ⟨hvalue, hcarry⟩ := ih
      have hbyte := byte_lt payload n
      have hshift : toDigits ((List.range (n + 1)).map (telemetryByte payload)) =
          toDigits ((List.range n).map (telemetryByte payload)) ++
            [(telemetryByte payload n).toNat] := by
        rw [List.range_succ, List.map_append, toDigits, List.map_append]
        rfl
      rw [hshift, firstDigits_succ, value_concat, value_concat, hvalue, toNat_telemetryByte, hcarry,
        if_neg (Nat.succ_ne_zero n), Nat.add_sub_cancel]
      omega
  exact (hmain 9).1

/-! ## Long division -/

theorem divide42_eq (b71 : List UInt8) :
    toDigits (divide42 b71).1 = (divide 256 42 (toDigits b71)).1 ∧
      (divide42 b71).2 = (divide 256 42 (toDigits b71)).2 := by
  induction b71 using List.reverseRecOn with
  | nil => exact ⟨rfl, rfl⟩
  | append_singleton b71 b ih =>
    obtain ⟨hquotient, hrem⟩ := ih
    have hlt := (divide_spec (b := 256) (by decide : 0 < 42) (toDigits b71)).1
    have hb : b.toNat < 2 ^ 8 := b.toNat_lt
    have hdigits : toDigits (b71 ++ [b]) = toDigits b71 ++ [b.toNat] := List.map_append
    have hstep : divide42 (b71 ++ [b]) =
        ((divide42 b71).1 ++ [UInt8.ofNat (((divide42 b71).2 <<< 8 ||| b.toNat) / 42)],
          ((divide42 b71).2 <<< 8 ||| b.toNat) % 42) := by
      rw [divide42, List.foldl_append]
      rfl
    -- a digit of the quotient fits into a byte, as the remainder before it is below 42
    have hsmall : ((divide 256 42 (toDigits b71)).2 * 2 ^ 8 + b.toNat) / 42 % 2 ^ 8 =
        ((divide 256 42 (toDigits b71)).2 * 2 ^ 8 + b.toNat) / 42 := by
      rw [Nat.mod_eq_of_lt]
      omega
    rw [hstep, hdigits, divide_concat, shiftLeft_or hb, hrem, step]
    refine ⟨?_, rfl⟩
    rw [toDigits, List.map_append, ← toDigits, hquotient, List.map_singleton, UInt8.toNat_ofNat',
      hsmall]
    rfl

/-- The characters are the digits of the number. -/
theorem freeChars_eq (idx : ℕ) (b71 : List UInt8) (c14 : List Char) :
    freeChars idx b71 c14 =
      unpackChars (List.replicate idx .full) (value 256 (toDigits b71)) ++ c14 := by
  induction idx generalizing b71 c14 with
  | zero => rfl
  | succ idx ih =>
    obtain ⟨hquotient, hrem⟩ := divide42_eq b71
    have hsize : CharTable.full.size = 42 := rfl
    have hnext : freeChars (idx + 1) b71 c14 =
        freeChars idx (divide42 b71).1 (charn (divide42 b71).2 .full :: c14) := rfl
    rw [hnext, ih, hquotient, hrem, value_divide (by decide), divide_snd (by decide),
      List.replicate_succ', unpackChars_concat, hsize, List.append_assoc, List.singleton_append]

theorem ftx_message_decode_free_eq (payload : List UInt8) :
    ftx_message_decode_free payload =
      trim_copy (unpackChars (List.replicate 13 .full) (number71 payload)) := by
  rw [ftx_message_decode_free, freeChars_eq, List.append_nil, number71]

/-! ## The payload of a number -/

/-- The bytes of a number of 71 bits, a subtype and the type 0. -/
def bytes71 (v n3 : ℕ) : List UInt8 := (digits 256 10 (v * 512 + n3 * 64)).map UInt8.ofNat

theorem toDigits_bytes71 (v n3 : ℕ) :
    toDigits (bytes71 v n3) = digits 256 10 (v * 512 + n3 * 64) := by
  rw [toDigits, bytes71, List.map_map]
  conv_rhs => rw [← List.map_id (digits 256 10 (v * 512 + n3 * 64))]
  refine List.map_congr_left fun x hx => ?_
  have hlt : x < 256 := lt_of_mem_digits (by decide) hx
  rw [Function.comp_apply, UInt8.toNat_ofNat', Nat.mod_eq_of_lt hlt, id]

/-- The bytes of a payload are its digits. -/
theorem firstDigits_eq {payload : List UInt8} (h : payload.length = 10) :
    firstDigits payload 10 = toDigits payload := by
  apply List.ext_getElem
  · simp [firstDigits, toDigits, h]
  · intro i hi hi'
    have hlt : i < payload.length := by simpa [toDigits] using hi'
    simp [firstDigits, toDigits, byte, List.getElem?_eq_getElem hlt]

theorem length_bytes71 (v n3 : ℕ) : (bytes71 v n3).length = 10 := by
  rw [bytes71, List.length_map, length_digits]

/-- The last bytes, and the others. -/
theorem byte_bytes71 (v n3 : ℕ) :
    firstDigits (bytes71 v n3) 9 = digits 256 9 ((v * 512 + n3 * 64) / 256) ∧
      byte (bytes71 v n3) 8 = (v * 512 + n3 * 64) / 256 % 256 ∧
      byte (bytes71 v n3) 9 = (v * 512 + n3 * 64) % 256 := by
  have hall := (firstDigits_eq (length_bytes71 v n3)).trans (toDigits_bytes71 v n3)
  rw [firstDigits_succ, digits] at hall
  obtain ⟨hnine, hlast⟩ := List.append_inj' hall rfl
  have hnine' := hnine
  rw [firstDigits_succ, digits] at hnine'
  obtain ⟨-, height⟩ := List.append_inj' hnine' rfl
  exact ⟨hnine, (List.cons.inj height).1, (List.cons.inj hlast).1⟩

theorem ftx_message_get_n3_eq (payload : List UInt8) :
    ftx_message_get_n3 payload = byte payload 8 % 2 * 2 ^ 2 + byte payload 9 / 2 ^ 6 % 2 ^ 2 := by
  have hhigh : ∀ n, n <<< 2 &&& 0x04 = (n % 2) <<< 2 := by
    intro n
    rw [← Nat.and_one_is_mod, Nat.shiftLeft_and_distrib]
    rfl
  have hlow : ∀ n, n &&& 0x03 = n % 2 ^ 2 := fun n => Nat.and_two_pow_sub_one_eq_mod n 2
  rw [ftx_message_get_n3, hhigh, hlow, Nat.shiftRight_eq_div_pow,
    shiftLeft_or (Nat.mod_lt _ (by decide))]

/-- The number and the type are read from the bytes. -/
theorem number71_bytes71 {v n3 : ℕ} (hv : v < 2 ^ 71) (hn3 : n3 < 8) :
    number71 (bytes71 v n3) = v ∧ ftx_message_get_i3 (bytes71 v n3) = 0 ∧
      ftx_message_get_n3 (bytes71 v n3) = n3 := by
  obtain ⟨hfirst, h8, h9⟩ := byte_bytes71 v n3
  refine ⟨?_, ?_, ?_⟩
  · rw [number71_eq, hfirst, value_digits, Nat.mod_eq_of_lt (by omega)]
    omega
  · rw [ftx_message_get_i3_eq, h9]
    omega
  · rw [ftx_message_get_n3_eq, h8, h9]
    omega

theorem padding_bytes71 (v n3 : ℕ) {i : ℕ} (hlow : 77 ≤ i) (hhigh : i < 80) :
    PackedBits.bit (bytes71 v n3) i = false := by
  have hbyte : i / 8 = 9 := by omega
  have h9 := (byte_bytes71 v n3).2.2
  rw [byte] at h9
  rw [PackedBits.bit, hbyte, h9, Nat.testBit_eq_decide_div_mod_eq, decide_eq_false_iff_not]
  have hcases : i = 77 ∨ i = 78 ∨ i = 79 := by omega
  rcases hcases with rfl | rfl | rfl
  · change ¬ (v * 512 + n3 * 64) % 256 / 4 % 2 = 1
    omega
  · change ¬ (v * 512 + n3 * 64) % 256 / 2 % 2 = 1
    omega
  · change ¬ (v * 512 + n3 * 64) % 256 / 1 % 2 = 1
    omega

/-- A payload of type 0. -/
def payload71 (v n3 : ℕ) : Payload :=
  ⟨bytes71 v n3, length_bytes71 v n3, fun _ hlow hhigh => padding_bytes71 v n3 hlow hhigh⟩

/-! ## Free texts -/

/-- Trimming once is enough. -/
theorem trim_copy_trim_copy (s : List Char) : trim_copy (trim_copy s) = trim_copy s := by
  have hblank : ∀ l : List Char, (∀ c ∈ l, decide (c = ' ') = true) →
      List.replicate l.length ' ' = l := by
    intro l hl
    exact (List.eq_replicate_of_mem fun c hc => of_decide_eq_true (hl c hc)).symm
  have hfront := hblank (s.takeWhile (· = ' ')) fun c hc =>
    List.mem_takeWhile_imp (p := (· = ' ')) hc
  have hback := hblank ((s.dropWhile (· = ' ')).rtakeWhile (· = ' ')) fun c hc =>
    List.mem_rtakeWhile_imp (p := (· = ' ')) hc
  have hpad := trim_copy_pad (trim_copy s) (s.takeWhile (· = ' ')).length
    ((s.dropWhile (· = ' ')).rtakeWhile (· = ' ')).length
  rw [hfront, hback, List.append_assoc] at hpad
  rw [← hpad]
  congr 1
  rw [trim_copy, List.rdropWhile_append_rtakeWhile, List.takeWhile_append_dropWhile]

theorem decode_free {σ : Type*} (hash_if : HashInterface σ) (s : σ) {payload : List UInt8}
    (h : ftx_message_get_type payload = .FTX_MESSAGE_TYPE_FREE_TEXT) :
    (ftx_message_decode hash_if payload s).1 =
      .ok (trim_copy (unpackChars (List.replicate 13 .full) (number71 payload))) := by
  rw [ftx_message_decode, h, ← ftx_message_decode_free_eq]

/-- The texts that are received as free texts are those of up to 13 characters of the alphabet,
without a blank at the ends. -/
theorem free_text_iff {σ : Type*} (hash_if : HashInterface σ) (s : σ) (text : List Char) :
    (∃ p : Payload, ftx_message_get_type p.bytes = .FTX_MESSAGE_TYPE_FREE_TEXT ∧
      (ftx_message_decode hash_if p.bytes s).1 = .ok text) ↔
      text.length ≤ 13 ∧ (∀ c ∈ text, (nchar c .full).isSome) ∧ trim_copy text = text := by
  constructor
  · rintro ⟨p, htype, htext⟩
    rw [decode_free hash_if s htype, Except.ok.injEq] at htext
    rw [← htext]
    refine ⟨?_, fun c hc => ?_, trim_copy_trim_copy _⟩
    · have hlen := length_trim_copy_le (unpackChars (List.replicate 13 .full) (number71 p.bytes))
      rwa [length_unpackChars, List.length_replicate] at hlen
    · obtain ⟨table, htable, k, hk⟩ := exists_nchar_of_packChars (length_unpackChars _ _).symm
        (packChars_unpackChars (List.replicate 13 .full) (number71 p.bytes))
        ((List.dropWhile_sublist _).subset ((List.rdropWhile_prefix _ _).subset hc))
      rw [List.eq_of_mem_replicate htable] at hk
      rw [hk]
      rfl
  · rintro ⟨hlen, hchars, htrim⟩
    -- The text is sent with blanks behind it.
    have hpad : (text ++ List.replicate (13 - text.length) ' ').length = 13 := by
      rw [List.length_append, List.length_replicate]
      omega
    have hall : ∀ c ∈ text ++ List.replicate (13 - text.length) ' ', (nchar c .full).isSome := by
      intro c hc
      rcases List.mem_append.1 hc with hc | hc
      · exact hchars c hc
      · rw [List.eq_of_mem_replicate hc]
        rfl
    have hnumber := isSome_packChars_replicate hall
    rw [hpad] at hnumber
    obtain ⟨v, hv⟩ := Option.isSome_iff_exists.1 hnumber
    obtain ⟨hlt, hread⟩ := unpackChars_of_packChars (by rw [hpad, List.length_replicate]) hv
    have hspace : space (List.replicate 13 .full) < 2 ^ 71 := by decide
    obtain ⟨hnumber, hi3, hn3⟩ := number71_bytes71 (hlt.trans hspace) (by decide : 0 < 8)
    have htype : ftx_message_get_type (payload71 v 0).bytes = .FTX_MESSAGE_TYPE_FREE_TEXT := by
      rw [ftx_message_get_type, payload71, hi3, hn3]
      rfl
    refine ⟨payload71 v 0, htype, ?_⟩
    rw [decode_free hash_if s htype, payload71, hnumber, hread]
    exact congrArg _ ((trim_copy_pad text 0 _).trans htrim)

/-! ## Telemetry -/

/-- The digits that are shown. -/
def isHex (c : Char) : Bool := is_digit c || in_range c 'A' 'F'

/-- The two digits of a byte. -/
def hexByte (b : UInt8) : List Char := [hexDigit (b.toNat >>> 4), hexDigit (b.toNat &&& 0x0F)]

theorem isHex_hexDigit : ∀ n < 16, isHex (hexDigit n) = true := by decide

theorem hexDigit_inj : ∀ m < 16, ∀ n < 16, hexDigit m = hexDigit n → m = n := by decide

theorem hexDigit_le_seven : ∀ n < 16, hexDigit n ≤ '7' → n < 8 := by decide

/-- Every digit is shown for some number. -/
theorem exists_hexDigit {c : Char} (h : isHex c = true) : ∃ n < 16, hexDigit n = c := by
  rcases Bool.or_eq_true_iff.1 h with h | h
  · obtain ⟨hlow, hhigh⟩ := Bool.and_eq_true_iff.1 h
    have hlt : c.toNat - '0'.toNat ≤ 9 := toNat_sub_le (of_decide_eq_true hhigh)
    exact ⟨c.toNat - '0'.toNat, by omega, by
      rw [hexDigit, if_neg (by omega), charAfter_sub (of_decide_eq_true hlow)]⟩
  · obtain ⟨hlow, hhigh⟩ := Bool.and_eq_true_iff.1 h
    have hlt : c.toNat - 'A'.toNat ≤ 5 := toNat_sub_le (of_decide_eq_true hhigh)
    exact ⟨c.toNat - 'A'.toNat + 10, by omega, by
      rw [hexDigit, if_pos (by omega), Nat.add_sub_cancel, charAfter_sub (of_decide_eq_true hlow)]⟩

theorem hexByte_eq (b : UInt8) :
    hexByte b = [hexDigit (b.toNat / 16), hexDigit (b.toNat % 16)] := by
  rw [hexByte, Nat.shiftRight_eq_div_pow]
  exact congrArg (fun n => [_, hexDigit n]) (Nat.and_two_pow_sub_one_eq_mod b.toNat 4)

/-- A byte is known by its digits. -/
theorem hexByte_inj {a b : UInt8} (h : hexByte a = hexByte b) : a = b := by
  have ha := a.toNat_lt
  have hb := b.toNat_lt
  rw [hexByte_eq, hexByte_eq] at h
  obtain ⟨hhigh, hlow⟩ := List.cons.inj h
  have hdiv := hexDigit_inj _ (by omega) _ (by omega) hhigh
  have hmod := hexDigit_inj _ (Nat.mod_lt _ (by decide)) _ (Nat.mod_lt _ (by decide))
    (List.cons.inj hlow).1
  apply UInt8.toNat_inj.1
  omega

/-- Bytes are known by their digits. -/
theorem flatMap_hexByte_inj {as bs : List UInt8} (h : as.flatMap hexByte = bs.flatMap hexByte) :
    as = bs := by
  induction as generalizing bs with
  | nil =>
    cases bs with
    | nil => rfl
    | cons b bs => cases h
  | cons a as ih =>
    cases bs with
    | nil => cases h
    | cons b bs =>
      rw [List.flatMap_cons, List.flatMap_cons] at h
      obtain ⟨hfirst, hrest⟩ := List.append_inj h rfl
      rw [hexByte_inj hfirst, ih hrest]

/-- Digits are those of bytes. -/
theorem exists_flatMap_hexByte (n : ℕ) {text : List Char} (hlen : text.length = 2 * n)
    (h : ∀ c ∈ text, isHex c = true) :
    ∃ bytes : List UInt8, bytes.length = n ∧ bytes.flatMap hexByte = text := by
  induction n generalizing text with
  | zero => exact ⟨[], rfl, (List.length_eq_zero_iff.1 hlen).symm⟩
  | succ n ih =>
    match text with
    | c :: d :: text =>
      obtain ⟨bytes, hbytes, htext⟩ := @ih text (by simpa [Nat.mul_succ] using hlen)
        fun c hc => h c (List.mem_cons_of_mem _ (List.mem_cons_of_mem _ hc))
      obtain ⟨i, hi, hc⟩ := exists_hexDigit (h c (by simp))
      obtain ⟨j, hj, hd⟩ := exists_hexDigit (h d (by simp))
      have hbyte : (UInt8.ofNat (i * 16 + j)).toNat = i * 16 + j := by
        rw [UInt8.toNat_ofNat', Nat.mod_eq_of_lt (by omega)]
      refine ⟨UInt8.ofNat (i * 16 + j) :: bytes, by rw [List.length_cons, hbytes], ?_⟩
      have hdiv : (i * 16 + j) / 16 = i := by omega
      have hmod : (i * 16 + j) % 16 = j := by omega
      rw [List.flatMap_cons, htext, hexByte_eq, hbyte, hdiv, hmod, hc, hd]
      rfl

/-- The last two bytes of a payload of type 0. -/
theorem last_bytes {p : Payload} (h : ftx_message_get_i3 p.bytes = 0) :
    byte p.bytes 9 % 64 = 0 ∧
      ftx_message_get_n3 p.bytes = byte p.bytes 8 % 2 * 4 + byte p.bytes 9 / 64 := by
  have hbit : ∀ k < 3, byte p.bytes 9 / 2 ^ k % 2 = 0 := by
    intro k hk
    have hpad := p.padding (79 - k) (by omega) (by omega)
    have hindex : (79 - k) / 8 = 9 := by omega
    have hplace : 7 - (79 - k) % 8 = k := by omega
    rw [PackedBits.bit, hindex, hplace, Nat.testBit_eq_decide_div_mod_eq,
      decide_eq_false_iff_not] at hpad
    exact (Nat.mod_two_eq_zero_or_one _).resolve_right hpad
  have h0 := hbit 0 (by decide)
  have h1 := hbit 1 (by decide)
  have h2 := hbit 2 (by decide)
  have hlt := byte_lt p.bytes 9
  rw [ftx_message_get_i3_eq] at h
  rw [ftx_message_get_n3_eq]
  omega

/-- Bytes are known as digits. -/
theorem toDigits_inj {as bs : List UInt8} (h : toDigits as = toDigits bs) : as = bs :=
  List.map_injective_iff.2 (fun _ _ => UInt8.toNat_inj.1) h

/-- A payload of type 0 is known by its number and its subtype. -/
theorem payload_eq {p q : Payload} (hnumber : number71 p.bytes = number71 q.bytes)
    (hp : ftx_message_get_i3 p.bytes = 0) (hq : ftx_message_get_i3 q.bytes = 0)
    (hn3 : ftx_message_get_n3 p.bytes = ftx_message_get_n3 q.bytes) : p = q := by
  obtain ⟨hp9, hp3⟩ := last_bytes hp
  obtain ⟨hq9, hq3⟩ := last_bytes hq
  have hplt := byte_lt p.bytes 9
  have hqlt := byte_lt q.bytes 9
  -- the last bits are those of the type and of the subtype
  have hlast : byte p.bytes 9 = byte q.bytes 9 := by omega
  have heighth : byte p.bytes 8 % 2 = byte q.bytes 8 % 2 := by omega
  -- so the first nine bytes have the same value, and are the same
  have hvalue : value 256 (firstDigits p.bytes 9) = value 256 (firstDigits q.bytes 9) := by
    rw [number71_eq, number71_eq, firstDigits_succ p.bytes 8, firstDigits_succ q.bytes 8,
      value_concat, value_concat] at hnumber
    rw [firstDigits_succ p.bytes 8, firstDigits_succ q.bytes 8, value_concat, value_concat]
    omega
  have hlt : ∀ payload : List UInt8, ∀ x ∈ firstDigits payload 9, x < 256 := by
    intro payload x hx
    obtain ⟨i, -, rfl⟩ := List.mem_map.1 hx
    exact byte_lt payload i
  have hnine := value_inj (by simp [firstDigits]) (hlt p.bytes) (hlt q.bytes) hvalue
  have hbytes : p.bytes = q.bytes := by
    apply toDigits_inj
    rw [← firstDigits_eq p.length_eq, ← firstDigits_eq q.length_eq, firstDigits_succ p.bytes 9,
      firstDigits_succ q.bytes 9, hnine, hlast]
  obtain ⟨bytes, _, _⟩ := p
  obtain ⟨bytes', _, _⟩ := q
  obtain rfl : bytes = bytes' := hbytes
  rfl

theorem get_type_telemetry {payload : List UInt8} :
    ftx_message_get_type payload = .FTX_MESSAGE_TYPE_TELEMETRY ↔
      ftx_message_get_i3 payload = 0 ∧ ftx_message_get_n3 payload = 5 := by
  unfold ftx_message_get_type
  split
  · split <;> simp_all
  all_goals simp_all

theorem decode_telemetry {σ : Type*} (hash_if : HashInterface σ) (s : σ) {payload : List UInt8}
    (h : ftx_message_get_type payload = .FTX_MESSAGE_TYPE_TELEMETRY) :
    (ftx_message_decode hash_if payload s).1 =
      .ok ((ftx_message_decode_telemetry payload).flatMap hexByte) := by
  rw [ftx_message_decode, h]
  rfl

/-- A payload of telemetry is known by its digits. -/
theorem payload_eq_of_hex {p q : Payload}
    (hp : ftx_message_get_type p.bytes = .FTX_MESSAGE_TYPE_TELEMETRY)
    (hq : ftx_message_get_type q.bytes = .FTX_MESSAGE_TYPE_TELEMETRY)
    (h : (ftx_message_decode_telemetry p.bytes).flatMap hexByte =
      (ftx_message_decode_telemetry q.bytes).flatMap hexByte) : p = q := by
  obtain ⟨hpi3, hpn3⟩ := get_type_telemetry.1 hp
  obtain ⟨hqi3, hqn3⟩ := get_type_telemetry.1 hq
  refine payload_eq ?_ hpi3 hqi3 (hpn3.trans hqn3.symm)
  rw [number71, number71, flatMap_hexByte_inj h]

/-- The digits of a payload: the first one has three bits only. -/
theorem hex_of_telemetry (p : Payload) :
    (∀ c ∈ (ftx_message_decode_telemetry p.bytes).flatMap hexByte, isHex c = true) ∧
      charAt ((ftx_message_decode_telemetry p.bytes).flatMap hexByte) 0 ≤ '7' := by
  constructor
  · intro c hc
    obtain ⟨b, -, hc⟩ := List.mem_flatMap.1 hc
    have hb := b.toNat_lt
    rw [hexByte_eq] at hc
    rcases List.mem_cons.1 hc with rfl | hc
    · exact isHex_hexDigit _ (by omega)
    · rw [List.mem_singleton.1 hc]
      exact isHex_hexDigit _ (Nat.mod_lt _ (by decide))
  · have hbyte := byte_lt p.bytes 0
    have hfirst : (telemetryByte p.bytes 0).toNat / 16 < 8 := by
      rw [toNat_telemetryByte, if_pos rfl]
      omega
    have hseven : ∀ n < 8, hexDigit n ≤ '7' := by decide
    have hchar : charAt ((ftx_message_decode_telemetry p.bytes).flatMap hexByte) 0 =
        hexDigit ((telemetryByte p.bytes 0).toNat >>> 4) := rfl
    rw [hchar, Nat.shiftRight_eq_div_pow]
    exact hseven _ hfirst

/-- Nine bytes with 71 bits are those of a payload. -/
theorem exists_telemetry {bytes : List UInt8} (hbytes : bytes.length = 9)
    (hseven : charAt (bytes.flatMap hexByte) 0 ≤ '7') :
    ∃ p : Payload, ftx_message_get_type p.bytes = .FTX_MESSAGE_TYPE_TELEMETRY ∧
      ftx_message_decode_telemetry p.bytes = bytes := by
  -- with the first digit up to 7 the number has 71 bits
  have hvalue : value 256 (toDigits bytes) < 2 ^ 71 := by
    cases bytes with
    | nil => cases hbytes
    | cons b rest =>
      rw [List.flatMap_cons, hexByte_eq] at hseven
      have hfirst := hexDigit_le_seven _ (by have := b.toNat_lt; omega) hseven
      have hlt := value_lt (b := 256) (@lt_of_mem_toDigits rest)
      have hrest : (toDigits rest).length = 8 := by
        rw [toDigits, List.length_map]
        exact Nat.succ_inj.1 hbytes
      rw [hrest] at hlt
      have hcons : toDigits (b :: rest) = b.toNat :: toDigits rest := rfl
      rw [hcons, value_cons, hrest]
      omega
  obtain ⟨hnumber, hi3, hn3⟩ := number71_bytes71 hvalue (by decide : 5 < 8)
  refine ⟨payload71 (value 256 (toDigits bytes)) 5, get_type_telemetry.2 ⟨hi3, hn3⟩, ?_⟩
  apply toDigits_inj
  refine value_inj ?_ lt_of_mem_toDigits lt_of_mem_toDigits hnumber
  rw [toDigits, toDigits, List.length_map, List.length_map, hbytes]
  rfl

/-- The texts that are received as telemetry are those of 18 hexadecimal digits, with capital
letters and the first digit up to 7, and no two payloads are received as the same text. -/
theorem telemetry_iff {σ : Type*} (hash_if : HashInterface σ) (s : σ) (text : List Char) :
    ((∃ p : Payload, ftx_message_get_type p.bytes = .FTX_MESSAGE_TYPE_TELEMETRY ∧
      (ftx_message_decode hash_if p.bytes s).1 = .ok text) ↔
      text.length = 18 ∧ (∀ c ∈ text, isHex c = true) ∧ charAt text 0 ≤ '7') ∧
    ∀ p q : Payload, ftx_message_get_type p.bytes = .FTX_MESSAGE_TYPE_TELEMETRY →
      ftx_message_get_type q.bytes = .FTX_MESSAGE_TYPE_TELEMETRY →
      (ftx_message_decode hash_if p.bytes s).1 = .ok text →
      (ftx_message_decode hash_if q.bytes s).1 = .ok text → p = q := by
  refine ⟨⟨?_, ?_⟩, fun p q hp hq hptext hqtext => ?_⟩
  · rintro ⟨p, htype, htext⟩
    rw [decode_telemetry hash_if s htype, Except.ok.injEq] at htext
    rw [← htext]
    exact ⟨rfl, hex_of_telemetry p⟩
  · rintro ⟨hlen, hhex, hseven⟩
    obtain ⟨bytes, hbytes, rfl⟩ := exists_flatMap_hexByte 9 hlen hhex
    obtain ⟨p, htype, hread⟩ := exists_telemetry hbytes hseven
    refine ⟨p, htype, ?_⟩
    rw [decode_telemetry hash_if s htype, hread]
  · rw [decode_telemetry hash_if s hp, Except.ok.injEq] at hptext
    rw [decode_telemetry hash_if s hq, Except.ok.injEq] at hqtext
    exact payload_eq_of_hex hp hq (hptext.trans hqtext.symm)

end GranolaSdr.Ft8
