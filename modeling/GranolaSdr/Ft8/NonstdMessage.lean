import GranolaSdr.Ft8.MessageCodec

/-!
# Messages with a callsign in full

The messages of type 4 have one callsign in 58 bits, and only the hash of the other one. What is put
into their fields is read back, but the encoder rarely makes them: it first tries a standard
message, where a callsign that is not standard is only a hash as well.

## Main results

* `decode_encode_nonstd`: what is read of a message with a callsign in full;
* `type_of_encode`: a text is only encoded so where the suffixes of its callsigns exclude each
  other;
* `decode_encode_hashed`: in all other texts without brackets a callsign that is not standard is not
  sent.
-/

namespace GranolaSdr.Ft8

/-! ## Fields -/

/-- The bytes of a packed message. -/
theorem byte_packNonstd {n12 n58 nrpt : ℕ} (h12 : n12 < 2 ^ 12) (h58 : n58 < 2 ^ 58)
    (hnrpt : nrpt < 2 ^ 2) (iflip icq : Bool) :
    (List.range 10).map (byte (packNonstd n12 n58 iflip.toNat nrpt icq.toNat)) =
      [n12 / 2 ^ 4, n12 % 2 ^ 4 * 2 ^ 4 + n58 / 2 ^ 54, n58 / 2 ^ 46 % 2 ^ 8, n58 / 2 ^ 38 % 2 ^ 8,
        n58 / 2 ^ 30 % 2 ^ 8, n58 / 2 ^ 22 % 2 ^ 8, n58 / 2 ^ 14 % 2 ^ 8, n58 / 2 ^ 6 % 2 ^ 8,
        n58 % 2 ^ 6 * 2 ^ 2 + (iflip.toNat * 2 + nrpt / 2),
        nrpt % 2 * 2 ^ 7 + (icq.toNat * 2 ^ 6 + 2 ^ 5)] := by
  have hshift : ∀ n k, (UInt8.ofNat (n >>> k)).toNat = n / 2 ^ k % 2 ^ 8 := by
    intro n k
    rw [UInt8.toNat_ofNat', Nat.shiftRight_eq_div_pow]
  have hflip := Bool.toNat_lt iflip
  have hcq := Bool.toNat_lt icq
  have hfirst : (UInt8.ofNat (n12 >>> 4)).toNat = n12 / 2 ^ 4 := by
    rw [hshift, Nat.mod_eq_of_lt (by omega)]
  have hsecond : (UInt8.ofNat (n12 <<< 4) ||| UInt8.ofNat (n58 >>> 54)).toNat =
      n12 % 2 ^ 4 * 2 ^ 4 + n58 / 2 ^ 54 := by
    rw [toNat_or (by decide) (by rw [Nat.shiftRight_eq_div_pow]; omega), Nat.shiftRight_eq_div_pow]
  have hor : ∀ a b : ℕ, UInt8.ofNat a ||| UInt8.ofNat b = UInt8.ofNat (a ||| b) := by
    intro a b
    apply UInt8.toNat_inj.1
    rw [UInt8.toNat_or, UInt8.toNat_ofNat', UInt8.toNat_ofNat', UInt8.toNat_ofNat',
      Nat.or_mod_two_pow]
  have hninth : (UInt8.ofNat (n58 <<< 2) ||| UInt8.ofNat (iflip.toNat <<< 1) |||
      UInt8.ofNat (nrpt >>> 1)).toNat = n58 % 2 ^ 6 * 2 ^ 2 + (iflip.toNat * 2 + nrpt / 2) := by
    rw [UInt8.or_assoc, hor (iflip.toNat <<< 1), Nat.shiftRight_eq_div_pow,
      shiftLeft_or (k := 1) (by omega), toNat_or (by decide) (by omega)]
    rfl
  have hlast : (UInt8.ofNat (nrpt <<< 7) ||| UInt8.ofNat (icq.toNat <<< 6) |||
      UInt8.ofNat (4 <<< 3)).toNat = nrpt % 2 * 2 ^ 7 + (icq.toNat * 2 ^ 6 + 2 ^ 5) := by
    rw [UInt8.or_assoc, hor (icq.toNat <<< 6), show 4 <<< 3 = 2 ^ 5 from rfl,
      shiftLeft_or (k := 6) (by decide), toNat_or (by decide) (by omega)]
    rfl
  rw [← hfirst, ← hsecond, ← hninth, ← hlast]
  simp only [← hshift]
  rfl

/-- The fields are taken from where they were put. -/
theorem unpackNonstd_packNonstd {n12 n58 nrpt : ℕ} (h12 : n12 < 2 ^ 12) (h58 : n58 < 2 ^ 58)
    (hnrpt : nrpt < 2 ^ 2) (iflip icq : Bool) :
    unpackNonstd (packNonstd n12 n58 iflip.toNat nrpt icq.toNat) = ⟨n12, n58, iflip, nrpt, icq⟩ ∧
      ftx_message_get_i3 (packNonstd n12 n58 iflip.toNat nrpt icq.toNat) = 4 := by
  have hbytes := byte_packNonstd h12 h58 hnrpt iflip icq
  have hflip := Bool.toNat_lt iflip
  have hcq := Bool.toNat_lt icq
  -- what shifts and masks take from the bytes, in terms of quotients and remainders
  have hhigh : n58 / 2 ^ 54 < 2 ^ 4 := by omega
  have hlow : iflip.toNat * 2 + nrpt / 2 < 2 ^ 2 := by omega
  have hflags : icq.toNat * 2 ^ 6 + 2 ^ 5 < 2 ^ 7 := by omega
  have hshift : (n58 % 2 ^ 6 * 2 ^ 2 + (iflip.toNat * 2 + nrpt / 2)) / 2 ^ 1 % 2 ^ 1 =
      iflip.toNat := by omega
  have hrest : (n58 % 2 ^ 6 * 2 ^ 2 + (iflip.toNat * 2 + nrpt / 2)) % 2 ^ 1 = nrpt / 2 ^ 1 := by
    omega
  have hshift' : (nrpt % 2 * 2 ^ 7 + (icq.toNat * 2 ^ 6 + 2 ^ 5)) / 2 ^ 6 % 2 ^ 1 = icq.toNat := by
    omega
  have hi3 : (nrpt % 2 * 2 ^ 7 + (icq.toNat * 2 ^ 6 + 2 ^ 5)) / 2 ^ 3 % 2 ^ 3 = 4 := by omega
  generalize packNonstd n12 n58 iflip.toNat nrpt icq.toNat = payload at hbytes ⊢
  obtain ⟨h0, h1, h2, h3, h4, h5, h6, h7, h8, h9⟩ := bytes_of_map hbytes
  have hmask1 : ∀ n, n &&& 0x01 = n % 2 ^ 1 := fun n => Nat.and_two_pow_sub_one_eq_mod n 1
  have hmask4 : ∀ n, n &&& 0x0F = n % 2 ^ 4 := fun n => Nat.and_two_pow_sub_one_eq_mod n 4
  have hn12 : byte payload 0 <<< 4 ||| byte payload 1 >>> 4 = n12 := by
    rw [Nat.shiftRight_eq_div_pow, h0, h1, high_part hhigh, Nat.shiftLeft_eq, or_last]
  have hn58 : (byte payload 1 &&& 0x0F) <<< 54 ||| byte payload 2 <<< 46 |||
      byte payload 3 <<< 38 ||| byte payload 4 <<< 30 ||| byte payload 5 <<< 22 |||
      byte payload 6 <<< 14 ||| byte payload 7 <<< 6 ||| byte payload 8 >>> 2 = n58 := by
    -- the number has its first bits in byte 1 and its last ones in byte 8
    have hfront : (byte payload 1 &&& 0x0F) <<< 54 = n58 / 2 ^ 54 * 2 ^ 54 := by
      rw [hmask4, h1, low_part hhigh, Nat.shiftLeft_eq]
    have hback : byte payload 8 >>> 2 = n58 % 2 ^ 6 := by
      rw [Nat.shiftRight_eq_div_pow, h8, high_part hlow]
    rw [hfront, or_byte rfl h2, or_byte rfl h3, or_byte rfl h4, or_byte rfl h5, or_byte rfl h6,
      or_byte rfl h7, hback, or_last]
  have hflag : ∀ {n : ℕ} {b : Bool}, n % 2 ^ 1 = b.toNat → (n &&& 0x01 != 0) = b := by
    intro n b h
    rw [hmask1, h]
    cases b <;> rfl
  have hiflip : (byte payload 8 >>> 1 &&& 0x01 != 0) = iflip := by
    apply hflag
    rw [Nat.shiftRight_eq_div_pow, h8, hshift]
  have hreport : (byte payload 8 &&& 0x01) <<< 1 ||| byte payload 9 >>> 7 = nrpt := by
    rw [hmask1, Nat.shiftRight_eq_div_pow, h8, hrest, h9, high_part hflags, Nat.shiftLeft_eq]
    exact or_last nrpt 1
  have hicq : (byte payload 9 >>> 6 &&& 0x01 != 0) = icq := by
    apply hflag
    rw [Nat.shiftRight_eq_div_pow, h9, hshift']
  have htype : ftx_message_get_i3 payload = 4 := by
    rw [ftx_message_get_i3_eq, h9, hi3]
  exact ⟨by rw [unpackNonstd, hn12, hn58, hiflip, hreport, hicq], htype⟩

/-! ## Callsigns in full -/

/-- A number that is too small for all characters has blanks in front. -/
theorem unpackChars_replicate_pad (front : ℕ) {len n : ℕ}
    (h : n < space (List.replicate len .alphanumSpaceSlash)) :
    unpackChars (List.replicate (front + len) .alphanumSpaceSlash) n =
      List.replicate front ' ' ++ unpackChars (List.replicate len .alphanumSpaceSlash) n := by
  induction len generalizing n with
  | zero =>
    -- the number zero is read as blanks
    obtain rfl : n = 0 := Nat.lt_one_iff.1 h
    have hblank : ∀ k, unpackChars (List.replicate k .alphanumSpaceSlash) 0 =
        List.replicate k ' ' := by
      intro k
      induction k with
      | zero => rfl
      | succ k ih =>
        rw [List.replicate_succ', unpackChars_concat, Nat.zero_div, ih, List.replicate_succ']
        rfl
    rw [hblank, hblank]
    exact (List.append_nil _).symm
  | succ len ih =>
    -- the last character is taken off on both sides
    have hspace : space (List.replicate (len + 1) .alphanumSpaceSlash) =
        space (List.replicate len .alphanumSpaceSlash) * CharTable.alphanumSpaceSlash.size := by
      simp [space, pow_succ]
    rw [hspace] at h
    rw [← Nat.add_assoc, List.replicate_succ', unpackChars_concat,
      ih (Nat.div_lt_of_lt_mul (by rwa [Nat.mul_comm])), List.append_assoc, List.replicate_succ',
      unpackChars_concat]

/-- The number of a callsign has 58 bits. -/
theorem n58_lt {callsign : List Char} (hlen : callsign.length ≤ 11) {n58 : ℕ}
    (h : packChars (List.replicate callsign.length .alphanumSpaceSlash) callsign = some n58) :
    n58 < 2 ^ 58 := by
  have hspace := (unpackChars_of_packChars List.length_replicate h).1
  have hpow : space (List.replicate callsign.length .alphanumSpaceSlash) =
      38 ^ callsign.length := by
    rw [space, List.map_replicate, List.prod_replicate]
    rfl
  rw [hpow] at hspace
  have hmax : 38 ^ callsign.length ≤ 38 ^ 11 := Nat.pow_le_pow_right (by decide) hlen
  omega

/-- The number of a callsign without blanks is read back. -/
theorem trim_copy_unpackChars {callsign : List Char} (hblank : ' ' ∉ callsign)
    (hlen : callsign.length ≤ 11) {n58 : ℕ}
    (h : packChars (List.replicate callsign.length .alphanumSpaceSlash) callsign = some n58) :
    trim_copy (unpackChars (List.replicate 11 .alphanumSpaceSlash) n58) = callsign := by
  obtain ⟨hspace, hread⟩ := unpackChars_of_packChars List.length_replicate h
  have hpad := unpackChars_replicate_pad (11 - callsign.length) hspace
  rw [Nat.sub_add_cancel hlen, hread] at hpad
  have htrim := trim_copy_pad callsign (11 - callsign.length) 0
  rw [List.replicate_zero, List.append_nil] at htrim
  rw [hpad, htrim, trim_copy_of_notMem hblank]

/-- The hash of a callsign that is not too long is that of its number. -/
theorem callsign58_eq {callsign : List Char} (hlen : callsign.length ≤ 11) :
    callsign58 callsign =
      (packChars (List.replicate callsign.length .alphanumSpaceSlash) callsign).map
        (· * 38 ^ (11 - callsign.length)) := by
  rw [callsign58, List.take_of_length_le hlen]

section Nonstd

variable {σ τ : Type*} {hash_if : HashInterface σ} {hash_if' : HashInterface τ}

/-- A callsign without brackets is packed as it is. -/
theorem pack58_fst {callsign : List Char} (hbracket : '<' ∉ callsign) (hlen : callsign.length ≤ 11)
    (s : σ) : (pack58 hash_if callsign s).1 =
      packChars (List.replicate callsign.length .alphanumSpaceSlash) callsign := by
  have hfirst : charAt callsign 0 ≠ '<' := by
    intro h
    cases callsign with
    | nil => exact absurd h (by decide)
    | cons c rest => exact hbracket (h ▸ List.mem_cons_self)
  have hsrc : callsign.takeWhile (· ≠ '<') = callsign :=
    List.takeWhile_eq_self_iff.2 fun c hc => decide_eq_true fun h => hbracket (h ▸ hc)
  rw [pack58, if_neg hfirst, hsrc, List.take_of_length_le hlen]
  cases hpack : packChars (List.replicate callsign.length .alphanumSpaceSlash) callsign with
  | none => rfl
  | some n58 =>
    dsimp only
    rw [save_callsign_fst, callsign58_eq hlen, hpack]
    rfl

/-- The callsign that the other one is the hash of. -/
def HashOf (call_to : List Char) (n22 : ℕ) : Prop :=
  call_to = ['C', 'Q'] ∧ n22 = 0 ∨ call_to ≠ ['C', 'Q'] ∧ 3 ≤ call_to.length ∧
    ∃ n58, callsign58 call_to = some n58 ∧ n22 = hash22 n58

/-- What is encoded once the hash of the other callsign is there. -/
def fullMessage (hash_if : HashInterface σ) (call_de extra : List Char) (icq : Bool) (n22 : ℕ)
    (s : σ) : Except ftx_message_rc_t (List UInt8) × σ :=
  match (pack58 hash_if call_de s).1 with
  | none => (.error .FTX_MESSAGE_RC_ERROR_CALLSIGN2, (pack58 hash_if call_de s).2)
  | some n58 =>
    (.ok (packNonstd (n22 >>> 10) n58 false.toNat (reportNumber icq extra) icq.toNat),
      (pack58 hash_if call_de s).2)

theorem fullMessage_eq_ok_iff {call_de extra : List Char} {payload : List UInt8}
    (hbracket : '<' ∉ call_de) (hlen : call_de.length ≤ 11) (icq : Bool) (n22 : ℕ) (s : σ) :
    (fullMessage hash_if call_de extra icq n22 s).1 = .ok payload ↔
      ∃ n58, packChars (List.replicate call_de.length .alphanumSpaceSlash) call_de = some n58 ∧
        payload = packNonstd (n22 >>> 10) n58 false.toNat (reportNumber icq extra) icq.toNat := by
  rw [fullMessage, pack58_fst hbracket hlen]
  cases packChars (List.replicate call_de.length .alphanumSpaceSlash) call_de with
  | none => exact iff_of_false (fun h => by cases h) (fun ⟨_, h, _⟩ => by cases h)
  | some n58 =>
    dsimp only
    rw [Except.ok.injEq]
    exact ⟨fun h => ⟨n58, rfl, h.symm⟩, fun ⟨_, h, hpayload⟩ => by cases h; exact hpayload.symm⟩

/-- The messages that are encoded, where the callsign in full has no brackets. -/
theorem encode_nonstd_eq_ok_iff {call_to call_de extra : List Char} {s : σ} {payload : List UInt8}
    (hbracket : '<' ∉ call_de) (hlen : call_de.length ≤ 11) :
    (ftx_message_encode_nonstd hash_if call_to call_de extra s).1 = .ok payload ↔
      3 ≤ call_de.length ∧ ∃ n22 n58, HashOf call_to n22 ∧
        packChars (List.replicate call_de.length .alphanumSpaceSlash) call_de = some n58 ∧
        payload = packNonstd (n22 >>> 10) n58 false.toNat
          (reportNumber (call_to = ['C', 'Q']) extra) (decide (call_to = ['C', 'Q'])).toNat := by
  -- without a bracket the callsigns are not exchanged
  have hflip : (decide (charAt call_de 0 = '<')) = false := by
    apply decide_eq_false
    intro h
    cases call_de with
    | nil => exact absurd h (by decide)
    | cons c rest => exact hbracket (h ▸ List.mem_cons_self)
  unfold ftx_message_encode_nonstd
  simp only [hflip, Bool.false_and, Bool.and_false, Bool.false_eq_true, if_false]
  by_cases hshort : call_de.length < 3
  · refine iff_of_false (fun h => ?_) fun h => absurd h.1 (Nat.not_le.2 hshort)
    rw [if_pos hshort] at h
    split_ifs at h
  · rw [if_neg hshort]
    by_cases hcq : call_to = ['C', 'Q']
    · -- after CQ no hash is sent
      have hhash : ∀ n22, HashOf call_to n22 ↔ n22 = 0 := fun n22 =>
        ⟨fun h => h.elim And.right fun h => absurd hcq h.1, fun h => Or.inl ⟨hcq, h⟩⟩
      simp only [hcq, decide_true, Bool.not_true, Bool.false_and, Bool.false_eq_true, if_false,
        if_true] at hhash ⊢
      simp only [hhash]
      refine (fullMessage_eq_ok_iff hbracket hlen true 0 s).trans ⟨fun ⟨n58, h⟩ =>
        ⟨Nat.not_lt.1 hshort, 0, n58, rfl, h⟩, ?_⟩
      rintro ⟨-, n22, n58, rfl, h⟩
      exact ⟨n58, h⟩
    · -- otherwise it is the hash of the first callsign, which has to be long enough
      have hcq' : decide (call_to = ['C', 'Q']) = false := decide_eq_false hcq
      have hhash : ∀ n22, HashOf call_to n22 ↔ 3 ≤ call_to.length ∧
          (save_callsign hash_if call_to s).1 = some n22 := by
        intro n22
        rw [save_callsign_fst, Option.map_eq_some_iff]
        exact ⟨fun h => h.elim (fun h => absurd h.1 hcq) fun ⟨_, hlen, n58, h, hn⟩ =>
          ⟨hlen, n58, h, hn.symm⟩, fun ⟨hlen, n58, h, hn⟩ => Or.inr ⟨hcq, hlen, n58, h, hn.symm⟩⟩
      simp only [hcq', Bool.not_false, Bool.true_and, decide_eq_true_eq, Bool.false_eq_true,
        if_false]
      simp only [hhash]
      generalize save_callsign hash_if call_to s = saved
      obtain ⟨n22, s'⟩ := saved
      by_cases hlow : call_to.length < 3
      · rw [if_pos hlow]
        exact iff_of_false (fun h => by cases h)
          fun ⟨_, _, _, h, _⟩ => absurd h.1 (Nat.not_le.2 hlow)
      · rw [if_neg hlow]
        cases n22 with
        | none => exact iff_of_false (fun h => by cases h) fun ⟨_, _, _, ⟨_, h⟩, _⟩ => by cases h
        | some n22 =>
          refine (fullMessage_eq_ok_iff hbracket hlen false n22 s').trans ⟨fun ⟨n58, h⟩ =>
            ⟨Nat.not_lt.1 hshort, n22, n58, ⟨Nat.not_lt.1 hlow, rfl⟩, h⟩, ?_⟩
          rintro ⟨-, _, n58, ⟨-, h22⟩, h⟩
          cases h22
          exact ⟨n58, h⟩

/-- The fields of a message with a callsign in full. -/
theorem fields_of_encode_nonstd {call_to call_de extra : List Char} {s : σ} {payload : List UInt8}
    (hbracket : '<' ∉ call_de) (hlen : call_de.length ≤ 11)
    (h : (ftx_message_encode_nonstd hash_if call_to call_de extra s).1 = .ok payload) :
    ftx_message_get_type payload = .FTX_MESSAGE_TYPE_NONSTD_CALL ∧ 3 ≤ call_de.length ∧
      ∃ n22 n58, HashOf call_to n22 ∧
        packChars (List.replicate call_de.length .alphanumSpaceSlash) call_de = some n58 ∧
        unpackNonstd payload = ⟨n22 >>> 10, n58, false,
          reportNumber (call_to = ['C', 'Q']) extra, call_to = ['C', 'Q']⟩ := by
  obtain ⟨hlow, n22, n58, hhash, hpack, rfl⟩ := (encode_nonstd_eq_ok_iff hbracket hlen).1 h
  have hn12 : n22 >>> 10 < 2 ^ 12 := by
    have hn22 : n22 < 2 ^ 22 := by
      rcases hhash with ⟨-, rfl⟩ | ⟨-, -, n58', -, rfl⟩
      · decide
      · exact hash22_lt_max n58'
    rw [Nat.shiftRight_eq_div_pow]
    omega
  have hnrpt : ∀ icq, reportNumber icq extra < 2 ^ 2 := by
    intro icq
    unfold reportNumber
    split_ifs <;> decide
  obtain ⟨hfields, hi3⟩ := unpackNonstd_packNonstd hn12 (n58_lt hlen hpack)
    (hnrpt (call_to = ['C', 'Q'])) false (call_to = ['C', 'Q'])
  refine ⟨?_, hlow, n22, n58, hhash, hpack, hfields⟩
  rw [ftx_message_get_type, hi3]
  rfl

/-- What is read of a message with a callsign in full, where that is the second one, without blanks
and opening brackets and of at most eleven characters: this callsign as it was, of the other one
what its hash of twelve bits is resolved to, and the word behind them if there is a number for it.
After `CQ` the word is dropped. -/
theorem decode_encode_nonstd {call_to call_de extra : List Char} {s : σ} {payload : List UInt8}
    (hblank : ' ' ∉ call_de) (hbracket : '<' ∉ call_de) (hlen : call_de.length ≤ 11)
    (h : (ftx_message_encode_nonstd hash_if call_to call_de extra s).1 = .ok payload) (s' : τ) :
    ∃ n22, HashOf call_to n22 ∧ (ftx_message_decode hash_if' payload s').1 =
      .ok (if call_to = ['C', 'Q'] then ftx_message_text ['C', 'Q'] call_de []
        else ftx_message_text (lookup_callsign hash_if' .FTX_CALLSIGN_HASH_12_BITS (n22 >>> 10)
          (save_callsign hash_if' call_de s').2) call_de
          (reportText (reportNumber false extra))) := by
  obtain ⟨htype, hlow, n22, n58, hhash, hpack, hfields⟩ := fields_of_encode_nonstd hbracket hlen h
  refine ⟨n22, hhash, ?_⟩
  rw [ftx_message_decode, htype]
  dsimp only
  rw [ftx_message_decode_nonstd, hfields, unpack58]
  dsimp only
  rw [trim_copy_unpackChars hblank hlen hpack, if_pos hlow]
  by_cases hcq : call_to = ['C', 'Q']
  · rw [decide_eq_true hcq, if_pos hcq]
    rfl
  · rw [decide_eq_false hcq, if_neg hcq]
    rfl

/-- The message that `K1ABC/P W9XYZ/R RR73` is encoded to. -/
def suffixes : List UInt8 := [80, 32, 0, 0, 93, 87, 196, 243, 73, 32]

theorem decode_encode_suffixes :
    ∃ n22, HashOf "K1ABC/P".toList n22 ∧ (ftx_message_decode .null suffixes ()).1 =
      .ok (if "K1ABC/P".toList = ['C', 'Q'] then ftx_message_text ['C', 'Q'] "W9XYZ/R".toList []
        else ftx_message_text (lookup_callsign .null .FTX_CALLSIGN_HASH_12_BITS (n22 >>> 10)
          (save_callsign .null "W9XYZ/R".toList ()).2) "W9XYZ/R".toList
          (reportText (reportNumber false "RR73".toList))) :=
  @decode_encode_nonstd Unit Unit .null .null "K1ABC/P".toList "W9XYZ/R".toList "RR73".toList ()
    suffixes (by decide) (by decide) (by decide) (by decide +kernel) ()

/-! ## Which texts are sent so -/

/-- Callsigns with a hash are packed, if they are neither too short nor too long. -/
theorem exists_pack28 {callsign : List Char} (hlow : 3 ≤ callsign.length)
    (hlen : callsign.length ≤ 11) {n58 : ℕ} (h : callsign58 callsign = some n58) (s : σ) :
    ∃ n28 ip, (pack28 hash_if callsign s).1 = some (n28, ip) := by
  -- no callsign with a hash starts with CQ_, as the underscore has no index
  have hword : starts_with callsign ['C', 'Q', '_'] = false := by
    apply Bool.eq_false_iff.2
    intro hstart
    obtain ⟨rest, rfl⟩ := List.isPrefixOf_iff_prefix.1 hstart
    rw [callsign58_eq hlen] at h
    obtain ⟨n, hn, -⟩ := Option.map_eq_some_iff.1 h
    have hmem : '_' ∈ ['C', 'Q', '_'] ++ rest := List.mem_append_left _ (by decide)
    obtain ⟨table, htable, k, hk⟩ := exists_nchar_of_packChars List.length_replicate hn hmem
    have hnone : nchar '_' .alphanumSpaceSlash = none := by decide
    rw [List.eq_of_mem_replicate htable, hnone] at hk
    cases hk
  have hsave : (save_callsign hash_if callsign s).1 = some (hash22 n58) := by
    rw [save_callsign_fst, h]
    rfl
  unfold pack28
  split_ifs with hDE hQRZ hCQ hstart hfits
  · exact ⟨_, _, rfl⟩
  · exact ⟨_, _, rfl⟩
  · exact ⟨_, _, rfl⟩
  · rw [hword] at hstart
    cases hstart.1
  · split
    · dsimp only
      rw [hsave]
      exact ⟨_, _, rfl⟩
    · dsimp only
      rw [hsave]
      exact ⟨_, _, rfl⟩
  · exact absurd ⟨hlow, hlen⟩ hfits

/-- What could be sent with a callsign in full is sent as a standard message, unless the suffixes
exclude each other. -/
theorem exists_encode_std {call_to call_de extra : List Char} {s₁ : σ} {payload : List UInt8}
    (hbracket : '<' ∉ call_de) (hlto : call_to.length ≤ 11) (hlde : call_de.length ≤ 11)
    (h : (ftx_message_encode_nonstd hash_if call_to call_de extra s₁).1 = .ok payload)
    (hmix : ¬ (anyEnds call_to call_de ['/', 'P'] && anyEnds call_to call_de ['/', 'R']) = true)
    (s : σ) :
    ∃ payload', (ftx_message_encode_std hash_if call_to call_de extra s).1 = .ok payload' := by
  obtain ⟨hlow, n22, n58, hhash, hpack, -⟩ := (encode_nonstd_eq_ok_iff hbracket hlde).1 h
  have hto : ∃ n28 ip, (pack28 hash_if call_to s).1 = some (n28, ip) := by
    rcases hhash with ⟨rfl, -⟩ | ⟨-, hlow', n58', hn58', -⟩
    · exact ⟨2, false, rfl⟩
    · exact exists_pack28 hlow' hlto hn58' s
  have hde : callsign58 call_de = some (n58 * 38 ^ (11 - call_de.length)) := by
    rw [callsign58_eq hlde, hpack]
    rfl
  obtain ⟨n28a, ipa, ha⟩ := hto
  obtain ⟨n28b, ipb, hb⟩ : ∃ n28 ip, (pack28 hash_if call_de (pack28 hash_if call_to s).2).1 =
      some (n28, ip) :=
    exists_pack28 hlow hlde hde _
  exact ⟨_, encode_std_eq_ok_iff.2 ⟨n28a, ipa, n28b, ipb, ha, hb, hmix, rfl⟩⟩

/-- The two ways in which a text is encoded, if its second callsign has no brackets. -/
theorem encode_cases {text : List Char} {s : σ} {payload : List UInt8}
    (h : (ftx_message_encode hash_if text s).1 = .ok payload)
    (hbracket : '<' ∉ (copy_token 12 (copy_token 12 text).2).1) :
    let call_to := (copy_token 12 text).1
    let call_de := (copy_token 12 (copy_token 12 text).2).1
    let extra := (copy_token 20 (copy_token 12 (copy_token 12 text).2).2).1
    let mix := anyEnds call_to call_de ['/', 'P'] && anyEnds call_to call_de ['/', 'R']
    call_de.length ≤ 11 ∧
      (mix = false ∧ (ftx_message_encode_std hash_if call_to call_de extra s).1 = .ok payload ∨
        mix = true ∧
          ∃ s', (ftx_message_encode_nonstd hash_if call_to call_de extra s').1 = .ok payload) := by
  unfold ftx_message_encode at h
  dsimp only at h ⊢
  split_ifs at h with hlto hlde hextra
  have hlto := Nat.not_lt.1 hlto
  have hlde := Nat.not_lt.1 hlde
  refine ⟨hlde, ?_⟩
  generalize (copy_token 12 text).1 = call_to, (copy_token 12 (copy_token 12 text).2).1 = call_de,
    (copy_token 20 (copy_token 12 (copy_token 12 text).2).2).1 = extra at h hbracket hlto hlde ⊢
  unfold encodeFields at h
  generalize hstd : ftx_message_encode_std hash_if call_to call_de extra s = r at h ⊢
  obtain ⟨rc | payload', s'⟩ := r
  · -- the standard message was refused, which only the suffixes can be the reason for
    refine Or.inr ⟨?_, s', h⟩
    by_contra hmix
    obtain ⟨payload', hok⟩ := exists_encode_std hbracket hlto hlde h hmix s
    rw [hstd] at hok
    cases hok
  · obtain rfl := Except.ok.inj h
    obtain ⟨-, -, -, -, -, -, hmix, -⟩ := encode_std_eq_ok_iff.1 (congrArg Prod.fst hstd)
    exact Or.inl ⟨Bool.eq_false_iff.2 hmix, rfl⟩

/-- The type of a message that a text is encoded to, if its second word has no opening bracket. Only
where the suffixes of the two callsigns exclude each other, the second one is sent in full. -/
theorem type_of_encode {text : List Char} {s : σ} {payload : List UInt8}
    (h : (ftx_message_encode hash_if text s).1 = .ok payload)
    (hbracket : '<' ∉ (copy_token 12 (copy_token 12 text).2).1) :
    let call_to := (copy_token 12 text).1
    let call_de := (copy_token 12 (copy_token 12 text).2).1
    ftx_message_get_type payload =
      if anyEnds call_to call_de ['/', 'P'] && anyEnds call_to call_de ['/', 'R'] then
        .FTX_MESSAGE_TYPE_NONSTD_CALL else .FTX_MESSAGE_TYPE_STANDARD := by
  obtain ⟨hlen, ⟨hmix, hstd⟩ | ⟨hmix, s', hnonstd⟩⟩ := encode_cases h hbracket
  · dsimp only
    rw [hmix]
    exact type_of_encode_std hstd
  · dsimp only
    rw [hmix]
    exact (fields_of_encode_nonstd hbracket hlen hnonstd).1

theorem type_of_suffixes : ftx_message_get_type suffixes = .FTX_MESSAGE_TYPE_NONSTD_CALL :=
  (@type_of_encode Unit .null "K1ABC/P W9XYZ/R RR73".toList () suffixes (by decide +kernel)
    (by decide)).trans (by decide)

/-- The second callsign in a standard message. -/
theorem n29b_of_encode_std {call_to call_de extra : List Char} {s : σ} {payload : List UInt8}
    (h : (ftx_message_encode_std hash_if call_to call_de extra s).1 = .ok payload) :
    ∃ s₁ n28b ipb, (pack28 hash_if call_de s₁).1 = some (n28b, ipb) ∧
      (unpackStd payload).n29b = n28b * 2 + ipb.toNat := by
  obtain ⟨n28a, ipa, n28b, ipb, ha, hb, -, rfl⟩ := encode_std_eq_ok_iff.1 h
  refine ⟨_, n28b, ipb, hb, ?_⟩
  have hna := pack28_lt ha
  have hnb := pack28_lt hb
  have hflag : ∀ b : Bool, b.toNat < 2 := Bool.toNat_lt
  have hfa := hflag (ipa || hasSuffix call_to)
  have hfb := hflag ipb
  have hi3 : (if anyEnds call_to call_de ['/', 'P'] = true then 2 else 1) < 2 ^ 3 := by
    split_ifs <;> decide
  rw [(unpackStd_packStd (by omega) (by omega) (packgrid_lt extra) hi3).1]

/-- A second callsign that is not standard, without an opening bracket, is sent as a hash where the
suffixes do not exclude each other. What a receiver makes of the text has what this hash is resolved
to, by the receiver's own table, in the place of the callsign. -/
theorem decode_encode_hashed {text : List Char} {s : σ} {payload : List UInt8}
    (h : (ftx_message_encode hash_if text s).1 = .ok payload)
    (hbracket : '<' ∉ (copy_token 12 (copy_token 12 text).2).1) :
    let call_to := (copy_token 12 text).1
    let call_de := (copy_token 12 (copy_token 12 text).2).1
    ¬ (anyEnds call_to call_de ['/', 'P'] && anyEnds call_to call_de ['/', 'R']) = true →
    pack_basecall call_de (length_base call_de) = none →
    call_de ∉ [['D', 'E'], ['Q', 'R', 'Z'], ['C', 'Q']] →
      ∃ n58, callsign58 call_de = some n58 ∧ ∀ (s' : τ) (shown : List Char),
        (ftx_message_decode hash_if' payload s').1 = .ok shown →
        ∃ call_to' extra', shown = ftx_message_text call_to'
          (lookup_callsign hash_if' .FTX_CALLSIGN_HASH_22_BITS (hash22 n58)
            (unpack28 hash_if' ((unpackStd payload).n29a >>> 1)
              ((unpackStd payload).n29a &&& 1 != 0) (ftx_message_get_i3 payload) s').2) extra' := by
  obtain ⟨hlen, ⟨hmix, hstd⟩ | ⟨hmix, -, -⟩⟩ := encode_cases h hbracket
  · dsimp only
    intro _ hbase hword
    generalize (copy_token 12 (copy_token 12 text).2).1 = call_de at hstd hbase hword ⊢
    obtain ⟨s₁, n28b, ipb, hb, hfield⟩ := n29b_of_encode_std hstd
    -- of the three ways to pack the callsign only the hash is left
    rcases pack28_eq_some hb with ⟨-, hb⟩ | ⟨n, hpack, -, -⟩ | ⟨n58, -, -, -, hn58, rfl, -⟩
    · rcases hb with ⟨-, rfl⟩ | ⟨-, rfl⟩ | ⟨-, rfl⟩ <;> simp at hword
    · rw [hbase] at hpack
      cases hpack
    · refine ⟨n58, hn58, fun s' shown hshown => ?_⟩
      rw [ftx_message_decode, type_of_encode_std hstd] at hshown
      dsimp only at hshown
      -- where the message is decoded at all, its second field is the hash
      generalize hdecode : ftx_message_decode_std hash_if' payload s' = r at hshown
      obtain ⟨rc | ⟨call_to', call_de', extra'⟩, s''⟩ := r
      · cases hshown
      · obtain rfl := Except.ok.inj hshown
        obtain ⟨-, hsecond, -⟩ := decode_std_eq.1 (congrArg Prod.fst hdecode)
        have hhash : NTOKENS + hash22 n58 - NTOKENS < MAX22 := by
          rw [Nat.add_sub_cancel_left]
          exact hash22_lt_max n58
        rw [hfield, (flag_split _ _).1, unpack28, if_neg (Nat.not_lt.2 (Nat.le_add_right _ _)),
          if_pos hhash, Nat.add_sub_cancel_left] at hsecond
        exact ⟨call_to', extra', by rw [← Option.some.inj hsecond]⟩
  · dsimp only
    intro hno
    exact absurd hmix hno

/-- The message that `CQ PJ4/K1ABC FK52` is encoded to. -/
def cqHashed : List UInt8 := [0, 0, 0, 32, 26, 149, 133, 9, 209, 8]

theorem decode_encode_cqHashed :
    ∃ n58, callsign58 "PJ4/K1ABC".toList = some n58 ∧ ∀ (s' : Unit) (shown : List Char),
      (ftx_message_decode .null cqHashed s').1 = .ok shown →
      ∃ call_to' extra', shown = ftx_message_text call_to'
        (lookup_callsign .null .FTX_CALLSIGN_HASH_22_BITS (hash22 n58)
          (unpack28 .null ((unpackStd cqHashed).n29a >>> 1) ((unpackStd cqHashed).n29a &&& 1 != 0)
            (ftx_message_get_i3 cqHashed) s').2) extra' :=
  @decode_encode_hashed Unit Unit .null .null "CQ PJ4/K1ABC FK52".toList () cqHashed
    (by decide +kernel) (by decide) (by decide) (by decide) (by decide)

end Nonstd

end GranolaSdr.Ft8
