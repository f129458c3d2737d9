import GranolaSdr.Ft8.MessageCodec
import GranolaSdr.Ft8.RoundTrip

/-!
# Encoding texts

How `ftx_message_encode` takes a text apart, which texts are decoded as they were, and what happens
to callsigns in angle brackets: the header of `src/ft8_lib/ft8/message.h` allows them, and the loop
over a callsign in full stops at a second opening bracket instead of the closing one.

## Main results

* `decode_encode_text`: texts of plain callsigns with suffixes that do not exclude each other, and
  an extra field that survives, are decoded as they were;
* `loopback`: also from the tones that they are sent as;
* `encode_bracketed`: texts with a callsign in brackets are refused.
-/

namespace GranolaSdr.Ft8

open Hf.SoftDemap

open BeliefPropagation (ftx_decode_from_llr variance)

/-! ## Tokens -/

/-- A token in front of a blank. -/
theorem copy_token_append {token : List Char} (h : ' ' ∉ token) (length : ℕ) (rest : List Char) :
    copy_token length (token ++ ' ' :: rest) =
      (token.take length, rest.dropWhile (· = ' ')) := by
  have hne : ∀ c ∈ token, decide (c ≠ ' ') = true := by
    intro c hc
    exact decide_eq_true fun hblank => h (hblank ▸ hc)
  rw [copy_token, List.takeWhile_append_of_pos hne, List.dropWhile_append_of_pos hne]
  simp

/-- A token at the end. -/
theorem copy_token_of_notMem {token : List Char} (h : ' ' ∉ token) (length : ℕ) :
    copy_token length token = (token.take length, []) := by
  have hne : ∀ c ∈ token, decide (c ≠ ' ') = true := by
    intro c hc
    exact decide_eq_true fun hblank => h (hblank ▸ hc)
  rw [copy_token, List.takeWhile_eq_self_iff.2 hne, List.dropWhile_eq_nil_iff.2 hne]
  rfl

/-- A token that fits into a buffer is the same in any larger one. -/
theorem copy_token_fst {length n : ℕ} (hle : length ≤ n) {s : List Char}
    (hshort : (copy_token length s).1.length < length) :
    (copy_token n s).1 = (copy_token length s).1 := by
  have hword : (s.takeWhile (· ≠ ' ')).length < length := by
    rw [copy_token, List.length_take] at hshort
    exact (min_lt_iff.1 hshort).resolve_left (lt_irrefl _)
  rw [copy_token, copy_token, List.take_of_length_le (hword.le.trans hle),
    List.take_of_length_le hword.le]

/-- A token is not skipped. -/
theorem dropWhile_of_notMem {token : List Char} (h : ' ' ∉ token) (hne : token ≠ [])
    (rest : List Char) : (token ++ rest).dropWhile (· = ' ') = token ++ rest := by
  obtain ⟨c, token, rfl⟩ := List.exists_cons_of_ne_nil hne
  have hc : c ≠ ' ' := fun hblank => h (hblank ▸ List.mem_cons_self)
  rw [List.cons_append, List.dropWhile_cons_of_neg (by simpa using hc)]

section Encode

variable {σ : Type*} {hash_if : HashInterface σ}

/-- The three fields of a text. -/
theorem encode_text {call_to call_de extra : List Char} (hto : ' ' ∉ call_to) (hde : ' ' ∉ call_de)
    (hextra : ' ' ∉ extra) (hne : call_de ≠ []) (hlto : call_to.length ≤ 11)
    (hlde : call_de.length ≤ 11) (hlextra : extra.length ≤ 19) (s : σ) :
    ftx_message_encode hash_if (ftx_message_text call_to call_de extra) s =
      encodeFields hash_if call_to call_de extra s := by
  have htext : ftx_message_text call_to call_de extra =
      call_to ++ ' ' :: (call_de ++ ' ' :: extra) := by
    simp [ftx_message_text]
  -- there is no blank to skip before the extra field, even if it is empty
  have hskip : extra.dropWhile (· = ' ') = extra := by
    rcases eq_or_ne extra [] with rfl | hne
    · rfl
    · have h := dropWhile_of_notMem hextra hne []
      rwa [List.append_nil] at h
  rw [ftx_message_encode, htext, copy_token_append hto]
  dsimp only
  rw [dropWhile_of_notMem hde hne, copy_token_append hde]
  dsimp only
  rw [hskip, copy_token_of_notMem hextra]
  dsimp only
  rw [List.take_of_length_le (hlto.trans (by decide)),
    List.take_of_length_le (hlde.trans (by decide)),
    List.take_of_length_le (hlextra.trans (by decide)), if_neg (by omega), if_neg (by omega),
    if_neg (by omega)]

/-- A callsign that is not too long is encoded first as part of a standard message. -/
theorem encodeFields_of_std {call_to call_de extra : List Char} {s : σ} {payload : List UInt8}
    (h : (ftx_message_encode_std hash_if call_to call_de extra s).1 = .ok payload) :
    (encodeFields hash_if call_to call_de extra s).1 = .ok payload := by
  unfold encodeFields
  generalize ftx_message_encode_std hash_if call_to call_de extra s = r at h ⊢
  rcases r with ⟨_ | p, s'⟩
  · cases h
  · exact h

/-- Plain callsigns are neither empty nor too long. -/
theorem length_of_plain {callsign : List Char} (h : Plain callsign) :
    2 ≤ callsign.length ∧ callsign.length ≤ 9 := by
  rcases h with rfl | rfl | rfl | ⟨hpack, -⟩
  · decide
  · decide
  · decide
  · obtain ⟨n, hn⟩ := Option.isSome_iff_exists.1 hpack
    refine ⟨?_, (isSome_callsign58_of_standard hn).2⟩
    unfold pack_basecall at hn
    split_ifs at hn with hlow
    have hle : length_base callsign ≤ callsign.length := by
      unfold length_base
      split_ifs
      · exact Nat.sub_le _ _
      · exact le_rfl
    omega

/-- What survives in an extra field has no blanks and is short. -/
theorem notMem_of_survives {e : List Char} (h : Survives e) : ' ' ∉ e ∧ e.length ≤ 4 := by
  -- all reports at once, counted from the lowest
  have hreport : ∀ k < 130, ' ' ∉ int_to_dd ((k : ℕ) - 30) 2 true ∧
      (int_to_dd ((k : ℕ) - 30) 2 true).length ≤ 3 := by decide
  rcases h with rfl | rfl | rfl | rfl | ⟨hlen, hgrid⟩ | ⟨dd, hlow, hhigh, he⟩
  · decide
  · decide
  · decide
  · decide
  · obtain ⟨a, b, c, d, rfl⟩ := List.length_eq_four.1 hlen
    refine ⟨fun hmem => ?_, hlen.le⟩
    have hletter : in_range ' ' 'A' 'R' = false := by decide
    have hdigit : is_digit ' ' = false := by decide
    simp only [isGrid, Bool.and_eq_true] at hgrid
    obtain ⟨⟨⟨ha, hb⟩, hc⟩, hd⟩ := hgrid
    simp only [List.mem_cons, List.not_mem_nil, or_false] at hmem
    rcases hmem with rfl | rfl | rfl | rfl
    · exact absurd (hletter.symm.trans ha) (by decide)
    · exact absurd (hletter.symm.trans hb) (by decide)
    · exact absurd (hdigit.symm.trans hc) (by decide)
    · exact absurd (hdigit.symm.trans hd) (by decide)
  · have hdd := hreport (dd + 30).toNat (by omega)
    have hvalue : (((dd + 30).toNat : ℕ) : ℤ) - 30 = dd := by omega
    rw [hvalue] at hdd
    rcases he with rfl | rfl
    · exact ⟨hdd.1, hdd.2.trans (by decide)⟩
    · refine ⟨fun hmem => ?_, Nat.succ_le_succ hdd.2⟩
      rcases List.mem_cons.1 hmem with h | h
      · cases h
      · exact hdd.1 h

/-- A text of two plain callsigns and an extra field that survives is encoded, and decoded as it
was by any receiver, unless the suffixes of the callsigns exclude each other. -/
theorem decode_encode_text {τ : Type*} {hash_if' : HashInterface τ}
    {call_to call_de extra : List Char} (hto : ' ' ∉ call_to) (hde : ' ' ∉ call_de)
    (hpto : Plain call_to) (hpde : Plain call_de) (hextra : Survives extra)
    (hmix : ¬ (anyEnds call_to call_de ['/', 'P'] = true ∧
      anyEnds call_to call_de ['/', 'R'] = true))
    (s : σ) (s' : τ) :
    ∃ payload, (ftx_message_encode hash_if (ftx_message_text call_to call_de extra) s).1 =
        .ok payload ∧
      (ftx_message_encode_std hash_if call_to call_de extra s).1 = .ok payload ∧
      (ftx_message_decode hash_if' payload s').1 =
        .ok (ftx_message_text call_to call_de extra) := by
  obtain ⟨hblank, hlen⟩ := notMem_of_survives hextra
  obtain ⟨-, hlto⟩ := length_of_plain hpto
  obtain ⟨hlow, hlde⟩ := length_of_plain hpde
  obtain ⟨payload, hencode, hdecode⟩ :
      ∃ payload, (ftx_message_encode_std hash_if call_to call_de extra s).1 = .ok payload ∧
        (ftx_message_decode_std hash_if' payload s').1 = .ok (call_to, call_de, extra) :=
    exists_decode_std hto hde hpto hpde hextra (by rwa [Bool.and_eq_true]) s s'
  refine ⟨payload, ?_, hencode, ?_⟩
  · rw [encode_text hto hde hblank (List.ne_nil_of_length_pos (by omega))
      (hlto.trans (by decide)) (hlde.trans (by decide)) (hlen.trans (by decide))]
    exact encodeFields_of_std hencode
  · rw [ftx_message_decode, type_of_encode_std hencode]
    generalize ftx_message_decode_std hash_if' payload s' = r at hdecode ⊢
    rcases r with ⟨_ | f, s''⟩
    · cases hdecode
    · obtain rfl := Except.ok.inj hdecode
      rfl

/-! ## From a text to the tones and back -/

/-- The last byte of a packed message ends in the type and three bits that are not used. -/
theorem bit_last (payload : List UInt8) {i : ℕ} (hi : i < 8) :
    PackedBits.bit payload (72 + i) = (byte payload 9).testBit (7 - i) := by
  rw [PackedBits.bit, show (72 + i) / 8 = 9 by omega, show (72 + i) % 8 = i by omega]
  rfl

/-- A packed standard message is a message of 77 bits, and not zero. -/
theorem exists_payload_of_std {call_to call_de extra : List Char} {s : σ} {payload : List UInt8}
    (h : (ftx_message_encode_std hash_if call_to call_de extra s).1 = .ok payload) :
    ∃ p : Encode.Payload, p.bytes = payload ∧ ∃ i < 77, PackedBits.bit payload i = true := by
  obtain ⟨hlen, hlast, htype⟩ := encode_std_payload h
  -- the last three bits are clear
  have hpadding : ∀ i, 77 ≤ i → i < 80 → PackedBits.bit payload i = false := by
    intro i hle hlt
    have hbit := @bit_last payload (i - 72) (by omega)
    rw [show 72 + (i - 72) = i by omega] at hbit
    have hsplit : byte payload 9 = byte payload 9 / 2 ^ 3 * 2 ^ 3 := by omega
    rw [hbit, hsplit, Nat.testBit_mul_two_pow, decide_eq_false (by omega), Bool.false_and]
  refine ⟨⟨payload, hlen, hpadding⟩, rfl, ?_⟩
  -- the type is not zero, and it is part of the last byte
  by_contra hzero
  have hbits : ∀ i < 8, (byte payload 9).testBit i = false := by
    intro i hi
    by_cases hlow : i < 3
    · have hsplit : byte payload 9 = byte payload 9 / 2 ^ 3 * 2 ^ 3 := by omega
      rw [hsplit, Nat.testBit_mul_two_pow, decide_eq_false (by omega), Bool.false_and]
    · have hbit := @bit_last payload (7 - i) (by omega)
      rw [show 7 - (7 - i) = i by omega] at hbit
      rw [← hbit]
      exact Bool.eq_false_iff.2 fun htrue => hzero ⟨72 + (7 - i), by omega, htrue⟩
  have hbyte : byte payload 9 = 0 := by
    apply Nat.eq_of_testBit_eq
    intro i
    rw [Nat.zero_testBit]
    rcases Nat.lt_or_ge i 8 with hi | hi
    · exact hbits i hi
    · apply Nat.testBit_lt_two_pow
      exact (payload.getD 9 0).toNat_lt.trans_le (Nat.pow_le_pow_right (by decide) hi)
  rw [ftx_message_get_i3_eq, hbyte] at htype
  exact absurd htype (by decide)

/-- A text of two plain callsigns and an extra field that survives, where the suffixes `/P` and `/R`
of the callsigns do not exclude each other, is encoded to 79 tones. A receiver that sees a magnitude
in the cells of these tones only decodes the text as it was, whatever its table of callsigns has, if
it makes an iteration and the soft decisions are not too close to each other. The arithmetic is
exact. -/
theorem loopback {τ : Type*} {hash_if' : HashInterface τ} {call_to call_de extra : List Char}
    (hto : ' ' ∉ call_to) (hde : ' ' ∉ call_de) (hpto : Plain call_to) (hpde : Plain call_de)
    (hextra : Survives extra)
    (hmix : ¬ (anyEnds call_to call_de ['/', 'P'] = true ∧
      anyEnds call_to call_de ['/', 'R'] = true))
    (s : σ) (s' : τ) :
    ∃ payload tones, (ftx_message_encode hash_if (ftx_message_text call_to call_de extra) s).1 =
        .ok payload ∧ Encode.ft8_encode payload = some tones ∧ tones.length = 79 ∧
      ∀ Z : ℕ → ℂ, OneHot tones (fun q j => ‖Z (q * 8 + j)‖) →
      ∀ (log174 : ℕ → ℝ) (max_iterations : ℤ) (message : Crc14.ftx_message_t)
        (status : Crc14.ftx_decode_status_t),
        let llr := extract_llr kFT8Refine Z log174
        let result := ftx_decode_from_llr Real.sqrt llr max_iterations message status
        1e-6 ≤ variance llr → 1 ≤ max_iterations →
          result.1 = true ∧ (ftx_message_decode hash_if' result.2.1.payload s').1 =
            .ok (ftx_message_text call_to call_de extra) := by
  obtain ⟨payload, hencode, hstd, hdecode⟩ :=
    @decode_encode_text _ hash_if _ hash_if' _ _ _ hto hde hpto hpde hextra hmix s s'
  obtain ⟨p, rfl, hne⟩ := exists_payload_of_std hstd
  have htones := Tones.ft8_tones_eq (Encode.length_encode174 (Encode.a91 p.bytes))
  refine ⟨p.bytes, _, hencode, htones, length_frame _ _ _, fun Z hZ log174 max_iterations message
    status hvar hmax => ?_⟩
  have hreads := Tones.reads_ft8_tones (Encode.length_encode174 _) htones hZ log174
  obtain ⟨haccept, hpayload⟩ :=
    (RoundTrip.ftx_decode_from_llr_reads p hreads max_iterations message status).2 ⟨hne, hvar, hmax⟩
  refine ⟨haccept, ?_⟩
  rw [hpayload]
  exact hdecode

/-- The payload of a call to all stations. -/
def cqPayload : Encode.Payload := ⟨[0, 0, 0, 32, 77, 239, 26, 138, 25, 136], rfl, by decide⟩

/-- A call to all stations, received without noise. -/
theorem loopback_cq :
    ∃ payload tones,
      (ftx_message_encode .null (ftx_message_text ['C', 'Q'] ['K', '1', 'A', 'B', 'C']
        ['F', 'N', '4', '2']) ()).1 = .ok payload ∧
      Encode.ft8_encode payload = some tones ∧ tones.length = 79 ∧
      ∀ message status,
        let llr := extract_llr kFT8Refine (frameBins tones) 0
        let result := ftx_decode_from_llr Real.sqrt llr 1 message status
        result.1 = true ∧ (ftx_message_decode .null result.2.1.payload ()).1 =
          .ok (ftx_message_text ['C', 'Q'] ['K', '1', 'A', 'B', 'C'] ['F', 'N', '4', '2']) := by
  have halias :
      ¬ Alias (['K', '1', 'A', 'B', 'C'].take (length_base ['K', '1', 'A', 'B', 'C'])) := by
    rintro (⟨h, -⟩ | ⟨h, -⟩)
    · exact absurd h (by decide)
    · exact absurd h (by decide)
  obtain ⟨payload, tones, hencode, htones, hlen, hdecode⟩ := @loopback _ .null _ .null
    ['C', 'Q'] ['K', '1', 'A', 'B', 'C'] ['F', 'N', '4', '2'] (by decide) (by decide)
    (Or.inr (Or.inr (Or.inl rfl))) (Or.inr (Or.inr (Or.inr ⟨by decide, halias⟩)))
    (Or.inr (Or.inr (Or.inr (Or.inr (Or.inl ⟨rfl, by decide⟩))))) (by decide) () ()
  have hcq : (ftx_message_encode .null (ftx_message_text ['C', 'Q'] ['K', '1', 'A', 'B', 'C']
      ['F', 'N', '4', '2']) ()).1 = .ok cqPayload.bytes := by decide +kernel
  obtain rfl : payload = cqPayload.bytes := Except.ok.inj (hencode.symm.trans hcq)
  have hvar := RoundTrip.variance_frameBins_ge cqPayload ⟨26, by decide, by decide⟩ htones 0
  exact ⟨_, tones, hencode, htones, hlen, fun message status =>
    hdecode _ (oneHot_frameBins hlen) 0 1 message status hvar le_rfl⟩

/-! ## Callsigns in brackets -/

/-- A callsign in angle brackets. -/
def Bracketed (callsign : List Char) : Prop := ∃ call, '<' ∉ call ∧ callsign = '<' :: call ++ ['>']

/-- A callsign with a bracket in front has no hash. -/
theorem callsign58_of_bracket (rest : List Char) : callsign58 ('<' :: rest) = none := by
  cases h : callsign58 ('<' :: rest) with
  | none => rfl
  | some n58 => exact absurd rfl (head?_ne_of_callsign58 h)

theorem save_callsign_of_none {callsign : List Char} (h : callsign58 callsign = none) (s : σ) :
    save_callsign hash_if callsign s = (none, s) := by
  rw [save_callsign, h]

/-- It is not packed. -/
theorem pack28_of_bracket (rest : List Char) (s : σ) :
    (pack28 hash_if ('<' :: rest) s).1 = none := by
  cases h : (pack28 hash_if ('<' :: rest) s).1 with
  | none => rfl
  | some r =>
    rcases pack28_eq_some h with ⟨-, h⟩ | ⟨n, hpack, -, -⟩ | ⟨n58, -, -, -, hn58, -, -⟩
    · rcases h with ⟨-, h⟩ | ⟨-, h⟩ | ⟨-, h⟩ <;> cases h
    · have hn58 := (isSome_callsign58_of_standard hpack).1
      rw [callsign58_of_bracket] at hn58
      cases hn58
    · rw [callsign58_of_bracket] at hn58
      cases hn58

/-- A closing bracket within the first eleven characters ends the loop with an error. -/
theorem pack58_of_bracketed {callsign : List Char} (h : Bracketed callsign)
    (hlen : callsign.length ≤ 11) (s : σ) : pack58 hash_if callsign s = (none, s) := by
  obtain ⟨call, hcall, rfl⟩ := h
  -- only the opening bracket ends the callsign, so the closing one is packed with it
  have hsrc : (call ++ ['>']).takeWhile (· ≠ '<') = call ++ ['>'] := by
    rw [List.takeWhile_eq_self_iff]
    intro c hc
    refine decide_eq_true fun hlt => ?_
    rcases List.mem_append.1 hc with hc | hc
    · exact hcall (hlt ▸ hc)
    · rw [List.mem_singleton.1 hc] at hlt
      cases hlt
  have htake : (call ++ ['>']).take 11 = call ++ ['>'] :=
    List.take_of_length_le (by rw [List.cons_append, List.length_cons] at hlen; omega)
  have hnone : packChars (List.replicate (call ++ ['>']).length .alphanumSpaceSlash)
      (call ++ ['>']) = none := by
    cases hpack : packChars (List.replicate (call ++ ['>']).length .alphanumSpaceSlash)
        (call ++ ['>']) with
    | none => rfl
    | some n =>
      obtain ⟨table, htable, k, hk⟩ := exists_nchar_of_packChars List.length_replicate hpack
        (List.mem_append_right call (List.mem_singleton_self '>'))
      rw [List.eq_of_mem_replicate htable] at hk
      -- but it has no index
      have hgt : nchar '>' .alphanumSpaceSlash = none := by decide
      rw [hgt] at hk
      cases hk
  have hfirst : charAt ('<' :: call ++ ['>']) 0 = '<' := rfl
  have hdrop : ('<' :: call ++ ['>']).drop 1 = call ++ ['>'] := rfl
  rw [pack58, if_pos hfirst, hdrop, hsrc, htake]
  simp only [hnone]

theorem Bracketed.exists_cons {callsign : List Char} (h : Bracketed callsign) :
    ∃ rest, callsign = '<' :: rest := by
  obtain ⟨call, -, rfl⟩ := h
  exact ⟨call ++ ['>'], rfl⟩

theorem encode_std_bracketed {call_to call_de extra : List Char}
    (h : Bracketed call_to ∨ Bracketed call_de) (s : σ) :
    ∃ rc, (ftx_message_encode_std hash_if call_to call_de extra s).1 = .error rc := by
  cases hencode : (ftx_message_encode_std hash_if call_to call_de extra s).1 with
  | error rc => exact ⟨rc, rfl⟩
  | ok payload =>
    obtain ⟨n28a, ipa, n28b, ipb, ha, hb, -⟩ := encode_std_eq_ok_iff.1 hencode
    rcases h with h | h
    · obtain ⟨rest, rfl⟩ := h.exists_cons
      rw [pack28_of_bracket] at ha
      cases ha
    · obtain ⟨rest, rfl⟩ := h.exists_cons
      rw [pack28_of_bracket] at hb
      cases hb

/-- A callsign with a bracket in front is not saved. -/
theorem save_callsign_of_bracketed {callsign : List Char} (h : Bracketed callsign) (s : σ) :
    save_callsign hash_if callsign s = (none, s) := by
  obtain ⟨rest, rfl⟩ := h.exists_cons
  exact save_callsign_of_none (callsign58_of_bracket rest) s

/-- The callsign that is hashed or the one in full is refused. -/
theorem encode_nonstd_bracketed {call_to call_de extra : List Char}
    (h : Bracketed call_to ∨ Bracketed call_de) (hlde : call_de.length ≤ 11) (s : σ) :
    ∃ rc, (ftx_message_encode_nonstd hash_if call_to call_de extra s).1 = .error rc := by
  unfold ftx_message_encode_nonstd
  dsimp only
  split_ifs with hshort hshort' hcq hflip hflip
  · exact ⟨_, rfl⟩
  · exact ⟨_, rfl⟩
  · rw [hcq] at hflip
    cases hflip
  · have hde : Bracketed call_de := by
      refine h.resolve_left fun hto => ?_
      obtain ⟨rest, hto⟩ := hto.exists_cons
      rw [of_decide_eq_true hcq] at hto
      cases hto
    simp only [pack58_of_bracketed hde hlde]
    exact ⟨_, rfl⟩
  · -- The callsign in front of the report is the one in full, so the other one is hashed.
    have hsave : save_callsign hash_if call_de s = (none, s) := by
      simp only [Bool.and_eq_true, decide_eq_true_eq] at hflip
      cases call_de with
      | nil => exact absurd hflip.2.1 (by decide)
      | cons c rest =>
        obtain rfl : c = '<' := hflip.2.1
        exact save_callsign_of_none (callsign58_of_bracket rest) s
    simp only [hsave]
    exact ⟨_, rfl⟩
  · rcases h with hto | hde
    · simp only [save_callsign_of_bracketed hto]
      exact ⟨_, rfl⟩
    · generalize save_callsign hash_if call_to s = r
      rcases r with ⟨_ | n22, s'⟩
      · exact ⟨_, rfl⟩
      · simp only [pack58_of_bracketed hde hlde]
        exact ⟨_, rfl⟩

/-- Fields with a callsign in brackets are not encoded in either way. -/
theorem encodeFields_bracketed {call_to call_de extra : List Char}
    (h : Bracketed call_to ∨ Bracketed call_de) (hlde : call_de.length ≤ 11) (s : σ) :
    ∃ rc, (encodeFields hash_if call_to call_de extra s).1 = .error rc := by
  obtain ⟨rc, hstd⟩ :
      ∃ rc, (ftx_message_encode_std hash_if call_to call_de extra s).1 = .error rc :=
    encode_std_bracketed h s
  unfold encodeFields
  generalize ftx_message_encode_std hash_if call_to call_de extra s = r at hstd ⊢
  rcases r with ⟨rc' | p, s'⟩
  · exact encode_nonstd_bracketed h hlde s'
  · cases hstd

/-- A text with a callsign in angle brackets is refused, whatever stands around it. The callsign is
the word of the text, or what fits of it into a buffer of at least the size of the encoder's. -/
theorem encode_bracketed (text : List Char) (s : σ) {n : ℕ} (hn : 12 ≤ n)
    (h : Bracketed (copy_token n text).1 ∨ Bracketed (copy_token n (copy_token n text).2).1) :
    ∃ rc, (ftx_message_encode hash_if text s).1 = .error rc := by
  unfold ftx_message_encode
  dsimp only
  split_ifs with hto hde
  · exact ⟨_, rfl⟩
  · exact ⟨_, rfl⟩
  · exact ⟨_, rfl⟩
  · -- Both words fit into the encoder's buffers, and are not cut.
    have hskip : (copy_token n text).2 = (copy_token 12 text).2 := rfl
    rw [hskip, copy_token_fst hn (by omega), copy_token_fst hn (by omega)] at h
    exact encodeFields_bracketed h (by omega) s

/-- A callsign of eleven characters in brackets that calls everybody. -/
theorem encode_bracketed_cq : ∃ rc,
    (ftx_message_encode .null "CQ <PJ4/KA1ABCD>".toList ()).1 = .error rc :=
  encode_bracketed "CQ <PJ4/KA1ABCD>".toList () (n := 13) (by decide)
    (.inr ⟨"PJ4/KA1ABCD".toList, by decide, by decide⟩)

end Encode

end GranolaSdr.Ft8
