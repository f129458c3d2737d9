import GranolaSdr.Ft8.Encode
import GranolaSdr.Ft8.StandardMessage
import GranolaSdr.Lib.LongDivision

/-!
# Texts and payloads of FT8 messages

`src/ft8_lib/ft8/message.c` as a whole: what a received payload of any type is shown as, and how a
text is encoded.

## Main definitions

* `ftx_message_encode_nonstd`, `ftx_message_decode_nonstd`: a callsign in full and the hash of
  another one;
* `ftx_message_decode_free`, `ftx_message_decode_telemetry_hex`: the 71 bits of free texts and of
  numbers;
* `ftx_message_encode`, `ftx_message_decode`: the functions for all types.
-/

namespace GranolaSdr.Ft8

/-! ## Types -/

inductive ftx_message_type_t where
  | FTX_MESSAGE_TYPE_FREE_TEXT
  | FTX_MESSAGE_TYPE_DXPEDITION
  | FTX_MESSAGE_TYPE_EU_VHF
  | FTX_MESSAGE_TYPE_ARRL_FD
  | FTX_MESSAGE_TYPE_TELEMETRY
  | FTX_MESSAGE_TYPE_CONTESTING
  | FTX_MESSAGE_TYPE_STANDARD
  | FTX_MESSAGE_TYPE_ARRL_RTTY
  | FTX_MESSAGE_TYPE_NONSTD_CALL
  | FTX_MESSAGE_TYPE_WWROF
  | FTX_MESSAGE_TYPE_UNKNOWN
  deriving DecidableEq

/-- The subtype in the bits 71 to 73. -/
def ftx_message_get_n3 (payload : List UInt8) : ℕ :=
  byte payload 8 <<< 2 &&& 0x04 ||| byte payload 9 >>> 6 &&& 0x03

def ftx_message_get_type (payload : List UInt8) : ftx_message_type_t :=
  match ftx_message_get_i3 payload with
  | 0 =>
    match ftx_message_get_n3 payload with
    | 0 => .FTX_MESSAGE_TYPE_FREE_TEXT
    | 1 => .FTX_MESSAGE_TYPE_DXPEDITION
    | 2 => .FTX_MESSAGE_TYPE_EU_VHF
    | 3 => .FTX_MESSAGE_TYPE_ARRL_FD
    | 4 => .FTX_MESSAGE_TYPE_ARRL_FD
    | 5 => .FTX_MESSAGE_TYPE_TELEMETRY
    | _ => .FTX_MESSAGE_TYPE_UNKNOWN
  | 1 => .FTX_MESSAGE_TYPE_STANDARD
  | 2 => .FTX_MESSAGE_TYPE_STANDARD
  | 3 => .FTX_MESSAGE_TYPE_ARRL_RTTY
  | 4 => .FTX_MESSAGE_TYPE_NONSTD_CALL
  | 5 => .FTX_MESSAGE_TYPE_WWROF
  | _ => .FTX_MESSAGE_TYPE_UNKNOWN

theorem type_of_encode_std {σ : Type*} {hash_if : HashInterface σ}
    {call_to call_de extra : List Char} {s : σ} {payload : List UInt8}
    (h : (ftx_message_encode_std hash_if call_to call_de extra s).1 = .ok payload) :
    ftx_message_get_type payload = .FTX_MESSAGE_TYPE_STANDARD := by
  rw [ftx_message_get_type]
  rcases (encode_std_payload h).2.2 with hi3 | hi3
  · rw [hi3]
    rfl
  · rw [hi3]
    rfl

/-! ## Callsigns that are not standard -/

/-- Pack into 12 + 58 + 1 + 2 + 1 + 3 bits. -/
def packNonstd (n12 n58 iflip nrpt icq : ℕ) : List UInt8 :=
  [.ofNat (n12 >>> 4), .ofNat (n12 <<< 4) ||| .ofNat (n58 >>> 54), .ofNat (n58 >>> 46),
    .ofNat (n58 >>> 38), .ofNat (n58 >>> 30), .ofNat (n58 >>> 22), .ofNat (n58 >>> 14),
    .ofNat (n58 >>> 6), .ofNat (n58 <<< 2) ||| .ofNat (iflip <<< 1) ||| .ofNat (nrpt >>> 1),
    .ofNat (nrpt <<< 7) ||| .ofNat (icq <<< 6) ||| .ofNat (4 <<< 3)]

/-- The packed fields of a message with a callsign in full. -/
structure NonstdFields where
  n12 : ℕ
  n58 : ℕ
  iflip : Bool
  nrpt : ℕ
  icq : Bool

def unpackNonstd (payload : List UInt8) : NonstdFields where
  n12 := byte payload 0 <<< 4 ||| byte payload 1 >>> 4
  n58 := (byte payload 1 &&& 0x0F) <<< 54 ||| byte payload 2 <<< 46 ||| byte payload 3 <<< 38 |||
    byte payload 4 <<< 30 ||| byte payload 5 <<< 22 ||| byte payload 6 <<< 14 |||
    byte payload 7 <<< 6 ||| byte payload 8 >>> 2
  iflip := byte payload 8 >>> 1 &&& 0x01 != 0
  nrpt := (byte payload 8 &&& 0x01) <<< 1 ||| byte payload 9 >>> 7
  icq := byte payload 9 >>> 6 &&& 0x01 != 0

section Codec

variable {σ : Type*} (hash_if : HashInterface σ)

/-- The word behind the callsigns, as a number. -/
def reportNumber (icq : Bool) (extra : List Char) : ℕ :=
  if icq then 0
  else if extra = ['R', 'R', 'R'] then 1
  else if extra = ['R', 'R', '7', '3'] then 2
  else if extra = ['7', '3'] then 3
  else 0

/-- The word with a number. -/
def reportText (nrpt : ℕ) : List Char :=
  if nrpt = 1 then ['R', 'R', 'R']
  else if nrpt = 2 then ['R', 'R', '7', '3']
  else if nrpt = 3 then ['7', '3']
  else []

def ftx_message_encode_nonstd (call_to call_de extra : List Char) (s : σ) :
    Except ftx_message_rc_t (List UInt8) × σ :=
  let icq : Bool := call_to = ['C', 'Q']
  if !icq && decide (call_to.length < 3) then (.error .FTX_MESSAGE_RC_ERROR_CALLSIGN1, s)
  else if call_de.length < 3 then (.error .FTX_MESSAGE_RC_ERROR_CALLSIGN2, s)
  else
    let iflip : Bool :=
      !icq && (charAt call_de 0 = '<' && charAt call_de (call_to.length - 1) = '>')
    let call12 := if iflip then call_de else call_to
    let call58 := if iflip then call_to else call_de
    let (n22, s) := if icq then (some 0, s) else save_callsign hash_if call12 s
    match n22 with
    | none => (.error .FTX_MESSAGE_RC_ERROR_CALLSIGN1, s)
    | some n22 =>
      let (n58, s) := pack58 hash_if call58 s
      match n58 with
      | none => (.error .FTX_MESSAGE_RC_ERROR_CALLSIGN2, s)
      | some n58 =>
        (.ok (packNonstd (n22 >>> 10) n58 iflip.toNat (reportNumber icq extra) icq.toNat), s)

def ftx_message_decode_nonstd (payload : List UInt8) (s : σ) :
    (List Char × List Char × List Char) × σ :=
  let f := unpackNonstd payload
  let (call_decoded, s) := unpack58 hash_if f.n58 s
  let call_3 := lookup_callsign hash_if .FTX_CALLSIGN_HASH_12_BITS f.n12 s
  let call_1 := if f.iflip then call_decoded else call_3
  let call_2 := if f.iflip then call_3 else call_decoded
  (if f.icq then (['C', 'Q'], call_2, []) else (call_1, call_2, reportText f.nrpt), s)

/-! ## Free texts and telemetry -/

/-- A byte of the payload shifted to the right by one bit. -/
def telemetryByte (payload : List UInt8) (i : ℕ) : UInt8 :=
  let carry := if i = 0 then 0 else payload.getD (i - 1) 0 &&& 0x01
  carry <<< 7 ||| payload.getD i 0 >>> 1

/-- The first 71 bits, aligned to the right. -/
def ftx_message_decode_telemetry (payload : List UInt8) : List UInt8 :=
  (List.range 9).map (telemetryByte payload)

/-- Divide the long integer by 42. -/
def divide42 (b71 : List UInt8) : List UInt8 × ℕ :=
  b71.foldl (fun s b =>
    let rem := s.2 <<< 8 ||| b.toNat
    (s.1 ++ [UInt8.ofNat (rem / 42)], rem % 42)) ([], 0)

/-- Some characters of a free text, the last one first, in front of what follows them. -/
def freeChars : ℕ → List UInt8 → List Char → List Char
  | 0, _, c14 => c14
  | idx + 1, b71, c14 =>
    let (b71, rem) := divide42 b71
    freeChars idx b71 (charn rem .full :: c14)

def ftx_message_decode_free (payload : List UInt8) : List Char :=
  trim_copy (freeChars 13 (ftx_message_decode_telemetry payload) [])

def hexDigit (nibble : ℕ) : Char :=
  if 9 < nibble then charAfter 'A' (nibble - 10) else charAfter '0' nibble

def ftx_message_decode_telemetry_hex (payload : List UInt8) : List Char :=
  (ftx_message_decode_telemetry payload).flatMap fun b =>
    [hexDigit (b.toNat >>> 4), hexDigit (b.toNat &&& 0x0F)]

/-! ## All types -/

/-- The text of a payload. -/
def ftx_message_decode (payload : List UInt8) (s : σ) : Except ftx_message_rc_t (List Char) × σ :=
  match ftx_message_get_type payload with
  | .FTX_MESSAGE_TYPE_STANDARD =>
    let (fields, s) := ftx_message_decode_std hash_if payload s
    (fields.map fun f => ftx_message_text f.1 f.2.1 f.2.2, s)
  | .FTX_MESSAGE_TYPE_NONSTD_CALL =>
    let (f, s) := ftx_message_decode_nonstd hash_if payload s
    (.ok (ftx_message_text f.1 f.2.1 f.2.2), s)
  | .FTX_MESSAGE_TYPE_FREE_TEXT => (.ok (ftx_message_decode_free payload), s)
  | .FTX_MESSAGE_TYPE_TELEMETRY => (.ok (ftx_message_decode_telemetry_hex payload), s)
  | _ => (.error .FTX_MESSAGE_RC_ERROR_TYPE, s)

/-- The payload for three fields, of the first type that is possible. -/
def encodeFields (call_to call_de extra : List Char) (s : σ) :
    Except ftx_message_rc_t (List UInt8) × σ :=
  match ftx_message_encode_std hash_if call_to call_de extra s with
  | (.ok payload, s) => (.ok payload, s)
  | (.error _, s) => ftx_message_encode_nonstd hash_if call_to call_de extra s

/-- The payload for a text. -/
def ftx_message_encode (message_text : List Char) (s : σ) :
    Except ftx_message_rc_t (List UInt8) × σ :=
  let (call_to, parse_position) := copy_token 12 message_text
  let (call_de, parse_position) := copy_token 12 parse_position
  let (extra, _) := copy_token 20 parse_position
  if 11 < call_to.length then (.error .FTX_MESSAGE_RC_ERROR_CALLSIGN1, s)
  else if 11 < call_de.length then (.error .FTX_MESSAGE_RC_ERROR_CALLSIGN2, s)
  else if 19 < extra.length then (.error .FTX_MESSAGE_RC_ERROR_GRID, s)
  else encodeFields hash_if call_to call_de extra s

end Codec

/-! ## How long a text gets -/

section Bounds

variable {σ : Type*} {hash_if : HashInterface σ} {Inv : σ → Prop}

/-- The callsigns that are looked up fit into their buffer, as long as callsigns are only saved. -/
structure HashInterface.Bounded (hash_if : HashInterface σ) (Inv : σ → Prop) : Prop where
  lookup : ∀ {s}, Inv s → ∀ hash_type hash callsign,
    hash_if.lookup_hash hash_type hash s = some callsign → callsign.length ≤ 11
  save : ∀ {s}, Inv s → ∀ callsign hash, Inv (hash_if.save_hash callsign hash s)

theorem length_lookup_callsign (h : hash_if.Bounded Inv) {s : σ} (hs : Inv s)
    (hash_type : ftx_callsign_hash_type_t) (hash : ℕ) :
    (lookup_callsign hash_if hash_type hash s).length ≤ 13 := by
  unfold lookup_callsign
  split
  · decide
  · next c11 hc11 =>
    have hlen := h.lookup hs _ _ _ hc11
    rw [add_brackets, List.length_append, List.length_cons, List.length_singleton]
    omega

theorem inv_save_callsign (h : hash_if.Bounded Inv) {s : σ} (hs : Inv s) (callsign : List Char) :
    Inv (save_callsign hash_if callsign s).2 := by
  unfold save_callsign
  split
  · exact hs
  · exact h.save hs _ _

theorem length_trim_copy_le (s : List Char) : (trim_copy s).length ≤ s.length :=
  (List.rdropWhile_prefix _ _).length_le.trans (List.dropWhile_sublist _).length_le

/-- A callsign with a prefix that is written out has one character more. -/
theorem length_basecallText {callsign : List Char} (h : callsign.length = 6) :
    (basecallText callsign).length ≤ 7 := by
  have hdrop : ∀ n, (trim_copy (callsign.drop n)).length ≤ 6 - n := by
    intro n
    rw [← h, ← List.length_drop]
    exact length_trim_copy_le _
  unfold basecallText
  split_ifs
  · rw [List.length_append]
    exact Nat.add_le_add_left (hdrop 3) 4
  · rw [List.length_append]
    exact Nat.add_le_add_left (hdrop 1) 2
  · exact (hdrop 0).trans (by decide)

theorem length_unpackBasecall (n : ℕ) : (unpackChars basecallTables n).length = 6 :=
  length_unpackChars basecallTables n

theorem length_ddDigits (width value : ℕ) : (ddDigits width value).length = width := by
  induction width generalizing value with
  | zero => rfl
  | succ width ih => rw [ddDigits, List.length_cons, ih]

theorem length_int_to_dd_le (value : ℤ) (width : ℕ) (full_sign : Bool) :
    (int_to_dd value width full_sign).length ≤ width + 1 := by
  rw [int_to_dd, List.length_append, length_ddDigits, Nat.add_comm]
  refine Nat.add_le_add_left ?_ width
  split_ifs <;> decide

theorem length_suffix {ip : Bool} {i3 : ℕ} {suf : List Char} (h : suffix ip i3 = some suf) :
    suf.length ≤ 2 := by
  unfold suffix at h
  split_ifs at h <;> cases h <;> decide

theorem length_tokenText {n28 : ℕ} {call : List Char} (h : tokenText n28 = some call) :
    call.length ≤ 7 := by
  unfold tokenText at h
  split_ifs at h
  · obtain rfl := Option.some.inj h
    decide
  · obtain rfl := Option.some.inj h
    decide
  · obtain rfl := Option.some.inj h
    decide
  · obtain rfl := Option.some.inj h
    rw [List.length_append]
    exact Nat.add_le_add_left (length_int_to_dd_le _ 3 false) 3
  · obtain rfl := Option.some.inj h
    have hdrop : ∀ l : List Char, (l.dropWhile (· = ' ')).length ≤ l.length :=
      fun l => (List.dropWhile_sublist _).length_le
    have hlen := hdrop (unpackChars (List.replicate 4 .lettersSpace) (n28 - 1003))
    rw [length_unpackChars, List.length_replicate] at hlen
    rw [List.length_append]
    exact Nat.add_le_add_left hlen 3

theorem appendSuffix_bounded (h : hash_if.Bounded Inv) {s : σ} (hs : Inv s) {base : List Char}
    (hbase : base.length ≤ 7) (ip : Bool) (i3 : ℕ) :
    Inv (appendSuffix hash_if base ip i3 s).2 ∧
      ∀ call, (appendSuffix hash_if base ip i3 s).1 = some call → call.length ≤ 13 := by
  unfold appendSuffix
  split_ifs
  · exact ⟨hs, fun call hcall => by cases hcall⟩
  · split
    · exact ⟨hs, fun call hcall => by cases hcall⟩
    · next suf hsuf =>
      refine ⟨inv_save_callsign h hs _, fun call hcall => ?_⟩
      obtain rfl := Option.some.inj hcall
      have hsuffix := length_suffix hsuf
      rw [List.length_append]
      omega

/-- A callsign has at most thirteen characters, and they are only reached by brackets. -/
theorem unpack28_bounded (h : hash_if.Bounded Inv) {s : σ} (hs : Inv s) (n28 : ℕ) (ip : Bool)
    (i3 : ℕ) :
    Inv (unpack28 hash_if n28 ip i3 s).2 ∧
      ∀ call, (unpack28 hash_if n28 ip i3 s).1 = some call → call.length ≤ 13 := by
  unfold unpack28
  by_cases htoken : n28 < NTOKENS
  · rw [if_pos htoken]
    exact ⟨hs, fun call hcall => (length_tokenText hcall).trans (by decide)⟩
  · rw [if_neg htoken]
    generalize n28 - NTOKENS = m
    by_cases hhash : m < MAX22
    · rw [if_pos hhash]
      refine ⟨hs, fun call hcall => ?_⟩
      obtain rfl := Option.some.inj hcall
      exact length_lookup_callsign h hs _ _
    · rw [if_neg hhash]
      exact appendSuffix_bounded h hs (length_basecallText (length_unpackBasecall _)) ip i3

theorem length_unpackgrid_le (igrid4 : ℕ) (ir : Bool) : (unpackgrid igrid4 ir).length ≤ 6 := by
  have hpre : ∀ word : List Char, (if ir then word else []).length ≤ word.length := by
    intro word
    split_ifs
    · exact le_rfl
    · exact Nat.zero_le _
  unfold unpackgrid
  by_cases hgrid : igrid4 ≤ MAXGRID4
  · rw [if_pos hgrid, List.length_append]
    exact Nat.add_le_add_right (hpre ['R', ' ']) 4
  · rw [if_neg hgrid]
    split
    · decide
    · decide
    · decide
    · decide
    · rw [List.length_append]
      exact (Nat.add_le_add (hpre ['R']) (length_int_to_dd_le _ 2 true)).trans (by decide)

/-- The fields of a standard message. -/
theorem decode_std_bounded (h : hash_if.Bounded Inv) {s : σ} (hs : Inv s) (payload : List UInt8) :
    Inv (ftx_message_decode_std hash_if payload s).2 ∧
      ∀ f, (ftx_message_decode_std hash_if payload s).1 = .ok f →
        f.1.length ≤ 13 ∧ f.2.1.length ≤ 13 ∧ f.2.2.length ≤ 6 := by
  unfold ftx_message_decode_std
  dsimp only
  obtain ⟨n29a, n29b, ir, igrid4⟩ := unpackStd payload
  generalize ftx_message_get_i3 payload = i3
  have hfirst := unpack28_bounded h hs (n29a >>> 1) (n29a &&& 1 != 0) i3
  generalize unpack28 hash_if (n29a >>> 1) (n29a &&& 1 != 0) i3 s = first at hfirst ⊢
  rcases first with ⟨_ | call_to, s₁⟩
  · exact ⟨hfirst.1, fun f hf => by cases hf⟩
  · have hsecond := unpack28_bounded h hfirst.1 (n29b >>> 1) (n29b &&& 1 != 0) i3
    dsimp only at hsecond ⊢
    generalize unpack28 hash_if (n29b >>> 1) (n29b &&& 1 != 0) i3 s₁ = second at hsecond ⊢
    rcases second with ⟨_ | call_de, s₂⟩
    · exact ⟨hsecond.1, fun f hf => by cases hf⟩
    · refine ⟨hsecond.1, fun f hf => ?_⟩
      obtain rfl := Except.ok.inj hf
      exact ⟨hfirst.2 call_to rfl, hsecond.2 call_de rfl, length_unpackgrid_le igrid4 ir⟩

theorem unpack58_bounded (h : hash_if.Bounded Inv) {s : σ} (hs : Inv s) (n58 : ℕ) :
    Inv (unpack58 hash_if n58 s).2 ∧ (unpack58 hash_if n58 s).1.length ≤ 11 := by
  unfold unpack58
  have hlen := length_trim_copy_le (unpackChars (List.replicate 11 .alphanumSpaceSlash) n58)
  rw [length_unpackChars, List.length_replicate] at hlen
  refine ⟨?_, hlen⟩
  dsimp only
  split_ifs
  · exact inv_save_callsign h hs _
  · exact hs

theorem length_reportText (nrpt : ℕ) : (reportText nrpt).length ≤ 4 := by
  unfold reportText
  split_ifs <;> decide

/-- The fields of a message with a callsign in full. -/
theorem decode_nonstd_bounded (h : hash_if.Bounded Inv) {s : σ} (hs : Inv s)
    (payload : List UInt8) :
    Inv (ftx_message_decode_nonstd hash_if payload s).2 ∧
      (ftx_message_decode_nonstd hash_if payload s).1.1.length ≤ 13 ∧
      (ftx_message_decode_nonstd hash_if payload s).1.2.1.length ≤ 13 ∧
      (ftx_message_decode_nonstd hash_if payload s).1.2.2.length ≤ 6 := by
  unfold ftx_message_decode_nonstd
  dsimp only
  have hfull := unpack58_bounded h hs (unpackNonstd payload).n58
  generalize unpack58 hash_if (unpackNonstd payload).n58 s = full at hfull ⊢
  rcases full with ⟨call_decoded, s₁⟩
  have hhash :=
    length_lookup_callsign h hfull.1 .FTX_CALLSIGN_HASH_12_BITS (unpackNonstd payload).n12
  have hlong : call_decoded.length ≤ 13 := le_trans hfull.2 (by decide)
  dsimp only at hhash ⊢
  refine ⟨hfull.1, ?_⟩
  have hreport := (length_reportText (unpackNonstd payload).nrpt).trans (by decide : 4 ≤ 6)
  split_ifs
  · exact ⟨(by decide : ['C', 'Q'].length ≤ 13), hhash, Nat.zero_le 6⟩
  · exact ⟨(by decide : ['C', 'Q'].length ≤ 13), hlong, Nat.zero_le 6⟩
  · exact ⟨hlong, hhash, hreport⟩
  · exact ⟨hhash, hlong, hreport⟩

theorem length_freeChars (idx : ℕ) (b71 : List UInt8) (c14 : List Char) :
    (freeChars idx b71 c14).length = idx + c14.length := by
  induction idx generalizing b71 c14 with
  | zero => rw [freeChars, Nat.zero_add]
  | succ idx ih =>
    rw [freeChars, ih, List.length_cons]
    omega

theorem length_decode_free (payload : List UInt8) :
    (ftx_message_decode_free payload).length ≤ 13 :=
  (length_trim_copy_le _).trans (length_freeChars 13 _ []).le

theorem length_decode_telemetry_hex (payload : List UInt8) :
    (ftx_message_decode_telemetry_hex payload).length = 18 := rfl

theorem length_ftx_message_text {f : List Char × List Char × List Char}
    (h : f.1.length ≤ 13 ∧ f.2.1.length ≤ 13 ∧ f.2.2.length ≤ 6) :
    (ftx_message_text f.1 f.2.1 f.2.2).length ≤ 34 := by
  rw [ftx_message_text, List.length_append, List.length_append, List.length_append,
    List.length_append, List.length_singleton]
  omega

/-- A text fits into its buffer with its terminator, whatever has been received. -/
theorem decode_bounded (h : hash_if.Bounded Inv) {s : σ} (hs : Inv s) (payload : List UInt8) :
    Inv (ftx_message_decode hash_if payload s).2 ∧
      ∀ text, (ftx_message_decode hash_if payload s).1 = .ok text → text.length ≤ 34 := by
  unfold ftx_message_decode
  split
  · -- standard messages
    have hstd := decode_std_bounded h hs payload
    generalize ftx_message_decode_std hash_if payload s = fields at hstd ⊢
    rcases fields with ⟨_ | f, s₁⟩
    · exact ⟨hstd.1, fun text htext => by cases htext⟩
    · refine ⟨hstd.1, fun text htext => ?_⟩
      obtain rfl := Except.ok.inj htext
      exact length_ftx_message_text (hstd.2 f rfl)
  · -- messages with a callsign in full
    have hnonstd := decode_nonstd_bounded h hs payload
    generalize ftx_message_decode_nonstd hash_if payload s = fields at hnonstd ⊢
    rcases fields with ⟨f, s₁⟩
    refine ⟨hnonstd.1, fun text htext => ?_⟩
    obtain rfl := Except.ok.inj htext
    exact length_ftx_message_text hnonstd.2
  · refine ⟨hs, fun text htext => ?_⟩
    obtain rfl := Except.ok.inj htext
    exact (length_decode_free payload).trans (by decide)
  · refine ⟨hs, fun text htext => ?_⟩
    obtain rfl := Except.ok.inj htext
    exact (length_decode_telemetry_hex payload).le.trans (by decide)
  · exact ⟨hs, fun text htext => by cases htext⟩

end Bounds

end GranolaSdr.Ft8
