import GranolaSdr.Lib.Ipfix
import GranolaSdr.Lib.Rounding
import GranolaSdr.Uploader.BandFilter
import Mathlib.Algebra.BigOperators.Group.List.Basic

/-!
# The packets of the uploader

`src/psk_uploader.py` packs the buffered reports into one datagram: a header, the templates if they
are due, a block for the receiver and a block with a record for each report. Only the last block is
kept within a limit, and every field is packed by a function that raises an exception for a value it
cannot hold.

## Main definitions

* `PyError`, `Number`: the exceptions, and the numbers of a decoded message;
* `Report`, `dedup_reports`: the buffered reports, and one for each callsign, mode and band;
* `sender_record`, `sender_block`, `receiver_block`, `build_packet`: the packet;
* `fitting`, `Writable`: the reports that are packed, and that none on the way raises an exception;
* `Sendable`: the packet can be built.

## Main results

* `sender_records_eq_ok_iff`: the loop over the reports;
* `build_packet_eq_ok_iff`: when a packet is built, and what it is.
-/

namespace GranolaSdr.Uploader

open Ipfix WebSocket

/-! ## Numbers -/

/-- The exceptions that packing and sending raise. -/
inductive PyError
  | UnicodeEncodeError
  | StructError
  | ValueError
  | OverflowError
  | OSError
  deriving DecidableEq

theorem bind_eq_ok_iff {α β : Type} {x : Except PyError α} {f : α → Except PyError β} {b : β} :
    (x >>= f) = .ok b ↔ ∃ a, x = .ok a ∧ f a = .ok b := by
  cases x with
  | error e => exact iff_of_false nofun (by rintro ⟨a, ha, -⟩; cases ha)
  | ok a => exact ⟨fun h => ⟨a, rfl, h⟩, by rintro ⟨_, ⟨⟩, h⟩; exact h⟩

/-- A number as `json.loads` reads it. -/
inductive Number
  | int (n : ℤ)
  | float (x : ℚ)
  | infinity (negative : Bool)
  | nan

namespace Number

/-- `int`. -/
def toInt : Number → Except PyError ℤ
  | int n => .ok n
  | float x => .ok (truncate x)
  | infinity _ => .error .OverflowError
  | nan => .error .ValueError

/-- `round`, to an integer. -/
def round : Number → Except PyError ℤ
  | int n => .ok n
  | float x => .ok (Rounding.roundEven x)
  | infinity _ => .error .OverflowError
  | nan => .error .ValueError

/-- The value of a finite number. -/
def value : Number → ℚ
  | int n => n
  | float x => x
  | _ => 0

/-- `>`, which fails for what is no number. -/
def gt : Number → Number → Bool
  | nan, _ => false
  | _, nan => false
  | infinity s, infinity t => !s && t
  | infinity s, _ => !s
  | _, infinity t => t
  | a, b => decide (b.value < a.value)

/-- Neither infinite nor no number. -/
def Finite : Number → Prop
  | int _ => True
  | float _ => True
  | _ => False

instance : DecidablePred Finite
  | int _ => isTrue trivial
  | float _ => isTrue trivial
  | infinity _ => isFalse id
  | nan => isFalse id

theorem toInt_eq_ok_iff {x : Number} {n : ℤ} :
    x.toInt = .ok n ↔ x.Finite ∧ truncate x.value = n := by
  have hint : ∀ k : ℤ, truncate (k : ℚ) = k := by
    intro k
    unfold truncate
    split_ifs
    · exact Int.floor_intCast k
    · exact Int.ceil_intCast k
  cases x with
  | int k => simp [toInt, Finite, value, hint]
  | float x => simp [toInt, Finite, value]
  | infinity negative => simp [toInt, Finite]
  | nan => simp [toInt, Finite]

theorem round_eq_ok_iff {x : Number} {n : ℤ} :
    x.round = .ok n ↔ x.Finite ∧ Rounding.roundEven x.value = n := by
  cases x with
  | int k => simp [round, Finite, value, Rounding.roundEven_intCast]
  | float x => simp [round, Finite, value]
  | infinity negative => simp [round, Finite]
  | nan => simp [round, Finite]

end Number

/-! ## Reports -/

/-- A buffered report. -/
structure Report where
  call : List Char
  freq : Number
  snr : Number
  mode : Option (List Char)
  unix : Number

/-- What two reports share of which one is kept. -/
abbrev Key := List Char × List Char × ℤ

/-- Callsign, mode and band of a report. -/
def Report.key (r : Report) : Except PyError Key := do
  let freq ← r.freq.toInt
  return (r.call, r.mode.getD [], freq / 1000000)

/-- One turn of the loop: a new report is put at the end, a better one in the place of the old. -/
def keep_best (best : List (Key × Report)) (key : Key) (r : Report) : List (Key × Report) :=
  match best.find? fun entry => entry.1 = key with
  | none => best ++ [(key, r)]
  | some old =>
    if r.snr.gt old.2.snr then
      best.map fun entry => if entry.1 = key then (key, r) else entry
    else best

/-- The loop over the reports, with the best one of each key so far. -/
def dedup_loop : List (Key × Report) → List Report → Except PyError (List (Key × Report))
  | best, [] => .ok best
  | best, r :: reports => do
    let key ← r.key
    dedup_loop (keep_best best key r) reports

/-- One report for each callsign, mode and band, that with the best signal. -/
def dedup_reports (reports : List Report) : Except PyError (List Report) := do
  let best ← dedup_loop [] reports
  return best.map Prod.snd

theorem keep_best_of_notMem {best : List (Key × Report)} {key : Key} (r : Report)
    (h : key ∉ best.map Prod.fst) : keep_best best key r = best ++ [(key, r)] := by
  have hfind : (best.find? fun entry => entry.1 = key) = none := by
    rw [List.find?_eq_none]
    intro entry hentry heq
    exact h (List.mem_map.2 ⟨entry, hentry, of_decide_eq_true heq⟩)
  rw [keep_best, hfind]

/-- Reports with new and different keys are put behind the others. -/
theorem dedup_loop_of_nodup {reports : List Report} {key : Report → Key}
    {best : List (Key × Report)} (hkey : ∀ r ∈ reports, r.key = .ok (key r))
    (hnodup : (best.map Prod.fst ++ reports.map key).Nodup) :
    dedup_loop best reports = .ok (best ++ reports.map fun r => (key r, r)) := by
  induction reports generalizing best with
  | nil => rw [List.map_nil, List.append_nil, dedup_loop]
  | cons r reports ih =>
    obtain ⟨hr, hrest⟩ := List.forall_mem_cons.1 hkey
    -- the key is new, so the report is put behind the others
    have hnotMem : key r ∉ best.map Prod.fst := by
      intro hmem
      exact List.disjoint_of_nodup_append hnodup hmem List.mem_cons_self
    have hnext : ((best ++ [(key r, r)]).map Prod.fst ++ reports.map key).Nodup := by
      rwa [List.map_append, List.append_assoc]
    rw [dedup_loop, hr]
    show dedup_loop (keep_best best (key r) r) reports = _
    rw [keep_best_of_notMem r hnotMem, ih hrest hnext, List.append_assoc]
    rfl

/-- Reports with different keys are all kept. -/
theorem dedup_reports_eq_self {reports : List Report} {key : Report → Key}
    (hkey : ∀ r ∈ reports, r.key = .ok (key r)) (hnodup : (reports.map key).Nodup) :
    dedup_reports reports = .ok reports := by
  have hbest : dedup_loop [] reports = .ok ([] ++ reports.map fun r => (key r, r)) :=
    dedup_loop_of_nodup hkey hnodup
  unfold dedup_reports
  rw [hbest, List.nil_append]
  show Except.ok ((reports.map fun r => (key r, r)).map Prod.snd) = _
  rw [List.map_map]
  exact congrArg Except.ok (List.map_id reports)

/-! ## Packing -/

/-- `struct.pack` of an unsigned number. -/
def pack (size : ℕ) (n : ℤ) : Except PyError (List UInt8) :=
  if 0 ≤ n ∧ n < 256 ^ size then .ok (bigEndian size n.toNat) else .error .StructError

/-- `struct.pack` of a signed byte. -/
def pack_signed (n : ℤ) : Except PyError (List UInt8) :=
  if -128 ≤ n ∧ n ≤ 127 then .ok (bigEndian 1 (n % 256).toNat) else .error .StructError

/-- The text has no character beyond ASCII. -/
def Ascii (s : List Char) : Prop := ∀ c ∈ s, c.toNat < 128

instance (s : List Char) : Decidable (Ascii s) := List.decidableBAll _ s

/-- `s.encode("ascii")`. -/
def encode_ascii (s : List Char) : Except PyError (List UInt8) :=
  if Ascii s then .ok (s.map fun c => UInt8.ofNat c.toNat) else .error .UnicodeEncodeError

/-- A text with its length in front, cut after 254 characters. -/
def str (s : List Char) : Except PyError (List UInt8) := do
  let b ← encode_ascii s
  let b := b.take 254
  let length ← pack 1 b.length
  return length ++ b

/-- Fill up to a multiple of four bytes. -/
def pad4 (data : List UInt8) : List UInt8 :=
  data ++ List.replicate ((4 - data.length % 4) % 4) 0

/-- The name of the software. -/
def SOFTWARE : List Char := "granolasdr v1".toList

/-- The block of the receiver. -/
def receiver_block (rx_call rx_grid rig : List Char) : Except PyError (List UInt8) := do
  let call ← str rx_call
  let grid ← str rx_grid
  let software ← str SOFTWARE
  let rig ← str rig
  let payload := pad4 (call ++ grid ++ software ++ rig)
  let id ← pack 2 0x9992
  let length ← pack 2 (4 + payload.length)
  return id ++ length ++ payload

/-- The record of a report. -/
def sender_record (r : Report) : Except PyError (List UInt8) := do
  let snr ← r.snr.round
  let snr := max (-128) (min 127 snr)
  let call ← str r.call
  let freq ← r.freq.toInt
  let freq ← pack 4 freq
  let snr ← pack_signed snr
  let imd ← pack_signed 0
  let mode ← str (r.mode.getD "FT8".toList)
  let source ← pack 1 1
  let unix ← r.unix.toInt
  let unix ← pack 4 unix
  return call ++ freq ++ snr ++ imd ++ mode ++ source ++ unix

/-- The loop over the reports, with the records so far. It ends where the block would be full. -/
def sender_records : List UInt8 → List Report → Except PyError (List UInt8)
  | records, [] => .ok records
  | records, r :: reports => do
    let record ← sender_record r
    if 4 + records.length + record.length + 3 > 65535 then return records
    else sender_records (records ++ record) reports

/-- The block of the reports. -/
def sender_block (reports : List Report) : Except PyError (List UInt8) := do
  let records ← sender_records [] reports
  let records := pad4 records
  let id ← pack 2 0x9993
  let length ← pack 2 (4 + records.length)
  return id ++ length ++ records

/-- The template of the receiver block. -/
def RECV_TMPL : List UInt8 :=
  [0x00, 0x03, 0x00, 0x2C,
    0x99, 0x92, 0x00, 0x04, 0x00, 0x01,
    0x80, 0x02, 0xFF, 0xFF, 0x00, 0x00, 0x76, 0x8F,
    0x80, 0x04, 0xFF, 0xFF, 0x00, 0x00, 0x76, 0x8F,
    0x80, 0x08, 0xFF, 0xFF, 0x00, 0x00, 0x76, 0x8F,
    0x80, 0x09, 0xFF, 0xFF, 0x00, 0x00, 0x76, 0x8F,
    0x00, 0x00]

/-- The template of the sender records. -/
def SEND_TMPL : List UInt8 :=
  [0x00, 0x02, 0x00, 0x3C,
    0x99, 0x93, 0x00, 0x07,
    0x80, 0x01, 0xFF, 0xFF, 0x00, 0x00, 0x76, 0x8F,
    0x80, 0x05, 0x00, 0x04, 0x00, 0x00, 0x76, 0x8F,
    0x80, 0x06, 0x00, 0x01, 0x00, 0x00, 0x76, 0x8F,
    0x80, 0x07, 0x00, 0x01, 0x00, 0x00, 0x76, 0x8F,
    0x80, 0x0A, 0xFF, 0xFF, 0x00, 0x00, 0x76, 0x8F,
    0x80, 0x0B, 0x00, 0x01, 0x00, 0x00, 0x76, 0x8F,
    0x00, 0x96, 0x00, 0x04]

/-- Both templates. -/
def TEMPLATES : List UInt8 := RECV_TMPL ++ SEND_TMPL

/-- The packet. The clock is read as `now`. -/
def build_packet (rx_call rx_grid rig : List Char) (reports : List Report) (seq session_id : ℕ)
    (include_templates : Bool) (now : ℤ) : Except PyError (List UInt8) := do
  let templates := if include_templates then TEMPLATES else []
  let receiver ← receiver_block rx_call rx_grid rig
  let sender ← sender_block reports
  let body := templates ++ receiver ++ sender
  let version ← pack 2 0x000A
  let length ← pack 2 (16 + body.length)
  let time ← pack 4 now
  let seq ← pack 4 seq
  let session ← pack 4 session_id
  return version ++ length ++ time ++ seq ++ session ++ body

/-! ## What is packed -/

/-- The bytes of a text that are packed. -/
def text (s : List Char) : List UInt8 := (s.map fun c => UInt8.ofNat c.toNat).take 254

/-- A text as it is packed. -/
def strBytes (s : List Char) : List UInt8 := bigEndian 1 (text s).length ++ text s

/-- A report as it is sent: integer frequency and time, and the SNR as a signed byte. -/
structure Spot where
  call : List Char
  frequency : ℕ
  snr : ℤ
  mode : List Char
  time : ℕ
  deriving DecidableEq

/-- What is sent of a report. -/
def Report.spot (r : Report) : Spot where
  call := r.call.take 254
  frequency := (truncate r.freq.value).toNat
  snr := max (-128) (min 127 (Rounding.roundEven r.snr.value))
  mode := (r.mode.getD "FT8".toList).take 254
  time := (truncate r.unix.value).toNat

/-- A number that has an integer part of four bytes. -/
def Word (x : Number) : Prop := x.Finite ∧ 0 ≤ truncate x.value ∧ truncate x.value < 2 ^ 32

instance (x : Number) : Decidable (Word x) := instDecidableAnd

/-- No field of the report raises an exception. -/
structure Report.Encodable (r : Report) : Prop where
  call : Ascii r.call
  freq : Word r.freq
  snr : r.snr.Finite
  mode : Ascii (r.mode.getD "FT8".toList)
  unix : Word r.unix

/-- The record of a report that can be encoded. -/
def Report.record (r : Report) : List UInt8 :=
  strBytes r.call ++ bigEndian 4 r.spot.frequency ++ bigEndian 1 (r.spot.snr % 256).toNat ++
    bigEndian 1 0 ++ strBytes (r.mode.getD "FT8".toList) ++ bigEndian 1 1 ++
    bigEndian 4 r.spot.time

/-- The length of a packed text. -/
def str_length (s : List Char) : ℕ := 1 + min 254 s.length

/-- The length of a record. -/
def Report.size (r : Report) : ℕ :=
  str_length r.call + 4 + 1 + 1 + str_length (r.mode.getD "FT8".toList) + 1 + 4

/-- The reports that are packed behind records of some size: those in front of the first one with
which the block would be full. -/
def fitting : ℕ → List Report → List Report
  | _, [] => []
  | size, r :: reports =>
    if size + r.size ≤ 65528 then r :: fitting (size + r.size) reports else []

/-- Every report that the loop comes to can be encoded. -/
def Writable : ℕ → List Report → Prop
  | _, [] => True
  | size, r :: reports =>
    r.Encodable ∧ (size + r.size ≤ 65528 → Writable (size + r.size) reports)

/-- The size of a list of reports. -/
def total (reports : List Report) : ℕ := (reports.map Report.size).sum

/-- The length after filling up. -/
def padded (length : ℕ) : ℕ := length + (4 - length % 4) % 4

/-- The length of a packet with some reports. -/
def packet_size (rx_call rx_grid rig : List Char) (reports : List Report)
    (include_templates : Bool) : ℕ :=
  16 + (if include_templates then 104 else 0) +
    (4 + padded (str_length rx_call + str_length rx_grid + str_length SOFTWARE + str_length rig)) +
    (4 + padded (total reports))

/-- The packet can be built: no field that is reached raises an exception, and the length of the
packet is one that its header can hold. -/
structure Sendable (rx_call rx_grid rig : List Char) (reports : List Report) (seq session_id : ℕ)
    (include_templates : Bool) (now : ℤ) : Prop where
  receiver : Ascii rx_call ∧ Ascii rx_grid ∧ Ascii rig
  writable : Writable 0 reports
  clock : 0 ≤ now ∧ now < 2 ^ 32
  seq : seq < 2 ^ 32
  session_id : session_id < 2 ^ 32
  size : packet_size rx_call rx_grid rig (fitting 0 reports) include_templates ≤ 65535

/-! ## When a field is packed -/

theorem pack_eq_ok_iff {size : ℕ} {n : ℤ} {b : List UInt8} :
    pack size n = .ok b ↔ (0 ≤ n ∧ n < 256 ^ size) ∧ bigEndian size n.toNat = b := by
  unfold pack
  split_ifs with h <;> simp [h]

/-- A length is packed if it fits. -/
theorem pack_natCast {size n : ℕ} (h : n < 256 ^ size) :
    pack size n = .ok (bigEndian size n) :=
  pack_eq_ok_iff.2 ⟨⟨Int.natCast_nonneg n, by exact_mod_cast h⟩, by rw [Int.toNat_natCast]⟩

/-- The length of a block with its header is packed if it fits. -/
theorem pack_add_natCast {size c n : ℕ} [c.AtLeastTwo] (h : c + n < 256 ^ size) :
    pack size (OfNat.ofNat c + n) = .ok (bigEndian size (c + n)) := by
  have hpack := pack_natCast h
  rw [Nat.cast_add] at hpack
  exact hpack

theorem pack_signed_eq_ok {n : ℤ} (h : -128 ≤ n ∧ n ≤ 127) :
    pack_signed n = .ok (bigEndian 1 (n % 256).toNat) := if_pos h

theorem length_text (s : List Char) : (text s).length = min 254 s.length := by
  rw [text, List.length_take, List.length_map]

theorem length_text_lt (s : List Char) : (text s).length < 255 := by
  rw [length_text]
  omega

theorem length_strBytes (s : List Char) : (strBytes s).length = str_length s := by
  rw [strBytes, List.length_append, length_bigEndian, length_text, str_length]

theorem encode_ascii_eq_ok_iff {s : List Char} {b : List UInt8} :
    encode_ascii s = .ok b ↔ Ascii s ∧ (s.map fun c => UInt8.ofNat c.toNat) = b := by
  unfold encode_ascii
  split_ifs with h <;> simp [h]

theorem pure_eq_ok_iff {α : Type} {a b : α} : (pure a : Except PyError α) = .ok b ↔ a = b :=
  ⟨Except.ok.inj, congrArg Except.ok⟩

/-- A text is packed exactly if it is ASCII. -/
theorem str_eq_ok_iff {s : List Char} {b : List UInt8} :
    str s = .ok b ↔ Ascii s ∧ strBytes s = b := by
  have hlength : pack 1 (text s).length = .ok (bigEndian 1 (text s).length) :=
    pack_natCast (Nat.lt_of_lt_of_le (length_text_lt s) (by decide))
  rw [text] at hlength
  unfold str
  simp only [bind_eq_ok_iff, encode_ascii_eq_ok_iff, pure_eq_ok_iff]
  constructor
  · rintro ⟨_, ⟨hs, rfl⟩, length, hpack, rfl⟩
    rw [hlength, Except.ok.injEq] at hpack
    rw [← hpack]
    exact ⟨hs, rfl⟩
  · rintro ⟨hs, rfl⟩
    exact ⟨_, ⟨hs, rfl⟩, _, hlength, rfl⟩

theorem length_pad4 (data : List UInt8) : (pad4 data).length = padded data.length := by
  rw [pad4, List.length_append, List.length_replicate, padded]

theorem padded_le {length bound : ℕ} (h : length ≤ 4 * bound) : padded length ≤ 4 * bound := by
  unfold padded
  omega

/-- The content of the receiver block. -/
def receiverBytes (rx_call rx_grid rig : List Char) : List UInt8 :=
  strBytes rx_call ++ strBytes rx_grid ++ strBytes SOFTWARE ++ strBytes rig

theorem length_receiverBytes (rx_call rx_grid rig : List Char) :
    (receiverBytes rx_call rx_grid rig).length =
      str_length rx_call + str_length rx_grid + str_length SOFTWARE + str_length rig := by
  simp only [receiverBytes, List.length_append, length_strBytes]

theorem str_length_le (s : List Char) : str_length s ≤ 255 := by
  unfold str_length
  omega

/-- The receiver block is packed exactly if its texts are ASCII. -/
theorem receiver_block_eq_ok_iff {rx_call rx_grid rig : List Char} {b : List UInt8} :
    receiver_block rx_call rx_grid rig = .ok b ↔
      (Ascii rx_call ∧ Ascii rx_grid ∧ Ascii rig) ∧
        writeSet 0x9992 (pad4 (receiverBytes rx_call rx_grid rig)) = b := by
  have hsoftware : Ascii SOFTWARE := by decide
  have hid : pack 2 0x9992 = .ok (bigEndian 2 0x9992) := rfl
  -- four texts of at most 255 bytes each, so that the length field cannot overflow
  have hsize : (receiverBytes rx_call rx_grid rig).length ≤ 4 * 255 := by
    have h₁ := str_length_le rx_call
    have h₂ := str_length_le rx_grid
    have h₃ := str_length_le SOFTWARE
    have h₄ := str_length_le rig
    rw [length_receiverBytes]
    omega
  have hpadded := padded_le hsize
  rw [← length_pad4] at hpadded
  have hfits : 4 + (pad4 (receiverBytes rx_call rx_grid rig)).length < 256 ^ 2 := by omega
  have hlength := pack_add_natCast hfits
  unfold receiver_block
  simp only [bind_eq_ok_iff, str_eq_ok_iff, pure_eq_ok_iff]
  constructor
  · rintro ⟨_, ⟨hcall, rfl⟩, _, ⟨hgrid, rfl⟩, _, ⟨-, rfl⟩, _, ⟨hrig, rfl⟩, _, hid', _, hlen, rfl⟩
    rw [hid, Except.ok.injEq] at hid'
    rw [← receiverBytes, hlength, Except.ok.injEq] at hlen
    rw [← hid', ← hlen]
    exact ⟨⟨hcall, hgrid, hrig⟩, rfl⟩
  · rintro ⟨⟨hcall, hgrid, hrig⟩, rfl⟩
    exact ⟨_, ⟨hcall, rfl⟩, _, ⟨hgrid, rfl⟩, _, ⟨hsoftware, rfl⟩, _, ⟨hrig, rfl⟩, _, hid, _,
      hlength, rfl⟩

/-! ## When a packet is built -/

theorem length_record (r : Report) : r.record.length = r.size := by
  simp only [Report.record, Report.size, List.length_append, length_strBytes, length_bigEndian]

/-- A record is packed exactly if its report can be encoded. -/
theorem sender_record_eq_ok_iff {r : Report} {b : List UInt8} :
    sender_record r = .ok b ↔ r.Encodable ∧ r.record = b := by
  have hsnr : -128 ≤ r.spot.snr ∧ r.spot.snr ≤ 127 :=
    ⟨le_max_left .., max_le (by decide) (min_le_left ..)⟩
  have hpack := pack_signed_eq_ok hsnr
  have himd : pack_signed 0 = .ok (bigEndian 1 0) := rfl
  have hsource : pack 1 1 = .ok (bigEndian 1 1) := rfl
  unfold sender_record
  simp only [bind_eq_ok_iff, str_eq_ok_iff, pure_eq_ok_iff, Number.round_eq_ok_iff,
    Number.toInt_eq_ok_iff, pack_eq_ok_iff]
  constructor
  · rintro ⟨_, ⟨hfinite, rfl⟩, _, ⟨hcall, rfl⟩, _, ⟨hfreq, rfl⟩, _, ⟨hword, rfl⟩, _, hsnr', _,
      himd', _, ⟨hmode, rfl⟩, _, ⟨-, rfl⟩, _, ⟨hunix, rfl⟩, _, ⟨hword', rfl⟩, rfl⟩
    obtain rfl := Except.ok.inj (hpack.symm.trans hsnr')
    obtain rfl := Except.ok.inj (himd.symm.trans himd')
    exact ⟨⟨hcall, ⟨hfreq, hword⟩, hfinite, hmode, ⟨hunix, hword'⟩⟩, rfl⟩
  · rintro ⟨h, rfl⟩
    exact ⟨_, ⟨h.snr, rfl⟩, _, ⟨h.call, rfl⟩, _, ⟨h.freq.1, rfl⟩, _, ⟨h.freq.2, rfl⟩, _, hpack, _,
      himd, _, ⟨h.mode, rfl⟩, _, ⟨by decide, rfl⟩, _, ⟨h.unix.1, rfl⟩, _, ⟨h.unix.2, rfl⟩, rfl⟩

/-- The reports that are packed stay within the limit. -/
theorem add_total_fitting_le {size : ℕ} (h : size ≤ 65528) (reports : List Report) :
    size + total (fitting size reports) ≤ 65528 := by
  induction reports generalizing size with
  | nil => exact h
  | cons r reports ih =>
    unfold fitting
    split_ifs with hfits
    · have hrest := ih hfits
      rw [total, List.map_cons, List.sum_cons, ← total]
      omega
    · exact h

/-- All reports are packed exactly if they stay within the limit. -/
theorem fitting_eq_self_iff {size : ℕ} {reports : List Report} (h : size ≤ 65528) :
    fitting size reports = reports ↔ size + total reports ≤ 65528 := by
  induction reports generalizing size with
  | nil => exact iff_of_true rfl h
  | cons r reports ih =>
    have hcons : total (r :: reports) = r.size + total reports := by
      rw [total, List.map_cons, List.sum_cons, total]
    unfold fitting
    split_ifs with hfits
    · rw [List.cons.injEq, ih hfits, hcons, Nat.add_assoc]
      exact and_iff_right rfl
    · refine iff_of_false nofun ?_
      rw [hcons]
      omega

theorem total_of_size {k : ℕ} {reports : List Report} (h : ∀ r ∈ reports, r.size = k) :
    total reports = reports.length * k := by
  induction reports with
  | nil => rw [List.length_nil, Nat.zero_mul, total, List.map_nil, List.sum_nil]
  | cons r reports ih =>
    obtain ⟨hr, hrest⟩ := List.forall_mem_cons.1 h
    have hsum := ih hrest
    rw [total] at hsum
    rw [total, List.map_cons, List.sum_cons, hsum, hr, List.length_cons, Nat.succ_mul, Nat.add_comm]

/-- Of reports of one size, as many are packed as fit. -/
theorem fitting_of_size {k : ℕ} {reports : List Report} (hk : 0 < k)
    (h : ∀ r ∈ reports, r.size = k) (size : ℕ) :
    fitting size reports = reports.take ((65528 - size) / k) := by
  induction reports generalizing size with
  | nil => rw [fitting, List.take_nil]
  | cons r reports ih =>
    obtain ⟨hr, hrest⟩ := List.forall_mem_cons.1 h
    unfold fitting
    rw [hr]
    split_ifs with hfits
    · -- one report less fits behind this one
      have hcount : (65528 - size) / k = (65528 - (size + k)) / k + 1 := by
        rw [← Nat.add_div_right _ hk]
        congr 1
        omega
      rw [ih hrest, hcount, List.take_succ_cons]
    · rw [Nat.div_eq_of_lt (by omega), List.take_zero]

theorem fitting_prefix (size : ℕ) (reports : List Report) : fitting size reports <+: reports := by
  induction reports generalizing size with
  | nil => exact List.nil_prefix
  | cons r reports ih =>
    unfold fitting
    split_ifs
    · exact List.cons_prefix_cons.2 ⟨rfl, ih _⟩
    · exact List.nil_prefix

theorem writable_of_forall_encodable {reports : List Report} (h : ∀ r ∈ reports, r.Encodable)
    (size : ℕ) : Writable size reports := by
  induction reports generalizing size with
  | nil => trivial
  | cons r reports ih =>
    obtain ⟨hr, hrest⟩ := List.forall_mem_cons.1 h
    exact ⟨hr, fun _ => ih hrest _⟩

/-- The reports that are packed can all be encoded. -/
theorem Writable.encodable_of_mem_fitting {size : ℕ} {reports : List Report}
    (h : Writable size reports) : ∀ r ∈ fitting size reports, r.Encodable := by
  induction reports generalizing size with
  | nil => exact fun _ hr => absurd hr List.not_mem_nil
  | cons r reports ih =>
    unfold fitting
    split_ifs with hfits
    · exact List.forall_mem_cons.2 ⟨h.1, ih (h.2 hfits)⟩
    · exact fun _ hr => absurd hr List.not_mem_nil

/-- The loop goes through exactly if the reports that it comes to can be encoded, and it packs those
that fit. -/
theorem sender_records_eq_ok_iff {records b : List UInt8} {reports : List Report} :
    sender_records records reports = .ok b ↔
      Writable records.length reports ∧
        records ++ (fitting records.length reports).flatMap Report.record = b := by
  induction reports generalizing records with
  | nil =>
    rw [sender_records, fitting, List.flatMap_nil, List.append_nil, Except.ok.injEq]
    exact (and_iff_right trivial).symm
  | cons r reports ih =>
    have hlength : (records ++ r.record).length = records.length + r.size := by
      rw [List.length_append, length_record]
    rw [sender_records, bind_eq_ok_iff, Writable, fitting]
    simp only [sender_record_eq_ok_iff]
    -- the report is encoded even when it does not fit any more
    by_cases hfits : records.length + r.size ≤ 65528
    · have hlimit : ¬4 + records.length + r.record.length + 3 > 65535 := by
        rw [length_record]
        omega
      have hrest : sender_records (records ++ r.record) reports = .ok b ↔ _ := ih
      rw [hlength] at hrest
      rw [if_pos hfits, List.flatMap_cons, ← List.append_assoc]
      constructor
      · rintro ⟨_, ⟨hr, rfl⟩, h⟩
        rw [if_neg hlimit, hrest] at h
        exact ⟨⟨hr, fun _ => h.1⟩, h.2⟩
      · rintro ⟨⟨hr, h⟩, hb⟩
        refine ⟨_, ⟨hr, rfl⟩, ?_⟩
        rw [if_neg hlimit, hrest]
        exact ⟨h hfits, hb⟩
    · have hlimit : 4 + records.length + r.record.length + 3 > 65535 := by
        rw [length_record]
        omega
      rw [if_neg hfits, List.flatMap_nil, List.append_nil]
      constructor
      · rintro ⟨_, ⟨hr, rfl⟩, h⟩
        rw [if_pos hlimit, pure_eq_ok_iff] at h
        exact ⟨⟨hr, fun h' => absurd h' hfits⟩, h⟩
      · rintro ⟨⟨hr, -⟩, hb⟩
        refine ⟨_, ⟨hr, rfl⟩, ?_⟩
        rw [if_pos hlimit, pure_eq_ok_iff]
        exact hb

/-- The content of the block of the reports. -/
def senderBytes (reports : List Report) : List UInt8 :=
  (fitting 0 reports).flatMap Report.record

theorem length_flatMap_record (reports : List Report) :
    (reports.flatMap Report.record).length = total reports := by
  rw [List.length_flatMap, total]
  congr 1
  exact List.map_congr_left fun r _ => length_record r

theorem length_senderBytes (reports : List Report) :
    (senderBytes reports).length = total (fitting 0 reports) := length_flatMap_record _

/-- The block of the reports is packed exactly if the loop goes through: it is never too long. -/
theorem sender_block_eq_ok_iff {reports : List Report} {b : List UInt8} :
    sender_block reports = .ok b ↔
      Writable 0 reports ∧ writeSet 0x9993 (pad4 (senderBytes reports)) = b := by
  have hid : pack 2 0x9993 = .ok (bigEndian 2 0x9993) := rfl
  -- the limit of the block leaves room for its header and padding
  have hsize : (senderBytes reports).length ≤ 4 * 16382 := by
    have hlimit := add_total_fitting_le (Nat.zero_le _) reports
    rw [length_senderBytes]
    omega
  have hpadded := padded_le hsize
  rw [← length_pad4] at hpadded
  have hfits : 4 + (pad4 (senderBytes reports)).length < 256 ^ 2 := by omega
  have hlength := pack_add_natCast hfits
  unfold sender_block
  simp only [bind_eq_ok_iff, sender_records_eq_ok_iff, pure_eq_ok_iff, List.nil_append,
    List.length_nil]
  constructor
  · rintro ⟨_, ⟨hreports, rfl⟩, _, hid', _, hlen, rfl⟩
    rw [hid, Except.ok.injEq] at hid'
    rw [← senderBytes, hlength, Except.ok.injEq] at hlen
    rw [← hid', ← hlen]
    exact ⟨hreports, rfl⟩
  · rintro ⟨hreports, rfl⟩
    exact ⟨_, ⟨hreports, rfl⟩, _, hid, _, hlength, rfl⟩

/-- The sets of a packet. -/
def bodyBytes (rx_call rx_grid rig : List Char) (reports : List Report)
    (include_templates : Bool) : List UInt8 :=
  (if include_templates then TEMPLATES else []) ++
    writeSet 0x9992 (pad4 (receiverBytes rx_call rx_grid rig)) ++
      writeSet 0x9993 (pad4 (senderBytes reports))

theorem length_bodyBytes (rx_call rx_grid rig : List Char) (reports : List Report)
    (include_templates : Bool) :
    16 + (bodyBytes rx_call rx_grid rig reports include_templates).length =
      packet_size rx_call rx_grid rig (fitting 0 reports) include_templates := by
  have htemplates : (if include_templates then TEMPLATES else []).length =
      if include_templates then 104 else 0 := by
    cases include_templates <;> rfl
  rw [bodyBytes, List.length_append, List.length_append, htemplates, length_writeSet,
    length_writeSet, length_pad4, length_pad4, length_receiverBytes, length_senderBytes,
    packet_size]
  omega

/-- The packet and its blocks are within the reach of their length fields. -/
theorem Sendable.length_le {rx_call rx_grid rig : List Char} {reports : List Report}
    {seq session_id : ℕ} {include_templates : Bool} {now : ℤ}
    (h : Sendable rx_call rx_grid rig reports seq session_id include_templates now) :
    16 + (bodyBytes rx_call rx_grid rig reports include_templates).length ≤ 65535 ∧
      4 + (pad4 (receiverBytes rx_call rx_grid rig)).length < 65536 ∧
      4 + (pad4 (senderBytes reports)).length < 65536 := by
  have hlimit := h.size
  rw [← length_bodyBytes] at hlimit
  refine ⟨hlimit, ?_⟩
  rw [bodyBytes, List.length_append, List.length_append, length_writeSet, length_writeSet]
    at hlimit
  omega

/-- The packet is built exactly if it can be. -/
theorem build_packet_eq_ok_iff {rx_call rx_grid rig : List Char} {reports : List Report}
    {seq session_id : ℕ} {include_templates : Bool} {now : ℤ} {pkt : List UInt8} :
    build_packet rx_call rx_grid rig reports seq session_id include_templates now = .ok pkt ↔
      Sendable rx_call rx_grid rig reports seq session_id include_templates now ∧
        writeMessage now.toNat seq session_id
          (bodyBytes rx_call rx_grid rig reports include_templates) = pkt := by
  have hversion : pack 2 0x000A = .ok (bigEndian 2 10) := rfl
  have hsize := length_bodyBytes rx_call rx_grid rig reports include_templates
  unfold build_packet
  simp only [bind_eq_ok_iff, receiver_block_eq_ok_iff, sender_block_eq_ok_iff, pure_eq_ok_iff]
  constructor
  · rintro ⟨_, ⟨hreceiver, rfl⟩, _, ⟨hreports, rfl⟩, _, hversion', _, hlength, _, htime, _, hseq, _,
      hsession, rfl⟩
    -- each header field was packed, so each is in its range
    rw [← bodyBytes] at hlength ⊢
    rw [hversion, Except.ok.injEq] at hversion'
    obtain ⟨hclock, rfl⟩ := pack_eq_ok_iff.1 htime
    obtain ⟨hseq_lt, rfl⟩ := pack_eq_ok_iff.1 hseq
    obtain ⟨hsession_lt, rfl⟩ := pack_eq_ok_iff.1 hsession
    obtain ⟨hlength_lt, rfl⟩ := pack_eq_ok_iff.1 hlength
    refine ⟨⟨hreceiver, hreports, hclock, by exact_mod_cast hseq_lt.2,
      by exact_mod_cast hsession_lt.2, ?_⟩, ?_⟩
    · rw [← hsize]
      omega
    · rw [← hversion']
      simp only [writeMessage, Int.toNat_natCast]
      rfl
  · rintro ⟨h, rfl⟩
    -- the total length fits its field of two bytes
    have hfits :
        16 + (bodyBytes rx_call rx_grid rig reports include_templates).length < 256 ^ 2 := by
      have hlimit := h.size
      rw [hsize]
      omega
    exact ⟨_, ⟨h.receiver, rfl⟩, _, ⟨h.writable, rfl⟩, _, hversion, _, pack_add_natCast hfits, _,
      pack_eq_ok_iff.2 ⟨h.clock, rfl⟩, _, pack_natCast h.seq, _, pack_natCast h.session_id, rfl⟩

/-! ## Which exceptions are raised -/

/-- Not the exception that the main loop handles. -/
def NoOSError {α : Type} (x : Except PyError α) : Prop := x ≠ .error .OSError

theorem noOSError_ok {α : Type} (a : α) : NoOSError (.ok a) := nofun

theorem NoOSError.bind {α β : Type} {x : Except PyError α} {f : α → Except PyError β}
    (hx : NoOSError x) (hf : ∀ a, NoOSError (f a)) : NoOSError (x >>= f) := by
  cases x with
  | error e => exact fun h => hx (congrArg Except.error (Except.error.inj h))
  | ok a => exact hf a

theorem noOSError_toInt (x : Number) : NoOSError x.toInt := by
  cases x <;> exact nofun

theorem noOSError_round (x : Number) : NoOSError x.round := by
  cases x <;> exact nofun

theorem noOSError_pack (size : ℕ) (n : ℤ) : NoOSError (pack size n) := by
  unfold pack
  split_ifs <;> exact nofun

theorem noOSError_pack_signed (n : ℤ) : NoOSError (pack_signed n) := by
  unfold pack_signed
  split_ifs <;> exact nofun

theorem noOSError_str (s : List Char) : NoOSError (str s) := by
  unfold str encode_ascii
  refine NoOSError.bind ?_ fun b => (noOSError_pack _ _).bind fun _ => noOSError_ok _
  split_ifs <;> exact nofun

theorem noOSError_dedup_reports (reports : List Report) : NoOSError (dedup_reports reports) := by
  have hloop : ∀ best, NoOSError (dedup_loop best reports) := by
    induction reports with
    | nil => exact fun best => noOSError_ok best
    | cons r reports ih =>
      intro best
      unfold dedup_loop Report.key
      exact ((noOSError_toInt _).bind fun _ => noOSError_ok _).bind fun key => ih _
  exact (hloop []).bind fun _ => noOSError_ok _

theorem noOSError_receiver_block (rx_call rx_grid rig : List Char) :
    NoOSError (receiver_block rx_call rx_grid rig) := by
  unfold receiver_block
  exact (noOSError_str _).bind fun _ => (noOSError_str _).bind fun _ => (noOSError_str _).bind
    fun _ => (noOSError_str _).bind fun _ => (noOSError_pack _ _).bind fun _ =>
      (noOSError_pack _ _).bind fun _ => noOSError_ok _

theorem noOSError_sender_record (r : Report) : NoOSError (sender_record r) := by
  unfold sender_record
  exact (noOSError_round _).bind fun _ => (noOSError_str _).bind fun _ => (noOSError_toInt _).bind
    fun _ => (noOSError_pack _ _).bind fun _ => (noOSError_pack_signed _).bind fun _ =>
      (noOSError_pack_signed _).bind fun _ => (noOSError_str _).bind fun _ =>
        (noOSError_pack _ _).bind fun _ => (noOSError_toInt _).bind fun _ =>
          (noOSError_pack _ _).bind fun _ => noOSError_ok _

theorem noOSError_sender_records (records : List UInt8) (reports : List Report) :
    NoOSError (sender_records records reports) := by
  induction reports generalizing records with
  | nil => exact noOSError_ok records
  | cons r reports ih =>
    unfold sender_records
    refine (noOSError_sender_record r).bind fun record => ?_
    split_ifs
    · exact noOSError_ok records
    · exact ih _

theorem noOSError_sender_block (reports : List Report) : NoOSError (sender_block reports) := by
  unfold sender_block
  exact (noOSError_sender_records _ _).bind fun _ => (noOSError_pack _ _).bind fun _ =>
    (noOSError_pack _ _).bind fun _ => noOSError_ok _

/-- Building a packet does not raise the exception that the main loop handles. -/
theorem noOSError_build_packet (rx_call rx_grid rig : List Char) (reports : List Report)
    (seq session_id : ℕ) (include_templates : Bool) (now : ℤ) :
    NoOSError (build_packet rx_call rx_grid rig reports seq session_id include_templates now) := by
  unfold build_packet
  exact (noOSError_receiver_block _ _ _).bind fun _ => (noOSError_sender_block _).bind fun _ =>
    (noOSError_pack _ _).bind fun _ => (noOSError_pack _ _).bind fun _ =>
      (noOSError_pack _ _).bind fun _ => (noOSError_pack _ _).bind fun _ =>
        (noOSError_pack _ _).bind fun _ => noOSError_ok _

end GranolaSdr.Uploader
