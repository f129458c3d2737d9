import GranolaSdr.Uploader.Packet

/-!
# What a collector reads

A packet of the uploader read by the templates that it sends: the receiver and the reports are found
by the numbers of the information elements, not by their places.

## Main definitions

* `receiver_template`, `sender_template`: the templates that `TEMPLATES` declares;
* `readReceiver`, `readSpot`: a record by the elements it holds;
* `receivers`, `spots`: the receivers and the reports of a message.

## Main results

* `readMessage_writeMessage_bodyBytes`: every packet that is built is read back up to the report
  with which the block was full;
* `read_build_packet`: all reports of a packet that is large enough are read back.
-/

namespace GranolaSdr.Uploader

open Ipfix WebSocket

/-! ## The templates -/

/-- The enterprise whose elements are used. -/
def enterprise : ℕ := 0x768F

/-- An element of the enterprise. -/
def element (ident length : ℕ) : FieldSpec := ⟨ident, length, some enterprise⟩

/-- The template of the receiver: callsign, locator, software and antenna. -/
def receiver_template : Template :=
  ⟨0x9992, 1, [element 2 variableLength, element 4 variableLength, element 8 variableLength,
    element 9 variableLength]⟩

/-- The template of a report: callsign, frequency, SNR, intermodulation, mode, source and time. -/
def sender_template : Template :=
  ⟨0x9993, 0, [element 1 variableLength, element 5 4, element 6 1, element 7 1,
    element 10 variableLength, element 11 1, ⟨150, 4, none⟩]⟩

theorem recv_tmpl_eq : RECV_TMPL = writeSet 3 (RECV_TMPL.drop 4) := by decide

theorem send_tmpl_eq : SEND_TMPL = writeSet 2 (SEND_TMPL.drop 4) := by decide

/-- What the bytes of `RECV_TMPL` declare; two bytes are padding. -/
theorem readAll_recv_tmpl :
    readAll (readTemplate true) 6 40 (RECV_TMPL.drop 4) = some ([receiver_template], [0, 0]) := by
  decide

/-- What the bytes of `SEND_TMPL` declare. -/
theorem readAll_send_tmpl :
    readAll (readTemplate false) 4 56 (SEND_TMPL.drop 4) = some ([sender_template], []) := by
  decide

/-- Both templates are known once `TEMPLATES` is read. -/
theorem readSets_templates (fuel : ℕ) (known : List Template) (rest : List UInt8) :
    readSets (fuel + 2) known (TEMPLATES ++ rest) =
      readSets fuel (sender_template :: receiver_template :: known) rest := by
  have hrecv : readContent known 3 (RECV_TMPL.drop 4) = some ([receiver_template], []) := by
    rw [readContent, if_neg (by decide), if_pos rfl]
    exact congrArg (Option.map _) readAll_recv_tmpl
  have hsend : readContent ([receiver_template] ++ known) 2 (SEND_TMPL.drop 4) =
      some ([sender_template], []) := by
    rw [readContent, if_pos rfl]
    exact congrArg (Option.map _) readAll_send_tmpl
  rw [TEMPLATES, List.append_assoc, recv_tmpl_eq, send_tmpl_eq,
    readSets_writeSet_templates (by decide) (by decide) hrecv,
    readSets_writeSet_templates (by decide) (by decide) hsend]
  rfl

/-! ## Records by their elements -/

/-- The value of an element in a record. -/
def value? (ident : ℕ) (enterprise : Option ℕ) (record : Record) : Option (List UInt8) :=
  (record.find? fun p => p.1.ident = ident ∧ p.1.enterprise = enterprise).map Prod.snd

/-- ASCII bytes as a text. -/
def chars (bytes : List UInt8) : List Char := bytes.map fun b => Char.ofNat b.toNat

/-- A signed byte. -/
def signed (bytes : List UInt8) : ℤ :=
  if ofBigEndian bytes < 128 then ofBigEndian bytes else ofBigEndian bytes - 256

/-- What a packet says of the receiver. -/
structure Receiver where
  call : List Char
  grid : List Char
  software : List Char
  rig : List Char
  deriving DecidableEq

/-- The receiver in a record. -/
def readReceiver (record : Record) : Option Receiver := do
  let call ← value? 2 enterprise record
  let grid ← value? 4 enterprise record
  let software ← value? 8 enterprise record
  let rig ← value? 9 enterprise record
  return ⟨chars call, chars grid, chars software, chars rig⟩

/-- The report in a record. -/
def readSpot (record : Record) : Option Spot := do
  let call ← value? 1 enterprise record
  let frequency ← value? 5 enterprise record
  let snr ← value? 6 enterprise record
  let mode ← value? 10 enterprise record
  let time ← value? 150 none record
  return ⟨chars call, ofBigEndian frequency, signed snr, chars mode, ofBigEndian time⟩

/-- The records of a template in a message. -/
def recordsOf (id : ℕ) (m : Message) : List Record :=
  (m.sets.filter fun set => set.template = id).flatMap DataSet.records

/-- The receivers of a message. -/
def receivers (m : Message) : Option (List Receiver) := (recordsOf 0x9992 m).mapM readReceiver

/-- The reports of a message. -/
def spots (m : Message) : Option (List Spot) := (recordsOf 0x9993 m).mapM readSpot

/-! ## The records of a packet -/

/-- The record of the receiver, by its elements. -/
def receiverRecord (rx_call rx_grid rig : List Char) : Record :=
  [(element 2 variableLength, text rx_call), (element 4 variableLength, text rx_grid),
    (element 8 variableLength, text SOFTWARE), (element 9 variableLength, text rig)]

/-- The record of a report, by its elements. -/
def Report.fields (r : Report) : Record :=
  [(element 1 variableLength, text r.call), (element 5 4, bigEndian 4 r.spot.frequency),
    (element 6 1, bigEndian 1 (r.spot.snr % 256).toNat), (element 7 1, bigEndian 1 0),
    (element 10 variableLength, text (r.mode.getD "FT8".toList)), (element 11 1, bigEndian 1 1),
    (⟨150, 4, none⟩, bigEndian 4 r.spot.time)]

/-- The receiver block is written by its template. -/
theorem writeRecord_receiverRecord (rx_call rx_grid rig : List Char) :
    writeRecord (receiverRecord rx_call rx_grid rig) = receiverBytes rx_call rx_grid rig := by
  simp [writeRecord, receiverRecord, receiverBytes, strBytes, writeValue, element, variableLength]

/-- A sender record is written by its template. -/
theorem writeRecord_fields (r : Report) : writeRecord r.fields = r.record := by
  simp [writeRecord, Report.fields, Report.record, strBytes, writeValue, element, variableLength]

theorem fits_text (ident : ℕ) (s : List Char) : Fits (element ident variableLength) (text s) := by
  show if variableLength = variableLength then (text s).length < 255 else _
  rw [if_pos rfl]
  exact length_text_lt s

theorem fits_bigEndian (spec : FieldSpec) (h : spec.length ≠ variableLength) (n : ℕ) :
    Fits spec (bigEndian spec.length n) := by
  rw [Fits, if_neg h]
  exact length_bigEndian _ n

theorem fits_receiverRecord (rx_call rx_grid rig : List Char) :
    ∀ p ∈ receiverRecord rx_call rx_grid rig, Fits p.1 p.2 := by
  simp only [receiverRecord, List.forall_mem_cons]
  exact ⟨fits_text 2 _, fits_text 4 _, fits_text 8 _, fits_text 9 _, by simp⟩

theorem fits_fields (r : Report) : ∀ p ∈ r.fields, Fits p.1 p.2 := by
  have hvar : ∀ n < 5, n ≠ variableLength := by decide
  simp only [Report.fields, List.forall_mem_cons]
  exact ⟨fits_text 1 _, fits_bigEndian (element 5 4) (hvar 4 (by decide)) _,
    fits_bigEndian (element 6 1) (hvar 1 (by decide)) _,
    fits_bigEndian (element 7 1) (hvar 1 (by decide)) _, fits_text 10 _,
    fits_bigEndian (element 11 1) (hvar 1 (by decide)) _,
    fits_bigEndian ⟨150, 4, none⟩ (hvar 4 (by decide)) _, by simp⟩

/-- The characters of a packed text. -/
theorem chars_text {s : List Char} (h : Ascii s) : chars (text s) = s.take 254 := by
  have hchar : ∀ c ∈ s, Char.ofNat (UInt8.ofNat c.toNat).toNat = c := by
    intro c hc
    have hlt : c.toNat < 2 ^ 8 := (h c hc).trans (by decide)
    rw [UInt8.toNat_ofNat_of_lt' hlt, Char.ofNat_toNat]
  rw [chars, text, List.map_take, List.map_map]
  congr 1
  exact (List.map_congr_left hchar).trans (List.map_id s)

/-- A signed byte is read back. -/
theorem signed_bigEndian {n : ℤ} (h : -128 ≤ n ∧ n ≤ 127) :
    signed (bigEndian 1 (n % 256).toNat) = n := by
  have hbyte : ofBigEndian (bigEndian 1 (n % 256).toNat) = (n % 256).toNat :=
    ofBigEndian_bigEndian (by omega)
  rw [signed, hbyte]
  split_ifs <;> omega

theorem readReceiver_receiverRecord {rx_call rx_grid rig : List Char}
    (h : Ascii rx_call ∧ Ascii rx_grid ∧ Ascii rig) :
    readReceiver (receiverRecord rx_call rx_grid rig) =
      some ⟨rx_call.take 254, rx_grid.take 254, SOFTWARE, rig.take 254⟩ := by
  have hsoftware : chars (text SOFTWARE) = SOFTWARE := by decide
  rw [← chars_text h.1, ← chars_text h.2.1, ← chars_text h.2.2, ← hsoftware]
  simp [readReceiver, value?, receiverRecord, element]

theorem Report.Encodable.word_lt {r : Report} (h : r.Encodable) :
    r.spot.frequency < 256 ^ 4 ∧ r.spot.time < 256 ^ 4 := by
  have hfreq := h.freq.2
  have hunix := h.unix.2
  constructor
  · show (truncate r.freq.value).toNat < 256 ^ 4
    omega
  · show (truncate r.unix.value).toNat < 256 ^ 4
    omega

/-- A report is found in its record. -/
theorem readSpot_fields {r : Report} (h : r.Encodable) : readSpot r.fields = some r.spot := by
  have hsnr : -128 ≤ r.spot.snr ∧ r.spot.snr ≤ 127 :=
    ⟨le_max_left .., max_le (by decide) (min_le_left ..)⟩
  have hspot : readSpot r.fields = some ⟨chars (text r.call),
      ofBigEndian (bigEndian 4 r.spot.frequency), signed (bigEndian 1 (r.spot.snr % 256).toNat),
      chars (text (r.mode.getD "FT8".toList)), ofBigEndian (bigEndian 4 r.spot.time)⟩ := by
    simp [readSpot, value?, Report.fields, element]
  rw [hspot, chars_text h.call, chars_text h.mode, signed_bigEndian hsnr,
    ofBigEndian_bigEndian h.word_lt.1, ofBigEndian_bigEndian h.word_lt.2]
  rfl

/-! ## Packets -/

/-- What fills up to a multiple of four bytes. -/
def padding (data : List UInt8) : List UInt8 := List.replicate ((4 - data.length % 4) % 4) 0

theorem pad4_eq (data : List UInt8) : pad4 data = data ++ padding data := rfl

theorem length_padding_lt (data : List UInt8) : (padding data).length < 4 := by
  rw [padding, List.length_replicate]
  exact Nat.mod_lt _ (by decide)

/-- The sets of records of a packet. -/
def packetSets (rx_call rx_grid rig : List Char) (reports : List Report) : List DataSet :=
  [⟨0x9992, [receiverRecord rx_call rx_grid rig], padding (receiverBytes rx_call rx_grid rig)⟩,
    ⟨0x9993, (fitting 0 reports).map Report.fields, padding (senderBytes reports)⟩]

/-- The templates are known, or sent along. -/
def Known (include_templates : Bool) (known : List Template) : Prop :=
  include_templates = false →
    (known.find? fun t => t.id = 0x9992) = some receiver_template ∧
      (known.find? fun t => t.id = 0x9993) = some sender_template

/-- The blocks of a packet are read by templates that are known, and their padding is not read as a
record. -/
theorem readSets_blocks (rx_call rx_grid rig : List Char) (reports : List Report)
    {known : List Template}
    (hreceiver : (known.find? fun t => t.id = 0x9992) = some receiver_template)
    (hsender : (known.find? fun t => t.id = 0x9993) = some sender_template)
    (hlength : 4 + (pad4 (receiverBytes rx_call rx_grid rig)).length < 65536)
    (hlength' : 4 + (pad4 (senderBytes reports)).length < 65536) (fuel : ℕ) :
    readSets (fuel + 2) known (writeSet 0x9992 (pad4 (receiverBytes rx_call rx_grid rig)) ++
        writeSet 0x9993 (pad4 (senderBytes reports))) =
      some (known, packetSets rx_call rx_grid rig reports) := by
  have hrecord : receiverBytes rx_call rx_grid rig =
      [receiverRecord rx_call rx_grid rig].flatMap writeRecord := by
    rw [List.flatMap_singleton, writeRecord_receiverRecord]
  have hrecords : senderBytes reports =
      ((fitting 0 reports).map Report.fields).flatMap writeRecord := by
    rw [List.flatMap_map, senderBytes]
    congr 1
    funext r
    exact (writeRecord_fields r).symm
  -- the padding is shorter than the shortest record, so none is read from it
  have hpadding := length_padding_lt (receiverBytes rx_call rx_grid rig)
  have hpadding' := length_padding_lt (senderBytes reports)
  have hreceiver_set := readSets_writeSet_records (t := receiver_template) (by decide) (by decide)
    hreceiver [receiverRecord rx_call rx_grid rig]
    (fun r hr => by rw [List.mem_singleton.1 hr]; rfl)
    (fun r hr => by rw [List.mem_singleton.1 hr]; exact fits_receiverRecord rx_call rx_grid rig)
    (hpadding.trans_le (by decide)) (by rw [← hrecord]; exact hlength)
  have hsender_set := readSets_writeSet_records (t := sender_template) (by decide) (by decide)
    hsender ((fitting 0 reports).map Report.fields)
    (fun r hr => by obtain ⟨q, -, rfl⟩ := List.mem_map.1 hr; rfl)
    (fun r hr => by obtain ⟨q, -, rfl⟩ := List.mem_map.1 hr; exact fits_fields q)
    (hpadding'.trans_le (by decide)) (by rw [← hrecords]; exact hlength') fuel []
  rw [← hrecords, List.append_nil, readSets_nil] at hsender_set
  rw [← hrecord] at hreceiver_set
  rw [pad4_eq, pad4_eq]
  refine (hreceiver_set (fuel + 1) _).trans ?_
  exact congrArg (Option.map _) hsender_set

/-- Every packet that is built is read back: the receiver, and the reports that fit the block. -/
theorem readMessage_writeMessage_bodyBytes {rx_call rx_grid rig : List Char}
    {reports : List Report} {seq session_id : ℕ} {include_templates : Bool} {now : ℤ}
    (h : Sendable rx_call rx_grid rig reports seq session_id include_templates now)
    {known : List Template} (hknown : Known include_templates known) :
    ∃ known', readMessage known (writeMessage now.toNat seq session_id
        (bodyBytes rx_call rx_grid rig reports include_templates)) =
      some (⟨now.toNat, seq, session_id, packetSets rx_call rx_grid rig reports⟩, known') := by
  obtain ⟨hlimit, hreceiver_length, hsender_length⟩ := h.length_le
  have hclock := h.clock
  rw [readMessage_writeMessage (by omega) (by omega) h.seq h.session_id]
  obtain ⟨fuel, hfuel⟩ : ∃ fuel,
      (bodyBytes rx_call rx_grid rig reports include_templates).length = fuel + 2 + 2 := by
    have hfour : 4 ≤ (bodyBytes rx_call rx_grid rig reports include_templates).length := by
      rw [bodyBytes, List.length_append, length_writeSet]
      omega
    exact ⟨_, (Nat.sub_add_cancel hfour).symm⟩
  rw [hfuel]
  -- without templates they are known already, with them they are read first
  cases include_templates with
  | false =>
    obtain ⟨hreceiver, hsender⟩ := hknown rfl
    refine ⟨known, ?_⟩
    have hsets := readSets_blocks rx_call rx_grid rig reports hreceiver hsender hreceiver_length
      hsender_length (fuel + 2)
    exact congrArg (Option.map _) hsets
  | true =>
    refine ⟨sender_template :: receiver_template :: known, ?_⟩
    have hreceiver : ((sender_template :: receiver_template :: known).find? fun t =>
        t.id = 0x9992) = some receiver_template := rfl
    have hsender : ((sender_template :: receiver_template :: known).find? fun t =>
        t.id = 0x9993) = some sender_template := rfl
    have hsets := readSets_blocks rx_call rx_grid rig reports hreceiver hsender hreceiver_length
      hsender_length fuel
    rw [bodyBytes, if_pos rfl, List.append_assoc, readSets_templates, hsets]
    rfl

theorem receivers_packetSets {rx_call rx_grid rig : List Char} {reports : List Report}
    (h : Ascii rx_call ∧ Ascii rx_grid ∧ Ascii rig) (time seq session_id : ℕ) :
    receivers ⟨time, seq, session_id, packetSets rx_call rx_grid rig reports⟩ =
      some [⟨rx_call.take 254, rx_grid.take 254, SOFTWARE, rig.take 254⟩] := by
  have hrecords : recordsOf 0x9992
      ⟨time, seq, session_id, packetSets rx_call rx_grid rig reports⟩ =
        [receiverRecord rx_call rx_grid rig] := by
    simp [recordsOf, packetSets]
  rw [receivers, hrecords, List.mapM_cons, readReceiver_receiverRecord h]
  rfl

/-- The reports that fit the block are read back in their order. -/
theorem spots_packetSets (rx_call rx_grid rig : List Char) {reports : List Report}
    (h : Writable 0 reports) (time seq session_id : ℕ) :
    spots ⟨time, seq, session_id, packetSets rx_call rx_grid rig reports⟩ =
      some ((fitting 0 reports).map Report.spot) := by
  have hrecords : recordsOf 0x9993
      ⟨time, seq, session_id, packetSets rx_call rx_grid rig reports⟩ =
        (fitting 0 reports).map Report.fields := by
    simp [recordsOf, packetSets]
  -- each record is read by itself, so the list is by induction
  have hmapM : ∀ list : List Report, (∀ r ∈ list, r.Encodable) →
      (list.map Report.fields).mapM readSpot = some (list.map Report.spot) := by
    intro list hlist
    induction list with
    | nil => rfl
    | cons r list ih =>
      obtain ⟨hr, hrest⟩ := List.forall_mem_cons.1 hlist
      rw [List.map_cons, List.mapM_cons, readSpot_fields hr, ih hrest]
      rfl
  rw [spots, hrecords]
  exact hmapM _ h.encodable_of_mem_fitting

/-- Reports that fit a packet fit its block. -/
theorem fitting_eq_self_of_packet_size_le {rx_call rx_grid rig : List Char}
    {reports : List Report} {include_templates : Bool}
    (h : packet_size rx_call rx_grid rig reports include_templates ≤ 65535) :
    fitting 0 reports = reports := by
  rw [fitting_eq_self_iff (Nat.zero_le _)]
  unfold packet_size padded at h
  omega

/-- A packet that is large enough for its reports is read back by the templates it was written by:
the header, the receiver with each text cut after 254 characters, and exactly the reports in their
order. The padding is shorter than four bytes, all zero, and not read as a record. -/
theorem read_build_packet {rx_call rx_grid rig : List Char} {reports : List Report}
    {seq session_id : ℕ} {include_templates : Bool} {now : ℤ} {pkt : List UInt8}
    (hbuild : build_packet rx_call rx_grid rig reports seq session_id include_templates now =
      .ok pkt)
    (hfits : packet_size rx_call rx_grid rig reports include_templates ≤ 65535)
    {known : List Template} (hknown : Known include_templates known) :
    ∃ m known', readMessage known pkt = some (m, known') ∧
      (m.export_time : ℤ) = now ∧ m.sequence = seq ∧ m.domain = session_id ∧
      receivers m = some [⟨rx_call.take 254, rx_grid.take 254, SOFTWARE, rig.take 254⟩] ∧
      spots m = some (reports.map Report.spot) ∧
      ∀ set ∈ m.sets, set.padding.length < 4 ∧ ∀ b ∈ set.padding, b = 0 := by
  obtain ⟨h, rfl⟩ := build_packet_eq_ok_iff.1 hbuild
  obtain ⟨known', hread⟩ := readMessage_writeMessage_bodyBytes h hknown
  have hspots := spots_packetSets rx_call rx_grid rig h.writable now.toNat seq session_id
  rw [fitting_eq_self_of_packet_size_le hfits] at hspots
  refine ⟨_, known', hread, Int.toNat_of_nonneg h.clock.1, rfl, rfl,
    receivers_packetSets h.receiver _ _ _, hspots, ?_⟩
  -- the two data sets are padded with zeros, the templates not at all
  simp only [packetSets, List.forall_mem_cons]
  exact ⟨⟨length_padding_lt _, fun b hb => List.eq_of_mem_replicate hb⟩,
    ⟨length_padding_lt _, fun b hb => List.eq_of_mem_replicate hb⟩, by simp⟩

/-- A report as the uploader's own test packet has one. -/
def dummy : Report :=
  ⟨"W1AW".toList, .int 14074000, .int (-10), some "FT8".toList, .int 1700000000⟩

theorem dummy_encodable : dummy.Encodable :=
  ⟨by decide, by decide +kernel, trivial, by decide, by decide +kernel⟩

/-- The test packet. -/
theorem read_build_packet_dummy :
    ∃ pkt, build_packet "W1AW".toList "DM78".toList "rx888".toList [dummy] 0 1 true 1700000001 =
        .ok pkt ∧
      ∃ m known', readMessage [] pkt = some (m, known') ∧
        (m.export_time : ℤ) = 1700000001 ∧ m.sequence = 0 ∧ m.domain = 1 ∧
        receivers m = some [⟨"W1AW".toList, "DM78".toList, SOFTWARE, "rx888".toList⟩] ∧
        spots m = some [⟨"W1AW".toList, 14074000, -10, "FT8".toList, 1700000000⟩] ∧
        ∀ set ∈ m.sets, set.padding.length < 4 ∧ ∀ b ∈ set.padding, b = 0 := by
  have hsend : Sendable "W1AW".toList "DM78".toList "rx888".toList [dummy] 0 1 true 1700000001 :=
    ⟨by decide, ⟨dummy_encodable, fun _ => trivial⟩, by decide, by decide, by decide,
      by decide +kernel⟩
  have hspot : dummy.spot = ⟨"W1AW".toList, 14074000, -10, "FT8".toList, 1700000000⟩ := by
    decide +kernel
  have hbuild := build_packet_eq_ok_iff.2 ⟨hsend, rfl⟩
  refine ⟨_, hbuild, ?_⟩
  rw [← hspot]
  exact read_build_packet hbuild (by decide +kernel) nofun

/-- A locator of 255 characters is cut, and not read back. -/
theorem long_locator_not_read_back :
    ∃ pkt, build_packet "W1AW".toList (List.replicate 255 'A') "rx888".toList [] 0 1 true
        1700000001 = .ok pkt ∧
      packet_size "W1AW".toList (List.replicate 255 'A') "rx888".toList [] true ≤ 65535 ∧
      ∃ m known', readMessage [] pkt = some (m, known') ∧
        receivers m ≠
          some [⟨"W1AW".toList, List.replicate 255 'A', SOFTWARE, "rx888".toList⟩] := by
  have hsize : packet_size "W1AW".toList (List.replicate 255 'A') "rx888".toList [] true ≤
      65535 := by decide +kernel
  have hsend : Sendable "W1AW".toList (List.replicate 255 'A') "rx888".toList [] 0 1 true
      1700000001 :=
    ⟨⟨by decide, fun c hc => by rw [List.eq_of_mem_replicate hc]; decide, by decide⟩, trivial,
      by decide, by decide, by decide, hsize⟩
  have hknown : Known true [] := nofun
  obtain ⟨known', hread⟩ := readMessage_writeMessage_bodyBytes hsend hknown
  refine ⟨_, build_packet_eq_ok_iff.2 ⟨hsend, rfl⟩, hsize, _, known', hread, ?_⟩
  rw [receivers_packetSets hsend.receiver]
  decide +kernel

end GranolaSdr.Uploader
