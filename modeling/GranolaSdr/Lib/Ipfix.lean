import GranolaSdr.Lib.WebSocket

/-!
# IPFIX messages

The export format of RFC 7011 as a collector reads it: a message header, and sets that hold
templates or the records of a template. A template lists the information elements of its records, an
element has a fixed length or carries its length in front, and a set may be padded by fewer bytes
than its shortest record takes.

## Main definitions

* `readAll`: items one after another, until the bytes that are left are too few for one;
* `FieldSpec`, `Template`, `readTemplate`: templates;
* `readRecord`, `writeRecord`: the records of a template;
* `readSets`, `readMessage`: what a collector that knows some templates reads from a message.

## Main results

* `readAll_flatMap`: the items and the padding are told apart;
* `readRecord_append`: a record that fits its template is read back;
* `readSets_writeSet_templates`, `readSets_writeSet_records`: how a set is read.
-/

namespace Ipfix

open WebSocket (bigEndian ofBigEndian take? take?_append length_bigEndian
  ofBigEndian_bigEndian)

/-! ## Items one after another -/

/-- Read items until fewer bytes are left than an item takes at least. These are the padding. -/
def readAll {α : Type*} (item : List UInt8 → Option (α × List UInt8)) (least : ℕ) :
    ℕ → List UInt8 → Option (List α × List UInt8)
  | 0, bytes => if bytes.length < least then some ([], bytes) else none
  | fuel + 1, bytes =>
    if bytes.length < least then some ([], bytes)
    else (item bytes).bind fun (a, rest) =>
      (readAll item least fuel rest).map fun (as, padding) => (a :: as, padding)

section

variable {α β : Type*} {item : List UInt8 → Option (α × List UInt8)} {least : ℕ}

theorem readAll_padding {padding : List UInt8} (h : padding.length < least) (fuel : ℕ) :
    readAll item least fuel padding = some ([], padding) := by
  cases fuel with
  | zero => exact if_pos h
  | succ fuel => exact if_pos h

theorem readAll_cons {bytes rest : List UInt8} {a : α} (hleast : least ≤ bytes.length)
    (hitem : item bytes = some (a, rest)) (fuel : ℕ) :
    readAll item least (fuel + 1) bytes =
      (readAll item least fuel rest).map fun p => (a :: p.1, p.2) := by
  rw [readAll, if_neg (not_lt.2 hleast), hitem]
  rfl

/-- Items that are written one after another are read back, and the padding is not read as one. -/
theorem readAll_flatMap {write : β → List UInt8} {view : β → α} {items : List β}
    {padding : List UInt8} (hleast : ∀ b ∈ items, least ≤ (write b).length)
    (hitem : ∀ b ∈ items, ∀ rest, item (write b ++ rest) = some (view b, rest))
    (hpadding : padding.length < least) {fuel : ℕ} (hfuel : items.length ≤ fuel) :
    readAll item least fuel (items.flatMap write ++ padding) =
      some (items.map view, padding) := by
  induction items generalizing fuel with
  | nil => exact readAll_padding hpadding fuel
  | cons b items ih =>
    obtain ⟨hb, hrest⟩ := List.forall_mem_cons.1 hleast
    obtain ⟨hitemb, hitems⟩ := List.forall_mem_cons.1 hitem
    obtain ⟨fuel, rfl⟩ := Nat.exists_eq_add_of_lt (Nat.lt_of_succ_le hfuel)
    -- with an item in front, enough bytes for another one are there
    have hlong : least ≤ (write b ++ (items.flatMap write ++ padding)).length := by
      rw [List.length_append]
      omega
    rw [List.flatMap_cons, List.append_assoc, readAll_cons hlong (hitemb _),
      ih hrest hitems (by omega)]
    rfl

/-- Each item takes a byte at least, so that there are no more items than bytes. -/
theorem length_le_length_flatMap {write : β → List UInt8} {items : List β} (hpos : 0 < least)
    (hleast : ∀ b ∈ items, least ≤ (write b).length) :
    items.length ≤ (items.flatMap write).length := by
  induction items with
  | nil => exact Nat.zero_le _
  | cons b items ih =>
    obtain ⟨hb, hrest⟩ := List.forall_mem_cons.1 hleast
    have hitems := ih hrest
    rw [List.flatMap_cons, List.length_append, List.length_cons]
    omega

end

/-! ## Templates -/

/-- The length that stands for a variable one. -/
def variableLength : ℕ := 65535

/-- An information element of a template: its number, its length and whose number it is. -/
structure FieldSpec where
  ident : ℕ
  length : ℕ
  enterprise : Option ℕ
  deriving DecidableEq

/-- A template: its number, how many of its fields are scope fields, and its fields. -/
structure Template where
  id : ℕ
  scope : ℕ
  fields : List FieldSpec
  deriving DecidableEq

/-- Read a field specifier. The first bit of the element's number announces an enterprise. -/
def readSpec (bytes : List UInt8) : Option (FieldSpec × List UInt8) :=
  (take? 2 bytes).bind fun (ident, bytes) =>
  (take? 2 bytes).bind fun (length, bytes) =>
  if ofBigEndian ident < 32768 then
    some (⟨ofBigEndian ident, ofBigEndian length, none⟩, bytes)
  else (take? 4 bytes).map fun (enterprise, bytes) =>
    (⟨ofBigEndian ident - 32768, ofBigEndian length, some (ofBigEndian enterprise)⟩, bytes)

/-- Read as many field specifiers as a template announces. -/
def readSpecs : ℕ → List UInt8 → Option (List FieldSpec × List UInt8)
  | 0, bytes => some ([], bytes)
  | count + 1, bytes =>
    (readSpec bytes).bind fun (spec, bytes) =>
    (readSpecs count bytes).map fun (specs, bytes) => (spec :: specs, bytes)

/-- Read a template record, or an options template record, which has scope fields. -/
def readTemplate (options : Bool) (bytes : List UInt8) : Option (Template × List UInt8) :=
  (take? 2 bytes).bind fun (id, bytes) =>
  (take? 2 bytes).bind fun (count, bytes) =>
  (take? (if options then 2 else 0) bytes).bind fun (scope, bytes) =>
  (readSpecs (ofBigEndian count) bytes).map fun (fields, bytes) =>
    (⟨ofBigEndian id, ofBigEndian scope, fields⟩, bytes)

/-- The fewest bytes of a field's value. -/
def FieldSpec.least (spec : FieldSpec) : ℕ :=
  if spec.length = variableLength then 1 else spec.length

/-- The fewest bytes of a template's record. -/
def Template.least (t : Template) : ℕ := (t.fields.map FieldSpec.least).sum

/-! ## Records -/

/-- A record: the values of a template's fields, each with the field it is the value of. -/
abbrev Record := List (FieldSpec × List UInt8)

/-- Read a field's value. -/
def readValue (spec : FieldSpec) (bytes : List UInt8) : Option (List UInt8 × List UInt8) :=
  if spec.length = variableLength then
    (take? 1 bytes).bind fun (short, bytes) =>
    if ofBigEndian short < 255 then take? (ofBigEndian short) bytes
    else (take? 2 bytes).bind fun (long, bytes) => take? (ofBigEndian long) bytes
  else take? spec.length bytes

/-- Read a record. -/
def readRecord : List FieldSpec → List UInt8 → Option (Record × List UInt8)
  | [], bytes => some ([], bytes)
  | spec :: fields, bytes =>
    (readValue spec bytes).bind fun (value, bytes) =>
    (readRecord fields bytes).map fun (record, bytes) => ((spec, value) :: record, bytes)

/-- Write a field's value, with its length in one byte if it is variable. -/
def writeValue (spec : FieldSpec) (value : List UInt8) : List UInt8 :=
  if spec.length = variableLength then bigEndian 1 value.length ++ value else value

/-- Write a record. -/
def writeRecord (record : Record) : List UInt8 := record.flatMap fun p => writeValue p.1 p.2

/-- The value has the field's length, or one that is written in a byte. -/
def Fits (spec : FieldSpec) (value : List UInt8) : Prop :=
  if spec.length = variableLength then value.length < 255 else value.length = spec.length

theorem least_le_length_writeValue {spec : FieldSpec} {value : List UInt8} (h : Fits spec value) :
    spec.least ≤ (writeValue spec value).length := by
  unfold FieldSpec.least writeValue
  unfold Fits at h
  split_ifs at h ⊢
  · rw [List.length_append, length_bigEndian]
    exact Nat.le_add_right ..
  · exact h.ge

theorem readValue_append {spec : FieldSpec} {value : List UInt8} (h : Fits spec value)
    (rest : List UInt8) : readValue spec (writeValue spec value ++ rest) = some (value, rest) := by
  unfold readValue writeValue
  unfold Fits at h
  split_ifs at h ⊢ with hvar
  · have hshort : ofBigEndian (bigEndian 1 value.length) = value.length :=
      ofBigEndian_bigEndian (by omega)
    rw [List.append_assoc, take?_append (length_bigEndian 1 _), Option.bind_some]
    dsimp only
    rw [hshort, if_pos h, take?_append rfl]
  · exact take?_append h rest

/-- The fewest bytes of a template's record are the fewest bytes of its fields. -/
theorem least_le_length_writeRecord {record : Record} (h : ∀ p ∈ record, Fits p.1 p.2) :
    ((record.map Prod.fst).map FieldSpec.least).sum ≤ (writeRecord record).length := by
  induction record with
  | nil => exact le_rfl
  | cons p record ih =>
    obtain ⟨hp, hrecord⟩ := List.forall_mem_cons.1 h
    have hvalue := least_le_length_writeValue hp
    have hrest := ih hrecord
    rw [writeRecord] at hrest
    rw [writeRecord, List.flatMap_cons, List.length_append, List.map_cons, List.map_cons,
      List.sum_cons]
    omega

/-- A record that fits its template is read back, and exactly its bytes are taken. -/
theorem readRecord_append {record : Record} (h : ∀ p ∈ record, Fits p.1 p.2) (rest : List UInt8) :
    readRecord (record.map Prod.fst) (writeRecord record ++ rest) = some (record, rest) := by
  induction record with
  | nil => rfl
  | cons p record ih =>
    obtain ⟨hp, hrecord⟩ := List.forall_mem_cons.1 h
    have hrest := ih hrecord
    rw [writeRecord] at hrest
    rw [writeRecord, List.flatMap_cons, List.append_assoc, List.map_cons, readRecord,
      readValue_append hp, Option.bind_some]
    dsimp only
    rw [hrest]
    rfl

/-! ## Sets and messages -/

/-- A set of records: the template's number, the records and the padding. -/
structure DataSet where
  template : ℕ
  records : List Record
  padding : List UInt8
  deriving DecidableEq

/-- What is read from the content of a set: templates, or the records of a known template. -/
def readContent (known : List Template) (id : ℕ) (content : List UInt8) :
    Option (List Template × List DataSet) :=
  if id = 2 then (readAll (readTemplate false) 4 content.length content).map fun p => (p.1, [])
  else if id = 3 then (readAll (readTemplate true) 6 content.length content).map fun p => (p.1, [])
  else (known.find? fun t => t.id = id).bind fun t =>
    (readAll (readRecord t.fields) t.least content.length content).map fun p =>
      ([], [⟨id, p.1, p.2⟩])

/-- Read sets to the end of a message. Templates are known from then on. -/
def readSets : ℕ → List Template → List UInt8 → Option (List Template × List DataSet)
  | _, known, [] => some (known, [])
  | 0, _, _ :: _ => none
  | fuel + 1, known, byte :: bytes =>
    (take? 2 (byte :: bytes)).bind fun (id, bytes) =>
    (take? 2 bytes).bind fun (length, bytes) =>
    (take? (ofBigEndian length - 4) bytes).bind fun (content, bytes) =>
    (readContent known (ofBigEndian id) content).bind fun (templates, sets) =>
    (readSets fuel (templates ++ known) bytes).map fun (known, rest) => (known, sets ++ rest)

/-- A message: the fields of its header, and its sets of records. -/
structure Message where
  export_time : ℕ
  sequence : ℕ
  domain : ℕ
  sets : List DataSet
  deriving DecidableEq

/-- Read a message, which has to be as long as it says. The templates known afterwards are put out
beside it. -/
def readMessage (known : List Template) (bytes : List UInt8) : Option (Message × List Template) :=
  (take? 2 bytes).bind fun (version, body) =>
  (take? 2 body).bind fun (length, body) =>
  (take? 4 body).bind fun (export_time, body) =>
  (take? 4 body).bind fun (sequence, body) =>
  (take? 4 body).bind fun (domain, body) =>
  if ofBigEndian version = 10 ∧ ofBigEndian length = bytes.length then
    (readSets body.length known body).map fun (known, sets) =>
      (⟨ofBigEndian export_time, ofBigEndian sequence, ofBigEndian domain, sets⟩, known)
  else none

/-- Write a set: its number, its length and its content. -/
def writeSet (id : ℕ) (content : List UInt8) : List UInt8 :=
  bigEndian 2 id ++ bigEndian 2 (4 + content.length) ++ content

/-- Write a message: its header, and its sets. -/
def writeMessage (export_time sequence domain : ℕ) (body : List UInt8) : List UInt8 :=
  bigEndian 2 10 ++ bigEndian 2 (16 + body.length) ++ bigEndian 4 export_time ++
    bigEndian 4 sequence ++ bigEndian 4 domain ++ body

/-- The length that a message or a set announces, behind its first two bytes. -/
def announcedLength (bytes : List UInt8) : ℕ := ofBigEndian ((bytes.drop 2).take 2)

/-- The bytes are sets one after another, each as long as it says. -/
def Chained (body : List UInt8) : Prop :=
  ∃ sets : List (List UInt8), body = sets.flatten ∧
    ∀ set ∈ sets, 4 ≤ set.length ∧ announcedLength set = set.length

@[simp]
theorem length_writeSet (id : ℕ) (content : List UInt8) :
    (writeSet id content).length = 4 + content.length := by
  simp only [writeSet, List.length_append, length_bigEndian]

@[simp]
theorem length_writeMessage (export_time sequence domain : ℕ) (body : List UInt8) :
    (writeMessage export_time sequence domain body).length = 16 + body.length := by
  simp only [writeMessage, List.length_append, length_bigEndian]

theorem announcedLength_append {front rest : List UInt8} {n : ℕ} (hfront : front.length = 2)
    (hn : n < 65536) : announcedLength (front ++ (bigEndian 2 n ++ rest)) = n := by
  have htake : (bigEndian 2 n ++ rest).take 2 = bigEndian 2 n :=
    List.take_left' (length_bigEndian 2 n)
  rw [announcedLength, List.drop_left' hfront, htake]
  exact ofBigEndian_bigEndian hn

/-- A set is as long as it says. -/
theorem announcedLength_writeSet {id : ℕ} {content : List UInt8}
    (h : 4 + content.length < 65536) :
    announcedLength (writeSet id content) = (writeSet id content).length := by
  rw [length_writeSet, writeSet, List.append_assoc]
  exact announcedLength_append (length_bigEndian 2 id) h

/-- A message is as long as it says. -/
theorem announcedLength_writeMessage {export_time sequence domain : ℕ} {body : List UInt8}
    (h : 16 + body.length < 65536) :
    announcedLength (writeMessage export_time sequence domain body) =
      (writeMessage export_time sequence domain body).length := by
  rw [length_writeMessage, writeMessage]
  simp only [List.append_assoc]
  exact announcedLength_append (length_bigEndian 2 10) h

theorem drop_writeMessage (export_time sequence domain : ℕ) (body : List UInt8) :
    (writeMessage export_time sequence domain body).drop 16 = body :=
  List.drop_left' (by simp only [List.length_append, length_bigEndian])

theorem chained_nil : Chained [] := ⟨[], rfl, nofun⟩

/-- A set in front of others. -/
theorem Chained.cons {set body : List UInt8} (h : Chained body) (hset : 4 ≤ set.length)
    (hlength : announcedLength set = set.length) : Chained (set ++ body) := by
  obtain ⟨sets, rfl, hsets⟩ := h
  exact ⟨set :: sets, rfl, List.forall_mem_cons.2 ⟨⟨hset, hlength⟩, hsets⟩⟩

@[simp]
theorem readSets_nil (fuel : ℕ) (known : List Template) :
    readSets fuel known [] = some (known, []) := by
  cases fuel with
  | zero => rfl
  | succ fuel => rfl

/-- A set in front is read by itself. -/
theorem readSets_writeSet {id : ℕ} {content : List UInt8} (hid : id < 65536)
    (hlength : 4 + content.length < 65536) (fuel : ℕ) (known : List Template)
    (rest : List UInt8) :
    readSets (fuel + 1) known (writeSet id content ++ rest) =
      (readContent known id content).bind fun p =>
        (readSets fuel (p.1 ++ known) rest).map fun q => (q.1, p.2 ++ q.2) := by
  have hbytes : writeSet id content ++ rest =
      bigEndian 2 id ++ (bigEndian 2 (4 + content.length) ++ (content ++ rest)) := by
    simp only [writeSet, List.append_assoc]
  -- `readSets` looks whether there is a byte at all
  have hcons : ∃ byte bytes, writeSet id content ++ rest = byte :: bytes :=
    ⟨_, _, by rw [hbytes, bigEndian, List.cons_append]⟩
  obtain ⟨byte, bytes, hcons⟩ := hcons
  rw [hcons, readSets, ← hcons, hbytes, take?_append (length_bigEndian 2 id), Option.bind_some]
  dsimp only
  rw [take?_append (length_bigEndian 2 _), Option.bind_some]
  dsimp only
  rw [ofBigEndian_bigEndian hlength, ofBigEndian_bigEndian hid, Nat.add_sub_cancel_left,
    take?_append rfl, Option.bind_some]

/-- The records of a set whose template is known are read back, and the padding is not read as a
record. -/
theorem readSets_writeSet_records {known : List Template} {t : Template} (hid : 4 ≤ t.id)
    (hid' : t.id < 65536) (hfind : known.find? (fun u => u.id = t.id) = some t)
    (records : List Record) (hfields : ∀ r ∈ records, r.map Prod.fst = t.fields)
    (hfits : ∀ r ∈ records, ∀ p ∈ r, Fits p.1 p.2) {padding : List UInt8}
    (hpadding : padding.length < t.least)
    (hlength : 4 + (records.flatMap writeRecord ++ padding).length < 65536) (fuel : ℕ)
    (rest : List UInt8) :
    readSets (fuel + 1) known (writeSet t.id (records.flatMap writeRecord ++ padding) ++ rest) =
      (readSets fuel known rest).map fun q => (q.1, ⟨t.id, records, padding⟩ :: q.2) := by
  have hleast : ∀ r ∈ records, t.least ≤ (writeRecord r).length := by
    intro r hr
    rw [Template.least, ← hfields r hr]
    exact least_le_length_writeRecord (hfits r hr)
  have hitem : ∀ r ∈ records, ∀ rest,
      readRecord t.fields (writeRecord r ++ rest) = some (id r, rest) := by
    intro r hr rest
    rw [← hfields r hr]
    exact readRecord_append (hfits r hr) rest
  -- no record is empty, so the number of bytes is fuel enough for all records
  have hcount : records.length ≤ (records.flatMap writeRecord ++ padding).length := by
    have h := length_le_length_flatMap (Nat.zero_lt_of_lt hpadding) hleast
    rw [List.length_append]
    exact Nat.le_add_right_of_le h
  rw [readSets_writeSet hid' hlength, readContent, if_neg (by omega), if_neg (by omega), hfind,
    Option.bind_some, readAll_flatMap hleast hitem hpadding hcount, List.map_id]
  rfl

/-- The templates of a set are known from then on. -/
theorem readSets_writeSet_templates {known templates : List Template} {id : ℕ}
    {content : List UInt8} (hid : id < 65536) (hlength : 4 + content.length < 65536)
    (hcontent : readContent known id content = some (templates, [])) (fuel : ℕ)
    (rest : List UInt8) :
    readSets (fuel + 1) known (writeSet id content ++ rest) =
      readSets fuel (templates ++ known) rest := by
  rw [readSets_writeSet hid hlength, hcontent, Option.bind_some]
  dsimp only
  cases readSets fuel (templates ++ known) rest with
  | none => rfl
  | some p => rfl

/-- A message is read back if its sets are. -/
theorem readMessage_writeMessage {known : List Template} {export_time sequence domain : ℕ}
    {body : List UInt8} (hlength : 16 + body.length < 65536) (htime : export_time < 2 ^ 32)
    (hsequence : sequence < 2 ^ 32) (hdomain : domain < 2 ^ 32) :
    readMessage known (writeMessage export_time sequence domain body) =
      (readSets body.length known body).map fun p =>
        (⟨export_time, sequence, domain, p.2⟩, p.1) := by
  have hbytes : writeMessage export_time sequence domain body =
      bigEndian 2 10 ++ (bigEndian 2 (16 + body.length) ++ (bigEndian 4 export_time ++
        (bigEndian 4 sequence ++ (bigEndian 4 domain ++ body)))) := by
    simp only [writeMessage, List.append_assoc]
  have hversion : ofBigEndian (bigEndian 2 10) = 10 := by decide
  unfold readMessage
  -- the five fields of the header are taken one by one
  rw [length_writeMessage, hbytes, take?_append (length_bigEndian 2 _), Option.bind_some]
  dsimp only
  rw [take?_append (length_bigEndian 2 _), Option.bind_some]
  dsimp only
  rw [take?_append (length_bigEndian 4 _), Option.bind_some]
  dsimp only
  rw [take?_append (length_bigEndian 4 _), Option.bind_some]
  dsimp only
  rw [take?_append (length_bigEndian 4 _), Option.bind_some, hversion,
    ofBigEndian_bigEndian hlength, if_pos ⟨rfl, rfl⟩, ofBigEndian_bigEndian htime,
    ofBigEndian_bigEndian hsequence, ofBigEndian_bigEndian hdomain]

end Ipfix
