import GranolaSdr.Lib.Utf8
import Mathlib.Data.List.Infix

/-!
# What a decode writes to the dictionary

`publishDecoded` of the JS8 and FT8 decoders serialises the record of a decode twice. The first text
goes to the message bus, with invalid bytes replaced. The second is the `set` request of the
dictionary client, whose strict serialisation throws on a string that is not UTF-8; the handler of
the exception discards the client. The library that serialises is a parameter here. The message bus
is left out.

## Main definitions

* `setMessage`: the request for a decode;
* `publishDecoded`: a publication;
* `AllWritten`: every decode with a callsign and with valid strings is written.

## Main results

* `allWritten_iff`: this holds exactly if no decode with valid strings follows one without.
-/

namespace GranolaSdr.Hf.Publish

abbrev Bytes := List UInt8

/-- The bytes of an ASCII literal. -/
def ascii (s : String) : Bytes := s.toList.map fun c => c.toNat.toUInt8

/-- The modes of the JS8 decoders. -/
inductive Mode where
  | normal
  | fast
  | slow
  | turbo
  | ultra
  deriving DecidableEq

/-- `mode_name_` -/
def Mode.name : Mode → String
  | .normal => "JS8"
  | .fast => "JS8 Fast"
  | .slow => "JS8 Slow"
  | .turbo => "JS8 Turbo"
  | .ultra => "JS8 Ultra"

/-- A decoder that publishes. -/
inductive Decoder where
  | js8 (mode : Mode)
  | ft8
  deriving DecidableEq

variable {F : Type*}

/-- The arguments of `publishDecoded`, the strings as the bytes before the terminating zero. The FT8
version has no text apart from the callsign. -/
structure Decode (F : Type*) where
  text : Bytes
  call : Bytes
  freq_hz : F
  snr : F
  unix_time : F
  time_offset : F

/-- A value of a record. -/
inductive Field (F : Type*) where
  | text (bytes : Bytes)
  | number (x : F)

/-- A `set` request with a TTL. -/
structure SetMessage (F : Type*) where
  key : Bytes
  value : List (String × Field F)
  ttl_ms : ℕ

/-- All strings of the request are UTF-8. -/
def SetMessage.Valid (msg : SetMessage F) : Prop :=
  Utf8.Valid msg.key ∧ ∀ name bytes, (name, .text bytes) ∈ msg.value → Utf8.Valid bytes

namespace Decoder

/-- The record of a decode. -/
def value (src : Decoder) (d : Decode F) : List (String × Field F) :=
  match src with
  | .js8 mode =>
    [("text", .text d.text), ("freq", .number d.freq_hz), ("snr", .number d.snr),
      ("unix", .number d.unix_time), ("offset", .number d.time_offset),
      ("mode", .text (ascii mode.name))] ++
      if d.call ≠ [] then [("call", .text d.call)] else []
  | .ft8 =>
    [("call", .text d.call), ("freq", .number d.freq_hz), ("snr", .number d.snr),
      ("unix", .number d.unix_time), ("offset", .number d.time_offset),
      ("mode", .text (ascii "FT8"))]

/-- The key of a decode without the callsign; for JS8, `wsdict_key_`. -/
def keyPrefix : Decoder → String
  | .js8 mode =>
    let key_part := String.ofList ((mode.name.toList.map Char.toLower).filter (· ≠ ' '))
    "granolasdr:" ++ key_part ++ ":heard:"
  | .ft8 => "granolasdr:ft8:heard:"

/-- A slash would be taken for a separator. -/
def slashToDash (b : UInt8) : UInt8 := if b = 0x2F then 0x2D else b

/-- The request for a decode. -/
def setMessage (src : Decoder) (d : Decode F) : SetMessage F where
  key := ascii src.keyPrefix ++ d.call.map slashToDash
  value := src.value d
  ttl_ms := 900000

/-- Whether the decoder writes the decode. -/
def Writes (src : Decoder) (d : Decode F) : Prop :=
  match src with
  | .js8 _ => d.call ≠ []
  | .ft8 => True

instance (src : Decoder) (d : Decode F) : Decidable (src.Writes d) := by
  cases src <;> unfold Writes <;> infer_instance

/-- The strings of a decode are UTF-8. -/
def Valid (src : Decoder) (d : Decode F) : Prop :=
  match src with
  | .js8 _ => Utf8.Valid d.text ∧ Utf8.Valid d.call
  | .ft8 => Utf8.Valid d.call

instance (src : Decoder) (d : Decode F) : Decidable (src.Valid d) := by
  cases src <;> unfold Valid <;> infer_instance

theorem valid_keyPrefix (src : Decoder) : Utf8.Valid (ascii src.keyPrefix) := by
  rcases src with (_ | _ | _ | _ | _) | _ <;> decide

theorem valid_name (mode : Mode) : Utf8.Valid (ascii mode.name) := by
  cases mode <;> decide

theorem valid_map_slashToDash (bytes : Bytes) :
    Utf8.Valid (bytes.map slashToDash) ↔ Utf8.Valid bytes := by
  refine Utf8.valid_map_iff (fun b hb => ?_) (fun b hb => ?_) bytes
  · rw [slashToDash]
    split_ifs
    · decide
    · exact hb
  · refine if_neg ?_
    rintro rfl
    exact absurd hb (by decide)

/-- The strings of the request are those of the decode and constants. -/
theorem valid_setMessage_iff {src : Decoder} {d : Decode F} (hwrites : src.Writes d) :
    (src.setMessage d).Valid ↔ src.Valid d := by
  have hkey : Utf8.Valid (src.setMessage d).key ↔ Utf8.Valid d.call := by
    rw [setMessage, Utf8.valid_append_iff src.valid_keyPrefix, valid_map_slashToDash]
  rw [SetMessage.Valid, hkey]
  cases src with
  | js8 mode =>
    have hcall : d.call ≠ [] := hwrites
    have hname := valid_name mode
    constructor
    · rintro ⟨hvalid, hvalue⟩
      exact ⟨hvalue "text" d.text (by simp [setMessage, value]), hvalid⟩
    · rintro ⟨htext, hvalid⟩
      refine ⟨hvalid, fun name bytes hmem => ?_⟩
      simp only [setMessage, value, if_pos hcall, List.mem_append, List.mem_cons, Prod.mk.injEq,
        Field.text.injEq, reduceCtorEq, and_false, false_or, or_false, List.not_mem_nil] at hmem
      -- the fields that carry text: the decoded one, the mode's name and the callsign
      rcases hmem with (⟨-, rfl⟩ | ⟨-, rfl⟩) | ⟨-, rfl⟩
      exacts [htext, hname, hvalid]
  | ft8 =>
    refine and_iff_left_of_imp fun hvalid name bytes hmem => ?_
    simp only [setMessage, value, List.mem_cons, Prod.mk.injEq, Field.text.injEq, reduceCtorEq,
      and_false, false_or, or_false, List.not_mem_nil] at hmem
    rcases hmem with ⟨-, rfl⟩ | ⟨-, rfl⟩
    · exact hvalid
    · decide

end Decoder

/-- The client, if it has not been discarded, and the requests sent. -/
structure Publisher where
  ws_client : Bool
  sent : List Bytes
  deriving DecidableEq

section

-- the strict serialisation of a request, which may throw
variable (dump : SetMessage F → Option Bytes)

/-- `publishDecoded`, on a connection that accepts all requests. -/
def publishDecoded (src : Decoder) (p : Publisher) (d : Decode F) : Publisher :=
  if p.ws_client ∧ src.Writes d then
    match dump (src.setMessage d) with
    | some frame => { p with sent := p.sent ++ [frame] }
    | none => { p with ws_client := false }
  else p

/-- The publisher after a sequence of decodes. -/
def publishAll (src : Decoder) (ds : List (Decode F)) : Publisher :=
  ds.foldl (publishDecoded dump src) { ws_client := true, sent := [] }

/-- Every decode with a callsign and with valid strings is written when it is published. -/
def AllWritten (src : Decoder) (ds : List (Decode F)) : Prop :=
  ∀ done d, done ++ [d] <+: ds → d.call ≠ [] → src.Valid d →
    ∃ frame ∈ dump (src.setMessage d),
      (publishAll dump src (done ++ [d])).sent = (publishAll dump src done).sent ++ [frame]

end

variable {dump : SetMessage F → Option Bytes} {src : Decoder}

theorem publishAll_append (done : List (Decode F)) (d : Decode F) :
    publishAll dump src (done ++ [d]) = publishDecoded dump src (publishAll dump src done) d :=
  List.foldl_append ..

/-- A decode with a callsign is one that the decoder writes. -/
theorem Decoder.writes_of_call {d : Decode F} (h : d.call ≠ []) : src.Writes d := by
  cases src with
  | js8 mode => exact h
  | ft8 => trivial

theorem Decoder.call_ne_nil_of_not_valid {d : Decode F} (hwrites : src.Writes d)
    (h : ¬src.Valid d) : d.call ≠ [] := by
  cases src with
  | js8 mode => exact hwrites
  | ft8 =>
    intro hnil
    exact h (by rw [Decoder.Valid, hnil]; exact Utf8.valid_nil)

/-- The client is there as long as all decodes with a callsign have valid strings. -/
theorem ws_client_publishAll_iff (hdump : ∀ msg, (dump msg).isSome ↔ msg.Valid)
    (ds : List (Decode F)) :
    (publishAll dump src ds).ws_client = true ↔ ∀ d ∈ ds, d.call ≠ [] → src.Valid d := by
  induction ds using List.reverseRecOn with
  | nil => simp [publishAll]
  | append_singleton ds d ih =>
    rw [publishAll_append, publishDecoded, List.forall_mem_append, List.forall_mem_singleton, ← ih]
    by_cases hwrites : src.Writes d
    · have hvalid : (dump (src.setMessage d)).isSome ↔ src.Valid d :=
        (hdump _).trans (Decoder.valid_setMessage_iff hwrites)
      split_ifs with hclient
      · rw [and_iff_right hclient.1]
        cases hframe : dump (src.setMessage d) with
        | some frame =>
          rw [hframe] at hvalid
          exact iff_of_true hclient.1 fun _ => hvalid.1 rfl
        | none =>
          rw [hframe] at hvalid
          -- the dump throws, and the handler drops the client for good
          have hinvalid : ¬src.Valid d := fun hv => by simpa using hvalid.2 hv
          exact iff_of_false (by simp) fun h =>
            hinvalid (h (Decoder.call_ne_nil_of_not_valid hwrites hinvalid))
      · rw [and_iff_left hwrites] at hclient
        simp [hclient]
    · rw [if_neg (fun h => hwrites h.2), iff_self_and]
      exact fun _ hcall => absurd (Decoder.writes_of_call hcall) hwrites

/-- While there is a client, a decode with a callsign and with valid strings is written. -/
theorem sent_publishDecoded (hdump : ∀ msg, (dump msg).isSome ↔ msg.Valid) {p : Publisher}
    (hclient : p.ws_client = true) {d : Decode F} (hcall : d.call ≠ []) (hvalid : src.Valid d) :
    ∃ frame ∈ dump (src.setMessage d),
      (publishDecoded dump src p d).sent = p.sent ++ [frame] := by
  have hwrites : src.Writes d := Decoder.writes_of_call hcall
  obtain ⟨frame, hframe⟩ := Option.isSome_iff_exists.1
    ((hdump _).2 ((Decoder.valid_setMessage_iff hwrites).2 hvalid))
  refine ⟨frame, hframe, ?_⟩
  rw [publishDecoded, if_pos ⟨hclient, hwrites⟩, hframe]

/-- When all decodes that can be written are written, none follows one that has cost the client. -/
theorem AllWritten.pairwise (hdump : ∀ msg, (dump msg).isSome ↔ msg.Valid) {ds : List (Decode F)}
    (h : AllWritten dump src ds) :
    ds.Pairwise fun d d' => d.call ≠ [] → ¬src.Valid d → d'.call ≠ [] → ¬src.Valid d' := by
  induction ds using List.reverseRecOn with
  | nil => exact List.Pairwise.nil
  | append_singleton ds d ih =>
    have hbefore : AllWritten dump src ds := fun done e hdone =>
      h done e (hdone.trans (List.prefix_append ds [d]))
    refine List.pairwise_append.2 ⟨ih hbefore, List.pairwise_singleton _ _, ?_⟩
    intro a ha e he hcall hinvalid hcall' hvalid
    obtain rfl := List.mem_singleton.1 he
    obtain ⟨frame, -, hsent⟩ := h ds e List.prefix_rfl hcall' hvalid
    -- the client is gone since `a`, so nothing is written
    have hgone : (publishAll dump src ds).ws_client ≠ true := fun hclient =>
      hinvalid ((ws_client_publishAll_iff hdump ds).1 hclient a ha hcall)
    rw [publishAll_append, publishDecoded, if_neg fun hif => hgone hif.1] at hsent
    simpa using congrArg List.length hsent

theorem allWritten_of_pairwise (hdump : ∀ msg, (dump msg).isSome ↔ msg.Valid)
    {ds : List (Decode F)}
    (h : ds.Pairwise fun d d' => d.call ≠ [] → ¬src.Valid d → d'.call ≠ [] → ¬src.Valid d') :
    AllWritten dump src ds := by
  intro done d hdone hcall hvalid
  -- no decode before `d` has cost the client
  have hclient : (publishAll dump src done).ws_client = true := by
    rw [ws_client_publishAll_iff hdump]
    intro e he hcall'
    by_contra hinvalid
    have hpair := (List.pairwise_append.1 (h.sublist hdone.sublist)).2.2 e he d
      (List.mem_singleton_self d)
    exact hpair hcall' hinvalid hcall hvalid
  rw [publishAll_append]
  exact sent_publishDecoded hdump hclient hcall hvalid

/-- On a healthy connection, every decode with a callsign and with valid strings is written exactly
if none of them comes after a decode with a callsign and with a string that is not UTF-8. -/
theorem allWritten_iff (dump : SetMessage F → Option Bytes)
    (hdump : ∀ msg, (dump msg).isSome ↔ msg.Valid) (src : Decoder) (ds : List (Decode F)) :
    AllWritten dump src ds ↔ ds.Pairwise fun d d' =>
      d.call ≠ [] → ¬src.Valid d → d'.call ≠ [] → ¬src.Valid d' :=
  ⟨fun h => h.pairwise hdump, allWritten_of_pairwise hdump⟩

/-! ## Concrete decodes -/

/-- The strings of a value are UTF-8. -/
def Field.check : Field F → Bool
  | .text bytes => Utf8.Valid bytes
  | .number _ => true

/-- A string of a JSON text, for bytes that need no escape. -/
def quote (bytes : Bytes) : Bytes := ascii "\"" ++ bytes ++ ascii "\""

/-- A member of a JSON object, for whole numbers stored as doubles. -/
def jsonMember (member : String × Field ℕ) : Bytes :=
  quote (ascii member.1) ++ ascii ":" ++
    match member.2 with
    | .text bytes => quote bytes
    | .number n => ascii (toString n ++ ".0")

/-- The strict serialisation of requests whose strings need no escape. -/
def jsonDump (msg : SetMessage ℕ) : Option Bytes :=
  if Utf8.Valid msg.key ∧ ∀ member ∈ msg.value, member.2.check then
    let members := (msg.value.mergeSort fun a b => a.1 ≤ b.1).map jsonMember
    some (ascii "\x7b\"key\":" ++ quote msg.key ++ ascii ",\"ttl_ms\":" ++
      ascii (toString msg.ttl_ms) ++ ascii ",\"type\":\"set\",\"value\":\x7b" ++
      (ascii ",").intercalate members ++ ascii "\x7d\x7d")
  else none

theorem isSome_jsonDump (msg : SetMessage ℕ) : (jsonDump msg).isSome ↔ msg.Valid := by
  have hcheck : (∀ member ∈ msg.value, member.2.check) ↔
      ∀ name bytes, (name, .text bytes) ∈ msg.value → Utf8.Valid bytes := by
    constructor
    · intro h name bytes hmem
      simpa [Field.check] using h _ hmem
    · rintro h ⟨name, bytes | n⟩ hmem
      · simpa [Field.check] using h name bytes hmem
      · rfl
  rw [jsonDump, SetMessage.Valid, ← hcheck]
  split_ifs with h
  · exact iff_of_true rfl h
  · exact iff_of_false (by simp) h

/-- A decode of a station. -/
def heard (call : String) (text : Bytes) : Decode ℕ where
  text := text
  call := ascii call
  freq_hz := 7078000
  snr := 3
  unix_time := 1700000000
  time_offset := 0

theorem allWritten_iff_heard :
    AllWritten jsonDump (.js8 .normal)
      [heard "K1ABC" (ascii "K1ABC: CQ "), heard "W9XYZ/P" (ascii "W9XYZ/P: CQ ")] :=
  (allWritten_iff jsonDump isSome_jsonDump _ _).2 (by simp [Decoder.Valid]; decide)

/-- After one text with a byte that is not UTF-8, a decode with valid strings is not written. -/
theorem notWritten_after_invalid :
    (heard "W9XYZ" (ascii "W9XYZ: CQ ")).call ≠ [] ∧
      (Decoder.js8 .normal).Valid (heard "W9XYZ" (ascii "W9XYZ: CQ ")) ∧
      publishAll jsonDump (.js8 .normal)
        [heard "K1ABC" [0xFF], heard "W9XYZ" (ascii "W9XYZ: CQ ")] = ⟨false, []⟩ := by
  decide

end GranolaSdr.Hf.Publish
