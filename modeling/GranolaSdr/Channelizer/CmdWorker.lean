import GranolaSdr.WsServer.Tci
import Mathlib.Algebra.Group.Int.Defs

/-!
# The audio command worker

The loop of `HFChannelizer::cmdWorker` over the values of the updates it receives. The conversions
of the JSON library are modelled with the exceptions they raise, and an exception leaves the loop.
Floating-point numbers are of an arbitrary type, with the conversions to integers as parameters.

The commands applied are history.

## Main definitions

* `Json`, `get_int`, `get_uint64`, `value_string`: values and their conversions;
* `body`, `receive`: one pass of the loop, and the loop;
* `command`: the retune a well-formed value asks for;
* `Robust`: the loop goes on, has applied the well-formed commands in order, and no sink is
  half-updated;
* `Raises`: a value whose conversion raises an exception.

## Main results

* `robust_iff_forall_not_raises`: for which sequences of values the worker is robust.
-/

namespace GranolaSdr.CmdWorker

open WsServer (Text)
open Tci (Sink NUM_SINKS decimal)

/-- The values of the JSON library. -/
inductive Json (F : Type*) where
  | null
  | boolean (b : Bool)
  | number_unsigned (n : ℕ)
  | number_integer (n : ℤ)
  | number_float (x : F)
  | string (text : Text)
  | array (elements : List (Json F))
  | object (members : List (Text × Json F))

/-- The `type_error` exceptions of the JSON library, by their numbers. -/
structure TypeError where
  id : ℕ
  deriving DecidableEq

variable {F : Type*}

namespace Json

/-- The member of an object. -/
def member? (val : Json F) (key : Text) : Option (Json F) :=
  match val with
  | .object members => members.lookup key
  | _ => none

/-- `contains` -/
def contains (val : Json F) (key : Text) : Bool := (val.member? key).isSome

/-- `operator[]` -/
def get (val : Json F) (key : Text) : Json F := (val.member? key).getD .null

/-- `value` with a text as its default. -/
def value_string (val : Json F) (key default : Text) : Except TypeError Text :=
  match val with
  | .object members =>
    match members.lookup key with
    | none => .ok default
    | some (.string text) => .ok text
    | some _ => .error ⟨302⟩
  | _ => .error ⟨306⟩

/-- The value is a text. -/
def IsString : Json F → Prop
  | .string _ => True
  | _ => False

/-- The value is a number. -/
def IsNumber : Json F → Prop
  | .number_unsigned _ | .number_integer _ | .number_float _ => True
  | _ => False

/-- The value is a boolean. -/
def IsBoolean : Json F → Prop
  | .boolean _ => True
  | _ => False

end Json

section Conversions

variable (toInt : F → ℤ) (toUint64 : F → ℕ)

/-- `get<int>`, which wraps integers and takes booleans. -/
def get_int : Json F → Except TypeError ℤ
  | .number_unsigned n => .ok ((n : ℤ).bmod (2 ^ 32))
  | .number_integer n => .ok (n.bmod (2 ^ 32))
  | .number_float x => .ok (toInt x)
  | .boolean b => .ok (if b then 1 else 0)
  | _ => .error ⟨302⟩

/-- `get<uint64_t>`, which wraps negative integers. -/
def get_uint64 : Json F → Except TypeError ℕ
  | .number_unsigned n => .ok n
  | .number_integer n => .ok (n % 2 ^ 64).toNat
  | .number_float x => .ok (toUint64 x)
  | _ => .error ⟨302⟩

end Conversions

/-- The members of a command. -/
inductive Key where
  | sink
  | freq_hz
  | label

/-- The name of a member. -/
def Key.text : Key → Text
  | .sink => "sink".toList
  | .freq_hz => "freq_hz".toList
  | .label => "label".toList

/-- A retune of a sink. -/
structure Command where
  sink : Sink
  freq_hz : ℕ
  label : Text
  deriving DecidableEq

/-- What the worker writes of the sinks: the bins, the labels and the published status. -/
structure Sinks where
  sink_bins : Sink → ℕ
  sink_labels : Sink → Text
  status : Sink → Command

/-- The sinks at the start of the loop. -/
def Sinks.init : Sinks where
  sink_bins := ![140740, 70740, 35730, 280740]
  sink_labels :=
    !["20m FT8".toList, "40m FT8".toList, "80m FT8".toList, "10m FT8".toList]
  status := ![⟨0, 14_074_000, "20m FT8".toList⟩, ⟨1, 7_074_000, "40m FT8".toList⟩,
    ⟨2, 3_573_000, "80m FT8".toList⟩, ⟨3, 28_074_000, "10m FT8".toList⟩]

/-- The worker. -/
structure State (F : Type*) where
  running : Bool
  sinks : Sinks
  /-- The commands applied, with the values they came from. -/
  applied : List (Json F × Command)

/-- The worker before its first message. -/
def init : State F where
  running := true
  sinks := .init
  applied := []

/-- The label a command without one is given. -/
def defaultLabel (freq_hz : ℕ) : Text := decimal (freq_hz / 1000) ++ " kHz".toList

namespace Sinks

/-- The bin of a sink is stored. -/
def storeBin (s : Sinks) (sink : Sink) (new_bin : ℕ) : Sinks :=
  { s with sink_bins := Function.update s.sink_bins sink new_bin }

/-- The label of a sink is stored. -/
def storeLabel (s : Sinks) (sink : Sink) (label : Text) : Sinks :=
  { s with sink_labels := Function.update s.sink_labels sink label }

/-- The status of a sink is published. -/
def publish (s : Sinks) (cmd : Command) : Sinks :=
  { s with status := Function.update s.status cmd.sink cmd }

/-- All that a command writes. -/
def apply (s : Sinks) (cmd : Command) : Sinks :=
  ((s.storeBin cmd.sink (cmd.freq_hz / 100)).storeLabel cmd.sink cmd.label).publish cmd

end Sinks

section Loop

variable (toInt : F → ℤ) (toUint64 : F → ℕ)

/-- One pass of the loop, with the sinks as it leaves them when it ends or raises an exception, and
the command it has applied. -/
def body (val : Json F) (s : Sinks) : Except TypeError (Option Command) × Sinks :=
  if !val.contains Key.sink.text || !val.contains Key.freq_hz.text then (.ok none, s)
  else
    match get_int toInt (val.get Key.sink.text) with
    | .error e => (.error e, s)
    | .ok sink =>
      match get_uint64 toUint64 (val.get Key.freq_hz.text) with
      | .error e => (.error e, s)
      | .ok freq_hz =>
        if hsink : 0 ≤ sink ∧ sink < NUM_SINKS then
          if 69_952_000 < freq_hz then (.ok none, s)
          else
            let i : Sink := ⟨sink.toNat, by omega⟩
            let new_bin := freq_hz / 100
            match val.value_string Key.label.text (defaultLabel freq_hz) with
            | .error e => (.error e, s)
            | .ok label =>
              let s := s.storeBin i new_bin
              let s := s.storeLabel i label
              (.ok (some ⟨i, freq_hz, label⟩), s.publish ⟨i, freq_hz, label⟩)
        else (.ok none, s)

/-- The worker receives a value. -/
def receive (s : State F) (val : Json F) : State F :=
  if s.running then
    match body toInt toUint64 val s.sinks with
    | (.ok none, sinks) => { s with sinks }
    | (.ok (some cmd), sinks) => { s with sinks, applied := s.applied ++ [(val, cmd)] }
    -- `catch (...)` leaves the loop
    | (.error _, sinks) => { s with running := false, sinks }
  else s

/-! ## Well-formed values -/

/-- The number of a sink that a value names. -/
def sinkValue : Json F → Option ℤ
  | .number_unsigned n => some n
  | .number_integer n => some n
  | .number_float x => some (toInt x)
  | _ => none

/-- The frequency that a value names. -/
def freqValue : Json F → Option ℤ
  | .number_unsigned n => some n
  | .number_integer n => some n
  | .number_float x => some (toUint64 x)
  | _ => none

/-- The label that a value names, if it names none the default. -/
def labelValue (default : Text) : Option (Json F) → Option Text
  | none => some default
  | some (.string text) => some text
  | some _ => none

/-- The retune that a well-formed value asks for: an object with the number of a sink that exists, a
frequency within the limit and, if any, a text as its label. -/
def command (val : Json F) : Option Command := do
  let sink ← (val.member? Key.sink.text).bind (sinkValue toInt)
  let freq_hz ← (val.member? Key.freq_hz.text).bind (freqValue toUint64)
  if hsink : 0 ≤ sink ∧ sink < NUM_SINKS then
    if 0 ≤ freq_hz ∧ freq_hz ≤ 69_952_000 then
      let label ← labelValue (defaultLabel freq_hz.toNat) (val.member? Key.label.text)
      return ⟨⟨sink.toNat, by omega⟩, freq_hz.toNat, label⟩
    else none
  else none

/-- The worker goes on, has applied each well-formed command exactly once and in order, and the
sinks are as the commands applied leave them. -/
structure Robust (vals : List (Json F)) (t : State F) : Prop where
  running : t.running
  applied : t.applied.filter (fun a => (command toInt toUint64 a.1).isSome) =
    vals.filterMap fun val => (command toInt toUint64 val).map (val, ·)
  sinks : t.sinks = (t.applied.map Prod.snd).foldl Sinks.apply .init

/-- A value whose conversion raises an exception: an object with both members of which one has the
wrong type, or that is in range and has a label of the wrong type. -/
def Raises (val : Json F) : Prop :=
  ∃ sink freq, val.member? Key.sink.text = some sink ∧ val.member? Key.freq_hz.text = some freq ∧
    (¬(sink.IsNumber ∨ sink.IsBoolean) ∨ ¬freq.IsNumber ∨
      ∃ i freq_hz label, get_int toInt sink = .ok i ∧ get_uint64 toUint64 freq = .ok freq_hz ∧
        (0 ≤ i ∧ i < NUM_SINKS) ∧ freq_hz ≤ 69_952_000 ∧
        val.member? Key.label.text = some label ∧ ¬label.IsString)

/-! ## One pass -/

variable {toInt toUint64}

theorem isNumber_or_isBoolean_iff {val : Json F} :
    val.IsNumber ∨ val.IsBoolean ↔ ∃ n, get_int toInt val = .ok n := by
  cases val <;> simp [Json.IsNumber, Json.IsBoolean, get_int]

theorem isNumber_iff {val : Json F} : val.IsNumber ↔ ∃ n, get_uint64 toUint64 val = .ok n := by
  cases val <;> simp [Json.IsNumber, get_uint64]

/-- A number within the limits is not wrapped. -/
theorem get_int_of_sinkValue {val : Json F} {n : ℤ} (h : sinkValue toInt val = some n)
    (hn : 0 ≤ n ∧ n < NUM_SINKS) : get_int toInt val = .ok n := by
  have hlt : n < 4 := hn.2
  have hbmod : n.bmod (2 ^ 32) = n := Int.bmod_eq_of_le (by omega) (by omega)
  cases val with
  | number_unsigned m =>
    obtain rfl : (m : ℤ) = n := by simpa [sinkValue] using h
    rw [get_int, hbmod]
  | number_integer m =>
    obtain rfl : m = n := by simpa [sinkValue] using h
    rw [get_int, hbmod]
  | number_float x =>
    obtain rfl : toInt x = n := by simpa [sinkValue] using h
    rfl
  | null | boolean | string | array | object => simp [sinkValue] at h

theorem get_uint64_of_freqValue {val : Json F} {n : ℤ} (h : freqValue toUint64 val = some n)
    (hn : 0 ≤ n ∧ n ≤ 69_952_000) : get_uint64 toUint64 val = .ok n.toNat := by
  cases val with
  | number_unsigned m =>
    obtain rfl : (m : ℤ) = n := by simpa [freqValue] using h
    rfl
  | number_integer m =>
    obtain rfl : m = n := by simpa [freqValue] using h
    have hmod : m % 2 ^ 64 = m := by omega
    rw [get_uint64, hmod]
  | number_float x =>
    obtain rfl : (toUint64 x : ℤ) = n := by simpa [freqValue] using h
    rfl
  | null | boolean | string | array | object => simp [freqValue] at h

theorem labelValue_eq_none_iff {default : Text} {member : Option (Json F)} :
    labelValue default member = none ↔ ∃ label, member = some label ∧ ¬label.IsString := by
  cases member with
  | none => simp [labelValue]
  | some label => cases label <;> simp [labelValue, Json.IsString]

/-- The label of an object. -/
theorem value_string_of_member {val : Json F} {key : Text} (h : (val.member? key).isSome)
    (key' default : Text) :
    val.value_string key' default =
      (labelValue default (val.member? key')).elim (.error ⟨302⟩) .ok := by
  cases val with
  | object members =>
    simp only [Json.value_string, Json.member?]
    cases members.lookup key' with
    | none => rfl
    | some label => cases label <;> rfl
  | null | boolean | number_unsigned | number_integer | number_float | string | array =>
    simp [Json.member?] at h

/-- What a well-formed value names is what the worker reads from it. -/
theorem of_mem_command {val : Json F} {cmd : Command} (h : cmd ∈ command toInt toUint64 val) :
    ∃ sink freq, val.member? Key.sink.text = some sink ∧
      val.member? Key.freq_hz.text = some freq ∧ get_int toInt sink = .ok cmd.sink.val ∧
      get_uint64 toUint64 freq = .ok cmd.freq_hz ∧ cmd.freq_hz ≤ 69_952_000 ∧
      labelValue (defaultLabel cmd.freq_hz) (val.member? Key.label.text) = some cmd.label := by
  simp only [command, Option.bind_eq_bind, Option.mem_def, Option.bind_eq_some_iff] at h
  obtain ⟨n, ⟨sink, hsink, hn⟩, f, ⟨freq, hfreq, hf⟩, h⟩ := h
  split_ifs at h with hrange hlimit
  simp only [Option.pure_def, Option.bind_eq_some_iff, Option.some.injEq] at h
  obtain ⟨label, hlabel, rfl⟩ := h
  refine ⟨sink, freq, hsink, hfreq, ?_, get_uint64_of_freqValue hf hlimit, ?_, hlabel⟩
  · rw [get_int_of_sinkValue hn hrange, Int.toNat_of_nonneg hrange.1]
  · exact Int.toNat_le.2 hlimit.2

/-- How a pass of the loop ends: the value is skipped, its command is applied, or an exception is
raised, which leaves the sinks as they were. -/
inductive Pass (toInt : F → ℤ) (toUint64 : F → ℕ) (val : Json F) (s : Sinks) : Prop where
  | skipped (hbody : body toInt toUint64 val s = (.ok none, s))
      (hcommand : command toInt toUint64 val = none) (hraises : ¬Raises toInt toUint64 val)
  | applied (cmd : Command) (hbody : body toInt toUint64 val s = (.ok (some cmd), s.apply cmd))
      (hcommand : ∀ cmd' ∈ command toInt toUint64 val, cmd' = cmd)
      (hraises : ¬Raises toInt toUint64 val)
  | raised (e : TypeError) (hbody : body toInt toUint64 val s = (.error e, s))
      (hraises : Raises toInt toUint64 val)

/-- A value without one of the members is skipped. -/
theorem pass_of_missing {val : Json F} {s : Sinks}
    (h : val.member? Key.sink.text = none ∨ val.member? Key.freq_hz.text = none) :
    Pass toInt toUint64 val s := by
  refine .skipped ?_ ?_ ?_
  · rcases h with h | h
    · simp [body, Json.contains, h]
    · simp [body, Json.contains, h]
  · rw [Option.eq_none_iff_forall_not_mem]
    intro cmd hcmd
    obtain ⟨sink, freq, hsink, hfreq, -⟩ := of_mem_command hcmd
    rcases h with h | h
    · cases h.symm.trans hsink
    · cases h.symm.trans hfreq
  · rintro ⟨sink, freq, hsink, hfreq, -⟩
    rcases h with h | h
    · cases h.symm.trans hsink
    · cases h.symm.trans hfreq

section Members

variable {val sink freq : Json F} (hsink : val.member? Key.sink.text = some sink)
  (hfreq : val.member? Key.freq_hz.text = some freq)
include hsink hfreq

/-- What a well-formed value with these members names is what is read of them. -/
theorem of_mem_command_of_members {cmd : Command} (hcmd : cmd ∈ command toInt toUint64 val) :
    get_int toInt sink = .ok cmd.sink.val ∧ get_uint64 toUint64 freq = .ok cmd.freq_hz ∧
      cmd.freq_hz ≤ 69_952_000 ∧
      labelValue (defaultLabel cmd.freq_hz) (val.member? Key.label.text) = some cmd.label := by
  obtain ⟨sink', freq', hsink', hfreq', hrest⟩ := of_mem_command hcmd
  obtain rfl := Option.some.inj (hsink.symm.trans hsink')
  obtain rfl := Option.some.inj (hfreq.symm.trans hfreq')
  exact hrest

/-- A value with these members raises an exception where a conversion of them fails, or that of the
label after them. -/
theorem raises_iff_of_members :
    Raises toInt toUint64 val ↔
      (∀ n, get_int toInt sink ≠ .ok n) ∨ (∀ n, get_uint64 toUint64 freq ≠ .ok n) ∨
        ∃ i freq_hz label, get_int toInt sink = .ok i ∧ get_uint64 toUint64 freq = .ok freq_hz ∧
          (0 ≤ i ∧ i < NUM_SINKS) ∧ freq_hz ≤ 69_952_000 ∧
          val.member? Key.label.text = some label ∧ ¬label.IsString := by
  have hint : ¬(sink.IsNumber ∨ sink.IsBoolean) ↔ ∀ n, get_int toInt sink ≠ .ok n := by
    rw [isNumber_or_isBoolean_iff, not_exists]
  have huint : ¬freq.IsNumber ↔ ∀ n, get_uint64 toUint64 freq ≠ .ok n := by
    rw [isNumber_iff, not_exists]
  rw [← hint, ← huint]
  constructor
  · rintro ⟨sink', freq', hsink', hfreq', h⟩
    obtain rfl := Option.some.inj (hsink.symm.trans hsink')
    obtain rfl := Option.some.inj (hfreq.symm.trans hfreq')
    exact h
  · intro h
    exact ⟨sink, freq, hsink, hfreq, h⟩

/-- A value with both members, by the outcomes of the conversions. -/
theorem pass_of_members {s : Sinks} : Pass toInt toUint64 val s := by
  have hcontains : (!val.contains Key.sink.text || !val.contains Key.freq_hz.text) = false := by
    simp [Json.contains, hsink, hfreq]
  have hget : val.get Key.sink.text = sink ∧ val.get Key.freq_hz.text = freq := by
    simp [Json.get, hsink, hfreq]
  have hlabels := value_string_of_member (Option.isSome_of_eq_some hsink) Key.label.text
  have hraises : Raises toInt toUint64 val ↔ _ := raises_iff_of_members hsink hfreq
  cases hi : get_int toInt sink with
  | error e =>
    refine .raised e ?_ (hraises.2 (.inl (by simp [hi])))
    simp [body, hcontains, hget, hi]
  | ok i =>
    cases hf : get_uint64 toUint64 freq with
    | error e =>
      refine .raised e ?_ (hraises.2 (.inr (.inl (by simp [hf]))))
      simp [body, hcontains, hget, hi, hf]
    | ok freq_hz =>
      -- both conversions succeed: out of range the value is skipped, else the label decides
      by_cases hrange : (0 ≤ i ∧ i < NUM_SINKS) ∧ freq_hz ≤ 69_952_000
      · cases hlabel : labelValue (defaultLabel freq_hz) (val.member? Key.label.text) with
        | none =>
          obtain ⟨label, hmember, hstring⟩ := labelValue_eq_none_iff.1 hlabel
          refine .raised ⟨302⟩ ?_ (hraises.2 (.inr (.inr
            ⟨i, freq_hz, label, hi, hf, hrange.1, hrange.2, hmember, hstring⟩)))
          simp [body, hcontains, hget, hi, hf, hrange, hlabels, hlabel]
        | some label =>
          refine .applied ⟨⟨i.toNat, by omega⟩, freq_hz, label⟩ ?_ ?_ ?_
          · simp [body, hcontains, hget, hi, hf, hrange, hlabels, hlabel, Sinks.apply]
          · intro cmd hcmd
            obtain ⟨hsink', hfreq', -, hlabel'⟩ := of_mem_command_of_members hsink hfreq hcmd
            obtain rfl : i = cmd.sink.val := Except.ok.inj (hi.symm.trans hsink')
            obtain rfl : freq_hz = cmd.freq_hz := Except.ok.inj (hf.symm.trans hfreq')
            -- a well-formed value names what has been read
            obtain rfl : label = cmd.label := Option.some.inj (hlabel.symm.trans hlabel')
            rfl
          · rw [hraises]
            rintro (h | h | ⟨-, -, label', -, -, -, -, hmember, hstring⟩)
            · exact h i hi
            · exact h freq_hz hf
            · cases hlabel.symm.trans (labelValue_eq_none_iff.2 ⟨label', hmember, hstring⟩)
      · refine .skipped ?_ ?_ ?_
        · by_cases hsink' : 0 ≤ i ∧ i < NUM_SINKS
          · have hlimit : 69_952_000 < freq_hz := not_le.1 fun h => hrange ⟨hsink', h⟩
            simp [body, hcontains, hget, hi, hf, hsink', hlimit]
          · simp [body, hcontains, hget, hi, hf, hsink']
        · rw [Option.eq_none_iff_forall_not_mem]
          intro cmd hcmd
          obtain ⟨hsink', hfreq', hlimit, -⟩ := of_mem_command_of_members hsink hfreq hcmd
          obtain rfl : i = cmd.sink.val := Except.ok.inj (hi.symm.trans hsink')
          obtain rfl : freq_hz = cmd.freq_hz := Except.ok.inj (hf.symm.trans hfreq')
          exact hrange ⟨⟨Int.natCast_nonneg _, Int.ofNat_lt.2 cmd.sink.isLt⟩, hlimit⟩
        · rw [hraises]
          rintro (h | h | ⟨i', freq_hz', -, hsink', hfreq', hlimits, hlimit, -, -⟩)
          · exact h i hi
          · exact h freq_hz hf
          · obtain rfl : i = i' := Except.ok.inj (hi.symm.trans hsink')
            obtain rfl : freq_hz = freq_hz' := Except.ok.inj (hf.symm.trans hfreq')
            exact hrange ⟨hlimits, hlimit⟩

end Members

theorem pass (val : Json F) (s : Sinks) : Pass toInt toUint64 val s := by
  cases hsink : val.member? Key.sink.text with
  | none => exact pass_of_missing (.inl hsink)
  | some sink =>
    cases hfreq : val.member? Key.freq_hz.text with
    | none => exact pass_of_missing (.inr hfreq)
    | some freq => exact pass_of_members hsink hfreq

/-! ## The loop -/

variable (toInt toUint64) in
/-- The worker after a sequence of values. -/
def run (vals : List (Json F)) : State F := vals.foldl (receive toInt toUint64) init

/-- An exception leaves the loop, and nothing is received after it. -/
theorem running_receive {s : State F} {val : Json F} (h : (receive toInt toUint64 s val).running) :
    s.running ∧ ¬Raises toInt toUint64 val := by
  by_cases hs : s.running
  · refine ⟨hs, ?_⟩
    rw [receive, if_pos hs] at h
    have hpass : Pass toInt toUint64 val s.sinks := pass val s.sinks
    cases hpass with
    | skipped hbody hcommand hraises => exact hraises
    | applied cmd hbody hcommand hraises => exact hraises
    | raised e hbody hraises =>
      rw [hbody] at h
      cases h
  · rw [receive, if_neg hs] at h
    exact absurd h hs

theorem not_raises_of_running {vals : List (Json F)} {s : State F}
    (h : (vals.foldl (receive toInt toUint64) s).running) :
    s.running ∧ ∀ val ∈ vals, ¬Raises toInt toUint64 val := by
  induction vals generalizing s with
  | nil => exact ⟨h, by simp⟩
  | cons val vals ih =>
    obtain ⟨hnext, hvals⟩ := ih h
    obtain ⟨hs, hval⟩ := running_receive hnext
    exact ⟨hs, List.forall_mem_cons.2 ⟨hval, hvals⟩⟩

/-- A value that raises no exception leaves a robust worker robust. -/
theorem robust_receive {vals : List (Json F)} {s : State F} {val : Json F}
    (h : Robust toInt toUint64 vals s) (hval : ¬Raises toInt toUint64 val) :
    Robust toInt toUint64 (vals ++ [val]) (receive toInt toUint64 s val) := by
  have hpass : Pass toInt toUint64 val s.sinks := pass val s.sinks
  cases hpass with
  | skipped hbody hcommand hraises =>
    rw [receive, if_pos h.running, hbody]
    refine ⟨h.running, ?_, h.sinks⟩
    rw [List.filterMap_append, ← h.applied]
    simp [hcommand]
  | applied cmd hbody hcommand hraises =>
    rw [receive, if_pos h.running, hbody]
    refine ⟨h.running, ?_, ?_⟩
    · rw [List.filter_append, List.filterMap_append, h.applied]
      -- a value that is not well-formed may be applied, but is not counted
      cases hcmd : command toInt toUint64 val with
      | none => simp [hcmd]
      | some cmd' =>
        obtain rfl := hcommand cmd' hcmd
        simp [hcmd]
    · rw [List.map_append, List.foldl_append, ← h.sinks]
      rfl
  | raised e hbody hraises => exact absurd hraises hval

theorem robust_run {vals : List (Json F)} (h : ∀ val ∈ vals, ¬Raises toInt toUint64 val) :
    Robust toInt toUint64 vals (run toInt toUint64 vals) := by
  induction vals using List.reverseRecOn with
  | nil => exact ⟨rfl, rfl, rfl⟩
  | append_singleton vals val ih =>
    obtain ⟨hvals, hval⟩ := List.forall_mem_append.1 h
    rw [run, List.foldl_append]
    exact robust_receive (ih hvals) (hval val (by simp))

/-- After a sequence of values the worker goes on, has applied each well-formed command exactly once
and in order, and has half-updated no sink, exactly if no value of the sequence raises an
exception. -/
theorem robust_iff_forall_not_raises (toInt : F → ℤ) (toUint64 : F → ℕ) (vals : List (Json F)) :
    Robust toInt toUint64 vals (run toInt toUint64 vals) ↔
      ∀ val ∈ vals, ¬Raises toInt toUint64 val :=
  ⟨fun h => (not_raises_of_running h.running).2, robust_run⟩

end Loop

/-- A command whose sink is a text, and a well-formed one. -/
def textSinkValues : List (Json Unit) :=
  [.object [(Key.sink.text, .string "0".toList), (Key.freq_hz.text, .number_unsigned 14_080_000)],
    .object [(Key.sink.text, .number_unsigned 1), (Key.freq_hz.text, .number_unsigned 7_078_000)]]

/-- The exception that the first command raises ends the worker, and the second one is lost. -/
theorem textSinkValues_not_robust :
    (textSinkValues.filterMap (command (fun _ => 0) fun _ => 0)) =
        [⟨1, 7_078_000, "7078 kHz".toList⟩] ∧
      (run (fun _ => 0) (fun _ => 0) textSinkValues).running = false ∧
      (run (fun _ => 0) (fun _ => 0) textSinkValues).sinks.sink_bins 1 = 70740 ∧
      ¬Robust (fun _ => 0) (fun _ => 0) textSinkValues
        (run (fun _ => 0) (fun _ => 0) textSinkValues) := by
  have hrunning : (run (fun _ => 0) (fun _ => 0) textSinkValues).running = false := by decide
  refine ⟨by decide, hrunning, by decide, fun h => ?_⟩
  cases hrunning.symm.trans h.running

end GranolaSdr.CmdWorker
