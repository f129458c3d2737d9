import GranolaSdr.Lib.Run
import GranolaSdr.WsServer.Protocol
import Mathlib.Data.Fin.VecNotation
import Mathlib.Data.List.DropRight
import Mathlib.Data.List.FinRange
import Mathlib.Logic.Function.Basic

/-!
# TCI commands

The text protocol of `tci.rs`: how a message is cut into commands, what a command does to the shared
state and what is echoed, and the sequence a new client is greeted with. The case mapping of the
standard library is a parameter.

## Main definitions

* `TciState`: the audio subscribers, the queue of retunes and the advertised frequencies;
* `parse_vfo_cmd`, `dispatch_cmd`: what a command does;
* `EchoesApplied`: a vfo echo names the frequency that was stored and queued;
* `build_init_sequence`, `advertised`: the greeting, and the frequencies a client reads from it.

## Main results

* `echoesApplied_along_iff`: for which messages every vfo echo names what was applied;
* `advertised_build_init_sequence`: the greeting names the stored frequency of every receiver.
-/

namespace GranolaSdr.Tci

open WsServer (Text isWhitespace stripPrefix)

/-- The number of audio sinks, which TCI calls receivers. -/
def NUM_SINKS : ℕ := 4

instance : NeZero NUM_SINKS := ⟨by decide⟩

/-- A receiver. -/
abbrev Sink := Fin NUM_SINKS

/-- The number of a connection. -/
abbrev ConnectionId := ℕ

/-- The frequencies before the first retune, in Hz. -/
def DEFAULT_VFO_HZ : Sink → ℕ := ![14_074_000, 7_074_000, 3_573_000, 28_074_000]

/-- What the connections share. -/
structure TciState where
  /-- The connections that hear the audio of a receiver. -/
  audio_subs : Sink → List ConnectionId
  /-- The retunes the channelizer has not yet taken. -/
  vfo_queue : List (Sink × ℕ)
  /-- The frequency of each receiver that clients are told, in Hz. -/
  vfo_freqs : Sink → ℕ

/-- The state the server starts in. -/
def TciState.new : TciState where
  audio_subs _ := []
  vfo_queue := []
  vfo_freqs := DEFAULT_VFO_HZ

/-! ## Texts -/

/-- `str::trim` -/
def trim (text : Text) : Text := (text.dropWhile isWhitespace).rdropWhile isWhitespace

/-- `str::splitn`: the pieces between separators, the last of at most `n` with the rest. -/
def splitn : ℕ → Char → Text → List Text
  | 0, _, _ => []
  | 1, _, text => [text]
  | n + 2, sep, text =>
    match text.dropWhile (· ≠ sep) with
    | [] => [text]
    | _ :: rest => text.takeWhile (· ≠ sep) :: splitn (n + 1) sep rest

/-- `str::parse` for the unsigned integers of some width: digits after an optional plus sign. -/
def parse (bits : ℕ) (text : Text) : Option ℕ :=
  let digits := (stripPrefix ['+'] text).getD text
  let value := Nat.ofDigitChars 10 digits 0
  if digits ≠ [] ∧ digits.all Char.isDigit ∧ value < 2 ^ bits then some value else none

/-- How a number is formatted. -/
def decimal (n : ℕ) : Text := Nat.toDigits 10 n

/-- `Ord::clamp` -/
def clamp (n low high : ℕ) : ℕ := if n < low then low else if high < n then high else n

theorem clamp_eq_self_iff {n low high : ℕ} : clamp n low high = n ↔ low ≤ n ∧ n ≤ high := by
  unfold clamp
  split_ifs <;> omega

theorem clamp_le {n low high : ℕ} (h : low ≤ high) : clamp n low high ≤ high := by
  unfold clamp
  split_ifs <;> omega

/-! ## Commands -/

/-- The commands of a message, as `handle_connection` cuts it. -/
def commands (text : Text) : List Text := ((text.splitOn ';').map trim).filter (· ≠ [])

namespace TciState

/-- `subscribe_audio` -/
def subscribe_audio (state : TciState) (conn_id : ConnectionId) (trx : ℕ) : TciState :=
  if h : trx < NUM_SINKS then
    let subs := state.audio_subs ⟨trx, h⟩
    if conn_id ∈ subs then state
    else
      { state with audio_subs := Function.update state.audio_subs ⟨trx, h⟩ (subs ++ [conn_id]) }
  else state

/-- `unsubscribe_audio` -/
def unsubscribe_audio (state : TciState) (conn_id : ConnectionId) (trx : ℕ) : TciState :=
  if h : trx < NUM_SINKS then
    let subs := (state.audio_subs ⟨trx, h⟩).filter (· ≠ conn_id)
    { state with audio_subs := Function.update state.audio_subs ⟨trx, h⟩ subs }
  else state

@[simp]
theorem subscribe_audio_vfo_freqs (state : TciState) (conn_id : ConnectionId) (trx : ℕ) :
    (state.subscribe_audio conn_id trx).vfo_freqs = state.vfo_freqs := by
  unfold subscribe_audio
  dsimp only
  split_ifs <;> rfl

@[simp]
theorem subscribe_audio_vfo_queue (state : TciState) (conn_id : ConnectionId) (trx : ℕ) :
    (state.subscribe_audio conn_id trx).vfo_queue = state.vfo_queue := by
  unfold subscribe_audio
  dsimp only
  split_ifs <;> rfl

@[simp]
theorem unsubscribe_audio_vfo_freqs (state : TciState) (conn_id : ConnectionId) (trx : ℕ) :
    (state.unsubscribe_audio conn_id trx).vfo_freqs = state.vfo_freqs := by
  unfold unsubscribe_audio
  split_ifs <;> rfl

@[simp]
theorem unsubscribe_audio_vfo_queue (state : TciState) (conn_id : ConnectionId) (trx : ℕ) :
    (state.unsubscribe_audio conn_id trx).vfo_queue = state.vfo_queue := by
  unfold unsubscribe_audio
  split_ifs <;> rfl

/-- The frequency of a receiver is stored. -/
def store (state : TciState) (trx : Sink) (freq_hz : ℕ) : TciState :=
  { state with vfo_freqs := Function.update state.vfo_freqs trx freq_hz }

/-- A retune is queued for the channelizer. -/
def push_back (state : TciState) (trx : Sink) (freq_hz : ℕ) : TciState :=
  { state with vfo_queue := state.vfo_queue ++ [(trx, freq_hz)] }

end TciState

/-- The text of the receiver in a vfo command. -/
def trx_str (rest : Text) : Text := trim ((splitn 3 ',' rest).getD 0 [])

/-- The text of the frequency in a vfo command. -/
def freq_str (rest : Text) : Text := trim ((splitn 3 ',' rest).getD 2 [])

/-- The retune a vfo command asks for: the checks of `parse_vfo_cmd`. -/
def vfoTarget (rest : Text) : Option (Sink × ℕ) :=
  match parse 32 (trx_str rest) with
  | none => none
  | some trx =>
    if h : trx < NUM_SINKS then
      match parse 64 (freq_str rest) with
      | none => none
      | some freq_raw => some (⟨trx, h⟩, clamp freq_raw 1_000_000 69_952_000)
    else none

/-- `parse_vfo_cmd` -/
def parse_vfo_cmd (state : TciState) (rest : Text) : TciState :=
  match vfoTarget rest with
  | none => state
  | some (trx, freq_hz) => (state.store trx freq_hz).push_back trx freq_hz

section Dispatch

variable (to_lowercase : Text → Text)

/-- `dispatch_cmd`: the state after a command, and the message handed to `reliable_send`. -/
def dispatch_cmd (cmd : Text) (state : TciState) (conn_id : ConnectionId) :
    TciState × Option Text :=
  let cl := to_lowercase cmd
  match stripPrefix "audio_start:".toList cl with
  | some rest =>
    match parse 32 (trim rest) with
    | some trx =>
      (state.subscribe_audio conn_id trx,
        some ("audio_start:".toList ++ decimal trx ++ ";".toList))
    | none => (state, none)
  | none =>
    match stripPrefix "audio_stop:".toList cl with
    | some rest =>
      match parse 32 (trim rest) with
      | some trx => (state.unsubscribe_audio conn_id trx, none)
      | none => (state, none)
    | none =>
      match stripPrefix "vfo:".toList cl with
      | some rest => (parse_vfo_cmd state rest, some ("vfo:".toList ++ rest ++ ";".toList))
      | none =>
        if "split_enable:".toList.isPrefixOf cl || "modulation:".toList.isPrefixOf cl then
          (state, some (cl ++ ";".toList))
        else (state, none)

/-- The pair of numbers that the text of a vfo command or echo names. -/
def vfoPair (rest : Text) : Option (ℕ × ℕ) :=
  match parse 32 (trx_str rest), parse 64 (freq_str rest) with
  | some trx, some freq => some (trx, freq)
  | _, _ => none

theorem vfoTarget_eq_some_iff {rest : Text} {trx : Sink} {freq_hz : ℕ} :
    vfoTarget rest = some (trx, freq_hz) ↔
      ∃ freq_raw, vfoPair rest = some (trx.val, freq_raw) ∧
        freq_hz = clamp freq_raw 1_000_000 69_952_000 := by
  unfold vfoTarget vfoPair
  cases htrx : parse 32 (trx_str rest) with
  | none => simp
  | some n =>
    cases hfreq : parse 64 (freq_str rest) with
    | none => simp
    | some raw =>
      by_cases hn : n < NUM_SINKS
      · simp [hn, Fin.ext_iff, eq_comm]
      · have hne : n ≠ trx.val := fun h => hn (h ▸ trx.isLt)
        simp [hn, hne]

/-- The stored frequency is at most the limit. -/
theorem le_of_vfoTarget {rest : Text} {trx : Sink} {freq_hz : ℕ}
    (h : vfoTarget rest = some (trx, freq_hz)) : freq_hz ≤ 69_952_000 := by
  obtain ⟨freq_raw, -, rfl⟩ := vfoTarget_eq_some_iff.1 h
  exact clamp_le (by decide)

/-- A vfo command that names a receiver and a frequency within the limits. -/
def InRange (rest : Text) : Prop :=
  ∃ trx freq, vfoPair rest = some (trx, freq) ∧ trx < NUM_SINKS ∧
    1_000_000 ≤ freq ∧ freq ≤ 69_952_000

/-- A vfo echo names a receiver and the frequency that was stored and queued for it. -/
def EchoesApplied (state state' : TciState) (echo : Option Text) : Prop :=
  ∀ rest, echo = some ("vfo:".toList ++ rest ++ ";".toList) →
    ∃ (trx : Sink) (freq : ℕ), vfoPair rest = some (trx.val, freq) ∧
      state'.vfo_freqs trx = freq ∧ state'.vfo_queue = state.vfo_queue ++ [(trx, freq)]

/-- What a vfo command echoes is what it applied exactly if it is in range. -/
theorem echoesApplied_parse_vfo_cmd_iff {rest : Text} {state : TciState} :
    EchoesApplied state (parse_vfo_cmd state rest)
      (some ("vfo:".toList ++ rest ++ ";".toList)) ↔ InRange rest := by
  constructor
  · intro h
    obtain ⟨trx, freq, hpair, -, hqueue⟩ := h rest rfl
    cases htarget : vfoTarget rest with
    | none =>
      rw [parse_vfo_cmd, htarget] at hqueue
      simp at hqueue
    | some target =>
      obtain ⟨trx', freq_hz⟩ := target
      rw [parse_vfo_cmd, htarget] at hqueue
      obtain ⟨rfl, rfl⟩ : trx' = trx ∧ freq_hz = freq := by
        simpa [TciState.push_back, TciState.store] using hqueue
      -- the queued frequency is the clamped one, and the echo names the one before clamping
      obtain ⟨freq_raw, hraw, hclamp⟩ := vfoTarget_eq_some_iff.1 htarget
      obtain rfl : freq_raw = freq_hz := by simpa using hraw.symm.trans hpair
      exact ⟨trx', freq_raw, hpair, trx'.isLt, clamp_eq_self_iff.1 hclamp.symm⟩
  · rintro ⟨trx, freq, hpair, htrx, hlimits⟩ rest' hrest
    obtain rfl : rest = rest' := by simpa using hrest
    have htarget : vfoTarget rest = some (⟨trx, htrx⟩, freq) :=
      vfoTarget_eq_some_iff.2 ⟨freq, hpair, (clamp_eq_self_iff.2 hlimits).symm⟩
    refine ⟨⟨trx, htrx⟩, freq, hpair, ?_, ?_⟩
    · simp [parse_vfo_cmd, htarget, TciState.push_back, TciState.store]
    · simp [parse_vfo_cmd, htarget, TciState.push_back, TciState.store]

/-- A text that starts with another prefix is no vfo echo. -/
theorem ne_vfo_of_prefix {pre text rest : Text} (hpre : pre <+: text)
    (hne : pre.head? ≠ some 'v') (hnil : pre ≠ []) :
    text ≠ "vfo:".toList ++ rest := by
  rintro rfl
  cases pre with
  | nil => exact hnil rfl
  | cons c pre =>
    obtain ⟨rfl, -⟩ := List.cons_prefix_cons.1 hpre
    exact hne rfl

theorem dispatch_cmd_vfo {cmd rest : Text} (h : to_lowercase cmd = "vfo:".toList ++ rest)
    (state : TciState) (conn_id : ConnectionId) :
    dispatch_cmd to_lowercase cmd state conn_id =
      (parse_vfo_cmd state rest, some ("vfo:".toList ++ rest ++ ";".toList)) := by
  have hother : ∀ pre : Text, pre.head? ≠ some 'v' → pre ≠ [] →
      stripPrefix pre ("vfo:".toList ++ rest) = none := by
    intro pre hne hnil
    refine WsServer.stripPrefix_eq_none_iff.2 fun hpre => ?_
    exact ne_vfo_of_prefix hpre hne hnil rfl
  have hvfo : stripPrefix "vfo:".toList ("vfo:".toList ++ rest) = some rest :=
    WsServer.stripPrefix_eq_some_iff.2 rfl
  unfold dispatch_cmd
  simp only [h, hother "audio_start:".toList (by decide) (by decide),
    hother "audio_stop:".toList (by decide) (by decide), hvfo]

/-- A command that is no vfo command leaves the frequencies and the queue as they are and sends no
vfo echo. -/
theorem dispatch_cmd_of_not_vfo {cmd : Text} (h : ∀ rest, to_lowercase cmd ≠ "vfo:".toList ++ rest)
    (state : TciState) (conn_id : ConnectionId) :
    (dispatch_cmd to_lowercase cmd state conn_id).1.vfo_freqs = state.vfo_freqs ∧
      (dispatch_cmd to_lowercase cmd state conn_id).1.vfo_queue = state.vfo_queue ∧
      ∀ rest, (dispatch_cmd to_lowercase cmd state conn_id).2 ≠ some ("vfo:".toList ++ rest) := by
  generalize hd : dispatch_cmd to_lowercase cmd state conn_id = d
  simp only [dispatch_cmd] at hd
  split at hd
  · split at hd
    · subst hd
      -- the echo of a subscription starts with its own name
      refine ⟨by simp, by simp, fun rest hrest => ?_⟩
      rw [Option.some.injEq, List.append_assoc] at hrest
      exact ne_vfo_of_prefix (List.prefix_append _ _) (by decide) (by decide) hrest
    · simp [← hd]
  · split at hd
    · split at hd
      · simp [← hd]
      · simp [← hd]
    · split at hd
      · next rest hrest => exact absurd (WsServer.stripPrefix_eq_some_iff.1 hrest) (h rest)
      · -- the other commands are copied back as they are
        split_ifs at hd with hcopy
        · subst hd
          refine ⟨rfl, rfl, fun rest hrest => ?_⟩
          rw [Bool.or_eq_true, List.isPrefixOf_iff_prefix, List.isPrefixOf_iff_prefix] at hcopy
          rw [Option.some.injEq] at hrest
          rcases hcopy with hpre | hpre
          · exact ne_vfo_of_prefix (hpre.trans (List.prefix_append _ _)) (by decide) (by decide)
              hrest
          · exact ne_vfo_of_prefix (hpre.trans (List.prefix_append _ _)) (by decide) (by decide)
              hrest
        · simp [← hd]

/-- A command echoes what it applied exactly if it is no vfo command out of range. -/
theorem echoesApplied_iff {cmd : Text} {state : TciState} {conn_id : ConnectionId} :
    EchoesApplied state (dispatch_cmd to_lowercase cmd state conn_id).1
        (dispatch_cmd to_lowercase cmd state conn_id).2 ↔
      ∀ rest, to_lowercase cmd = "vfo:".toList ++ rest → InRange rest := by
  by_cases hvfo : ∃ rest, to_lowercase cmd = "vfo:".toList ++ rest
  · obtain ⟨rest, hrest⟩ := hvfo
    rw [dispatch_cmd_vfo to_lowercase hrest, echoesApplied_parse_vfo_cmd_iff, hrest]
    simp
  · have hnot := dispatch_cmd_of_not_vfo to_lowercase (not_exists.1 hvfo) state conn_id
    refine iff_of_true (fun rest hecho => ?_) fun rest hrest => absurd ⟨rest, hrest⟩ hvfo
    rw [List.append_assoc] at hecho
    exact absurd hecho (hnot.2.2 _)

/-- Whatever the state of the server, every vfo echo of a message names the receiver and the
frequency its command stored and queued exactly if every vfo command of the message names a receiver
that exists and a frequency within the limits. -/
theorem echoesApplied_along_iff (text : Text) (state : TciState) (conn_id : ConnectionId) :
    Run.Along (fun s cmd => some (dispatch_cmd to_lowercase cmd s conn_id).1)
        (fun s cmd => EchoesApplied s (dispatch_cmd to_lowercase cmd s conn_id).1
          (dispatch_cmd to_lowercase cmd s conn_id).2) state (commands text) ↔
      ∀ cmd ∈ commands text, ∀ rest, to_lowercase cmd = "vfo:".toList ++ rest → InRange rest := by
  rw [Run.along_congr fun s cmd => echoesApplied_iff to_lowercase]
  exact Run.along_const_iff (fun _ _ => rfl)

end Dispatch

/-- A frequency above the limit is clamped, and echoed as it was sent. -/
theorem clamped_not_echoesApplied :
    commands "vfo:0,0,999999999;".toList = ["vfo:0,0,999999999".toList] ∧
      (dispatch_cmd id "vfo:0,0,999999999".toList TciState.new 0).1.vfo_queue = [(0, 69_952_000)] ∧
      (dispatch_cmd id "vfo:0,0,999999999".toList TciState.new 0).2 =
        some "vfo:0,0,999999999;".toList ∧
      ¬Run.Along (fun s cmd => some (dispatch_cmd id cmd s 0).1)
        (fun s cmd => EchoesApplied s (dispatch_cmd id cmd s 0).1 (dispatch_cmd id cmd s 0).2)
        TciState.new (commands "vfo:0,0,999999999;".toList) := by
  have hcommands : commands "vfo:0,0,999999999;".toList = ["vfo:0,0,999999999".toList] := by decide
  have hpair : vfoPair "0,0,999999999".toList = some (0, 999_999_999) := by decide
  refine ⟨hcommands, by decide, by decide, ?_⟩
  rw [hcommands]
  rintro ⟨h, -⟩
  obtain ⟨trx, freq, hrange, -, -, hle⟩ := (echoesApplied_iff id).1 h "0,0,999999999".toList rfl
  obtain ⟨-, rfl⟩ : 0 = trx ∧ 999_999_999 = freq := by simpa using hpair.symm.trans hrange
  omega

/-! ## The greeting -/

theorem isDigit_of_mem_decimal {n : ℕ} {c : Char} (h : c ∈ decimal n) : c.isDigit :=
  Nat.isDigit_of_mem_toDigits (by decide) (by decide) h

theorem decimal_ne_nil (n : ℕ) : decimal n ≠ [] := Nat.toDigits_ne_nil

/-- A number that fits is read back as it was formatted. -/
theorem parse_decimal {bits n : ℕ} (h : n < 2 ^ bits) : parse bits (decimal n) = some n := by
  have hsign : stripPrefix ['+'] (decimal n) = none := by
    refine WsServer.stripPrefix_eq_none_iff.2 fun hpre => ?_
    have hplus : '+' ∈ decimal n := hpre.subset (List.mem_singleton.2 rfl)
    exact absurd (isDigit_of_mem_decimal hplus) (by decide)
  have hdigits : (decimal n).all Char.isDigit :=
    List.all_eq_true.2 fun c hc => isDigit_of_mem_decimal hc
  have hvalue : Nat.ofDigitChars 10 (decimal n) 0 = n := Nat.ofDigitChars_ten_toDigits
  simp [parse, hsign, hvalue, decimal_ne_nil n, hdigits, h]

theorem splitn_append {piece rest : Text} {sep : Char} (h : sep ∉ piece) (n : ℕ) :
    splitn (n + 2) sep (piece ++ sep :: rest) = piece :: splitn (n + 1) sep rest := by
  have hpiece : ∀ c ∈ piece, decide (c ≠ sep) = true := by
    intro c hc
    simpa using fun hsep : c = sep => h (hsep ▸ hc)
  have hdrop : (piece ++ sep :: rest).dropWhile (· ≠ sep) = sep :: rest := by
    rw [List.dropWhile_append_of_pos hpiece]
    simp
  have htake : (piece ++ sep :: rest).takeWhile (· ≠ sep) = piece := by
    rw [List.takeWhile_append_of_pos hpiece]
    simp
  rw [splitn, hdrop, htake]

theorem plain_of_isDigit {c : Char} (h : c.isDigit) :
    isWhitespace c = false ∧ c ≠ ';' ∧ c ≠ ',' := by
  have hbounds : 48 ≤ c.toNat ∧ c.toNat ≤ 57 := by
    simp only [Char.isDigit, Bool.and_eq_true, decide_eq_true_eq, UInt32.le_iff_toNat_le,
      ge_iff_le] at h
    exact h
  refine ⟨?_, ?_, ?_⟩
  · simp only [isWhitespace, Bool.or_eq_false_iff, Bool.and_eq_false_iff, decide_eq_false_iff_not,
      beq_eq_false_iff_ne]
    omega
  · rintro rfl
    exact absurd h (by decide)
  · rintro rfl
    exact absurd h (by decide)

/-- A text without whitespace and semicolons. -/
def Plain (text : Text) : Prop := ∀ c ∈ text, isWhitespace c = false ∧ c ≠ ';'

instance (text : Text) : Decidable (Plain text) := List.decidableBAll _ text

theorem plain_append {text more : Text} : Plain (text ++ more) ↔ Plain text ∧ Plain more :=
  List.forall_mem_append

theorem plain_decimal (n : ℕ) : Plain (decimal n) := by
  intro c hc
  have hdigit := plain_of_isDigit (isDigit_of_mem_decimal hc)
  exact ⟨hdigit.1, hdigit.2.1⟩

theorem Plain.trim_eq {text : Text} (h : Plain text) : trim text = text := by
  have hfront : text.dropWhile isWhitespace = text := by
    rw [List.dropWhile_eq_self_iff]
    intro hlen
    simpa using (h _ (List.getElem_mem hlen)).1
  rw [trim, hfront, List.rdropWhile_eq_self_iff]
  intro hne
  simpa using (h _ (List.getLast_mem hne)).1

/-- The arguments of a vfo command. -/
def vfoArgs (trx freq : ℕ) : Text := decimal trx ++ ",0,".toList ++ decimal freq

/-- The arguments of a vfo command are read back. -/
theorem vfoPair_vfoArgs {trx freq : ℕ} (htrx : trx < 2 ^ 32) (hfreq : freq < 2 ^ 64) :
    vfoPair (vfoArgs trx freq) = some (trx, freq) := by
  have hcomma : ',' ∉ decimal trx := fun h => (plain_of_isDigit (isDigit_of_mem_decimal h)).2.2 rfl
  have hparts : splitn 3 ',' (vfoArgs trx freq) = [decimal trx, ['0'], decimal freq] := by
    have hargs : vfoArgs trx freq = decimal trx ++ ',' :: (['0'] ++ ',' :: decimal freq) := by
      simp [vfoArgs]
    rw [hargs, splitn_append hcomma, splitn_append (by decide)]
    rfl
  simp only [vfoPair, trx_str, freq_str, hparts, List.getD_cons_zero, List.getD_cons_succ,
    (plain_decimal _).trim_eq, parse_decimal htrx, parse_decimal hfreq]

/-- Commands that are each ended by a semicolon are cut where they end. -/
theorem commands_flatMap {cmds : List Text} (h : ∀ cmd ∈ cmds, cmd ≠ [] ∧ Plain cmd) :
    commands (cmds.flatMap (· ++ [';'])) = cmds := by
  induction cmds with
  | nil => decide
  | cons cmd cmds ih =>
    obtain ⟨⟨hne, hplain⟩, hrest⟩ := List.forall_mem_cons.1 h
    have hsep : ';' ∉ cmd := fun hmem => (hplain _ hmem).2 rfl
    have hcut : (cmd ++ ';' :: cmds.flatMap (· ++ [';'])).splitOn ';' =
        cmd :: (cmds.flatMap (· ++ [';'])).splitOn ';' :=
      List.splitOn_append_cons_self_of_not_mem hsep _
    have hih := ih hrest
    unfold commands at hih ⊢
    rw [List.flatMap_cons, List.append_assoc, List.singleton_append, hcut, List.map_cons,
      hplain.trim_eq, List.filter_cons_of_pos (by simpa using hne), hih]

/-- What the greeting says before it names the frequencies. -/
def initHeader : List Text :=
  ["vfo_limits:1000000,70000000", "if_limits:-24000,24000", "trx_count:4", "channels_count:1",
    "device:GranolaSdr", "receive_only:true", "modulations_list:usb,lsb,cw,am,fm",
    "protocol:GranolaSdr,2.0"].map String.toList

/-- The commands a new client is greeted with. -/
def initCommands (state : TciState) : List Text :=
  initHeader ++
    (List.finRange NUM_SINKS).map (fun trx : Sink =>
      "vfo:".toList ++ vfoArgs trx (state.vfo_freqs trx)) ++
    (List.finRange NUM_SINKS).map (fun trx : Sink =>
      "modulation:".toList ++ decimal trx ++ ",usb".toList) ++
    (List.finRange NUM_SINKS).map (fun trx : Sink =>
      "rx_enable:".toList ++ decimal trx ++ ",true".toList) ++
    ["start".toList]

/-- `build_init_sequence` -/
def build_init_sequence (state : TciState) : Text := (initCommands state).flatMap (· ++ [';'])

theorem initCommands_plain {state : TciState} :
    ∀ cmd ∈ initCommands state, cmd ≠ [] ∧ Plain cmd := by
  have hheader : ∀ cmd ∈ initHeader, cmd ≠ [] ∧ Plain cmd := by decide +kernel
  intro cmd hcmd
  simp only [initCommands, List.mem_append, List.mem_map, List.mem_singleton] at hcmd
  rcases hcmd with (((hcmd | ⟨trx, -, rfl⟩) | ⟨trx, -, rfl⟩) | ⟨trx, -, rfl⟩) | rfl
  · exact hheader cmd hcmd
  · refine ⟨by simp, ?_⟩
    simp only [vfoArgs, plain_append, plain_decimal]
    decide +kernel
  · refine ⟨by simp, ?_⟩
    simp only [plain_append, plain_decimal]
    decide +kernel
  · refine ⟨by simp, ?_⟩
    simp only [plain_append, plain_decimal]
    decide +kernel
  · decide +kernel

/-- The receivers and frequencies a client reads from a text. -/
def advertised (text : Text) : List (ℕ × ℕ) :=
  (commands text).filterMap fun cmd => (stripPrefix "vfo:".toList cmd).bind vfoPair

/-- The greeting names the stored frequency of every receiver. -/
theorem advertised_build_init_sequence {state : TciState}
    (h : ∀ trx, state.vfo_freqs trx < 2 ^ 64) :
    advertised (build_init_sequence state) =
      (List.finRange NUM_SINKS).map fun trx => (trx.val, state.vfo_freqs trx) := by
  have hvfo : ∀ trx : Sink, (stripPrefix "vfo:".toList
      ("vfo:".toList ++ vfoArgs trx (state.vfo_freqs trx))).bind vfoPair =
        some (trx.val, state.vfo_freqs trx) := by
    intro trx
    rw [WsServer.stripPrefix_eq_some_iff.2 rfl, Option.bind_some]
    exact vfoPair_vfoArgs (trx.isLt.trans (by decide)) (h trx)
  -- no other command of the greeting starts like a vfo command
  have hother : ∀ pre text : Text, pre.head? ≠ some 'v' → pre ≠ [] →
      (stripPrefix "vfo:".toList (pre ++ text)).bind vfoPair = none := by
    intro pre text hne hnil
    rw [WsServer.stripPrefix_eq_none_iff.2, Option.bind_none]
    rintro ⟨rest, hrest⟩
    exact ne_vfo_of_prefix (List.prefix_append _ _) hne hnil hrest.symm
  have hheader : initHeader.filterMap
      (fun cmd => (stripPrefix "vfo:".toList cmd).bind vfoPair) = [] := by decide +kernel
  have hstart : ["start".toList].filterMap
      (fun cmd => (stripPrefix "vfo:".toList cmd).bind vfoPair) = [] := by decide +kernel
  unfold advertised build_init_sequence
  rw [commands_flatMap initCommands_plain, initCommands]
  have hmodulation := List.filterMap_eq_nil_iff.2 fun trx (_ : trx ∈ List.finRange NUM_SINKS) =>
    hother "modulation:".toList (decimal trx ++ ",usb".toList) (by decide) (by decide)
  have henable := List.filterMap_eq_nil_iff.2 fun trx (_ : trx ∈ List.finRange NUM_SINKS) =>
    hother "rx_enable:".toList (decimal trx ++ ",true".toList) (by decide) (by decide)
  simp only [List.filterMap_append, List.filterMap_map, Function.comp_def, List.append_assoc,
    hheader, hstart, hmodulation, henable, hvfo, List.filterMap_eq_map', List.nil_append,
    List.append_nil]

end GranolaSdr.Tci
