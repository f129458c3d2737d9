import GranolaSdr.Js8.Message

/-!
# JS8 frames with a compound callsign

Heartbeat, compound and compound-directed frames carry one callsign, packed with eleven slots into
50 bits, and a 16-bit value split over two fields. In a heartbeat the value is a flag and a grid.
In the other two a value from 32410 on is a command: the flag of a signal report, the type of the
report, and a 6-bit number.

`decodeJs8Message` looks a command up by its low 5 bits only. A signal report is decoded to the
command whose code is its number modulo 32.

## Main results

* `decodeJs8Message_heartbeat`: a heartbeat is decoded to its callsign and grid, and distinct
  values give distinct grids;
* `decodeJs8Message_namesCommand_iff`: the command values that are decoded to the command they
  stand for.
-/

namespace GranolaSdr.Js8

/-- A callsign in the 50-bit packing, given by the indices of its slots in `kCallAlpha`. The slots
3 and 7 hold a slash or a blank. -/
structure CompoundCall where
  i₀ : Fin 39
  i₁ : Fin 38
  i₂ : Fin 38
  slash₃ : Bool
  i₄ : Fin 38
  i₅ : Fin 38
  i₆ : Fin 38
  slash₇ : Bool
  i₈ : Fin 38
  i₉ : Fin 38
  i₁₀ : Fin 38

namespace CompoundCall

/-- The character of a slash slot. -/
def slashOrBlank (slash : Bool) : Char := if slash then '/' else ' '

/-- The eleven characters of a callsign. -/
def chars (call : CompoundCall) : List Char :=
  [callAlpha call.i₀, callAlpha call.i₁, callAlpha call.i₂, slashOrBlank call.slash₃,
    callAlpha call.i₄, callAlpha call.i₅, callAlpha call.i₆, slashOrBlank call.slash₇,
    callAlpha call.i₈, callAlpha call.i₉, callAlpha call.i₁₀]

/-- The callsign with its blanks removed. -/
def name (call : CompoundCall) : List Char := call.chars.filter (· ≠ ' ')

/-- The radices of the slots, last slot first. -/
def radices : List ℕ := [38, 38, 38, 2, 38, 38, 38, 2, 38, 38, 39]

/-- The indices of the slots, last slot first. -/
def digits (call : CompoundCall) : List ℕ :=
  [call.i₁₀, call.i₉, call.i₈, call.slash₇.toNat, call.i₆, call.i₅, call.i₄, call.slash₃.toNat,
    call.i₂, call.i₁, call.i₀]

theorem digits_valid (call : CompoundCall) : MixedRadix.Valid radices call.digits := by
  simp only [radices, digits, MixedRadix.Valid, List.forall₂_cons, Fin.is_lt, Bool.toNat_lt,
    List.forall₂_nil_left_iff, and_self]

/-- The 50-bit packed value of a callsign. -/
def pack (call : CompoundCall) : ℕ := MixedRadix.pack radices call.digits

theorem pack_lt (call : CompoundCall) : call.pack < 2 ^ 50 :=
  (MixedRadix.pack_lt call.digits_valid).trans (by decide)

theorem slashOrBlank_eq (slash : Bool) :
    (if slash.toNat = 0 then ' ' else '/') = slashOrBlank slash := by
  cases slash <;> rfl

end CompoundCall

open CompoundCall

/-- A packed compound callsign is unpacked to its characters other than blanks. -/
theorem unpackCallsign50_pack (call : CompoundCall) : unpackCallsign50 call.pack = call.name := by
  have hdigits := MixedRadix.unpack_pack call.digits_valid
  simp only [radices, digits, MixedRadix.unpack, List.cons.injEq, and_true] at hdigits
  obtain ⟨h₁₀, h₉, h₈, h₇, h₆, h₅, h₄, h₃, h₂, h₁, h₀⟩ := hdigits
  rw [unpackCallsign50, name, chars]
  simp only [pack, radices, digits, h₁₀, h₉, h₈, h₇, h₆, h₅, h₄, h₃, h₂, h₁, h₀, slashOrBlank_eq]

/-! ## Frames -/

/-- The fields of a frame with a compound callsign: the frame type, the callsign, the 16-bit value
in two parts, three further bits and the type bits. -/
def compoundFields (flag : Fin 3) (call : CompoundCall) (num : Fin 65536) (bits3 : Fin 8)
    (typ : Fin 4) : List (ℕ × ℕ) :=
  [(3, flag), (50, call.pack), (11, num / 32), (5, num % 32), (3, bits3), (3, typ)]

/-- The information bits of such a frame, with its 12 checksum bits. -/
def compoundFrame (flag : Fin 3) (call : CompoundCall) (num : Fin 65536) (bits3 : Fin 8)
    (typ : Fin 4) (crc : Vector Bool 12) : List Bool :=
  BitField.encode (compoundFields flag call num bits3 typ) ++ crc.toList

/-! ## Grids -/

/-- The four-character Maidenhead locator of a longitude cell and a latitude cell, both counted
from 0: the letters of the fields, then the digits of the squares. -/
def locator (lon lat : ℕ) : List Char :=
  [Char.ofNat ('A'.toNat + lon / 10), Char.ofNat ('A'.toNat + lat / 10),
    Char.ofNat ('0'.toNat + lon % 10), Char.ofNat ('0'.toNat + lat % 10)]

/-- The grid of a packed value. The longitude cells are counted downwards. -/
def grid (v : Fin 32400) : List Char := locator (179 - v / 180) (v % 180)

theorem unpackGrid_eq_grid (v : Fin 32400) : unpackGrid v = grid v := by
  have hv := v.isLt
  have hlong : ¬((v / 180 * 2 : ℕ) : ℤ) + 2 - 180 < -180 := by omega
  have hlong' : ¬180 < ((v / 180 * 2 : ℕ) : ℤ) + 2 - 180 := by omega
  have hnlong : (60 * (180 - (((v / 180 * 2 : ℕ) : ℤ) + 2 - 180)) / 5).toNat =
      24 * (179 - v / 180) := by omega
  have hnlat : (60 * (((v % 180 : ℕ) : ℤ) - 90 + 90) * 2 / 5).toNat = 24 * (v % 180) := by omega
  rw [unpackGrid, if_neg (Nat.not_le.2 hv)]
  simp only [if_neg hlong, if_neg hlong', hnlong, hnlat, grid, locator]
  have hdiv : ∀ n, 24 * n / 240 = n / 10 := fun n => by omega
  have hmod : ∀ n, 24 * n % 240 / 24 = n % 10 := fun n => by omega
  rw [hdiv, hdiv, hmod, hmod]

/-- The letters of the fields are distinct, and so are the digits of the squares. -/
theorem locator_char_inj :
    (∀ a b : Fin 18, Char.ofNat ('A'.toNat + a) = Char.ofNat ('A'.toNat + b) → a = b) ∧
      ∀ a b : Fin 10, Char.ofNat ('0'.toNat + a) = Char.ofNat ('0'.toNat + b) → a = b := by
  decide

/-- A locator determines its cells. -/
theorem locator_inj {lon lat lon' lat' : ℕ} (hlon : lon < 180) (hlat : lat < 180)
    (hlon' : lon' < 180) (hlat' : lat' < 180) (h : locator lon lat = locator lon' lat') :
    lon = lon' ∧ lat = lat' := by
  have hcell : ∀ a b, a < 180 → b < 180 →
      Char.ofNat ('A'.toNat + a / 10) = Char.ofNat ('A'.toNat + b / 10) →
      Char.ofNat ('0'.toNat + a % 10) = Char.ofNat ('0'.toNat + b % 10) → a = b := by
    intro a b ha hb hletter hdigit
    have hdiv := Fin.ext_iff.1
      (locator_char_inj.1 ⟨a / 10, by omega⟩ ⟨b / 10, by omega⟩ hletter)
    have hmod := Fin.ext_iff.1
      (locator_char_inj.2 ⟨a % 10, by omega⟩ ⟨b % 10, by omega⟩ hdigit)
    simp only at hdiv hmod
    omega
  simp only [locator, List.cons.injEq, and_true] at h
  obtain ⟨h₁, h₂, h₃, h₄⟩ := h
  exact ⟨hcell lon lon' hlon hlon' h₁ h₃, hcell lat lat' hlat hlat' h₂ h₄⟩

theorem grid_injective : Function.Injective grid := by
  intro v v' h
  have hv := v.isLt
  have hv' := v'.isLt
  obtain ⟨hlon, hlat⟩ := locator_inj (by omega) (Nat.mod_lt _ (by decide)) (by omega)
    (Nat.mod_lt _ (by decide)) h
  refine Fin.ext ?_
  omega

theorem grid_ne_nil (v : Fin 32400) : grid v ≠ [] := List.cons_ne_nil _ _

/-! ## Heartbeats -/

/-- The value of a heartbeat: the flag of the alternate text and the grid. -/
def heartbeatValue (alt : Bool) (v : Fin 32400) : Fin 65536 :=
  ⟨alt.toNat * 32768 + v, by have := alt.toNat_le; omega⟩

/-- The text of a heartbeat, by its callsign and grid. -/
def heartbeatText (cs : List Char) (alt : Bool) (grid : List Char) : List Char :=
  cs ++ ": ".toList ++ (if alt then "@ALLCALL CQ " else "@HB HEARTBEAT ").toList ++ grid ++ [' ']

theorem heartbeatValue_alt (alt : Bool) (v : Fin 32400) :
    (heartbeatValue alt v : ℕ) >>> 15 &&& 1 = alt.toNat := by
  have hv := v.isLt
  have hlt := alt.toNat_lt
  simp only [heartbeatValue, Nat.and_one_is_mod, Nat.shiftRight_eq_div_pow]
  omega

theorem heartbeatValue_grid (alt : Bool) (v : Fin 32400) :
    (heartbeatValue alt v : ℕ) &&& 0x7FFF = v := by
  have hv := v.isLt
  have hmask : ∀ n : ℕ, n &&& 0x7FFF = n % 32768 := fun n => Nat.and_two_pow_sub_one_eq_mod n 15
  simp only [heartbeatValue, hmask]
  omega

/-! ## Commands -/

/-- The value of a command: from 32410 on, the flag of a signal report, the type of the report and
a 6-bit number. -/
def commandValue (snr type : Bool) (number : Fin 64) : Fin 65536 :=
  ⟨32410 + (snr.toNat * 128 + type.toNat * 64 + number), by
    have := snr.toNat_le
    have := type.toNat_le
    omega⟩

/-- The type of a frame with a command: compound, or compound-directed. -/
def commandFlag (directed : Bool) : Fin 3 := if directed then 2 else 1

/-- The text before the command in a compound or compound-directed frame. -/
def commandLead (directed : Bool) (cs : List Char) : List Char :=
  cs ++ if directed then ":".toList else ": ".toList

/-- The command of a signal report. -/
def reportCmd (type : Bool) : List Char := (if type then " HEARTBEAT SNR" else " SNR").toList

/-- The command that a value stands for: a signal report, or the command with the code in the low
7 bits, if there is one. -/
def documentedCmd (snr type : Bool) (number : Fin 64) : Option (List Char) :=
  if snr then some (reportCmd type)
  else kDirCmds[type.toNat * 64 + number]?.map String.toList

/-- A text names a command: the command stands behind the lead, followed at most by a report. -/
def NamesCommand (lead cmd text : List Char) : Prop :=
  text = lead ++ cmd ++ [' '] ∨ ∃ n : ℤ, text = lead ++ cmd ++ ' ' :: formatInt true n ++ [' ']

theorem commandValue_bounds (snr type : Bool) (number : Fin 64) :
    32410 ≤ (commandValue snr type number : ℕ) ∧ (commandValue snr type number : ℕ) < 32767 := by
  have := snr.toNat_le
  have := type.toNat_le
  simp only [commandValue]
  omega

/-- The flag and the type of a report lie above the bits that select the command. -/
theorem commandValue_low (snr type : Bool) (number : Fin 64) :
    ((commandValue snr type number : ℕ) - 32410) &&& 0x1F = number % 32 := by
  have hmask : ∀ n : ℕ, n &&& 0x1F = n % 32 := fun n => Nat.and_two_pow_sub_one_eq_mod n 5
  simp only [commandValue, hmask]
  omega

theorem dirCmd_ne_nil {i : ℕ} (h : i < 32) : dirCmd i ≠ [] := by
  revert i
  decide

/-- A value that is no signal report is decoded to the command with its code. -/
theorem namesCommand_of_code {lead cmd : List Char} {type : Bool} {number : Fin 64}
    (h : cmd ∈ documentedCmd false type number) :
    NamesCommand lead cmd (lead ++ dirCmd (number % 32) ++ [' ']) := by
  obtain ⟨entry, hentry, rfl⟩ := Option.map_eq_some_iff.1 h
  obtain ⟨hcode, hget⟩ := List.getElem?_eq_some_iff.1 hentry
  have hcode32 : type.toNat * 64 + number < 32 := hcode
  have htype : type.toNat = 0 := by omega
  have hnumber : type.toNat * 64 + number = number % 32 := by omega
  refine .inl ?_
  rw [dirCmd, ← hnumber, List.getD_eq_getElem?_getD, hentry, Option.getD_some]

/-- The table names a command by one code only, when no entry holds the command and a blank. -/
theorem namesCommand_iff {cmd : List Char} {k : ℕ} (hk : dirCmd k = cmd)
    (huniq : ∀ i < 32, dirCmd i = cmd → i = k)
    (hblank : ∀ i < 32, ¬cmd ++ [' '] <+: dirCmd i) {i : ℕ} (hi : i < 32) (lead : List Char) :
    NamesCommand lead cmd (lead ++ dirCmd i ++ [' ']) ↔ i = k := by
  constructor
  · rintro (h | ⟨n, h⟩)
    · exact huniq i hi (List.append_cancel_left (List.append_cancel_right h))
    · -- the blank before the report would belong to the entry of the table
      rw [List.append_assoc lead cmd] at h
      have hentry := List.append_cancel_left (List.append_cancel_right h)
      exact absurd ⟨formatInt true n, by rw [hentry]; simp⟩ (hblank i hi)
  · rintro rfl
    rw [hk]
    exact .inl rfl

theorem namesCommand_reportCmd_iff {i : ℕ} (hi : i < 32) (lead : List Char) (type : Bool) :
    NamesCommand lead (reportCmd type) (lead ++ dirCmd i ++ [' ']) ↔
      i = if type then 29 else 25 := by
  cases type
  · exact namesCommand_iff (by decide) (by decide) (by decide) hi lead
  · exact namesCommand_iff (by decide) (by decide) (by decide) hi lead

section Compound

variable (jsc_map : Fin Jsc.kJscSize → List Char) (call : CompoundCall) (bits3 : Fin 8)
  (typ : Fin 4) (crc : Vector Bool 12)

/-- The fields that `decodeJs8Message` reads from a frame with a compound callsign. -/
theorem bits_to_int_compoundFrame (flag : Fin 3) (num : Fin 65536) :
    let info := compoundFrame flag call num bits3 typ crc
    bits_to_int info 72 3 &&& 4 = 0 ∧ bits_to_int info 0 3 = flag ∧
      bits_to_int info 3 50 = call.pack ∧
        bits_to_int info 53 11 <<< 5 ||| bits_to_int info 64 5 = num := by
  intro info
  have hfield : ∀ i : Fin 6, _ := fun i =>
    bits_to_int_encode (compoundFields flag call num bits3 typ) crc.toList i.isLt
  have htype : bits_to_int info 72 3 = typ % 8 := hfield 5
  have hflag : bits_to_int info 0 3 = flag % 8 := hfield 0
  have hcall : bits_to_int info 3 50 = call.pack % 2 ^ 50 := hfield 1
  have hhigh : bits_to_int info 53 11 = num / 32 % 2 ^ 11 := hfield 2
  have hlow : bits_to_int info 64 5 = num % 32 % 2 ^ 5 := hfield 3
  refine ⟨htype ▸ typ_and_four typ, ?_, ?_, ?_⟩
  · rw [hflag]
    exact Nat.mod_eq_of_lt (flag.isLt.trans (by decide))
  · rw [hcall]
    exact Nat.mod_eq_of_lt call.pack_lt
  · -- the number is split over the two last fields, eleven bits and five
    have hnum := num.isLt
    rw [hhigh, hlow, ← Nat.shiftLeft_add_eq_or_of_lt (Nat.mod_lt _ (by decide)), Nat.shiftLeft_eq]
    omega

/-- A heartbeat is decoded to its callsign, the text of its flag and its grid. -/
theorem decodeJs8Message_heartbeatFrame (hcall : call.name ≠ []) (alt : Bool) (v : Fin 32400) :
    decodeJs8Message jsc_map (compoundFrame 0 call (heartbeatValue alt v) bits3 typ crc) =
      ⟨heartbeatText call.name alt (grid v), some call.name⟩ := by
  have hfields := bits_to_int_compoundFrame call bits3 typ crc 0 (heartbeatValue alt v)
  generalize compoundFrame 0 call (heartbeatValue alt v) bits3 typ crc = info at *
  obtain ⟨htype, hflag, hcs, hnum⟩ := hfields
  have hempty : call.name.isEmpty = false := by simpa using hcall
  have hgrid : (grid v).isEmpty = false := by simpa using grid_ne_nil v
  rw [decodeJs8Message]
  simp only [htype, hflag, hcs, hnum, unpackCallsign50_pack, hempty, heartbeatValue_alt,
    heartbeatValue_grid, unpackGrid_eq_grid, hgrid, heartbeatText]
  cases alt
  · simp
  · simp

/-- A compound or compound-directed frame whose value is a command is decoded to its callsign and
the command with the low 5 bits of the value. -/
theorem decodeJs8Message_commandFrame (hcall : call.name ≠ []) (directed snr type : Bool)
    (number : Fin 64) :
    decodeJs8Message jsc_map
        (compoundFrame (commandFlag directed) call (commandValue snr type number) bits3 typ crc) =
      ⟨commandLead directed call.name ++ dirCmd (number % 32) ++ [' '], some call.name⟩ := by
  have hfields := bits_to_int_compoundFrame call bits3 typ crc (commandFlag directed)
    (commandValue snr type number)
  generalize compoundFrame (commandFlag directed) call (commandValue snr type number) bits3 typ
    crc = info at *
  obtain ⟨htype, hflag, hcs, hnum⟩ := hfields
  have hempty : call.name.isEmpty = false := by simpa using hcall
  obtain ⟨hle, hlt⟩ := commandValue_bounds snr type number
  -- a command's value is above those of the grid squares
  have hgrid : ¬(commandValue snr type number : ℕ) ≤ 32400 := by omega
  have hlow := commandValue_low snr type number
  have hne := dirCmd_ne_nil (Nat.mod_lt number (by decide : 0 < 32))
  rw [decodeJs8Message]
  cases directed
  · simp [htype, hflag, hcs, hnum, unpackCallsign50_pack, hempty, hle, hlt, hgrid, hlow, hne,
      commandLead, commandFlag]
  · simp [htype, hflag, hcs, hnum, unpackCallsign50_pack, hempty, hle, hlow, commandLead,
      commandFlag]

/-- A heartbeat is decoded to its callsign and its grid, from every value with a grid, and distinct
values have distinct grids. -/
theorem decodeJs8Message_heartbeat (hcall : call.name ≠ []) :
    (∀ (alt : Bool) (v : Fin 32400),
      decodeJs8Message jsc_map (compoundFrame 0 call (heartbeatValue alt v) bits3 typ crc) =
        ⟨heartbeatText call.name alt (grid v), some call.name⟩) ∧
    Function.Injective grid :=
  ⟨decodeJs8Message_heartbeatFrame jsc_map call bits3 typ crc hcall, grid_injective⟩

/-- A command value is decoded to the command it stands for exactly when it is no signal report,
or when the number of the report happens to end in the code of its own command. -/
theorem decodeJs8Message_namesCommand_iff (hcall : call.name ≠ []) (directed snr type : Bool)
    (number : Fin 64) :
    (∀ cmd ∈ documentedCmd snr type number,
      NamesCommand (commandLead directed call.name) cmd
        (decodeJs8Message jsc_map
          (compoundFrame (commandFlag directed) call (commandValue snr type number) bits3 typ
            crc)).text) ↔
      snr = false ∨ (number : ℕ) % 32 = if type then 29 else 25 := by
  rw [decodeJs8Message_commandFrame jsc_map call bits3 typ crc hcall]
  have hlt : (number : ℕ) % 32 < 32 := Nat.mod_lt _ (by decide)
  cases snr with
  | false => exact iff_of_true (fun cmd hcmd => namesCommand_of_code hcmd) (.inl rfl)
  | true =>
    rw [← namesCommand_reportCmd_iff hlt (commandLead directed call.name) type]
    constructor
    · exact fun h => .inr (h _ rfl)
    · rintro (hsnr | h) cmd hcmd
      · cases hsnr
      · obtain rfl := Option.some.inj hcmd
        exact h

end Compound

/-- `K1ABC`, with blanks in the slots it does not need. -/
def k1abc : CompoundCall := ⟨20, 1, 10, false, 11, 12, 36, false, 36, 36, 36⟩

/-- `K1ABC` sends a heartbeat from the first grid. -/
theorem decodeJs8Message_heartbeat_k1abc :
    decodeJs8Message (fun _ => [])
        (compoundFrame 0 k1abc (heartbeatValue false 0) 0 0 (Vector.replicate 12 false)) =
      ⟨heartbeatText k1abc.name false (grid 0), some k1abc.name⟩ ∧ Function.Injective grid := by
  have h := decodeJs8Message_heartbeat (fun _ => []) k1abc 0 0 (Vector.replicate 12 false)
    (by decide)
  exact ⟨h.1 false 0, h.2⟩

/-- `K1ABC` reports a signal with the number 21: the text names `RR`. -/
theorem decodeJs8Message_snr_k1abc :
    (decodeJs8Message (fun _ => [])
        (compoundFrame 1 k1abc (commandValue true false 21) 0 0 (Vector.replicate 12 false))).text =
      "K1ABC:  RR ".toList ∧
    ¬∀ cmd ∈ documentedCmd true false 21,
      NamesCommand (commandLead false k1abc.name) cmd
        (decodeJs8Message (fun _ => [])
          (compoundFrame 1 k1abc (commandValue true false 21) 0 0
            (Vector.replicate 12 false))).text := by
  have htext := decodeJs8Message_commandFrame (fun _ => []) k1abc 0 0 (Vector.replicate 12 false)
    (by decide) false true false 21
  rw [show compoundFrame 1 k1abc = compoundFrame (commandFlag false) k1abc from rfl, htext]
  refine ⟨by decide, fun h => ?_⟩
  exact absurd ((namesCommand_reportCmd_iff (by decide) _ false).1 (h _ rfl)) (by decide)

/-- A report of `K1ABC` whose number is the code of `SNR`. -/
theorem decodeJs8Message_namesCommand_k1abc :
    (∀ cmd ∈ documentedCmd true false 25,
      NamesCommand (commandLead true k1abc.name) cmd
        (decodeJs8Message (fun _ => [])
          (compoundFrame (commandFlag true) k1abc (commandValue true false 25) 0 0
            (Vector.replicate 12 false))).text) ↔
      true = false ∨ ((25 : Fin 64) : ℕ) % 32 = if false then 29 else 25 :=
  decodeJs8Message_namesCommand_iff (fun _ => []) k1abc 0 0 (Vector.replicate 12 false) (by decide)
    true true false 25

end GranolaSdr.Js8
