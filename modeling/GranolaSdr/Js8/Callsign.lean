import GranolaSdr.Lib.MixedRadix
import Mathlib.Data.List.DropRight

/-!
# JS8 callsign and grid packing

The packed fields of a JS8 frame: 28-bit callsigns, 50-bit compound callsigns and 15-bit grids.
Text is a list of characters, as the source's `std::string`.

## Main results

* `unpackCallsign28_pack`: the text of a packed standard callsign is the callsign without its
  trailing blanks;
* `unpackCallsign28_pack_eq_name_iff`: it is the callsign without any blank exactly when the
  callsign does not start with a blank.
-/

namespace GranolaSdr.Js8

/-- The callsign alphabet: `0`-`9`, `A`-`Z`, blank, `/`, `@`. -/
def kCallAlpha : List Char := "0123456789ABCDEFGHIJKLMNOPQRSTUVWXYZ /@".toList

/-- `kCallAlpha[i]`; the C string ends with a zero character. -/
def callAlpha (i : ℕ) : Char := kCallAlpha.getD i '\x00'

/-- The number of standard callsigns, `37 * 36 * 10 * 27 * 27 * 27`. Packed values from here on
are group callsigns. -/
def kNBasecall : ℕ := 262177560

/-- The group callsigns, by their offset from `kNBasecall`. -/
def kBasecalls : List (Option String) :=
  [none, some "<....>", some "@ALLCALL", some "@JS8NET", some "@DX/NA", some "@DX/SA",
    some "@DX/EU", some "@DX/AS", some "@DX/AF", some "@DX/OC", some "@DX/AN",
    some "@REGION/1", some "@REGION/2", some "@REGION/3", some "@GROUP/0", some "@GROUP/1",
    some "@GROUP/2", some "@GROUP/3", some "@GROUP/4", some "@GROUP/5", some "@GROUP/6",
    some "@GROUP/7", some "@GROUP/8", some "@GROUP/9", some "@COMMAND", some "@CONTROL",
    some "@NET", some "@NTS", some "@RESERVE/0", some "@RESERVE/1", some "@RESERVE/2",
    some "@RESERVE/3", some "@RESERVE/4", some "@APRSIS", some "@RAGCHEW", some "@JS8",
    some "@EMCOMM", some "@ARES", some "@MARS", some "@AMRRON", some "@RACES", some "@RAYNET",
    some "@RADAR", some "@SKYWARN", some "@CQ", some "@HB", some "@QSO", some "@QSOPARTY"]

/-- Unpack a 28-bit value to a standard or group callsign. -/
def unpackCallsign28 (v : ℕ) : List Char :=
  if kNBasecall ≤ v then
    match (kBasecalls.getD (v - kNBasecall) none) with
    | some call => call.toList
    | none => "<unknown>".toList
  else
    let w₅ := callAlpha (v % 27 + 10)
    let v := v / 27
    let w₄ := callAlpha (v % 27 + 10)
    let v := v / 27
    let w₃ := callAlpha (v % 27 + 10)
    let v := v / 27
    let w₂ := callAlpha (v % 10)
    let v := v / 10
    let w₁ := callAlpha (v % 36)
    let v := v / 36
    let w₀ := callAlpha (v % 37)
    [w₀, w₁, w₂, w₃, w₄, w₅].rdropWhile (· = ' ')

/-- Unpack a 50-bit value to a compound callsign; every blank is dropped. -/
def unpackCallsign50 (v : ℕ) : List Char :=
  let w₁₀ := callAlpha (v % 38)
  let v := v / 38
  let w₉ := callAlpha (v % 38)
  let v := v / 38
  let w₈ := callAlpha (v % 38)
  let v := v / 38
  let w₇ := if v % 2 = 0 then ' ' else '/'
  let v := v / 2
  let w₆ := callAlpha (v % 38)
  let v := v / 38
  let w₅ := callAlpha (v % 38)
  let v := v / 38
  let w₄ := callAlpha (v % 38)
  let v := v / 38
  let w₃ := if v % 2 = 0 then ' ' else '/'
  let v := v / 2
  let w₂ := callAlpha (v % 38)
  let v := v / 38
  let w₁ := callAlpha (v % 38)
  let v := v / 38
  let w₀ := callAlpha (v % 39)
  [w₀, w₁, w₂, w₃, w₄, w₅, w₆, w₇, w₈, w₉, w₁₀].filter (· ≠ ' ')

/-- Convert a packed grid value to a four-character locator; empty from 32400 on. The source
computes in `float`, exactly: every intermediate value is a small integer. -/
def unpackGrid (v : ℕ) : List Char :=
  if 32400 ≤ v then []
  else
    let dlat : ℤ := (v % 180 : ℕ) - 90
    let dlong : ℤ := (v / 180 * 2 : ℕ) + 2 - 180
    let dlong := if dlong < -180 then dlong + 360 else dlong
    let dlong := if 180 < dlong then dlong - 360 else dlong
    let nlong := (60 * (180 - dlong) / 5).toNat
    let nlat := (60 * (dlat + 90) * 2 / 5).toNat
    [Char.ofNat ('A'.toNat + nlong / 240), Char.ofNat ('A'.toNat + nlat / 240),
      Char.ofNat ('0'.toNat + nlong % 240 / 24), Char.ofNat ('0'.toNat + nlat % 240 / 24)]

/-! ## Standard callsigns -/

/-- A standard callsign in the 28-bit packing: six positions, given by their indices in the
position's alphabet. The first position is alphanumeric or blank (36), the second alphanumeric,
the third a digit, and the last three are letters or trailing blanks (26). -/
structure StdCall where
  i₀ : Fin 37
  i₁ : Fin 36
  i₂ : Fin 10
  i₃ : Fin 27
  i₄ : Fin 27
  i₅ : Fin 27
  /-- A blank in the fourth position is followed by blanks only. -/
  trailing₄ : i₃ = 26 → i₄ = 26
  /-- A blank in the fifth position is followed by a blank. -/
  trailing₅ : i₄ = 26 → i₅ = 26

namespace StdCall

/-- The alphabet of the first two positions. -/
def alphanumericBlank : List Char := "0123456789ABCDEFGHIJKLMNOPQRSTUVWXYZ ".toList

/-- The alphabet of the last three positions. -/
def letterBlank : List Char := "ABCDEFGHIJKLMNOPQRSTUVWXYZ ".toList

/-- The six characters of a callsign. -/
def chars (call : StdCall) : List Char :=
  [alphanumericBlank.getD call.i₀ ' ', alphanumericBlank.getD call.i₁ ' ',
    alphanumericBlank.getD call.i₂ ' ', letterBlank.getD call.i₃ ' ',
    letterBlank.getD call.i₄ ' ', letterBlank.getD call.i₅ ' ']

/-- The callsign with no blanks inside or around it. -/
def name (call : StdCall) : List Char := call.chars.filter (· ≠ ' ')

/-- The callsign starts with a blank: its prefix has one letter. -/
def LeadingBlank (call : StdCall) : Prop := call.i₀ = 36

instance (call : StdCall) : Decidable call.LeadingBlank :=
  inferInstanceAs (Decidable (call.i₀ = 36))

/-- The radices of the six positions, last position first. -/
def radices : List ℕ := [27, 27, 27, 10, 36, 37]

/-- The indices of the six positions, last position first. -/
def digits (call : StdCall) : List ℕ := [call.i₅, call.i₄, call.i₃, call.i₂, call.i₁, call.i₀]

theorem digits_valid (call : StdCall) : MixedRadix.Valid radices call.digits := by
  simp [radices, digits, MixedRadix.Valid]

/-- The 28-bit packed value of a callsign. -/
def pack (call : StdCall) : ℕ := MixedRadix.pack radices call.digits

theorem pack_lt (call : StdCall) : call.pack < kNBasecall :=
  MixedRadix.pack_lt call.digits_valid

/-- The source's alphabet agrees with the alphabet of the first two positions. -/
theorem callAlpha_of_lt {i : ℕ} (h : i < 37) : callAlpha i = alphanumericBlank.getD i ' ' := by
  revert i
  decide

/-- From index 10 on, the source's alphabet agrees with the alphabet of the last positions. -/
theorem callAlpha_add_ten {i : ℕ} (h : i < 27) :
    callAlpha (i + 10) = letterBlank.getD i ' ' := by
  revert i
  decide

theorem alphanumericBlank_ne_blank {i : ℕ} (h : i < 36) :
    alphanumericBlank.getD i ' ' ≠ ' ' := by
  revert i
  decide

theorem letterBlank_eq_blank_iff (i : Fin 27) : letterBlank.getD i ' ' = ' ' ↔ i = 26 := by
  revert i
  decide

theorem alphanumericBlank_eq_blank_iff (i : Fin 37) :
    alphanumericBlank.getD i ' ' = ' ' ↔ i = 36 := by
  revert i
  decide

end StdCall

open StdCall

/-- The text of a packed standard callsign: its six characters less the trailing blanks. -/
theorem unpackCallsign28_pack (call : StdCall) :
    unpackCallsign28 call.pack = call.chars.rdropWhile (· = ' ') := by
  have hdigits := MixedRadix.unpack_pack call.digits_valid
  simp only [radices, digits, MixedRadix.unpack, List.cons.injEq, and_true] at hdigits
  obtain ⟨h₅, h₄, h₃, h₂, h₁, h₀⟩ := hdigits
  rw [unpackCallsign28, if_neg (Nat.not_le.2 call.pack_lt)]
  simp only [pack, radices, digits, h₅, h₄, h₃, h₂, h₁, h₀]
  rw [callAlpha_add_ten call.i₅.isLt, callAlpha_add_ten call.i₄.isLt,
    callAlpha_add_ten call.i₃.isLt, callAlpha_of_lt (call.i₂.isLt.trans (by decide)),
    callAlpha_of_lt (call.i₁.isLt.trans (by decide)), callAlpha_of_lt call.i₀.isLt]
  rfl

/-- Dropping the trailing blanks of a callsign leaves its first character and the non-blank
characters after it. -/
theorem rdropWhile_chars (call : StdCall) :
    call.chars.rdropWhile (· = ' ') =
      alphanumericBlank.getD call.i₀ ' ' :: call.chars.tail.filter (· ≠ ' ') := by
  have h₁ := alphanumericBlank_ne_blank call.i₁.isLt
  have h₂ := alphanumericBlank_ne_blank (call.i₂.isLt.trans (by decide : 10 < 36))
  have h₃ := letterBlank_eq_blank_iff call.i₃
  have h₄ := letterBlank_eq_blank_iff call.i₄
  have h₅ := letterBlank_eq_blank_iff call.i₅
  have ht₄ := call.trailing₄
  have ht₅ := call.trailing₅
  simp only [chars, List.tail_cons]
  generalize alphanumericBlank.getD call.i₁ ' ' = a₁ at *
  generalize alphanumericBlank.getD call.i₂ ' ' = a₂ at *
  generalize letterBlank.getD call.i₃ ' ' = a₃ at *
  generalize letterBlank.getD call.i₄ ' ' = a₄ at *
  generalize letterBlank.getD call.i₅ ' ' = a₅ at *
  -- the blanks are the last positions, from the first blank letter on
  by_cases hb₃ : call.i₃ = 26
  · have hb₄ := ht₄ hb₃
    simp [List.rdropWhile, List.dropWhile, h₁, h₂, h₃.2 hb₃, h₄.2 hb₄, h₅.2 (ht₅ hb₄)]
  · by_cases hb₄ : call.i₄ = 26
    · simp [List.rdropWhile, List.dropWhile, h₁, h₂, mt h₃.1 hb₃, h₄.2 hb₄, h₅.2 (ht₅ hb₄)]
    · by_cases hb₅ : call.i₅ = 26
      · simp [List.rdropWhile, List.dropWhile, h₁, h₂, mt h₃.1 hb₃, mt h₄.1 hb₄, h₅.2 hb₅]
      · simp [List.rdropWhile, h₁, h₂, mt h₃.1 hb₃, mt h₄.1 hb₄, mt h₅.1 hb₅]

/-- The text of a packed callsign without a leading blank is its name. -/
theorem unpackCallsign28_of_not_leadingBlank {call : StdCall} (h : ¬call.LeadingBlank) :
    unpackCallsign28 call.pack = call.name := by
  have h₀ : alphanumericBlank.getD call.i₀ ' ' ≠ ' ' :=
    mt (alphanumericBlank_eq_blank_iff call.i₀).1 h
  rw [unpackCallsign28_pack, rdropWhile_chars, name, chars, List.filter_cons_of_pos (by simpa),
    List.tail_cons]

/-- The text of a packed callsign with a leading blank keeps that blank. -/
theorem unpackCallsign28_of_leadingBlank {call : StdCall} (h : call.LeadingBlank) :
    unpackCallsign28 call.pack = ' ' :: call.name := by
  have h₀ : alphanumericBlank.getD call.i₀ ' ' = ' ' :=
    (alphanumericBlank_eq_blank_iff call.i₀).2 h
  rw [unpackCallsign28_pack, rdropWhile_chars, name, chars, List.filter_cons_of_neg (by simpa),
    List.tail_cons, h₀]

/-- Only a leading blank keeps the unpacked text from being the callsign's name. -/
theorem unpackCallsign28_pack_eq_name_iff (call : StdCall) :
    unpackCallsign28 call.pack = call.name ↔ ¬call.LeadingBlank := by
  refine ⟨fun h hb => ?_, unpackCallsign28_of_not_leadingBlank⟩
  rw [unpackCallsign28_of_leadingBlank hb] at h
  simpa using congrArg List.length h

/-- `W1AW`, packed with a leading blank. -/
def w1aw : StdCall := ⟨36, 32, 1, 0, 22, 26, by decide, by decide⟩

/-- `KD0ABC`, with a two-letter prefix. -/
def kd0abc : StdCall := ⟨20, 13, 0, 0, 1, 2, by decide, by decide⟩

end GranolaSdr.Js8
