import Mathlib.Data.List.FinRange
import Mathlib.Data.UInt

/-!
# Base64

Three bytes are a group of 24 bits and are written as four symbols of six bits each, the most
significant first. A last group of one or two bytes is filled up with zero bits, written with two or
three symbols, and padded to four. A reader may check that the bits filled up are zero, or ignore
them. If it does check, it accepts no other texts than those written.

## Main definitions

* `Alphabet`: 64 symbols and one that pads;
* `Alphabet.encode`, `Alphabet.decode`: writing and reading;
* `standard`: the letters, the digits, `+` and `/`, padded with `=`.

## Main results

* `Alphabet.decode_encode`: what is written is read back, by either reader;
* `Alphabet.decode_eq_some_iff`: what the strict reader accepts was written;
* `Alphabet.length_encode`: four symbols for each group.
-/

namespace Base64

/-- 64 symbols for six bits, and another one that pads. -/
structure Alphabet (σ : Type*) where
  symbol : Fin 64 → σ
  pad : σ
  symbol_injective : Function.Injective symbol
  symbol_ne_pad : ∀ v, symbol v ≠ pad

/-! ## Groups -/

/-- The 24 bits of three bytes. -/
def group (a b c : UInt8) : ℕ := a.toNat * 2 ^ 16 + b.toNat * 2 ^ 8 + c.toNat

/-- The 24 bits of four symbols. -/
def joined (s t u v : ℕ) : ℕ := s * 64 ^ 3 + t * 64 ^ 2 + u * 64 + v

/-- Six bits of a group, counted from the least significant. -/
def sextet (n k : ℕ) : Fin 64 := ⟨n / 64 ^ k % 64, Nat.mod_lt _ (by decide)⟩

/-- Eight bits of a group, counted from the least significant. -/
def octet (n k : ℕ) : UInt8 := UInt8.ofNat (n / 256 ^ k)

theorem val_sextet (n k : ℕ) : (sextet n k).val = n / 64 ^ k % 64 := rfl

theorem group_lt (a b c : UInt8) : group a b c < 2 ^ 24 := by
  have ha := a.toNat_lt
  have hb := b.toNat_lt
  have hc := c.toNat_lt
  rw [group]
  omega

theorem joined_lt (s t u v : Fin 64) : joined s t u v < 2 ^ 24 := by
  rw [joined]
  omega

/-- A group is put together from its symbols. -/
theorem joined_sextet {n : ℕ} (h : n < 2 ^ 24) :
    joined (sextet n 3) (sextet n 2) (sextet n 1) (sextet n 0) = n := by
  simp only [joined, val_sextet]
  omega

/-- The symbols of a group are those it is put together from. -/
theorem sextet_joined (s t u v : Fin 64) :
    sextet (joined s t u v) 3 = s ∧ sextet (joined s t u v) 2 = t ∧
      sextet (joined s t u v) 1 = u ∧ sextet (joined s t u v) 0 = v := by
  simp only [joined, val_sextet, Fin.ext_iff]
  omega

/-- The bytes of a group. -/
theorem octet_group (a b c : UInt8) :
    octet (group a b c) 2 = a ∧ octet (group a b c) 1 = b ∧ octet (group a b c) 0 = c := by
  have ha := a.toNat_lt
  have hb := b.toNat_lt
  have hc := c.toNat_lt
  simp only [octet, group, ← UInt8.toNat_inj, UInt8.toNat_ofNat']
  omega

/-- A group is put together from its bytes. -/
theorem group_octet {n : ℕ} (h : n < 2 ^ 24) : group (octet n 2) (octet n 1) (octet n 0) = n := by
  simp only [octet, group, UInt8.toNat_ofNat']
  omega

/-! ## Padded groups -/

theorem sextet_group_zero (a b : UInt8) : sextet (group a b 0) 0 = 0 := by
  have ha := a.toNat_lt
  have hb := b.toNat_lt
  apply Fin.ext
  simp only [val_sextet, group, UInt8.toNat_zero, Fin.val_zero]
  omega

theorem sextet_group_zero_zero (a : UInt8) : sextet (group a 0 0) 1 = 0 := by
  have ha := a.toNat_lt
  apply Fin.ext
  simp only [val_sextet, group, UInt8.toNat_zero, Fin.val_zero]
  omega

/-- Two bytes fill three symbols with zero bits. -/
theorem joined_pair (a b : UInt8) :
    joined (sextet (group a b 0) 3) (sextet (group a b 0) 2) (sextet (group a b 0) 1) 0 =
      group a b 0 := by
  have h := joined_sextet (group_lt a b 0)
  rwa [sextet_group_zero] at h

/-- One byte fills two symbols with zero bits. -/
theorem joined_single (a : UInt8) :
    joined (sextet (group a 0 0) 3) (sextet (group a 0 0) 2) 0 0 = group a 0 0 := by
  have h := joined_pair a 0
  rwa [sextet_group_zero_zero] at h

theorem group_mod_pair (a b : UInt8) : group a b 0 % 2 ^ 8 = 0 := by
  simp only [group, UInt8.toNat_zero]
  omega

theorem group_mod_single (a : UInt8) : group a 0 0 % 2 ^ 16 = 0 := by
  simp only [group, UInt8.toNat_zero]
  omega

/-- A group whose filled bits are zero is that of its two bytes. -/
theorem group_octet_pair {n : ℕ} (h : n < 2 ^ 24) (hfill : n % 2 ^ 8 = 0) :
    group (octet n 2) (octet n 1) 0 = n := by
  simp only [octet, group, UInt8.toNat_ofNat', UInt8.toNat_zero]
  omega

/-- A group whose filled bits are zero is that of its one byte. -/
theorem group_octet_single {n : ℕ} (h : n < 2 ^ 24) (hfill : n % 2 ^ 16 = 0) :
    group (octet n 2) 0 0 = n := by
  simp only [octet, group, UInt8.toNat_ofNat', UInt8.toNat_zero]
  omega

namespace Alphabet

variable {σ : Type*} (A : Alphabet σ)

/-! ## Writing -/

/-- Four symbols for each three bytes; the last ones of a short group pad it. -/
def encode : List UInt8 → List σ
  | [] => []
  | [a] => [A.symbol (sextet (group a 0 0) 3), A.symbol (sextet (group a 0 0) 2), A.pad, A.pad]
  | [a, b] =>
    [A.symbol (sextet (group a b 0) 3), A.symbol (sextet (group a b 0) 2),
      A.symbol (sextet (group a b 0) 1), A.pad]
  | a :: b :: c :: rest =>
    A.symbol (sextet (group a b c) 3) :: A.symbol (sextet (group a b c) 2) ::
      A.symbol (sextet (group a b c) 1) :: A.symbol (sextet (group a b c) 0) :: encode rest

/-- Four symbols for each group that is started. -/
theorem length_encode (bytes : List UInt8) :
    (A.encode bytes).length = 4 * ((bytes.length + 2) / 3) := by
  fun_induction encode with
  | case1 => rfl
  | case2 a => simp
  | case3 a b => simp
  | case4 a b c rest ih =>
    simp only [List.length_cons, ih]
    omega

/-! ## Reading -/

variable [DecidableEq σ]

/-- The six bits that a symbol stands for. -/
def value (s : σ) : Option (Fin 64) := (List.finRange 64).find? fun v => A.symbol v = s

theorem value_eq_some_iff {s : σ} {v : Fin 64} : A.value s = some v ↔ A.symbol v = s := by
  constructor
  · intro h
    simpa using List.find?_some h
  · intro h
    have hs : (A.value s).isSome := List.find?_isSome.mpr ⟨v, List.mem_finRange v, by simpa using h⟩
    obtain ⟨w, hw⟩ := Option.isSome_iff_exists.mp hs
    have hsymbol : A.symbol w = s := by simpa using List.find?_some hw
    rw [hw, A.symbol_injective (hsymbol.trans h.symm)]

@[simp]
theorem value_symbol (v : Fin 64) : A.value (A.symbol v) = some v := A.value_eq_some_iff.mpr rfl

/-- Three bytes from four symbols. -/
def decodeGroup (s t u v : σ) : Option (List UInt8) := do
  let n := joined (← A.value s) (← A.value t) (← A.value u) (← A.value v)
  return [octet n 2, octet n 1, octet n 0]

/-- Two bytes from three symbols. The strict reader checks the bits that were filled up. -/
def decodePair (strict : Bool) (s t u : σ) : Option (List UInt8) := do
  let n := joined (← A.value s) (← A.value t) (← A.value u) 0
  if strict ∧ n % 2 ^ 8 ≠ 0 then none else return [octet n 2, octet n 1]

/-- One byte from two symbols. The strict reader checks the bits that were filled up. -/
def decodeSingle (strict : Bool) (s t : σ) : Option (List UInt8) := do
  let n := joined (← A.value s) (← A.value t) 0 0
  if strict ∧ n % 2 ^ 16 ≠ 0 then none else return [octet n 2]

/-- Groups of four symbols, of which only the last one may be padded. -/
def decode (strict : Bool) : List σ → Option (List UInt8)
  | [] => some []
  | s :: t :: u :: v :: rest =>
    if v = A.pad ∧ rest.isEmpty then
      if u = A.pad then A.decodeSingle strict s t else A.decodePair strict s t u
    else do return (← A.decodeGroup s t u v) ++ (← decode strict rest)
  | _ => none

theorem decodeGroup_symbol (a b c : UInt8) :
    A.decodeGroup (A.symbol (sextet (group a b c) 3)) (A.symbol (sextet (group a b c) 2))
      (A.symbol (sextet (group a b c) 1)) (A.symbol (sextet (group a b c) 0)) =
      some [a, b, c] := by
  obtain ⟨ha, hb, hc⟩ := octet_group a b c
  simp [decodeGroup, joined_sextet (group_lt a b c), ha, hb, hc]

theorem decodePair_symbol (strict : Bool) (a b : UInt8) :
    A.decodePair strict (A.symbol (sextet (group a b 0) 3)) (A.symbol (sextet (group a b 0) 2))
      (A.symbol (sextet (group a b 0) 1)) = some [a, b] := by
  obtain ⟨ha, hb, -⟩ := octet_group a b 0
  have hfill := group_mod_pair a b
  simpa [decodePair, joined_pair, ha, hb] using fun _ => hfill

theorem decodeSingle_symbol (strict : Bool) (a : UInt8) :
    A.decodeSingle strict (A.symbol (sextet (group a 0 0) 3))
      (A.symbol (sextet (group a 0 0) 2)) = some [a] := by
  obtain ⟨ha, -, -⟩ := octet_group a 0 0
  have hfill := group_mod_single a
  simpa [decodeSingle, joined_single, ha] using fun _ => hfill

/-- What is written is read back. -/
theorem decode_encode (strict : Bool) (bytes : List UInt8) :
    A.decode strict (A.encode bytes) = some bytes := by
  fun_induction encode with
  | case1 => rfl
  | case2 a => simp [decode, decodeSingle_symbol]
  | case3 a b => simp [decode, decodePair_symbol, A.symbol_ne_pad]
  | case4 a b c rest ih => simp [decode, decodeGroup_symbol, A.symbol_ne_pad, ih]

/-- Different bytes are written differently. -/
theorem encode_injective : Function.Injective A.encode := by
  intro bytes bytes' h
  have hdecode := A.decode_encode true bytes
  rwa [h, decode_encode, Option.some_inj, eq_comm] at hdecode

theorem encode_of_decodeGroup {s t u v : σ} {bytes : List UInt8}
    (h : A.decodeGroup s t u v = some bytes) (rest : List UInt8) :
    A.encode (bytes ++ rest) = s :: t :: u :: v :: A.encode rest := by
  simp only [decodeGroup, Option.pure_def, Option.bind_eq_bind, Option.bind_eq_some_iff,
    value_eq_some_iff, Option.some_inj] at h
  obtain ⟨s, rfl, t, rfl, u, rfl, v, rfl, rfl⟩ := h
  obtain ⟨hs, ht, hu, hv⟩ := sextet_joined s t u v
  simp [encode, group_octet (joined_lt s t u v), hs, ht, hu, hv]

theorem encode_of_decodePair {s t u : σ} {bytes : List UInt8}
    (h : A.decodePair true s t u = some bytes) : A.encode bytes = [s, t, u, A.pad] := by
  simp only [decodePair, Option.pure_def, Option.bind_eq_bind, Option.bind_eq_some_iff,
    value_eq_some_iff] at h
  obtain ⟨s, rfl, t, rfl, u, rfl, h⟩ := h
  obtain ⟨hs, ht, hu, -⟩ := sextet_joined s t u 0
  have hlt := joined_lt s t u 0
  rw [Fin.val_zero] at hs ht hu hlt
  split_ifs at h with hfill
  rw [Option.some_inj] at h
  subst h
  have hfill : joined s t u 0 % 2 ^ 8 = 0 := by simpa using hfill
  simp [encode, group_octet_pair hlt hfill, hs, ht, hu]

theorem encode_of_decodeSingle {s t : σ} {bytes : List UInt8}
    (h : A.decodeSingle true s t = some bytes) : A.encode bytes = [s, t, A.pad, A.pad] := by
  simp only [decodeSingle, Option.pure_def, Option.bind_eq_bind, Option.bind_eq_some_iff,
    value_eq_some_iff] at h
  obtain ⟨s, rfl, t, rfl, h⟩ := h
  obtain ⟨hs, ht, -, -⟩ := sextet_joined s t 0 0
  have hlt := joined_lt s t 0 0
  rw [Fin.val_zero] at hs ht hlt
  split_ifs at h with hfill
  rw [Option.some_inj] at h
  subst h
  have hfill : joined s t 0 0 % 2 ^ 16 = 0 := by simpa using hfill
  simp [encode, group_octet_single hlt hfill, hs, ht]

/-- What the strict reader accepts is what is written for the bytes that it reads. -/
theorem encode_of_decode {text : List σ} {bytes : List UInt8}
    (h : A.decode true text = some bytes) :
    A.encode bytes = text := by
  fun_induction decode generalizing bytes with
  | case1 =>
    rw [← Option.some_inj.mp h]
    rfl
  | case2 s t v rest hlast =>
    obtain ⟨rfl, hrest⟩ := hlast
    rw [A.encode_of_decodeSingle h, List.isEmpty_iff.mp hrest]
  | case3 s t u v rest hlast hu =>
    obtain ⟨rfl, hrest⟩ := hlast
    rw [A.encode_of_decodePair h, List.isEmpty_iff.mp hrest]
  | case4 s t u v rest hlast ih =>
    simp only [Option.pure_def, Option.bind_eq_bind, Option.bind_eq_some_iff,
      Option.some_inj] at h
    obtain ⟨first, hfirst, last, hlast, rfl⟩ := h
    rw [A.encode_of_decodeGroup hfirst, ih hlast]
  | case5 => simp at h

/-- The strict reader accepts what is written, and nothing else. -/
theorem decode_eq_some_iff {text : List σ} {bytes : List UInt8} :
    A.decode true text = some bytes ↔ A.encode bytes = text := by
  constructor
  · exact A.encode_of_decode
  · rintro rfl
    exact A.decode_encode true bytes

end Alphabet

/-! ## The standard alphabet -/

/-- The symbols: the capital letters, the small ones, the digits, `+` and `/`. -/
def letter (v : Fin 64) : Char :=
  if v.val < 26 then Char.ofNat ('A'.toNat + v)
  else if v.val < 52 then Char.ofNat ('a'.toNat + (v - 26))
  else if v.val < 62 then Char.ofNat ('0'.toNat + (v - 52))
  else if v.val = 62 then '+'
  else '/'

theorem letter_injective : Function.Injective letter := by
  intro v w
  revert v w
  decide +kernel

theorem letter_ne_pad : ∀ v, letter v ≠ '=' := by decide +kernel

/-- The standard alphabet pads with `=`. -/
def standard : Alphabet Char := ⟨letter, '=', letter_injective, letter_ne_pad⟩

-- The text of one byte, and a text that differs from it in the bits filled up.
example : standard.decode true "QQ==".toList = some [65] ∧
    standard.decode true "QR==".toList = none ∧
    standard.decode false "QR==".toList = some [65] := by decide +kernel

end Base64
