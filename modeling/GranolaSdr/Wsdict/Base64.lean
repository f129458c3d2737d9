import GranolaSdr.Lib.Base64

/-!
# The dictionary client's Base64

`src/wsdict.h` writes the bytes of a spectrum, and the key of a connection, as a text.

## Main definitions

* `wsdict_base64_encode`: the text of an array of bytes;
* `encodeFrom`: its loop.

## Main results

* `wsdict_base64_encode_eq`: the text is the one of the standard alphabet;
* `decode_eq_some_iff`: the texts that a strict reader accepts are those written;
* `wsdict_base64_encode_spec`: the text is read back, has four characters for each group, and is
  different for different arrays.
-/

namespace GranolaSdr.Wsdict

open Base64

/-! ## The loop -/

/-- The table of the characters. -/
def T : List Char := "ABCDEFGHIJKLMNOPQRSTUVWXYZabcdefghijklmnopqrstuvwxyz0123456789+/".toList

theorem length_T : T.length = 64 := by decide +kernel

theorem toNat_and_63 (n : UInt32) : (n &&& 63).toNat = n.toNat % 64 := by
  rw [UInt32.toNat_and]
  exact Nat.and_two_pow_sub_one_eq_mod n.toNat 6

theorem and_63_lt_length (n : UInt32) : (n &&& 63).toNat < T.length := by
  rw [toNat_and_63, length_T]
  exact Nat.mod_lt _ (by decide)

/-- `T[n & 63]`. -/
def digit (n : UInt32) : Char := T.get ⟨(n &&& 63).toNat, and_63_lt_length n⟩

/-- The word `n` of the bytes from `i` on. -/
def groupAt (data : List UInt8) (i : ℕ) (h : i < data.length) : UInt32 :=
  let n := (data.get ⟨i, h⟩).toUInt32 <<< 16
  let n := if h₁ : i + 1 < data.length then n ||| (data.get ⟨i + 1, h₁⟩).toUInt32 <<< 8 else n
  if h₂ : i + 2 < data.length then n ||| (data.get ⟨i + 2, h₂⟩).toUInt32 else n

/-- The four characters that one turn of the loop appends. -/
def quantum (data : List UInt8) (i : ℕ) (h : i < data.length) : List Char :=
  let n := groupAt data i h
  [digit (n >>> 18), digit (n >>> 12),
    if i + 1 < data.length then digit (n >>> 6) else '=',
    if i + 2 < data.length then digit n else '=']

/-- The loop. The index never wraps: it is a multiple of 3, as is the largest `size_t`. -/
def encodeFrom (data : List UInt8) (i : ℕ) (out : List Char) : List Char :=
  if h : i < data.length then encodeFrom data (i + 3) (out ++ quantum data i h) else out
termination_by data.length - i

/-- The text of an array. Memory for it, which the code reserves first, is taken to suffice. -/
def wsdict_base64_encode (data : List UInt8) : List Char := encodeFrom data 0 []

/-! ## One turn -/

/-- The table is that of the standard alphabet. -/
theorem T_get (v : Fin 64) : T.get (v.cast length_T.symm) = letter v := by
  revert v
  decide +kernel

theorem digit_eq (n : UInt32) : digit n = letter (sextet n.toNat 0) := by
  rw [← T_get, digit]
  congr 1
  apply Fin.ext
  rw [Fin.val_cast, val_sextet, pow_zero, Nat.div_one]
  exact toNat_and_63 n

/-- Shifts by six bits pass over the symbols. -/
theorem digit_shiftRight (n s : UInt32) (k : ℕ) (hs : s.toNat % 32 = 6 * k) :
    digit (n >>> s) = letter (sextet n.toNat k) := by
  rw [digit_eq]
  congr 1
  apply Fin.ext
  rw [val_sextet, val_sextet, UInt32.toNat_shiftRight, hs, Nat.shiftRight_eq_div_pow, pow_mul,
    pow_zero, Nat.div_one]
  rfl

theorem toNat_shiftLeft (b : UInt8) (s : UInt32) (hs : s.toNat ≤ 16) :
    (b.toUInt32 <<< s).toNat = b.toNat <<< s.toNat := by
  have hb := b.toNat_lt
  have hle : b.toNat * 2 ^ s.toNat ≤ b.toNat * 2 ^ 16 :=
    Nat.mul_le_mul_left b.toNat (Nat.pow_le_pow_right (by decide) hs)
  rw [UInt32.toNat_shiftLeft, UInt8.toNat_toUInt32, Nat.mod_eq_of_lt (by omega : s.toNat < 32)]
  apply Nat.mod_eq_of_lt
  rw [Nat.shiftLeft_eq]
  omega

/-- The shifted bytes do not overlap. -/
theorem toNat_or_bytes (a b c : UInt8) :
    (a.toUInt32 <<< 16 ||| b.toUInt32 <<< 8 ||| c.toUInt32).toNat = group a b c := by
  have hlow : b.toNat <<< 8 + c.toNat < 2 ^ 16 := by
    have hb := b.toNat_lt
    have hc := c.toNat_lt
    rw [Nat.shiftLeft_eq]
    omega
  calc
    _ = a.toNat <<< 16 ||| b.toNat <<< 8 ||| c.toNat := by
      rw [UInt32.toNat_or, UInt32.toNat_or, toNat_shiftLeft a 16 (by decide),
        toNat_shiftLeft b 8 (by decide), UInt8.toNat_toUInt32]
      rfl
    _ = a.toNat <<< 16 + (b.toNat <<< 8 + c.toNat) := by
      rw [Nat.or_assoc, ← Nat.shiftLeft_add_eq_or_of_lt c.toNat_lt,
        ← Nat.shiftLeft_add_eq_or_of_lt hlow]
    _ = group a b c := by
      rw [Nat.shiftLeft_eq, Nat.shiftLeft_eq, group, Nat.add_assoc]

theorem toNat_groupAt_three (front rest : List UInt8) (a b c : UInt8)
    (h : front.length < (front ++ a :: b :: c :: rest).length) :
    (groupAt (front ++ a :: b :: c :: rest) front.length h).toNat = group a b c := by
  rw [← toNat_or_bytes]
  simp [groupAt, List.getElem_append_right]

theorem toNat_groupAt_two (front : List UInt8) (a b : UInt8)
    (h : front.length < (front ++ [a, b]).length) :
    (groupAt (front ++ [a, b]) front.length h).toNat = group a b 0 := by
  rw [← toNat_or_bytes]
  simp [groupAt, List.getElem_append_right]

theorem toNat_groupAt_one (front : List UInt8) (a : UInt8)
    (h : front.length < (front ++ [a]).length) :
    (groupAt (front ++ [a]) front.length h).toNat = group a 0 0 := by
  rw [← toNat_or_bytes]
  simp [groupAt, List.getElem_append_right]

theorem quantum_three (front rest : List UInt8) (a b c : UInt8)
    (h : front.length < (front ++ a :: b :: c :: rest).length) :
    quantum (front ++ a :: b :: c :: rest) front.length h = standard.encode [a, b, c] := by
  simp [quantum, digit_shiftRight _ 18 3 rfl, digit_shiftRight _ 12 2 rfl,
    digit_shiftRight _ 6 1 rfl, digit_eq, toNat_groupAt_three, Alphabet.encode, standard]

theorem quantum_two (front : List UInt8) (a b : UInt8)
    (h : front.length < (front ++ [a, b]).length) :
    quantum (front ++ [a, b]) front.length h = standard.encode [a, b] := by
  simp [quantum, digit_shiftRight _ 18 3 rfl, digit_shiftRight _ 12 2 rfl,
    digit_shiftRight _ 6 1 rfl, toNat_groupAt_two, Alphabet.encode, standard]

theorem quantum_one (front : List UInt8) (a : UInt8) (h : front.length < (front ++ [a]).length) :
    quantum (front ++ [a]) front.length h = standard.encode [a] := by
  simp [quantum, digit_shiftRight _ 18 3 rfl, digit_shiftRight _ 12 2 rfl, toNat_groupAt_one,
    Alphabet.encode, standard]

/-! ## The whole run -/

theorem encodeFrom_of_le (data : List UInt8) {i : ℕ} (h : data.length ≤ i) (out : List Char) :
    encodeFrom data i out = out := by
  rw [encodeFrom, dif_neg (Nat.not_lt.mpr h)]

/-- The loop appends the text of the bytes that it has not passed yet. -/
theorem encodeFrom_append (front rest : List UInt8) (out : List Char) :
    encodeFrom (front ++ rest) front.length out = out ++ standard.encode rest := by
  fun_induction Alphabet.encode standard rest generalizing front out with
  | case1 => rw [encodeFrom_of_le _ (by simp), List.append_nil]
  | case2 a =>
    rw [encodeFrom, dif_pos (by simp), quantum_one, encodeFrom_of_le _ (by simp)]
    rfl
  | case3 a b =>
    rw [encodeFrom, dif_pos (by simp), quantum_two, encodeFrom_of_le _ (by simp)]
    rfl
  | case4 a b c rest ih =>
    have hfront : front ++ a :: b :: c :: rest = (front ++ [a, b, c]) ++ rest := by simp
    have hlength : front.length + 3 = (front ++ [a, b, c]).length := by simp
    rw [encodeFrom, dif_pos (by simp), quantum_three, hfront, hlength, ih]
    simp [Alphabet.encode]

/-- The text is that of the standard alphabet. -/
theorem wsdict_base64_encode_eq (data : List UInt8) :
    wsdict_base64_encode data = standard.encode data := encodeFrom_append [] data []

/-- A reader that checks the bits filled up accepts what is written, and nothing else. -/
theorem decode_eq_some_iff (text : List Char) (data : List UInt8) :
    standard.decode true text = some data ↔ wsdict_base64_encode data = text := by
  rw [wsdict_base64_encode_eq]
  exact standard.decode_eq_some_iff

/-- Whether or not the reader checks the bits filled up, it reads the array back. The text has four
characters for each group of three bytes that is started, and different arrays have different
texts. -/
theorem wsdict_base64_encode_spec :
    (∀ strict data, standard.decode strict (wsdict_base64_encode data) = some data) ∧
      (∀ data, (wsdict_base64_encode data).length = 4 * ((data.length + 2) / 3)) ∧
      Function.Injective wsdict_base64_encode := by
  refine ⟨?_, ?_, ?_⟩
  · intro strict data
    rw [wsdict_base64_encode_eq]
    exact standard.decode_encode strict data
  · intro data
    rw [wsdict_base64_encode_eq]
    exact standard.length_encode data
  · intro data data' h
    rw [wsdict_base64_encode_eq, wsdict_base64_encode_eq] at h
    exact standard.encode_injective h

end GranolaSdr.Wsdict
