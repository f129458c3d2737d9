import GranolaSdr.Hf.SoftDemap
import Mathlib.Data.Nat.Bitwise

/-!
# The tones of an FT8 message

The second half of `ft8_encode` in `src/ft8_lib/ft8/encode.c` turns a codeword of 22 bytes into the
79 tones of a frame. It walks over the bits with a byte index and a mask.

## Main definitions

* `Cursor`: where the walk stands in the codeword;
* `ft8_tones`: the loop over the symbols, where a read outside of a table fails.

## Main results

* `tone_eq`: one symbol, and how far it moves the cursor;
* `ft8_tones_eq`: the tones are the frame of the codeword;
* `reads_ft8_tones`: the soft decisions of the tones are those of the codeword.
-/

namespace GranolaSdr.Ft8.Tones

open Demapping Hf.SoftDemap

def kFT8_Costas_pattern : List (Fin 8) := [3, 1, 4, 0, 6, 5, 2]

def kFT8_Gray_map : List (Fin 8) := [0, 1, 3, 2, 5, 6, 4, 7]

/-- The next bit of the codeword: its byte, and its place in the byte. -/
structure Cursor where
  mask : UInt8
  i_byte : ℕ

namespace Cursor

def read (codeword : List UInt8) (c : Cursor) : Option Bool :=
  codeword[c.i_byte]?.map fun byte => byte &&& c.mask != 0

def next (c : Cursor) : Cursor :=
  let mask := c.mask >>> 1
  if mask = 0 then ⟨0x80, c.i_byte + 1⟩ else ⟨mask, c.i_byte⟩

end Cursor

/-- The tone of a symbol, and where the cursor stands behind it. -/
def tone (codeword : List UInt8) (i_tone : ℕ) (c : Cursor) : Option (Fin 8 × Cursor) :=
  if i_tone < 7 then kFT8_Costas_pattern[i_tone]?.map (·, c)
  else if 36 ≤ i_tone ∧ i_tone < 43 then kFT8_Costas_pattern[i_tone - 36]?.map (·, c)
  else if 72 ≤ i_tone ∧ i_tone < 79 then kFT8_Costas_pattern[i_tone - 72]?.map (·, c)
  else do
    let b0 ← c.read codeword
    let b1 ← c.next.read codeword
    let b2 ← c.next.next.read codeword
    let bits3 := (if b0 then 4 else 0) ||| (if b1 then 2 else 0) ||| (if b2 then 1 else 0)
    let t ← kFT8_Gray_map[bits3]?
    return (t, c.next.next.next)

/-- The loop over the symbols. -/
def symbols (codeword : List UInt8) :
    List ℕ → List (Fin 8) × Cursor → Option (List (Fin 8) × Cursor)
  | [], s => some s
  | i_tone :: rest, (tones, c) => do
    let (t, c) ← tone codeword i_tone c
    symbols codeword rest (tones ++ [t], c)

/-- The tones of a codeword. -/
def ft8_tones (codeword : List UInt8) : Option (List (Fin 8)) :=
  (symbols codeword (List.range 79) ([], ⟨0x80, 0⟩)).map Prod.fst

/-! ## The cursor -/

/-- A bit of the codeword, the first of a byte weighing most. -/
def bitAt (codeword : List UInt8) (n : ℕ) : Bool :=
  (codeword.getD (n / 8) 0).toNat.testBit (7 - n % 8)

/-- The codeword, without the last bits of the last byte. -/
def codewordBits (codeword : List UInt8) (i : Fin 174) : Bool := bitAt codeword i

/-- The cursor in front of a bit. -/
def Cursor.at (n : ℕ) : Cursor := ⟨0x80 >>> UInt8.ofNat (n % 8), n / 8⟩

/-- The mask moves down by one place, out of the byte at its end. -/
theorem mask_next (r : Fin 8) :
    if r = 7 then (0x80 : UInt8) >>> UInt8.ofNat r >>> 1 = 0
    else (0x80 : UInt8) >>> UInt8.ofNat r >>> 1 ≠ 0 ∧
      (0x80 : UInt8) >>> UInt8.ofNat r >>> 1 = 0x80 >>> UInt8.ofNat (r + 1 : ℕ) := by
  revert r
  decide

theorem toNat_mask (r : Fin 8) : ((0x80 : UInt8) >>> UInt8.ofNat r).toNat = 2 ^ (7 - r : ℕ) := by
  revert r
  decide

theorem Cursor.next_at (n : ℕ) : (Cursor.at n).next = Cursor.at (n + 1) := by
  have hmask := mask_next ⟨n % 8, Nat.mod_lt n (by decide)⟩
  unfold Cursor.next Cursor.at
  dsimp only at hmask ⊢
  split_ifs at hmask with hlast
  · -- the last bit of a byte
    have hr : n % 8 = 7 := congrArg Fin.val hlast
    have hmod : (n + 1) % 8 = 0 := by omega
    have hdiv : (n + 1) / 8 = n / 8 + 1 := by omega
    rw [if_pos hmask, hmod, hdiv]
    rfl
  · have hr : n % 8 ≠ 7 := fun heq => hlast (Fin.ext heq)
    have hmod : (n + 1) % 8 = n % 8 + 1 := by omega
    have hdiv : (n + 1) / 8 = n / 8 := by omega
    rw [if_neg hmask.1, hmask.2, hmod, hdiv]

/-- A byte has a bit in common with the mask exactly when the bit is set. -/
theorem and_mask_ne_zero (byte : UInt8) (r : Fin 8) :
    (byte &&& (0x80 : UInt8) >>> UInt8.ofNat r != 0) = byte.toNat.testBit (7 - r) := by
  -- the common bits are the bit at its place, or none
  have hand : (byte &&& (0x80 : UInt8) >>> UInt8.ofNat r).toNat =
      (byte.toNat.testBit (7 - r)).toNat * 2 ^ (7 - r : ℕ) := by
    rw [UInt8.toNat_and, toNat_mask, Nat.and_two_pow]
  cases hbit : byte.toNat.testBit (7 - r) with
  | false =>
    rw [hbit, Bool.toNat_false, Nat.zero_mul] at hand
    rw [bne_eq_false_iff_eq]
    exact UInt8.toNat_inj.1 hand
  | true =>
    rw [hbit, Bool.toNat_true, Nat.one_mul] at hand
    rw [bne_iff_ne]
    intro hzero
    rw [hzero] at hand
    exact (Nat.two_pow_pos _).ne hand

theorem Cursor.read_at {codeword : List UInt8} {n : ℕ} (hn : n / 8 < codeword.length) :
    (Cursor.at n).read codeword = some (bitAt codeword n) := by
  have hmask := and_mask_ne_zero codeword[n / 8] ⟨n % 8, Nat.mod_lt n (by decide)⟩
  unfold Cursor.read Cursor.at bitAt
  dsimp only at hmask ⊢
  rw [List.getElem?_eq_getElem hn, Option.map_some, hmask, List.getD_eq_getElem?_getD,
    List.getElem?_eq_getElem hn, Option.getD_some]

/-! ## The symbols -/

/-- The tables of the encoder are those that the receiver demodulates with. -/
theorem tables_eq : kFT8_Costas_pattern = kFT8Refine.costas.toList ∧
    kFT8_Gray_map = kFT8Refine.tone_map.toList := by decide

theorem getElem?_kFT8_Costas_pattern (k : Fin 7) :
    kFT8_Costas_pattern[(k : ℕ)]? = some (kFT8Refine.costas.get k) := by
  rw [tables_eq.1]
  exact List.getElem?_eq_getElem (by rw [Vector.length_toList]; exact k.2)

/-- The index that the encoder makes of three bits is their label. -/
theorem bits3_eq (b : Fin 3 → Bool) :
    (if b 0 then 4 else 0) ||| (if b 1 then 2 else 0) ||| (if b 2 then 1 else 0) =
      (label b : ℕ) := by
  unfold label
  generalize b 0 = b0
  generalize b 1 = b1
  generalize b 2 = b2
  revert b0 b1 b2
  decide

/-- The Gray map takes three bits to the tone of their label. -/
theorem getElem?_kFT8_Gray_map (b : Fin 3 → Bool) :
    kFT8_Gray_map[(if b 0 then 4 else 0) ||| (if b 1 then 2 else 0) ||| (if b 2 then 1 else 0)]? =
      some (kFT8Refine.tone_map.get (label b)) := by
  rw [tables_eq.2, bits3_eq]
  exact List.getElem?_eq_getElem (by rw [Vector.length_toList]; exact (label b).2)

/-- How many data symbols stand before a position. -/
def dataBefore (p : ℕ) : ℕ := min (p - 7) 29 + min (p - 43) 29

variable {codeword : List UInt8}

/-- A data symbol. -/
theorem tone_data (hlen : codeword.length = 22) (k : Fin 58) :
    tone codeword (data_pos k) (Cursor.at (3 * k)) =
      some (kFT8Refine.tone_map.get (label (bits (codewordBits codeword) k)),
        Cursor.at (3 * (k + 1))) := by
  have hdata := isData_data_pos k.2
  unfold IsData at hdata
  have hread : ∀ i : Fin 3, (Cursor.at (3 * k + i)).read codeword =
      some (bits (codewordBits codeword) k i) := fun i =>
    Cursor.read_at (by rw [hlen]; omega)
  -- none of the three sync blocks, so three bits are read
  unfold tone
  rw [if_neg (by omega), if_neg (by omega), if_neg (by omega), Cursor.next_at, Cursor.next_at,
    Cursor.next_at]
  have h0 : (Cursor.at (3 * k)).read codeword = some (bits (codewordBits codeword) k 0) := hread 0
  have h1 : (Cursor.at (3 * k + 1)).read codeword = some (bits (codewordBits codeword) k 1) :=
    hread 1
  have h2 : (Cursor.at (3 * k + 1 + 1)).read codeword = some (bits (codewordBits codeword) k 2) :=
    hread 2
  rw [h0, h1, h2]
  dsimp only [Option.bind_eq_bind, Option.bind_some]
  rw [getElem?_kFT8_Gray_map]
  rfl

/-- A sync symbol leaves the cursor where it is. -/
theorem tone_sync (m : Fin 3) (k : Fin 7) (c : Cursor) :
    tone codeword (36 * m + k) c = some (kFT8Refine.costas.get k, c) := by
  have hpattern := getElem?_kFT8_Costas_pattern k
  unfold tone
  match m with
  | 0 =>
    have hpos : 36 * ((0 : Fin 3) : ℕ) + k = k := Nat.zero_add _
    rw [hpos, if_pos k.2, hpattern]
    rfl
  | 1 =>
    have hpos : 36 * ((1 : Fin 3) : ℕ) + k - 36 = k := Nat.add_sub_cancel_left ..
    rw [if_neg (by rw [Fin.val_one]; omega), if_pos (by rw [Fin.val_one]; omega), hpos, hpattern]
    rfl
  | 2 =>
    have hpos : 36 * ((2 : Fin 3) : ℕ) + k - 72 = k := Nat.add_sub_cancel_left ..
    rw [if_neg (by rw [Fin.val_two]; omega), if_neg (by rw [Fin.val_two]; omega),
      if_pos (by rw [Fin.val_two]; omega), hpos, hpattern]
    rfl

/-- Every symbol of a frame is a data symbol or a sync symbol. -/
theorem position_cases {p : ℕ} (hp : p < 79) :
    (∃ k : Fin 58, data_pos k = p) ∨ ∃ (m : Fin 3) (k : Fin 7), 36 * (m : ℕ) + k = p := by
  have hdata : ∀ k (hk : k < 58), data_pos k = p → ∃ k : Fin 58, data_pos k = p := fun k hk h =>
    ⟨⟨k, hk⟩, h⟩
  -- sync, data, sync, data, sync
  by_cases h1 : p < 7
  · exact Or.inr ⟨0, ⟨p, h1⟩, Nat.zero_add p⟩
  by_cases h2 : p < 36
  · refine Or.inl (hdata (p - 7) (by omega) ?_)
    rw [data_pos, if_pos (by omega)]
    omega
  by_cases h3 : p < 43
  · exact Or.inr ⟨1, ⟨p - 36, by omega⟩, Nat.add_sub_cancel' (by omega)⟩
  by_cases h4 : p < 72
  · refine Or.inl (hdata (p - 14) (by omega) ?_)
    rw [data_pos, if_neg (by omega)]
    omega
  · exact Or.inr ⟨2, ⟨p - 72, by omega⟩, Nat.add_sub_cancel' (by omega)⟩

theorem dataBefore_data (k : Fin 58) :
    dataBefore (data_pos k) = k ∧ dataBefore (data_pos k + 1) = k + 1 := by
  unfold dataBefore data_pos
  split_ifs <;> omega

theorem dataBefore_sync (m : Fin 3) (k : Fin 7) :
    dataBefore (36 * m + k + 1) = dataBefore (36 * m + k) := by
  unfold dataBefore
  omega

/-- One symbol, and how far it moves the cursor. -/
theorem tone_eq (hlen : codeword.length = 22) {p : ℕ} (hp : p < 79) :
    ∃ t, (kFT8Refine.frame (codewordBits codeword))[p]? = some t ∧
      tone codeword p (Cursor.at (3 * dataBefore p)) =
        some (t, Cursor.at (3 * dataBefore (p + 1))) := by
  rcases position_cases hp with ⟨k, rfl⟩ | ⟨m, k, rfl⟩
  · -- a data symbol moves the cursor by three bits
    rw [(dataBefore_data k).1, (dataBefore_data k).2]
    exact ⟨_, getElem?_frame _ _ _ k, tone_data hlen k⟩
  · -- a sync symbol does not move it
    rw [dataBefore_sync]
    exact ⟨_, getElem?_frame_sync _ _ _ m k, tone_sync m k _⟩

/-- The loop from a position on. -/
theorem symbols_eq (hlen : codeword.length = 22) (tones : List (Fin 8)) {p n : ℕ}
    (hp : p + n = 79) :
    symbols codeword (List.range' p n) (tones, Cursor.at (3 * dataBefore p)) =
      some (tones ++ (kFT8Refine.frame (codewordBits codeword)).drop p,
        Cursor.at (3 * dataBefore 79)) := by
  have hframe : (kFT8Refine.frame (codewordBits codeword)).length = 79 := length_frame _ _ _
  induction n generalizing p tones with
  | zero =>
    obtain rfl : p = 79 := hp
    rw [List.drop_eq_nil_of_le hframe.le, List.append_nil]
    rfl
  | succ n ih =>
    -- the symbol at the position is the next one of the frame
    obtain ⟨t, ht, htone⟩ := tone_eq hlen (p := p) (by omega)
    rw [List.range'_succ, symbols, htone]
    dsimp only [Option.bind_eq_bind, Option.bind_some]
    obtain ⟨hlt, rfl⟩ := List.getElem?_eq_some_iff.1 ht
    rw [ih _ (by omega), List.append_assoc, List.drop_eq_getElem_cons hlt]
    rfl

/-- The tones that the loop computes are those of the frame of the codeword. -/
theorem ft8_tones_eq (hlen : codeword.length = 22) :
    ft8_tones codeword = some (kFT8Refine.frame (codewordBits codeword)) := by
  have hloop := symbols_eq hlen [] (p := 0) (n := 79) rfl
  rw [ft8_tones, List.range_eq_range']
  exact congrArg (Option.map Prod.fst) hloop

/-- The last stage of `refine_llr` reads the codeword from the tones that the loop computes. -/
theorem reads_ft8_tones (hlen : codeword.length = 22) {tones : List (Fin 8)}
    (htones : ft8_tones codeword = some tones) {Z : ℕ → ℂ}
    (h : OneHot tones fun p j => ‖Z (p * 8 + j)‖) (log174 : ℕ → ℝ) :
    Reads (extract_llr kFT8Refine Z log174) (codewordBits codeword) := by
  obtain rfl : kFT8Refine.frame (codewordBits codeword) = tones :=
    Option.some.inj ((ft8_tones_eq hlen).symm.trans htones)
  exact reads_extract_llr (by decide) h log174

end GranolaSdr.Ft8.Tones
