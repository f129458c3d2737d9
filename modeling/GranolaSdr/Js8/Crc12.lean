import GranolaSdr.Lib.Gf2
import Mathlib.Data.Nat.Bitwise

/-!
# The checksum of a JS8 frame

The 87 information bits of a frame end with a checksum of 12 bits over the first 75. The checksum
register runs over a copy of the frame packed into 11 bytes, in which the checksum bits and the
padding are cleared, and its value is complemented in the bits of 42.

## Main definitions

* `crc12_augmented`, `checkCRC12`: the checksum and the check;
* `payloadBit`: the bits the checksum register runs over;
* `syndrome`: the checksum register with the received checksum added.

## Main results

* `checkCRC12_iff`, `checkCRC12_iff_syndrome`: the check compares the last bits with the register,
  which is a condition on the syndrome;
* `syndrome_eq_combine`: the syndrome is linear in the bits;
* `checkCRC12_tail_and_burst`: every payload has one accepted checksum, and no accepted frame stays
  accepted after a burst of up to 10 positions.
-/

namespace GranolaSdr.Js8

/-- The checksum register after one more bit. -/
def crcStep (crc : BitVec 16) (inp : Bool) : BitVec 16 :=
  let quotient := crc.getLsbD 11
  let crc := (crc <<< 1 ||| (BitVec.ofBool inp).setWidth 16) &&& 0xFFF
  if quotient then crc ^^^ 0xC06 else crc

/-- The checksum of `nbytes` bytes, from the most significant bit of each on. -/
def crc12_augmented (data : List (BitVec 8)) (nbytes : ℕ) : BitVec 16 :=
  (List.range nbytes).foldl (fun crc i =>
    [7, 6, 5, 4, 3, 2, 1, 0].foldl (fun crc b => crcStep crc ((data.getD i 0).getLsbD b)) crc)
    0 ^^^ 42

/-- The information bits packed into bytes, most significant bit first. -/
def packBits (decoded_bits : List Bool) : List (BitVec 8) :=
  (List.range 87).foldl (fun packed i =>
    if decoded_bits.getD i false then packed.modify (i / 8) (· ||| 1 <<< (7 - (i &&& 7)))
    else packed) (List.replicate 11 0)

/-- The received checksum, the last 12 information bits. -/
def receivedCrc (packed : List (BitVec 8)) : BitVec 16 :=
  ((packed.getD 9 0).setWidth 16 &&& 0x1F) <<< 7 ||| (packed.getD 10 0 >>> 1).setWidth 16

/-- The packed bits with the checksum cleared. -/
def clearCrc (packed : List (BitVec 8)) : List (BitVec 8) :=
  (packed.modify 9 (· &&& 0xE0)).set 10 0x00

/-- Whether the checksum of the information bits is right. -/
def checkCRC12 (decoded_bits : List Bool) : Bool :=
  let packed := packBits decoded_bits
  receivedCrc packed == crc12_augmented (clearCrc packed) 11

/-! ## The packed bits -/

/-- Setting bit `n` of the packed bytes changes no other bit. -/
theorem getLsbD_modify_or {packed : List (BitVec 8)} {i : ℕ} (hi : i / 8 < packed.length) (n : ℕ) :
    ((packed.modify (n / 8) (· ||| 1 <<< (7 - (n &&& 7)))).getD (i / 8) 0).getLsbD (7 - i % 8) =
      (decide (i = n) || (packed.getD (i / 8) 0).getLsbD (7 - i % 8)) := by
  -- bits are counted from a byte's most significant end
  have hone : ∀ s < 8, ∀ t < 8, ((1 : BitVec 8) <<< (7 - s)).getLsbD (7 - t) = decide (t = s) := by
    decide
  have hand : n &&& 7 = n % 8 := Nat.and_two_pow_sub_one_eq_mod n 3
  rw [List.getD_eq_getElem?_getD, List.getD_eq_getElem?_getD, List.getElem?_modify,
    List.getElem?_eq_getElem hi, hand]
  by_cases hbyte : n / 8 = i / 8
  · have hbit : decide (i % 8 = n % 8) = decide (i = n) := by
      refine decide_eq_decide.2 ⟨fun h => ?_, fun h => by rw [h]⟩
      rw [← Nat.div_add_mod i 8, ← Nat.div_add_mod n 8, hbyte, h]
    simp only [Option.map_eq_map, Option.map_some, Option.getD_some, if_pos hbyte]
    rw [BitVec.getLsbD_or, Bool.or_comm]
    congr 1
    exact (hone (n % 8) (Nat.mod_lt n (by decide)) (i % 8) (Nat.mod_lt i (by decide))).trans hbit
  · have hne : i ≠ n := by
      rintro rfl
      exact hbyte rfl
    simp [hbyte, hne]

/-- The bytes after so many bits have been packed. -/
def packUpTo (decoded_bits : List Bool) (n : ℕ) : List (BitVec 8) :=
  (List.range n).foldl (fun packed i =>
    if decoded_bits.getD i false then packed.modify (i / 8) (· ||| 1 <<< (7 - (i &&& 7)))
    else packed) (List.replicate 11 0)

theorem packUpTo_succ (decoded_bits : List Bool) (n : ℕ) :
    packUpTo decoded_bits (n + 1) =
      if decoded_bits.getD n false then
        (packUpTo decoded_bits n).modify (n / 8) (· ||| 1 <<< (7 - (n &&& 7)))
      else packUpTo decoded_bits n := by
  rw [packUpTo, List.range_succ, List.foldl_append]
  rfl

theorem length_packUpTo (decoded_bits : List Bool) (n : ℕ) :
    (packUpTo decoded_bits n).length = 11 := by
  induction n with
  | zero => rfl
  | succ n ih =>
    rw [packUpTo_succ]
    split_ifs
    · rw [List.length_modify, ih]
    · exact ih

theorem length_packBits (decoded_bits : List Bool) : (packBits decoded_bits).length = 11 :=
  length_packUpTo decoded_bits 87

/-- Bit `i` is packed into byte `i / 8`, from the top. -/
theorem getLsbD_packUpTo (decoded_bits : List Bool) (n : ℕ) {i : ℕ} (hi : i < 88) :
    ((packUpTo decoded_bits n).getD (i / 8) 0).getLsbD (7 - i % 8) =
      (decide (i < n) && decoded_bits.getD i false) := by
  induction n with
  | zero =>
    have hzero : (packUpTo decoded_bits 0).getD (i / 8) 0 = 0 := by
      rw [packUpTo, List.range_zero, List.foldl_nil, List.getD_replicate]
      omega
    rw [hzero]
    simp
  | succ n ih =>
    have hlen : i / 8 < (packUpTo decoded_bits n).length := by
      rw [length_packUpTo]
      omega
    rw [packUpTo_succ]
    -- the step touches bit `n` alone: those before it keep their value, those after are still clear
    rcases Nat.lt_trichotomy i n with hlt | rfl | hgt
    · have hstep : (decide (i < n + 1) && decoded_bits.getD i false) =
          decoded_bits.getD i false := by
        simp [Nat.lt_succ_of_lt hlt]
      have hprev : (decide (i < n) && decoded_bits.getD i false) = decoded_bits.getD i false := by
        simp [hlt]
      rw [hprev] at ih
      split_ifs
      · rw [getLsbD_modify_or hlen, ih, decide_eq_false (Nat.ne_of_lt hlt), Bool.false_or, hstep]
      · rw [ih, hstep]
    · rw [decide_eq_false (Nat.lt_irrefl i), Bool.false_and] at ih
      rw [decide_eq_true (Nat.lt_succ_self i), Bool.true_and]
      split_ifs with hbit
      · rw [getLsbD_modify_or hlen, decide_eq_true rfl, Bool.true_or, hbit]
      · rw [ih, Bool.eq_false_iff.2 hbit]
    · rw [decide_eq_false (Nat.lt_asymm hgt), Bool.false_and] at ih
      rw [decide_eq_false (Nat.not_lt.2 hgt), Bool.false_and]
      split_ifs
      · rw [getLsbD_modify_or hlen, ih, decide_eq_false (Nat.ne_of_gt hgt), Bool.false_or]
      · exact ih

theorem getLsbD_packBits (decoded_bits : List Bool) {i : ℕ} (hi : i < 88) :
    ((packBits decoded_bits).getD (i / 8) 0).getLsbD (7 - i % 8) =
      (decide (i < 87) && decoded_bits.getD i false) :=
  getLsbD_packUpTo decoded_bits 87 hi

/-- Bit `b` of the received checksum is information bit `86 - b`. -/
theorem getLsbD_receivedCrc (decoded_bits : List Bool) (b : ℕ) :
    (receivedCrc (packBits decoded_bits)).getLsbD b =
      (decide (b < 12) && decoded_bits.getD (86 - b) false) := by
  have hmask : ∀ t < 16, (0x1F : BitVec 16).getLsbD t = decide (t < 5) := by decide
  have hbit : ∀ i < 87, ((packBits decoded_bits).getD (i / 8) 0).getLsbD (7 - i % 8) =
      decoded_bits.getD i false := by
    intro i hi
    rw [getLsbD_packBits _ (Nat.lt_succ_of_lt hi), decide_eq_true hi, Bool.true_and]
  rw [receivedCrc, BitVec.getLsbD_or, BitVec.getLsbD_shiftLeft, BitVec.getLsbD_and,
    BitVec.getLsbD_setWidth, BitVec.getLsbD_setWidth, BitVec.getLsbD_ushiftRight]
  rcases Nat.lt_or_ge b 7 with hlow | hhigh
  · -- the low seven bits stand in byte 10, above its unused last bit
    have hten := hbit (86 - b) (by omega)
    rw [show (86 - b) / 8 = 10 by omega, show 7 - (86 - b) % 8 = 1 + b by omega] at hten
    rw [hten]
    simp [hlow, show b < 12 by omega, show b < 16 by omega]
  · have hten : ((packBits decoded_bits).getD 10 0).getLsbD (1 + b) = false :=
      BitVec.getLsbD_of_ge _ _ (by omega)
    rcases Nat.lt_or_ge b 12 with hmid | htop
    · -- the next five are the low bits of byte 9, shifted up by seven
      have hnine := hbit (86 - b) (by omega)
      rw [show (86 - b) / 8 = 9 by omega, show 7 - (86 - b) % 8 = b - 7 by omega] at hnine
      rw [hten, hnine, hmask (b - 7) (by omega)]
      simp [hmid, show b < 16 by omega, show b - 7 < 16 by omega, show b - 7 < 5 by omega,
        Nat.not_lt.2 hhigh]
    · rw [hten]
      rcases Nat.lt_or_ge b 16 with hlt | hge
      · rw [hmask (b - 7) (by omega)]
        simp [Nat.not_lt.2 htop, show ¬ b - 7 < 5 by omega]
      · simp [Nat.not_lt.2 htop, Nat.not_lt.2 hge]

/-! ## The checksum register -/

/-- The register shifted by one bit, before the polynomial is added. -/
def crcShift (crc : BitVec 16) (inp : Bool) : BitVec 16 :=
  (crc <<< 1 ||| (BitVec.ofBool inp).setWidth 16) &&& 0xFFF

theorem crcStep_eq (crc : BitVec 16) (inp : Bool) :
    crcStep crc inp = crcShift crc inp ^^^ if crc.getLsbD 11 then 0xC06 else 0 := by
  rw [crcStep, crcShift]
  cases crc.getLsbD 11 <;> simp

theorem getLsbD_crcShift (crc : BitVec 16) (inp : Bool) (i : ℕ) :
    (crcShift crc inp).getLsbD i =
      (decide (i < 12) && if i = 0 then inp else crc.getLsbD (i - 1)) := by
  have hmask : ∀ i < 16, (0xFFF : BitVec 16).getLsbD i = decide (i < 12) := by decide
  rcases Nat.lt_or_ge i 16 with hlt | hge
  · rw [crcShift, BitVec.getLsbD_and, hmask i hlt, BitVec.getLsbD_or, BitVec.getLsbD_shiftLeft,
      Bool.and_comm]
    rcases Nat.eq_zero_or_pos i with rfl | hpos
    · cases inp <;> rfl
    · have hlow : (BitVec.setWidth 16 (BitVec.ofBool inp)).getLsbD i = false := by
        rw [BitVec.getLsbD_setWidth, BitVec.getLsbD_of_ge _ i hpos, Bool.and_false]
      rw [hlow, if_neg (Nat.ne_of_gt hpos), Bool.or_false]
      simp [hlt, Nat.ne_of_gt hpos]
  · rw [BitVec.getLsbD_of_ge _ i hge, decide_eq_false (by omega), Bool.false_and]

theorem linearStep_crcShift : Gf2.LinearStep crcShift := by
  intro crc crc' inp inp'
  refine BitVec.eq_of_getLsbD_eq fun i _ => ?_
  rw [BitVec.getLsbD_xor, getLsbD_crcShift, getLsbD_crcShift, getLsbD_crcShift,
    ← Bool.and_xor_distrib_left]
  congr 1
  split_ifs
  · rfl
  · exact BitVec.getLsbD_xor

theorem linearStep_crcStep : Gf2.LinearStep crcStep := by
  intro crc crc' inp inp'
  rw [crcStep_eq, crcStep_eq, crcStep_eq, linearStep_crcShift, BitVec.getLsbD_xor]
  have hpoly : (if xor (crc.getLsbD 11) (crc'.getLsbD 11) then (0xC06 : BitVec 16) else 0) =
      (if crc.getLsbD 11 then 0xC06 else 0) ^^^ (if crc'.getLsbD 11 then 0xC06 else 0) := by
    cases crc.getLsbD 11 <;> cases crc'.getLsbD 11 <;> simp
  rw [hpoly]
  ac_rfl

/-- The register keeps to 12 bits. -/
theorem getLsbD_crcStep_of_ge (crc : BitVec 16) (inp : Bool) {i : ℕ} (hi : 12 ≤ i) :
    (crcStep crc inp).getLsbD i = false := by
  have hconst : ∀ i < 16, 12 ≤ i →
      (if crc.getLsbD 11 then (0xC06 : BitVec 16) else 0).getLsbD i = false := by
    cases crc.getLsbD 11 <;> decide
  rcases Nat.lt_or_ge i 16 with hlt | hge
  · rw [crcStep_eq, BitVec.getLsbD_xor, hconst i hlt hi, getLsbD_crcShift,
      decide_eq_false (Nat.not_lt.2 hi)]
    rfl
  · exact BitVec.getLsbD_of_ge _ i hge

theorem getLsbD_shiftIn_crcStep_of_ge (f : ℕ → Bool) (len : ℕ) {i : ℕ} (hi : 12 ≤ i) :
    (Gf2.shiftIn crcStep f len).getLsbD i = false := by
  cases len with
  | zero => exact BitVec.getLsbD_zero
  | succ len =>
    rw [Gf2.shiftIn_succ]
    exact getLsbD_crcStep_of_ge _ _ hi

/-- The bytes go through the register bit by bit. -/
theorem crc12_augmented_eq (data : List (BitVec 8)) (nbytes : ℕ) :
    crc12_augmented data nbytes =
      Gf2.shiftIn crcStep (fun m => (data.getD (m / 8) 0).getLsbD (7 - m % 8)) (8 * nbytes) ^^^
        42 := by
  rw [crc12_augmented]
  congr 1
  induction nbytes with
  | zero => rfl
  | succ n ih =>
    rw [List.range_succ, List.foldl_append, ih, Nat.mul_succ, Gf2.shiftIn_add]
    have hbit : ∀ c : BitVec 16, ∀ k ∈ List.range 8,
        crcStep c ((data.getD n 0).getLsbD (7 - k)) =
          crcStep c ((data.getD ((8 * n + k) / 8) 0).getLsbD (7 - (8 * n + k) % 8)) := by
      intro c k hk
      have hlt := List.mem_range.1 hk
      rw [show (8 * n + k) / 8 = n by omega, show (8 * n + k) % 8 = k by omega]
    exact List.foldl_ext _ _ _ hbit

/-! ## The check -/

/-- The bits the checksum register runs over: the payload and then zeros. -/
def payloadBit (decoded_bits : List Bool) (i : ℕ) : Bool :=
  decide (i < 75) && decoded_bits.getD i false

theorem getLsbD_clearCrc (decoded_bits : List Bool) {i : ℕ} (hi : i < 88) :
    ((clearCrc (packBits decoded_bits)).getD (i / 8) 0).getLsbD (7 - i % 8) =
      payloadBit decoded_bits i := by
  have hmask : ∀ t < 8, (0xE0 : BitVec 8).getLsbD (7 - t) = decide (t < 3) := by decide
  have hlen : i / 8 < (packBits decoded_bits).length := by
    rw [length_packBits]
    omega
  have hbit := getLsbD_packBits decoded_bits hi
  rw [List.getD_eq_getElem?_getD, List.getElem?_eq_getElem hlen, Option.getD_some] at hbit
  rw [List.getD_eq_getElem?_getD, clearCrc, List.getElem?_set, List.getElem?_modify,
    List.getElem?_eq_getElem hlen, payloadBit]
  -- byte 9 keeps its three payload bits, byte 10 is cleared whole
  rcases Nat.lt_trichotomy (i / 8) 9 with hlow | hnine | hten
  · rw [if_neg (by omega)]
    simp only [Option.map_eq_map, Option.map_some, Option.getD_some, if_neg (Nat.ne_of_gt hlow)]
    rw [hbit, decide_eq_true (show i < 87 by omega), decide_eq_true (show i < 75 by omega)]
  · rw [if_neg (by omega)]
    simp only [Option.map_eq_map, Option.map_some, Option.getD_some, if_pos hnine.symm]
    rw [BitVec.getLsbD_and, hbit, hmask (i % 8) (Nat.mod_lt i (by decide)),
      decide_eq_true (show i < 87 by omega), Bool.true_and, Bool.and_comm]
    congr 1
    exact decide_eq_decide.2 ⟨fun _ => by omega, fun _ => by omega⟩
  · rw [if_pos (by omega), if_pos (by rw [List.length_modify, length_packBits]; decide),
      Option.getD_some, decide_eq_false (show ¬ i < 75 by omega), Bool.false_and]
    exact BitVec.getLsbD_zero

/-- The checksum of the payload, complemented in the bits of 42. -/
def payloadCrc (decoded_bits : List Bool) : BitVec 16 :=
  Gf2.shiftIn crcStep (payloadBit decoded_bits) 88 ^^^ 42

theorem crc12_augmented_clearCrc (decoded_bits : List Bool) :
    crc12_augmented (clearCrc (packBits decoded_bits)) 11 = payloadCrc decoded_bits := by
  rw [crc12_augmented_eq, payloadCrc]
  congr 1
  exact Gf2.shiftIn_congr fun i hi => getLsbD_clearCrc decoded_bits hi

/-- The check compares the last 12 bits with the checksum of the payload. -/
theorem checkCRC12_iff (decoded_bits : List Bool) :
    checkCRC12 decoded_bits = true ↔
      ∀ k < 12, decoded_bits.getD (75 + k) false = (payloadCrc decoded_bits).getLsbD (11 - k) := by
  -- the constant leaves the bits from the twelfth on clear, as the register does
  have hconst : ∀ b < 16, 12 ≤ b → (42 : BitVec 16).getLsbD b = false := by decide
  rw [checkCRC12, beq_iff_eq, crc12_augmented_clearCrc]
  constructor
  · intro h k hk
    rw [← h, getLsbD_receivedCrc, decide_eq_true (by omega), Bool.true_and]
    congr 1
    omega
  · intro h
    refine BitVec.eq_of_getLsbD_eq fun b hb => ?_
    rw [getLsbD_receivedCrc]
    rcases Nat.lt_or_ge b 12 with hlt | hge
    · have hk := h (11 - b) (by omega)
      rw [show 75 + (11 - b) = 86 - b by omega, show 11 - (11 - b) = b by omega] at hk
      rw [decide_eq_true hlt, Bool.true_and, hk]
    · rw [decide_eq_false (Nat.not_lt.2 hge), Bool.false_and, payloadCrc, BitVec.getLsbD_xor,
        getLsbD_shiftIn_crcStep_of_ge _ _ hge, hconst b hb hge, Bool.false_xor]

/-! ## The syndrome -/

/-- The register after the payload with the received checksum added. -/
def syndrome (decoded_bits : List Bool) : BitVec 16 :=
  Gf2.shiftIn crcStep (payloadBit decoded_bits) 88 ^^^
    Gf2.shiftIn crcShift (fun k => decoded_bits.getD (75 + k) false) 12

theorem getLsbD_shiftIn_crcShift (f : ℕ → Bool) (len : ℕ) {b : ℕ} (hb : b < 12) :
    (Gf2.shiftIn crcShift f len).getLsbD b = (decide (b < len) && f (len - 1 - b)) := by
  induction len generalizing b with
  | zero => exact BitVec.getLsbD_zero
  | succ len ih =>
    rw [Gf2.shiftIn_succ, getLsbD_crcShift, decide_eq_true hb, Bool.true_and]
    split_ifs with hzero
    · rw [hzero]
      simp
    · rw [ih (by omega), show len - 1 - (b - 1) = len + 1 - 1 - b by omega]
      congr 1
      exact decide_eq_decide.2 (by omega)

theorem receivedCrc_eq (decoded_bits : List Bool) :
    receivedCrc (packBits decoded_bits) =
      Gf2.shiftIn crcShift (fun k => decoded_bits.getD (75 + k) false) 12 := by
  refine BitVec.eq_of_getLsbD_eq fun b _ => ?_
  rw [getLsbD_receivedCrc]
  rcases Nat.lt_or_ge b 12 with hlt | hge
  · rw [getLsbD_shiftIn_crcShift _ _ hlt]
    congr 2
    omega
  · rw [decide_eq_false (Nat.not_lt.2 hge), Bool.false_and, Gf2.shiftIn_succ, getLsbD_crcShift,
      decide_eq_false (Nat.not_lt.2 hge), Bool.false_and]

theorem checkCRC12_iff_syndrome (decoded_bits : List Bool) :
    checkCRC12 decoded_bits = true ↔ syndrome decoded_bits = 42 := by
  rw [checkCRC12, beq_iff_eq, crc12_augmented_clearCrc, receivedCrc_eq, payloadCrc, syndrome]
  constructor
  · intro h
    rw [h, ← BitVec.xor_assoc, BitVec.xor_self]
    rfl
  · intro h
    rw [← h, ← BitVec.xor_assoc, BitVec.xor_self]
    simp

/-- The syndrome of a single bit. -/
def bitSyndrome (i : ℕ) : BitVec 16 :=
  if i < 75 then Gf2.echo crcStep (87 - i) else Gf2.echo crcShift (86 - i)

/-- The syndrome is the combination of the syndromes of the single bits. -/
theorem syndrome_eq_combine (decoded_bits : List Bool) :
    syndrome decoded_bits = Gf2.combine ((List.range 87).map bitSyndrome)
      ((List.range 87).map fun i => decoded_bits.getD i false) := by
  -- the zeros after the 75 payload bits move the register on, but add no echo of their own
  have hpayload : Gf2.shiftIn crcStep (payloadBit decoded_bits) 88 =
      Gf2.combine ((List.range 75).map bitSyndrome)
        ((List.range 75).map fun i => decoded_bits.getD i false) := by
    have hzero : ∀ i, i < 0 ∨ 0 + 75 ≤ i → payloadBit decoded_bits i = false := by
      intro i hi
      rw [payloadBit, decide_eq_false (by omega), Bool.false_and]
    have hlt : ∀ i ∈ List.range' 0 75, i < 75 := by
      intro i hi
      simpa using (List.mem_range'_1.1 hi).2
    have hrows : (List.range' 0 75).map (fun i => Gf2.echo crcStep (88 - 1 - i)) =
        (List.range' 0 75).map bitSyndrome :=
      List.map_congr_left fun i hi => by rw [bitSyndrome, if_pos (hlt i hi)]
    have hbits : (List.range' 0 75).map (payloadBit decoded_bits) =
        (List.range' 0 75).map fun i => decoded_bits.getD i false :=
      List.map_congr_left fun i hi => by
        rw [payloadBit, decide_eq_true (hlt i hi), Bool.true_and]
    rw [Gf2.shiftIn_eq_combine linearStep_crcStep,
      Gf2.combine_range_window (p := 0) (k := 75) _ (by decide) hzero, hrows, hbits,
      List.range_eq_range']
  -- the twelve check bits are shifted in with no reduction
  have hreceived : Gf2.shiftIn crcShift (fun k => decoded_bits.getD (75 + k) false) 12 =
      Gf2.combine (((List.range 12).map (75 + ·)).map bitSyndrome)
        (((List.range 12).map (75 + ·)).map fun i => decoded_bits.getD i false) := by
    have hrows : (List.range 12).map (fun k => Gf2.echo crcShift (12 - 1 - k)) =
        (List.range 12).map (bitSyndrome ∘ (75 + ·)) := by
      refine List.map_congr_left fun k _ => ?_
      rw [Function.comp_apply, bitSyndrome, if_neg (by omega),
        show 86 - (75 + k) = 12 - 1 - k by omega]
    rw [Gf2.shiftIn_eq_combine linearStep_crcShift, List.map_map, List.map_map, hrows]
    rfl
  rw [syndrome, hpayload, hreceived, ← Gf2.combine_append (by simp), ← List.map_append,
    ← List.map_append, ← List.range_add]

theorem syndrome_zipWith_xor {decoded_bits error : List Bool}
    (hlen : decoded_bits.length = error.length) :
    syndrome (List.zipWith xor decoded_bits error) = syndrome decoded_bits ^^^ syndrome error := by
  have hbit : ∀ i, (List.zipWith xor decoded_bits error).getD i false =
      xor (decoded_bits.getD i false) (error.getD i false) := by
    intro i
    simp only [List.getD_eq_getElem?_getD, List.getElem?_zipWith]
    rcases Nat.lt_or_ge i decoded_bits.length with hlt | hge
    · rw [List.getElem?_eq_getElem hlt, List.getElem?_eq_getElem (hlen ▸ hlt)]
      rfl
    · rw [List.getElem?_eq_none hge, List.getElem?_eq_none (hlen ▸ hge)]
      rfl
  rw [syndrome_eq_combine, syndrome_eq_combine, syndrome_eq_combine,
    ← Gf2.combine_xor _ (by simp), List.zipWith_map, List.zipWith_self]
  simp only [hbit]

/-- The syndromes of 10 consecutive bits are independent. -/
theorem independent_bitSyndrome :
    ∀ p < 78, Gf2.Independent ((List.range' p 10).map bitSyndrome) := by
  have hcheck : ∀ p < 78, Gf2.independentCheck 10 ((List.range' p 10).map bitSyndrome) = true := by
    decide +kernel
  exact fun p hp => Gf2.independent_of_check (hcheck p hp)

/-- A burst of up to 10 positions has a syndrome of its own. -/
theorem syndrome_ne_zero_of_burst {error : List Bool} {p : ℕ} (hp : p < 78) (herror : true ∈ error)
    (hburst : ∀ i, error.getD i false = true → p ≤ i ∧ i < p + 10) : syndrome error ≠ 0 := by
  intro hzero
  rw [syndrome_eq_combine, Gf2.combine_range_window (p := p) (k := 10) _ (by omega)] at hzero
  · obtain ⟨i, hi, hbit⟩ := List.mem_iff_getElem.1 herror
    have hset : error.getD i false = true := by
      rw [List.getD_eq_getElem?_getD, List.getElem?_eq_getElem hi, hbit]
      rfl
    have hclear := independent_bitSyndrome p hp _ (by simp) hzero
    exact hclear (List.mem_map.2 ⟨i, List.mem_range'_1.2 (hburst i hset), hset⟩)
  · intro i hi
    refine Bool.eq_false_iff.2 fun hset => ?_
    have := hburst i hset
    omega

/-- The checksum bits that go with a payload. -/
def crcTail (payload : List Bool) : List Bool :=
  (List.range 12).map fun k => (payloadCrc payload).getLsbD (11 - k)

theorem payloadCrc_append {payload : List Bool} (h : payload.length = 75) (tail : List Bool) :
    payloadCrc (payload ++ tail) = payloadCrc payload := by
  rw [payloadCrc, payloadCrc]
  congr 1
  refine Gf2.shiftIn_congr fun i _ => ?_
  rw [payloadBit, payloadBit]
  rcases Nat.lt_or_ge i 75 with hlt | hge
  · rw [List.getD_append _ _ _ _ (by omega)]
  · rw [decide_eq_false (Nat.not_lt.2 hge), Bool.false_and, Bool.false_and]

theorem checkCRC12_append_iff {payload tail : List Bool} (hpayload : payload.length = 75)
    (htail : tail.length = 12) : checkCRC12 (payload ++ tail) = true ↔ tail = crcTail payload := by
  have hget : ∀ k, (payload ++ tail).getD (75 + k) false = tail.getD k false := by
    intro k
    rw [List.getD_append_right _ _ _ _ (by omega), hpayload, Nat.add_sub_cancel_left]
  rw [checkCRC12_iff, payloadCrc_append hpayload]
  constructor
  · intro h
    refine List.ext_getElem (by simp [crcTail, htail]) fun k hk _ => ?_
    have hbit := h k (htail ▸ hk)
    rw [hget, List.getD_eq_getElem?_getD, List.getElem?_eq_getElem hk, Option.getD_some] at hbit
    simp [crcTail, hbit]
  · rintro rfl k hk
    rw [hget, List.getD_eq_getElem?_getD, List.getElem?_eq_getElem (by simpa [crcTail] using hk)]
    simp [crcTail]

/-- Every payload has exactly one accepted checksum, and no accepted frame stays accepted when an
error changes bits within 10 consecutive positions. -/
theorem checkCRC12_tail_and_burst :
    (∀ payload : List Bool, payload.length = 75 →
      ∃! tail : List Bool, tail.length = 12 ∧ checkCRC12 (payload ++ tail) = true) ∧
    ∀ decoded_bits error : List Bool, decoded_bits.length = 87 → error.length = 87 →
      true ∈ error → ∀ p, p + 10 ≤ 87 →
      (∀ i, error.getD i false = true → p ≤ i ∧ i < p + 10) →
      checkCRC12 decoded_bits = true →
        checkCRC12 (List.zipWith xor decoded_bits error) = false := by
  constructor
  · intro payload hpayload
    have htail : (crcTail payload).length = 12 := by simp [crcTail]
    exact ⟨crcTail payload, ⟨htail, (checkCRC12_append_iff hpayload htail).2 rfl⟩,
      fun tail ⟨hlen, hcheck⟩ => (checkCRC12_append_iff hpayload hlen).1 hcheck⟩
  · intro decoded_bits error hbits herror hmem p hp hburst hcheck
    refine Bool.eq_false_iff.2 fun hcorrupt => ?_
    -- the syndrome of the sum is the constant plus the error's own, so the burst's would be zero
    rw [checkCRC12_iff_syndrome, syndrome_zipWith_xor (hbits.trans herror.symm),
      (checkCRC12_iff_syndrome _).1 hcheck] at hcorrupt
    refine syndrome_ne_zero_of_burst (by omega) hmem hburst ?_
    have hcancel := congrArg (42 ^^^ ·) hcorrupt
    simpa [← BitVec.xor_assoc] using hcancel

end GranolaSdr.Js8
