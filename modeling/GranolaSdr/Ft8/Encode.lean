import GranolaSdr.Cuda.Ft8Ldpc
import GranolaSdr.Ft8.Crc14

/-!
# The encoder of FT8

`src/ft8_lib/ft8/encode.c`: 83 parity bits are computed from the packed rows of the generator and
set behind the 91 bits of message and checksum.

## Main definitions

* `parity8`, `encode174`: the parity bits;
* `ft8_encode`: from a message to its tones.

## Main results

* `bit_encode174`: the codeword is the message with the generator's parity bits;
* `wordVec_encode174`: it is the combination of the generator's rows.
-/

namespace GranolaSdr.Ft8.Encode

open PackedBits Crc14 Cuda.Osd Cuda.Ldpc.Ft8

/-- One if an odd number of bits is set, and zero otherwise. -/
def parity8 (x : UInt8) : UInt8 :=
  let x := x ^^^ x >>> 4
  let x := x ^^^ x >>> 2
  let x := x ^^^ x >>> 1
  x % 2

/-- `kFTX_LDPC_generator[i]` -/
def generatorRow (i : ℕ) : List UInt8 := (kFTX_LDPC_generator.getD i []).map UInt8.ofNat

/-- The dot product of the message and a row of the generator, modulo 2. -/
def nsum (message : List UInt8) (i : ℕ) : UInt8 :=
  (List.range 12).foldl
    (fun nsum j => nsum ^^^ parity8 (message.getD j 0 &&& (generatorRow i).getD j 0)) 0

/-- The 12 bytes of message and checksum, and the parity bits behind them. -/
def encode174 (message : List UInt8) : List UInt8 :=
  let codeword := (List.range 22).map fun j => if j < 12 then message.getD j 0 else 0
  ((List.range 83).foldl (fun s i => put s (nsum message i % 2 != 0))
    (codeword, ⟨0x80 >>> UInt8.ofNat (91 % 8), 12 - 1⟩)).1

/-- The message with its checksum. -/
def a91 (payload : List UInt8) : List UInt8 := ftx_add_crc payload (List.replicate 12 0)

/-- The tones of a message. -/
def ft8_encode (payload : List UInt8) : Option (List (Fin 8)) :=
  Tones.ft8_tones (encode174 (a91 payload))

/-! ## The parity bits -/

theorem odd_eq_testBit (c : UInt8) : (c % 2 != 0) = c.toNat.testBit 0 := by
  rw [Nat.testBit_zero]
  rcases Nat.mod_two_eq_zero_or_one c.toNat with h | h
  · have hc : c % 2 = 0 := UInt8.toNat_inj.1 h
    rw [hc, h]
    rfl
  · have hc : c % 2 = 1 := UInt8.toNat_inj.1 h
    rw [hc, h]
    rfl

theorem odd_xor (a b : UInt8) : ((a ^^^ b) % 2 != 0) = xor (a % 2 != 0) (b % 2 != 0) := by
  rw [odd_eq_testBit, odd_eq_testBit, odd_eq_testBit, UInt8.toNat_xor, Nat.testBit_xor]

/-- The parity of a byte is the sum of its bits. -/
theorem bit_parity8 (x : UInt8) :
    Gf2.bit (parity8 x % 2 != 0) = ∑ r ∈ Finset.range 8, Gf2.bit (x.toNat.testBit (7 - r)) := by
  have hall : ∀ n < 256, Gf2.bit (parity8 (UInt8.ofNat n) % 2 != 0) =
      ∑ r ∈ Finset.range 8, Gf2.bit ((UInt8.ofNat n).toNat.testBit (7 - r)) := by decide +kernel
  have hx := hall x.toNat x.toNat_lt
  rwa [UInt8.ofNat_toNat] at hx

theorem sum_bytes {M : Type*} [AddCommMonoid M] (f : ℕ → M) (k : ℕ) :
    ∑ j ∈ Finset.range k, ∑ r ∈ Finset.range 8, f (8 * j + r) =
      ∑ n ∈ Finset.range (8 * k), f n := by
  induction k with
  | zero => rfl
  | succ k ih => rw [Finset.sum_range_succ, ih, Nat.mul_succ, Finset.sum_range_add]

/-- A bit of a packed row of the generator. -/
theorem bit_generatorRow (i n : ℕ) : bit (generatorRow i) n = (parityBit i n == 1) := by
  have hbyte : ∀ row : List ℕ, ((row.map UInt8.ofNat).getD (n / 8) 0).toNat =
      row.getD (n / 8) 0 % 2 ^ 8 := by
    intro row
    rw [List.getD_eq_getElem?_getD, List.getElem?_map, List.getD_eq_getElem?_getD]
    cases row[n / 8]? <;> rfl
  have hdiv : n >>> 3 = n / 8 := Nat.shiftRight_eq_div_pow n 3
  have hmod : n &&& 7 = n % 8 := Nat.and_two_pow_sub_one_eq_mod n 3
  rw [bit, generatorRow, hbyte, Nat.testBit_mod_two_pow, decide_eq_true (by omega), Bool.true_and,
    parityBit, hdiv, hmod, Nat.testBit, Nat.and_comm]
  rcases Nat.mod_two_eq_zero_or_one
    ((kFTX_LDPC_generator.getD i []).getD (n / 8) 0 >>> (7 - n % 8)) with h | h
  · rw [Nat.and_one_is_mod, h]
    rfl
  · rw [Nat.and_one_is_mod, h]
    rfl

/-- The sum over the message adds up the products of its bits and those of the row. -/
theorem bit_nsum (message : List UInt8) (i : ℕ) :
    Gf2.bit (nsum message i % 2 != 0) = ∑ n ∈ Finset.range 96,
      Gf2.bit (bit message n && parityBit i n == 1) := by
  have hloop : ∀ k, Gf2.bit ((List.range k).foldl (fun nsum j =>
      nsum ^^^ parity8 (message.getD j 0 &&& (generatorRow i).getD j 0)) 0 % 2 != 0) =
      ∑ j ∈ Finset.range k, ∑ r ∈ Finset.range 8,
        Gf2.bit (bit message (8 * j + r) && parityBit i (8 * j + r) == 1) := by
    intro k
    induction k with
    | zero => rfl
    | succ k ih =>
      rw [List.range_succ, List.foldl_append, List.foldl_cons, List.foldl_nil, odd_xor,
        Gf2.bit_xor, ih, Finset.sum_range_succ, bit_parity8]
      congr 1
      apply Finset.sum_congr rfl
      intro r hr
      have hlt := Finset.mem_range.1 hr
      rw [← bit_generatorRow, UInt8.toNat_and, Nat.testBit_and, bit, bit,
        show (8 * k + r) / 8 = k by omega, show (8 * k + r) % 8 = r by omega]
  rw [nsum, hloop, sum_bytes (fun n => Gf2.bit (bit message n && parityBit i n == 1))]

/-! ## The codeword -/

theorem encode174_eq (message : List UInt8) :
    encode174 message = setWhere (fun i => nsum message i % 2 != 0) 91
      ((List.range 22).map fun j => if j < 12 then message.getD j 0 else 0) 83 :=
  congrArg Prod.fst (foldl_put (fun i => nsum message i % 2 != 0) 91 _ 83)

theorem length_encode174 (message : List UInt8) : (encode174 message).length = 22 := by
  rw [encode174_eq, length_setWhere, List.length_map, List.length_range]

/-- The codeword is the message, and then the parity bits. -/
theorem bit_encode174 {message : List UInt8} (hpad : ∀ n, 91 ≤ n → n < 96 → bit message n = false)
    {n : ℕ} (hn : n < 174) : bit (encode174 message) n =
      if n < 91 then bit message n else nsum message (n - 91) % 2 != 0 := by
  have hcopy : bit ((List.range 22).map fun j => if j < 12 then message.getD j 0 else 0) n =
      (decide (n < 91) && bit message n) := by
    rw [bit, List.getD_eq_getElem _ _ (by simp; omega), List.getElem_map, List.getElem_range]
    by_cases h : n / 8 < 12
    · rw [if_pos h, ← bit]
      by_cases hlt : n < 91
      · rw [decide_eq_true hlt, Bool.true_and]
      · rw [hpad n (by omega) (by omega), Bool.and_false]
    · rw [if_neg h, decide_eq_false (by omega), Bool.false_and, UInt8.toNat_zero,
        Nat.zero_testBit]
  rw [encode174_eq, bit_setWhere (by simp), hcopy]
  split_ifs with hlt
  · rw [decide_eq_false (by omega), decide_eq_true hlt, Bool.false_and, Bool.false_or,
      Bool.true_and]
  · rw [decide_eq_true (by omega), decide_eq_false hlt, Bool.true_and, Bool.false_and,
      Bool.or_false]

/-- The word of a codeword. -/
def word (f : ℕ → Bool) : Vector Bool N := Vector.ofFn fun p => f p

theorem get_word (f : ℕ → Bool) (p : Fin N) : (word f).get p = f p := by
  show (word f)[(p : ℕ)] = f p
  rw [word, Vector.getElem_ofFn]

/-- An entry of the generator: of the identity, or of a packed row. -/
theorem generator_apply (r : Fin FTX_LDPC_K) (p : Fin N) :
    generator FTX_LDPC_K g_ft8_gen r p =
      Gf2.bit (if (p : ℕ) < 91 then decide ((p : ℕ) = r) else parityBit (p - 91) r == 1) := by
  have hcolumn := getLsbD_ft8Column r p
  rw [ft8Column] at hcolumn
  show Gf2.bit (decide (g_ft8_gen (r * N + p) ≠ 0)) = _
  rw [← hcolumn]
  congr 1
  split_ifs with h
  · rw [BitVec.getLsbD_twoPow, decide_eq_true h, Bool.true_and]
  · rw [Gf2.getLsbD_ofBools _ r.isLt, List.getD_eq_getElem _ _ (by simp), List.getElem_map,
      List.getElem_range]

/-- The codeword is the combination of the generator's rows with the bits of the message. -/
theorem wordVec_encode174 {message : List UInt8}
    (hpad : ∀ n, 91 ≤ n → n < 96 → bit message n = false) :
    wordVec (word (bit (encode174 message))) =
      ∑ r : Fin FTX_LDPC_K, Gf2.bit (bit message r) • generator FTX_LDPC_K g_ft8_gen r := by
  ext p
  have hentry : ∀ r : Fin FTX_LDPC_K,
      (Gf2.bit (bit message r) • generator FTX_LDPC_K g_ft8_gen r) p =
        Gf2.bit (bit message r && if (p : ℕ) < 91 then decide ((p : ℕ) = r)
          else parityBit (p - 91) r == 1) := by
    intro r
    rw [Pi.smul_apply, generator_apply, smul_eq_mul]
    cases bit message r
    · exact zero_mul _
    · exact one_mul _
  rw [wordVec, get_word, bit_encode174 hpad p.isLt, Finset.sum_apply,
    Finset.sum_congr rfl fun r _ => hentry r]
  split_ifs with hp
  · -- a bit of the message is the only one of its column
    rw [Finset.sum_eq_single ⟨p, hp⟩ (fun r _ hr => ?_) (fun h => absurd (Finset.mem_univ _) h)]
    · rw [decide_eq_true rfl, Bool.and_true]
    · rw [decide_eq_false fun h => hr (Fin.ext h.symm), Bool.and_false, Gf2.bit_false]
  · have hrest : ∀ k ∈ Finset.range 5,
        Gf2.bit (bit message (91 + k) && parityBit (p - 91) (91 + k) == 1) = 0 := by
      intro k hk
      have hlt := Finset.mem_range.1 hk
      rw [hpad _ (by omega) (by omega), Bool.false_and, Gf2.bit_false]
    rw [bit_nsum, show 96 = 91 + 5 from rfl, Finset.sum_range_add, Finset.sum_eq_zero hrest,
      add_zero, Finset.sum_range]

/-! ## The codeword of a message -/

/-- A message of 77 bits in ten bytes. -/
structure Payload where
  bytes : List UInt8
  length_eq : bytes.length = 10
  padding : ∀ i, 77 ≤ i → i < 80 → bit bytes i = false

/-- Messages with the same bits are the same. -/
theorem Payload.eq_of_bits {bytes : List UInt8} (hlen : bytes.length = 10) (p : Payload)
    (h : ∀ i < 80, bit bytes i = (decide (i < 77) && bit p.bytes i)) : bytes = p.bytes := by
  apply ext_bits (hlen.trans p.length_eq.symm)
  intro i hi
  rw [h i (by omega)]
  by_cases hlt : i < 77
  · rw [decide_eq_true hlt, Bool.true_and]
  · rw [p.padding i (by omega) (by omega), Bool.and_false]

theorem length_a91 (payload : List UInt8) : (a91 payload).length = 12 := by
  rw [a91, length_ftx_add_crc, List.length_replicate]

theorem bit_a91_of_lt (payload : List UInt8) {i : ℕ} (hi : i < 77) :
    bit (a91 payload) i = bit payload i := by
  rw [a91, bit_ftx_add_crc payload List.length_replicate (by omega), if_pos hi]

theorem bit_a91_of_ge (payload : List UInt8) {i : ℕ} (hi : 91 ≤ i) :
    bit (a91 payload) i = false := by
  by_cases h : i < 96
  · rw [a91, bit_ftx_add_crc payload List.length_replicate h, if_neg (by omega),
      decide_eq_false (by omega), Bool.false_and]
  · exact bit_of_le (by rw [length_a91]; omega)

/-- The codeword begins with the message and its checksum. -/
theorem bit_codeword_of_lt (payload : List UInt8) {i : ℕ} (hi : i < 91) :
    bit (encode174 (a91 payload)) i = bit (a91 payload) i := by
  rw [bit_encode174 (fun n hn _ => bit_a91_of_ge payload hn) (by omega), if_pos hi]

/-- Only the message of zeros has a codeword of zeros. -/
theorem codeword_nonzero_iff (payload : List UInt8) :
    (∃ n < 174, bit (encode174 (a91 payload)) n = true) ↔ ∃ i < 77, bit payload i = true := by
  constructor
  · rintro ⟨n, hn, hbit⟩
    by_contra hzero
    have hmessage : ∀ i < 77, bit payload i = false := fun i hi =>
      Bool.eq_false_iff.2 fun h => hzero ⟨i, hi, h⟩
    -- the checksum of zeros is zero
    have hcrc : messageCrc (bit payload) = 0 := by
      have hzeros : messageCrc (bit payload) = messageCrc fun _ => false :=
        messageCrc_congr hmessage
      rw [hzeros]
      decide +kernel
    have ha91 : ∀ i < 91, bit (a91 payload) i = false := by
      intro i hi
      by_cases hlt : i < 77
      · rw [bit_a91_of_lt payload hlt, hmessage i hlt]
      · rw [a91, bit_ftx_add_crc payload List.length_replicate (by omega), if_neg hlt, hcrc]
        simp
    have hvec := congrFun (wordVec_encode174 fun n hn _ => bit_a91_of_ge payload hn) ⟨n, hn⟩
    rw [wordVec, get_word, hbit, Finset.sum_apply, Finset.sum_eq_zero] at hvec
    · exact one_ne_zero hvec
    · intro r _
      rw [ha91 r r.isLt, Gf2.bit_false, zero_smul]
      rfl
  · rintro ⟨i, hi, hbit⟩
    refine ⟨i, by omega, ?_⟩
    rw [bit_codeword_of_lt payload (by omega), bit_a91_of_lt payload hi, hbit]

end GranolaSdr.Ft8.Encode
