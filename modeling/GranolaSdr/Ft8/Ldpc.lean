import GranolaSdr.Ft8.Encode

/-!
# The parity checks of the FT8 decoder

The tables of `src/ft8_lib/ft8/constants.c` and the test of `src/ft8_lib/ft8/ldpc.c`, with which the
belief propagation ends. The tables name the bits and checks as those of the decoder on the graphics
processor do, but count from 1.

## Main definitions

* `kFTX_LDPC_Nm`, `kFTX_LDPC_Mn`, `kFTX_LDPC_Num_rows`: the tables;
* `ldpc_check`: the number of parity errors;
* `unpacked`: a word with one byte for each bit.

## Main results

* `ldpc_check_iff`: the words without parity errors are those that the encoder makes.
-/

namespace GranolaSdr.Ft8.Ldpc

open PackedBits Crc14 Encode Cuda.Osd Cuda.Ldpc

/-- The bits of each check, counted from 1 and padded with 0. -/
def kFTX_LDPC_Nm : List (List ℕ) :=
  [[4, 31, 59, 91, 92, 96, 153], [5, 32, 60, 93, 115, 146, 0], [6, 24, 61, 94, 122, 151, 0],
   [7, 33, 62, 95, 96, 143, 0], [8, 25, 63, 83, 93, 96, 148], [6, 32, 64, 97, 126, 138, 0],
   [5, 34, 65, 78, 98, 107, 154], [9, 35, 66, 99, 139, 146, 0], [10, 36, 67, 100, 107, 126, 0],
   [11, 37, 67, 87, 101, 139, 158], [12, 38, 68, 102, 105, 155, 0], [13, 39, 69, 103, 149, 162, 0],
   [8, 40, 70, 82, 104, 114, 145], [14, 41, 71, 88, 102, 123, 156], [15, 42, 59, 106, 123, 159, 0],
   [1, 33, 72, 106, 107, 157, 0], [16, 43, 73, 108, 141, 160, 0], [17, 37, 74, 81, 109, 131, 154],
   [11, 44, 75, 110, 121, 166, 0], [45, 55, 64, 111, 130, 161, 173], [8, 46, 71, 112, 119, 166, 0],
   [18, 36, 76, 89, 113, 114, 143], [19, 38, 77, 104, 116, 163, 0], [20, 47, 70, 92, 138, 165, 0],
   [2, 48, 74, 113, 128, 160, 0], [21, 45, 78, 83, 117, 121, 151], [22, 47, 58, 118, 127, 164, 0],
   [16, 39, 62, 112, 134, 158, 0], [23, 43, 79, 120, 131, 145, 0], [19, 35, 59, 73, 110, 125, 161],
   [20, 36, 63, 94, 136, 161, 0], [14, 31, 79, 98, 132, 164, 0], [3, 44, 80, 124, 127, 169, 0],
   [19, 46, 81, 117, 135, 167, 0], [7, 49, 58, 90, 100, 105, 168], [12, 50, 61, 118, 119, 144, 0],
   [13, 51, 64, 114, 118, 157, 0], [24, 52, 76, 129, 148, 149, 0], [25, 53, 69, 90, 101, 130, 156],
   [20, 46, 65, 80, 120, 140, 170], [21, 54, 77, 100, 140, 171, 0], [35, 82, 133, 142, 171, 174, 0],
   [14, 30, 83, 113, 125, 170, 0], [4, 29, 68, 120, 134, 173, 0], [1, 4, 52, 57, 86, 136, 152],
   [26, 51, 56, 91, 122, 137, 168], [52, 84, 110, 115, 145, 168, 0], [7, 50, 81, 99, 132, 173, 0],
   [23, 55, 67, 95, 172, 174, 0], [26, 41, 77, 109, 141, 148, 0], [2, 27, 41, 61, 62, 115, 133],
   [27, 40, 56, 124, 125, 126, 0], [18, 49, 55, 124, 141, 167, 0], [6, 33, 85, 108, 116, 156, 0],
   [28, 48, 70, 85, 105, 129, 158], [9, 54, 63, 131, 147, 155, 0], [22, 53, 68, 109, 121, 174, 0],
   [3, 13, 48, 78, 95, 123, 0], [31, 69, 133, 150, 155, 169, 0], [12, 43, 66, 89, 97, 135, 159],
   [5, 39, 75, 102, 136, 167, 0], [2, 54, 86, 101, 135, 164, 0], [15, 56, 87, 108, 119, 171, 0],
   [10, 44, 82, 91, 111, 144, 149], [23, 34, 71, 94, 127, 153, 0], [11, 49, 88, 92, 142, 157, 0],
   [29, 34, 87, 97, 147, 162, 0], [30, 50, 60, 86, 137, 142, 162], [10, 53, 66, 84, 112, 128, 165],
   [22, 57, 85, 93, 140, 159, 0], [28, 32, 72, 103, 132, 166, 0], [28, 29, 84, 88, 117, 143, 150],
   [1, 26, 45, 80, 128, 147, 0], [17, 27, 89, 103, 116, 153, 0], [51, 57, 98, 163, 165, 172, 0],
   [21, 37, 73, 138, 152, 169, 0], [16, 47, 76, 130, 137, 154, 0], [3, 24, 30, 72, 104, 139, 0],
   [9, 40, 90, 106, 134, 151, 0], [15, 58, 60, 74, 111, 150, 163], [18, 42, 79, 144, 146, 152, 0],
   [25, 38, 65, 99, 122, 160, 0], [17, 42, 75, 129, 170, 172, 0]]

/-- The checks of each bit, counted from 1. -/
def kFTX_LDPC_Mn : List (List ℕ) :=
  [[16, 45, 73], [25, 51, 62], [33, 58, 78], [1, 44, 45], [2, 7, 61], [3, 6, 54], [4, 35, 48],
   [5, 13, 21], [8, 56, 79], [9, 64, 69], [10, 19, 66], [11, 36, 60], [12, 37, 58], [14, 32, 43],
   [15, 63, 80], [17, 28, 77], [18, 74, 83], [22, 53, 81], [23, 30, 34], [24, 31, 40], [26, 41, 76],
   [27, 57, 70], [29, 49, 65], [3, 38, 78], [5, 39, 82], [46, 50, 73], [51, 52, 74], [55, 71, 72],
   [44, 67, 72], [43, 68, 78], [1, 32, 59], [2, 6, 71], [4, 16, 54], [7, 65, 67], [8, 30, 42],
   [9, 22, 31], [10, 18, 76], [11, 23, 82], [12, 28, 61], [13, 52, 79], [14, 50, 51], [15, 81, 83],
   [17, 29, 60], [19, 33, 64], [20, 26, 73], [21, 34, 40], [24, 27, 77], [25, 55, 58], [35, 53, 66],
   [36, 48, 68], [37, 46, 75], [38, 45, 47], [39, 57, 69], [41, 56, 62], [20, 49, 53], [46, 52, 63],
   [45, 70, 75], [27, 35, 80], [1, 15, 30], [2, 68, 80], [3, 36, 51], [4, 28, 51], [5, 31, 56],
   [6, 20, 37], [7, 40, 82], [8, 60, 69], [9, 10, 49], [11, 44, 57], [12, 39, 59], [13, 24, 55],
   [14, 21, 65], [16, 71, 78], [17, 30, 76], [18, 25, 80], [19, 61, 83], [22, 38, 77], [23, 41, 50],
   [7, 26, 58], [29, 32, 81], [33, 40, 73], [18, 34, 48], [13, 42, 64], [5, 26, 43], [47, 69, 72],
   [54, 55, 70], [45, 62, 68], [10, 63, 67], [14, 66, 72], [22, 60, 74], [35, 39, 79], [1, 46, 64],
   [1, 24, 66], [2, 5, 70], [3, 31, 65], [4, 49, 58], [1, 4, 5], [6, 60, 67], [7, 32, 75],
   [8, 48, 82], [9, 35, 41], [10, 39, 62], [11, 14, 61], [12, 71, 74], [13, 23, 78], [11, 35, 55],
   [15, 16, 79], [7, 9, 16], [17, 54, 63], [18, 50, 57], [19, 30, 47], [20, 64, 80], [21, 28, 69],
   [22, 25, 43], [13, 22, 37], [2, 47, 51], [23, 54, 74], [26, 34, 72], [27, 36, 37], [21, 36, 63],
   [29, 40, 44], [19, 26, 57], [3, 46, 82], [14, 15, 58], [33, 52, 53], [30, 43, 52], [6, 9, 52],
   [27, 33, 65], [25, 69, 73], [38, 55, 83], [20, 39, 77], [18, 29, 56], [32, 48, 71], [42, 51, 59],
   [28, 44, 79], [34, 60, 62], [31, 45, 61], [46, 68, 77], [6, 24, 76], [8, 10, 78], [40, 41, 70],
   [17, 50, 53], [42, 66, 68], [4, 22, 72], [36, 64, 81], [13, 29, 47], [2, 8, 81], [56, 67, 73],
   [5, 38, 50], [12, 38, 64], [59, 72, 80], [3, 26, 79], [45, 76, 81], [1, 65, 74], [7, 18, 77],
   [11, 56, 59], [14, 39, 54], [16, 37, 66], [10, 28, 55], [15, 60, 70], [17, 25, 82], [20, 30, 31],
   [12, 67, 68], [23, 75, 80], [27, 32, 62], [24, 69, 75], [19, 21, 71], [34, 53, 61], [35, 46, 47],
   [33, 59, 76], [40, 43, 83], [41, 42, 63], [49, 75, 83], [20, 44, 48], [42, 49, 57]]

/-- The number of bits of each check. -/
def kFTX_LDPC_Num_rows : List ℕ :=
  [7, 6, 6, 6, 7, 6, 7, 6, 6, 7, 6, 6, 7, 7, 6, 6, 6, 7, 6, 7, 6, 7, 6, 6, 6, 7, 6, 6, 6, 7, 6, 6,
   6, 6, 7, 6, 6, 6, 7, 7, 6, 6, 6, 6, 7, 7, 6, 6, 6, 6, 7, 6, 6, 6, 7, 6, 6, 6, 6, 7, 6, 6, 6, 7,
   6, 6, 6, 7, 7, 6, 6, 7, 6, 6, 6, 6, 6, 6, 6, 7, 6, 6, 6]

/-- Bit `i` of check `m`, counted from 0. -/
def bitOf (m i : ℕ) : ℕ := (kFTX_LDPC_Nm.getD m []).getD i 0 - 1

/-- Check `j` of bit `n`, counted from 0. -/
def checkOf (n j : ℕ) : ℕ := (kFTX_LDPC_Mn.getD n []).getD j 0 - 1

def num_rows (m : ℕ) : ℕ := kFTX_LDPC_Num_rows.getD m 0

/-- The sum of the bits of a check. -/
def checkSum (codeword : List UInt8) (m : ℕ) : UInt8 :=
  (List.range (num_rows m)).foldl (fun x i => x ^^^ codeword.getD (bitOf m i) 0) 0

/-- The number of parity errors. -/
def ldpc_check (codeword : List UInt8) : ℕ :=
  (List.range 83).foldl
    (fun errors m => if checkSum codeword m ≠ 0 then errors + 1 else errors) 0

/-- A word with one byte for each bit. -/
def unpacked (f : ℕ → Bool) : List UInt8 := (List.range 174).map fun n => if f n then 1 else 0

/-! ## The tables -/

/-- The tables are those of the decoder on the graphics processor. -/
theorem tables_eq : ∀ m < 83, num_rows m = Ft8.ft8.deg m ∧
    ∀ i < num_rows m, Ft8.ft8.var m i = bitOf m i ∧ bitOf m i < 174 := by decide +kernel

/-! ## The checks -/

theorem getD_unpacked (f : ℕ → Bool) {n : ℕ} (hn : n < 174) :
    (unpacked f).getD n 0 = if f n then 1 else 0 := by
  rw [unpacked, List.getD_eq_getElem _ _ (by simpa using hn), List.getElem_map, List.getElem_range]

theorem plainBit_unpacked (f : ℕ → Bool) {n : ℕ} (hn : n < 174) :
    plainBit (unpacked f) n = f n := by
  rw [plainBit, getD_unpacked f hn]
  cases f n <;> rfl

/-- There are no parity errors when all sums are zero. -/
theorem ldpc_check_eq_zero_iff (codeword : List UInt8) :
    ldpc_check codeword = 0 ↔ ∀ m < 83, checkSum codeword m = 0 := by
  have hloop : ∀ k, (List.range k).foldl
      (fun errors m => if checkSum codeword m ≠ 0 then errors + 1 else errors) 0 = 0 ↔
        ∀ m < k, checkSum codeword m = 0 := by
    intro k
    induction k with
    | zero => simp
    | succ k ih =>
      rw [List.range_succ, List.foldl_append, List.foldl_cons, List.foldl_nil,
        Nat.forall_lt_succ_right, ← ih]
      split_ifs with h
      · simp [h]
      · simpa using fun _ => h
  unfold ldpc_check
  exact hloop 83

/-- The sum of a check is that of the bits it names. -/
theorem checkSum_unpacked (f : ℕ → Bool) {m : ℕ} (hm : m < 83) :
    checkSum (unpacked f) m = 0 ↔ Ft8.ft8.Check m (word f) := by
  obtain ⟨hdeg, hvar⟩ := tables_eq m hm
  -- the sum of bytes that are 0 or 1 is such a byte
  have hloop : ∀ k ≤ num_rows m, ∃ b : Bool,
      (List.range k).foldl (fun x i => x ^^^ (unpacked f).getD (bitOf m i) 0) 0 =
        (if b then 1 else 0) ∧
      Gf2.bit b = (((List.range k).map fun i => f (bitOf m i)).map Gf2.bit).sum := by
    intro k hk
    induction k with
    | zero => exact ⟨false, rfl, rfl⟩
    | succ k ih =>
      obtain ⟨b, hfold, hsum⟩ := ih (by omega)
      refine ⟨xor b (f (bitOf m k)), ?_, ?_⟩
      · rw [List.range_succ, List.foldl_append, hfold, List.foldl_cons, List.foldl_nil,
          getD_unpacked f (hvar k (by omega)).2]
        cases b <;> cases f (bitOf m k) <;> rfl
      · rw [List.range_succ, List.map_append, List.map_append, List.sum_append, ← hsum,
          Gf2.bit_xor]
        simp
  have hones : Ft8.ft8.ones m (word f) =
      (((List.range (num_rows m)).map fun i => f (bitOf m i)).map Bool.toNat).sum := by
    rw [Tables.ones, ← hdeg, List.map_map]
    congr 1
    apply List.map_congr_left
    intro i hi
    obtain ⟨hname, hlt⟩ := hvar i (List.mem_range.1 hi)
    have hdecision : Tables.decision (word f) (bitOf m i : ℕ) = f (bitOf m i) := by
      rw [Tables.decision, if_pos (Int.natCast_nonneg _), Int.toNat_natCast,
        List.getD_eq_getElem _ _ (by simpa using hlt)]
      exact get_word f ⟨bitOf m i, hlt⟩
    show (Tables.decision (word f) (Ft8.ft8.var m i)).toNat = (f (bitOf m i)).toNat
    rw [hname, hdecision]
  obtain ⟨b, hfold, hsum⟩ := hloop _ le_rfl
  rw [checkSum, hfold, Tables.Check, hones, Gf2.sum_toNat_and_one_eq_zero_iff, ← hsum]
  cases b <;> decide

theorem ldpc_check_iff_check (f : ℕ → Bool) :
    ldpc_check (unpacked f) = 0 ↔ ∀ m < Ft8.ft8.M, Ft8.ft8.Check m (word f) := by
  rw [ldpc_check_eq_zero_iff]
  exact forall₂_congr fun m hm => checkSum_unpacked f hm

/-- The bits of message and checksum, packed. -/
def message91 (f : ℕ → Bool) : List UInt8 := pack_bits (unpacked f) 91

theorem bit_message91 (f : ℕ → Bool) (n : ℕ) :
    bit (message91 f) n = (decide (n < 91) && f n) := by
  rw [message91, bit_pack_bits]
  by_cases hn : n < 91
  · rw [plainBit_unpacked f (by omega)]
  · rw [decide_eq_false hn, Bool.false_and, Bool.false_and]

/-- A word has no parity errors exactly when it is what the encoder makes of its first 91 bits. -/
theorem ldpc_check_unpacked (f : ℕ → Bool) :
    ldpc_check (unpacked f) = 0 ↔ ∀ n < 174, f n = bit (encode174 (message91 f)) n := by
  have hpad : ∀ n, 91 ≤ n → n < 96 → bit (message91 f) n = false := by
    intro n hn _
    rw [bit_message91, decide_eq_false (by omega), Bool.false_and]
  -- the combination has the first 91 bits of the word as its coefficients
  have hcoeff : ∀ r : Fin Ft8.FTX_LDPC_K,
      (word f).get (Fin.ofNat N (0 + r)) = bit (message91 f) r := by
    intro r
    have hlt : (r : ℕ) < N := r.isLt.trans (by decide)
    have hpos : Fin.ofNat N (0 + r) = ⟨r, hlt⟩ := by
      rw [Nat.zero_add]
      exact ofNat_eq_mk hlt
    rw [hpos, get_word, bit_message91, decide_eq_true r.isLt, Bool.true_and]
  rw [ldpc_check_iff_check, Ft8.agree.check_iff, Ft8.agree.mem_span_iff]
  simp only [hcoeff]
  rw [← wordVec_encode174 hpad]
  constructor
  · intro h n hn
    have hn' := congrFun h ⟨n, hn⟩
    rwa [wordVec, wordVec, Gf2.bit_inj, get_word, get_word] at hn'
  · intro h
    ext p
    rw [wordVec, wordVec, get_word, get_word, h p p.isLt]

/-- The message bits of a codeword. -/
theorem message91_of_codeword {f : ℕ → Bool} {message : List UInt8} (hlen : message.length = 12)
    (hpad : ∀ n, 91 ≤ n → bit message n = false)
    (hf : ∀ n < 174, f n = bit (encode174 message) n) : message91 f = message := by
  apply ext_bits
  · rw [hlen]
    exact length_pack_bits ..
  · intro n hn
    rw [bit_message91]
    by_cases h : n < 91
    · rw [decide_eq_true h, Bool.true_and, hf n (by omega),
        bit_encode174 (fun n hn _ => hpad n hn) (by omega), if_pos h]
    · rw [decide_eq_false h, Bool.false_and, hpad n (by omega)]

/-- The words without parity errors are those that the encoder makes. -/
theorem ldpc_check_iff (f : ℕ → Bool) :
    ldpc_check (unpacked f) = 0 ↔ ∃ message : List UInt8, message.length = 12 ∧
      (∀ n, 91 ≤ n → bit message n = false) ∧ ∀ n < 174, f n = bit (encode174 message) n := by
  rw [ldpc_check_unpacked]
  constructor
  · intro h
    refine ⟨message91 f, length_pack_bits .., fun n hn => ?_, h⟩
    rw [bit_message91, decide_eq_false (by omega), Bool.false_and]
  · rintro ⟨message, hlen, hpad, hf⟩
    rwa [message91_of_codeword hlen hpad hf]

end GranolaSdr.Ft8.Ldpc
