import GranolaSdr.Ft8.BeliefPropagation

/-!
# From an FT8 message to its tones and back

What the encoder sends and the receiver demodulates without noise is decoded to the message that was
sent, in the first iteration of the belief propagation.

## Main results

* `ftx_decode_from_llr_reads`: soft decisions with the signs of a message's codeword;
* `ft8_encode_decode`: the whole way;
* `variance_frameBins_ge`: tones without noise are always decoded;
* `decoded_isCodeword`: what any decoder accepts is a codeword with the right checksum.
-/

namespace GranolaSdr.Ft8.RoundTrip

open PackedBits Crc14 Encode Ldpc BeliefPropagation Hf.SoftDemap

open Demapping (Decides)

open Cuda.Osd (N)

theorem entry_zero (i j : ℕ) :
    entry (List.replicate 174 (List.replicate 3 (0.0 : ℝ))) i j = 0 := by
  have hzero : (0.0 : ℝ) = 0 := by norm_num
  rw [entry, hzero, List.getD_eq_getElem?_getD, List.getD_eq_getElem?_getD, List.getElem?_replicate]
  split_ifs
  · rw [Option.getD_some, List.getElem?_replicate]
    split_ifs <;> rfl
  · rfl

/-- In the first iteration the hard decisions are the signs of the soft ones. -/
theorem decision_zero (log174 : ℕ → ℝ) (n : ℕ) : decision log174 0 n = decide (0 < log174 n) := by
  have hzero : (0.0 : ℝ) = 0 := by norm_num
  rw [decision, hard, messages, entry_zero, entry_zero, entry_zero, hzero, add_zero, add_zero,
    add_zero]

/-- Scaling keeps the signs, unless the variance is too small. -/
theorem normalize_pos_iff {log174 : ℕ → ℝ} (h : ¬ variance log174 < 1e-6) (n : ℕ) :
    0 < ftx_normalize_logl Real.sqrt log174 n ↔ 0 < log174 n := by
  have hvar : 0 < variance log174 := lt_of_lt_of_le (by norm_num) (not_lt.1 h)
  have hfactor : 0 < √(24.0 / variance log174) := Real.sqrt_pos.2 (div_pos (by norm_num) hvar)
  rw [ftx_normalize_logl, if_neg h]
  exact mul_pos_iff_of_pos_right hfactor

/-- Soft decisions with the signs of a message's codeword are decoded to the message in the first
iteration, unless the message is zero or the variance too small. -/
theorem ftx_decode_from_llr_reads (p : Payload) {log174 : ℕ → ℝ}
    (h : Reads log174 (Tones.codewordBits (encode174 (a91 p.bytes)))) (max_iterations : ℤ)
    (message : ftx_message_t) (status : ftx_decode_status_t) :
    ((ftx_decode_from_llr Real.sqrt log174 max_iterations message status).1 = true ∧
      (ftx_decode_from_llr Real.sqrt log174 max_iterations message status).2.1.payload = p.bytes) ↔
    (∃ i < 77, bit p.bytes i = true) ∧ 1e-6 ≤ variance log174 ∧ 1 ≤ max_iterations := by
  rw [ftx_decode_from_llr_iff]
  apply and_congr_right
  intro hne
  by_cases hvar : variance log174 < 1e-6
  · -- with soft decisions of zero the loop ends at once
    have hzero : ∀ n, decision (ftx_normalize_logl Real.sqrt log174) 0 n = false := by
      intro n
      rw [decision_zero, ftx_normalize_logl, if_pos hvar]
      norm_num
    constructor
    · rintro ⟨k, -, hcodeword, hbefore⟩
      rcases Nat.eq_zero_or_pos k with rfl | hk
      · obtain ⟨n, hn, hbit⟩ := (codeword_nonzero_iff p.bytes).2 hne
        rw [← hcodeword n hn, hzero] at hbit
        exact absurd hbit Bool.false_ne_true
      · obtain ⟨⟨n, -, hbit⟩, -⟩ := hbefore 0 hk
        rw [hzero] at hbit
        exact absurd hbit Bool.false_ne_true
    · rintro ⟨hge, -⟩
      exact absurd hvar (not_lt.2 hge)
  · -- scaling keeps the signs, so the first hard decisions are the codeword
    have hfirst : IsCodeword (decision (ftx_normalize_logl Real.sqrt log174) 0) p := by
      intro n hn
      have hsign : Decides (log174 n) (bit (encode174 (a91 p.bytes)) n) := h ⟨n, hn⟩
      have hiff := (normalize_pos_iff hvar n).trans hsign.2
      rw [decision_zero, Bool.eq_iff_iff, decide_eq_true_iff]
      exact hiff
    constructor
    · rintro ⟨k, hk, -, -⟩
      exact ⟨not_lt.1 hvar, by omega⟩
    · rintro ⟨-, hmax⟩
      exact ⟨0, by omega, hfirst, fun j hj => absurd hj (Nat.not_lt_zero j)⟩

/-! ## The variance -/

theorem foldl_add_eq (f : ℕ → ℝ) (n : ℕ) :
    (List.range n).foldl (fun sum i => sum + f i) 0.0 = ∑ i ∈ Finset.range n, f i := by
  induction n with
  | zero => norm_num
  | succ n ih => rw [List.range_succ, List.foldl_append, ih, Finset.sum_range_succ]; rfl

section Signs

variable {llr : ℕ → ℝ} {c : Fin 174 → Bool} {d : ℝ}

theorem sum_of_signs (hllr : ∀ n : Fin 174, llr n = if c n then d else -d) :
    ∑ n ∈ Finset.range 174, llr n =
      (Finset.univ.filter fun n : Fin 174 => c n = true).card * d +
        (Finset.univ.filter fun n : Fin 174 => ¬ c n = true).card * -d := by
  rw [Finset.sum_range, Finset.sum_congr rfl fun n _ => hllr n, Finset.sum_ite, Finset.sum_const,
    Finset.sum_const, nsmul_eq_mul, nsmul_eq_mul]

theorem sum_sq_of_signs (hllr : ∀ n : Fin 174, llr n = if c n then d else -d) :
    ∑ n ∈ Finset.range 174, llr n * llr n = 174 * (d * d) := by
  have hsquare : ∀ n : Fin 174, llr n * llr n = d * d := by
    intro n
    rw [hllr]
    split_ifs
    · rfl
    · exact neg_mul_neg d d
  rw [Finset.sum_range, Finset.sum_congr rfl fun n _ => hsquare n, Finset.sum_const, nsmul_eq_mul,
    Finset.card_univ, Fintype.card_fin]
  norm_num

/-- The variance of `m` soft decisions at `d` and `m'` at `-d`. -/
theorem variance_value {m m' : ℝ} (hsplit : m + m' = 174) :
    (174 * (d * d) - (m * d + m' * -d) * (m * d + m' * -d) * (1.0 / 174.0)) * (1.0 / 174.0) =
      d * d * (4 * (m * m')) / 174 ^ 2 := by
  rw [← eq_sub_iff_add_eq'] at hsplit
  rw [hsplit]
  norm_num
  ring

/-- Soft decisions of one size have a variance, unless they are all alike. -/
theorem variance_ge (hd : 0.5 ≤ d) (hllr : ∀ n : Fin 174, llr n = if c n then d else -d)
    (hone : ∃ n, c n = true) (hzero : ∃ n, c n = false) : 1e-6 ≤ variance llr := by
  obtain ⟨i, hi⟩ := hone
  obtain ⟨j, hj⟩ := hzero
  have hsplit :=
    Finset.card_filter_add_card_filter_not (s := Finset.univ) fun n : Fin 174 => c n = true
  have hm : 0 < (Finset.univ.filter fun n : Fin 174 => c n = true).card :=
    Finset.card_pos.2 ⟨i, Finset.mem_filter.2 ⟨Finset.mem_univ i, hi⟩⟩
  have hm' : 0 < (Finset.univ.filter fun n : Fin 174 => ¬ c n = true).card :=
    Finset.card_pos.2 ⟨j, Finset.mem_filter.2 ⟨Finset.mem_univ j, by rw [hj]; decide⟩⟩
  rw [Finset.card_univ, Fintype.card_fin] at hsplit
  rw [variance, foldl_add_eq fun n => llr n * llr n, foldl_add_eq llr, sum_of_signs hllr,
    sum_sq_of_signs hllr]
  -- only the numbers of set and of clear bits matter
  generalize (Finset.univ.filter fun n : Fin 174 => c n = true).card = m at hsplit hm ⊢
  generalize (Finset.univ.filter fun n : Fin 174 => ¬ c n = true).card = m' at hsplit hm' ⊢
  have hm : (1 : ℝ) ≤ m := by exact_mod_cast hm
  have hm' : (1 : ℝ) ≤ m' := by exact_mod_cast hm'
  have hsplit : (m : ℝ) + m' = 174 := by exact_mod_cast hsplit
  have hproduct : 173 ≤ (m : ℝ) * m' := by
    have hnonneg := mul_nonneg (sub_nonneg.2 hm) (sub_nonneg.2 hm')
    linarith only [hnonneg, hsplit]
  have hsquare : 0.25 ≤ d * d := by
    have hle : (0.5 : ℝ) * 0.5 ≤ d * d := mul_self_le_mul_self (by norm_num) hd
    linarith only [hle]
  rw [variance_value hsplit, le_div_iff₀ (by norm_num)]
  calc (1e-6 : ℝ) * 174 ^ 2 ≤ 0.25 * (4 * 173) := by norm_num
    _ ≤ d * d * (4 * (m * m')) :=
      mul_le_mul hsquare (by linarith) (by norm_num) (mul_self_nonneg d)

end Signs

/-- The word of ones is no codeword. -/
theorem exists_zero_of_isCodeword {f : ℕ → Bool} {p : Payload} (h : IsCodeword f p) :
    ∃ n < 174, f n = false := by
  by_contra hones
  have hall : ∀ n < 174, f n = true := fun n hn =>
    Bool.eq_true_of_not_eq_false fun hfalse => hones ⟨n, hn, hfalse⟩
  have hunpacked : Ldpc.unpacked f = Ldpc.unpacked fun _ => true := by
    apply List.map_congr_left
    intro n hn
    rw [hall n (List.mem_range.1 hn)]
  have hcheck := ((isCodeword_iff f ⟨[], 0⟩ ⟨0, 0, 0⟩ p).1 h).1
  rw [hunpacked] at hcheck
  exact absurd hcheck (by decide +kernel)

/-- Soft decisions of one size with the signs of a message's codeword. -/
theorem variance_codeword_ge (p : Payload) (hne : ∃ i < 77, bit p.bytes i = true) {llr : ℕ → ℝ}
    {d : ℝ} (hd : 0.5 ≤ d)
    (hllr : ∀ n : Fin 174,
      llr n = if Tones.codewordBits (encode174 (a91 p.bytes)) n then d else -d) :
    1e-6 ≤ variance llr := by
  refine variance_ge hd hllr ?_ ?_
  · obtain ⟨n, hn, hbit⟩ := (codeword_nonzero_iff p.bytes).2 hne
    exact ⟨⟨n, hn⟩, hbit⟩
  · obtain ⟨n, hn, hbit⟩ := exists_zero_of_isCodeword (p := p) fun n _ => rfl
    exact ⟨⟨n, hn⟩, hbit⟩

/-! ## The whole way -/

/-- Every message is encoded to 79 tones, and when the receiver sees a magnitude in the cells of
these tones only, it decodes the message: unless the message is zero or the variance too small. -/
theorem ft8_encode_decode (p : Payload) :
    ∃ tones, ft8_encode p.bytes = some tones ∧ tones.length = 79 ∧
      ∀ Z : ℕ → ℂ, OneHot tones (fun q j => ‖Z (q * 8 + j)‖) →
      ∀ (log174 : ℕ → ℝ) (max_iterations : ℤ) (message : ftx_message_t)
        (status : ftx_decode_status_t),
        let llr := extract_llr kFT8Refine Z log174
        let result := ftx_decode_from_llr Real.sqrt llr max_iterations message status
        (result.1 = true ∧ result.2.1.payload = p.bytes) ↔
          (∃ i < 77, bit p.bytes i = true) ∧ 1e-6 ≤ variance llr ∧ 1 ≤ max_iterations := by
  have htones := Tones.ft8_tones_eq (length_encode174 (a91 p.bytes))
  refine ⟨_, htones, length_frame _ _ _, fun Z hZ log174 max_iterations message status => ?_⟩
  exact ftx_decode_from_llr_reads p
    (Tones.reads_ft8_tones (length_encode174 _) htones hZ log174) max_iterations message status

/-- The soft decisions of tones without noise are one or minus one. -/
theorem variance_frameBins_ge (p : Payload) (hne : ∃ i < 77, bit p.bytes i = true)
    {tones : List (Fin 8)} (htones : ft8_encode p.bytes = some tones) (log174 : ℕ → ℝ) :
    1e-6 ≤ variance (extract_llr kFT8Refine (frameBins tones) log174) := by
  obtain rfl : kFT8Refine.frame (Tones.codewordBits (encode174 (a91 p.bytes))) = tones :=
    Option.some.inj ((Tones.ft8_tones_eq (length_encode174 _)).symm.trans htones)
  apply variance_codeword_ge p hne (d := 1) (by norm_num)
  exact extract_llr_eq (by decide) zero_le_one (norm_frameBins _) log174

/-- The message of one set bit. -/
def oneBit : Payload := ⟨[0x80, 0, 0, 0, 0, 0, 0, 0, 0, 0], rfl, by decide⟩

theorem ft8_encode_decode_oneBit :
    ∃ tones, ft8_encode oneBit.bytes = some tones ∧ tones.length = 79 ∧
      ∀ message status,
        let llr := extract_llr kFT8Refine (frameBins tones) 0
        let result := ftx_decode_from_llr Real.sqrt llr 1 message status
        result.1 = true ∧ result.2.1.payload = oneBit.bytes := by
  obtain ⟨tones, htones, hlen, hdecode⟩ := ft8_encode_decode oneBit
  have hne : ∃ i < 77, bit oneBit.bytes i = true := ⟨0, by decide, by decide⟩
  refine ⟨tones, htones, hlen, fun message status => ?_⟩
  exact (hdecode _ (oneHot_frameBins hlen) 0 1 message status).2
    ⟨hne, variance_frameBins_ge oneBit hne htones 0, le_rfl⟩

/-! ## What is accepted -/

/-- What the refine worker tries on soft decisions: belief propagation, and then ordered statistics
with a gate on the distance. -/
def crack (sqrtf : ℚ → ℚ) (osd_enable : Bool) (osd_order : ℤ) (osd_soft_thresh : ℚ)
    (kLDPC_iterations : ℤ) (rllr : ℕ → ℚ) (message : ftx_message_t)
    (status : ftx_decode_status_t) : Bool × ftx_message_t × ftx_decode_status_t :=
  let (cracked, message, status) := ftx_decode_from_llr sqrtf rllr kLDPC_iterations message status
  if cracked || !osd_enable then (cracked, message, status)
  else
    match Cuda.Ldpc.Ft8.ft8_osd_decode (fun i => rllr i) osd_order with
    | none => (cracked, message, status)
    | some (xhat, rdist) =>
      if osd_soft_thresh ≤ 0 ∨ rdist ≤ osd_soft_thresh then
        ftx_decode_from_bits (unpacked fun n => xhat.toList.getD n false) message status
      else (cracked, message, status)

/-- A word that ordered statistics return is the codeword of the message that is taken from it. -/
theorem isCodeword_of_osd {llr : Fin N → ℚ} {order : ℤ} {xhat : Vector Bool N} {dist : ℚ}
    (hosd : Cuda.Ldpc.Ft8.ft8_osd_decode llr order = some (xhat, dist)) {message : ftx_message_t}
    {status : ftx_decode_status_t}
    (haccept : (ftx_decode_from_bits (unpacked fun n => xhat.toList.getD n false) message
      status).1 = true) :
    ∃ p : Payload, (ftx_decode_from_bits (unpacked fun n => xhat.toList.getD n false) message
        status).2.1.payload = p.bytes ∧ IsCodeword (fun n => xhat.toList.getD n false) p := by
  have hword : word (fun n => xhat.toList.getD n false) = xhat := by
    apply Vector.ext
    intro n hn
    rw [word, Vector.getElem_ofFn, List.getD_eq_getElem _ _ (by simpa using hn)]
    exact Vector.getElem_toList (by simpa using hn)
  have hcheck : ldpc_check (unpacked fun n => xhat.toList.getD n false) = 0 := by
    rw [ldpc_check_iff_check, hword]
    exact (Cuda.Ldpc.Ft8.agree.check_iff xhat).2
      (Cuda.Osd.osd_decode_n174_spec llr Cuda.Ldpc.Ft8.g_ft8_gen hosd).1
  obtain ⟨p, hp⟩ := exists_payload haccept
  exact ⟨p, hp, (isCodeword_iff _ message _ p).2 ⟨hcheck, haccept, hp⟩⟩

/-- Whatever the worker accepts, the payload is a message of 77 bits, and its codeword is the word
that was decoded: the hard decisions of an iteration, where the message is not zero, or what ordered
statistics returned within the gate. When it accepts nothing, the message is left as it was. -/
theorem crack_sound (sqrtf : ℚ → ℚ) (osd_enable : Bool) (osd_order : ℤ) (osd_soft_thresh : ℚ)
    (kLDPC_iterations : ℤ) (rllr : ℕ → ℚ) (message : ftx_message_t)
    (status : ftx_decode_status_t) :
    let result := crack sqrtf osd_enable osd_order osd_soft_thresh kLDPC_iterations rllr message
      status
    (result.1 = true → ∃ p : Payload, result.2.1.payload = p.bytes ∧
      ((∃ i < 77, bit p.bytes i = true) ∧ (∃ k < kLDPC_iterations.toNat,
          IsCodeword (decision (ftx_normalize_logl sqrtf rllr) k) p) ∨
        osd_enable = true ∧ ∃ xhat rdist,
          Cuda.Ldpc.Ft8.ft8_osd_decode (fun i => rllr i) osd_order = some (xhat, rdist) ∧
          (osd_soft_thresh ≤ 0 ∨ rdist ≤ osd_soft_thresh) ∧
          IsCodeword (fun n => xhat.toList.getD n false) p)) ∧
    (result.1 = false → result.2.1 = message) := by
  have hiff := ftx_decode_from_llr_iff sqrtf rllr kLDPC_iterations message status
  have hpayload : (ftx_decode_from_llr sqrtf rllr kLDPC_iterations message status).1 = true → _ :=
    exists_payload_of_llr
  have hreject : (ftx_decode_from_llr sqrtf rllr kLDPC_iterations message status).1 = false → _ :=
    message_of_llr_reject
  generalize hbp : ftx_decode_from_llr sqrtf rllr kLDPC_iterations message status = out
    at hiff hpayload hreject
  obtain ⟨cracked, message', status'⟩ := out
  dsimp only at hiff hpayload hreject ⊢
  rw [crack, hbp]
  dsimp only
  cases cracked with
  | true =>
    refine ⟨fun _ => ?_, fun h => absurd h.symm Bool.false_ne_true⟩
    -- accepted by belief propagation
    obtain ⟨p, hp⟩ := hpayload rfl
    obtain ⟨hne, k, hk, hcodeword, -⟩ := (hiff p).1 ⟨rfl, hp⟩
    exact ⟨p, hp, Or.inl ⟨hne, k, hk, hcodeword⟩⟩
  | false =>
    obtain rfl := hreject rfl
    cases osd_enable with
    | false => exact ⟨fun h => absurd h Bool.false_ne_true, fun _ => rfl⟩
    | true =>
      cases hosd : Cuda.Ldpc.Ft8.ft8_osd_decode (fun i => rllr i) osd_order with
      | none => exact ⟨fun h => absurd h Bool.false_ne_true, fun _ => rfl⟩
      | some found =>
        obtain ⟨xhat, rdist⟩ := found
        -- a word from ordered statistics, behind the gate
        rw [Bool.not_true, Bool.or_false, if_neg Bool.false_ne_true]
        dsimp only
        split_ifs with hgate
        · refine ⟨fun haccept => ?_, take_payload_reject⟩
          obtain ⟨p, hp, hcodeword⟩ := isCodeword_of_osd hosd haccept
          exact ⟨p, hp, Or.inr ⟨rfl, xhat, rdist, rfl, hgate, hcodeword⟩⟩
        · exact ⟨fun h => h.elim, fun _ => rfl⟩

end GranolaSdr.Ft8.RoundTrip
