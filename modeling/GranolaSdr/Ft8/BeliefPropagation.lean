import GranolaSdr.Ft8.Ldpc

/-!
# Belief propagation on the processor

`bp_decode` in `src/ft8_lib/ft8/ldpc.c` and the decoders in `src/ft8_lib/ft8/decode.c` that call it,
over any arithmetic: no law of the operations is used for what is accepted, so that the results hold
for floating point numbers.

## Main definitions

* `fast_tanh`, `fast_atanh`, `bp_decode`, `ftx_normalize_logl`, `ftx_decode_from_llr`;
* `decision`: the hard decisions of an iteration;
* `Finds`, `GoesOn`: the hard decisions with which the loop ends in success, and those with which it
  does not end.

## Main results

* `bp_decode_iff`: when the loop ends in success, and with which word;
* `ftx_decode_from_llr_iff`: which messages the decoder returns.
-/

namespace GranolaSdr.Ft8.BeliefPropagation

open PackedBits Crc14 Encode Ldpc

section Arithmetic

variable {R : Type*} [Add R] [Mul R] [Div R] [Neg R] [LT R] [DecidableLT R] [OfScientific R]

def fast_tanh (x : R) : R :=
  if x < -4.97 then -1.0
  else if 4.97 < x then 1.0
  else
    let x2 := x * x
    let a := x * (945.0 + x2 * (105.0 + x2))
    let b := 945.0 + x2 * (420.0 + x2 * 15.0)
    a / b

def fast_atanh (x : R) : R :=
  let x2 := x * x
  let a := x * (945.0 + x2 * (-735.0 + x2 * 64.0))
  let b := 945.0 + x2 * (-1050.0 + x2 * 225.0)
  a / b

/-- An entry of an array of arrays. -/
def entry (a : List (List R)) (i j : ℕ) : R := (a.getD i []).getD j 0.0

/-- The hard decision of a bit, from what it is read as and what its three checks say. -/
def hard (codeword : ℕ → R) (tov : List (List R)) (n : ℕ) : Bool :=
  0.0 < codeword n + entry tov n 0 + entry tov n 1 + entry tov n 2

/-- The message from a bit to a check. -/
def bitToCheck (codeword : ℕ → R) (tov : List (List R)) (m n : ℕ) : R :=
  let Tnm := (List.range 3).foldl
    (fun Tnm m_idx => if checkOf n m_idx ≠ m then Tnm + entry tov n m_idx else Tnm) (codeword n)
  fast_tanh (-Tnm / 2.0)

/-- The message from a check to a bit. -/
def checkToBit (toc : List (List R)) (n m : ℕ) : R :=
  -2.0 * fast_atanh ((List.range (num_rows m)).foldl
    (fun Tmn n_idx => if bitOf m n_idx ≠ n then Tmn * entry toc m n_idx else Tmn) 1.0)

/-- The messages to the bits after one more iteration. -/
def iteration (codeword : ℕ → R) (tov : List (List R)) : List (List R) :=
  let toc := (List.range 83).map fun m =>
    (List.range (num_rows m)).map fun n_idx => bitToCheck codeword tov m (bitOf m n_idx)
  (List.range 174).map fun n =>
    (List.range 3).map fun m_idx => checkToBit toc n (checkOf n m_idx)

structure BpState (R : Type*) where
  plain : List UInt8
  tov : List (List R)
  min_errors : ℕ

/-- The iterations that are left. -/
def bp_loop (codeword : ℕ → R) : ℕ → BpState R → BpState R
  | 0, s => s
  | iters + 1, s =>
    let plain := unpacked (hard codeword s.tov)
    let plain_sum := (plain.map UInt8.toNat).sum
    -- converged to all zeros, which is prohibited
    if plain_sum = 0 then { s with plain }
    else
      let errors := ldpc_check plain
      let min_errors := if errors < s.min_errors then errors else s.min_errors
      if errors < s.min_errors ∧ errors = 0 then { s with plain, min_errors }
      else bp_loop codeword iters ⟨plain, iteration codeword s.tov, min_errors⟩

/-- The decoded word and the least number of parity errors that was seen. -/
def bp_decode (codeword : ℕ → R) (max_iters : ℤ) (plain : List UInt8) : List UInt8 × ℕ :=
  let tov := List.replicate 174 (List.replicate 3 0.0)
  let s := bp_loop codeword max_iters.toNat ⟨plain, tov, 83⟩
  (s.plain, s.min_errors)

/-! ## The iterations -/

/-- The messages to the bits after some iterations. -/
def messages (codeword : ℕ → R) : ℕ → List (List R)
  | 0 => List.replicate 174 (List.replicate 3 0.0)
  | t + 1 => iteration codeword (messages codeword t)

/-- The hard decisions of an iteration. -/
def decision (codeword : ℕ → R) (t n : ℕ) : Bool := hard codeword (messages codeword t) n

/-- A word other than zero. -/
def Nonzero (f : ℕ → Bool) : Prop := ∃ n < 174, f n = true

theorem sum_unpacked (f : ℕ → Bool) : ((unpacked f).map UInt8.toNat).sum = 0 ↔ ¬ Nonzero f := by
  rw [List.sum_eq_zero_iff, unpacked, List.map_map]
  constructor
  · rintro h ⟨n, hn, hf⟩
    have hzero := h _ (List.mem_map_of_mem (List.mem_range.2 hn))
    rw [Function.comp_apply, hf] at hzero
    exact absurd hzero (by decide)
  · intro h x hx
    obtain ⟨n, hn, rfl⟩ := List.mem_map.1 hx
    have hf : f n = false := Bool.eq_false_iff.2 fun hf => h ⟨n, List.mem_range.1 hn, hf⟩
    rw [Function.comp_apply, hf]
    rfl

/-- The loop ends with this word. -/
def Finds (f : ℕ → Bool) : Prop := Nonzero f ∧ ldpc_check (unpacked f) = 0

/-- The loop does not end with this word. -/
def GoesOn (f : ℕ → Bool) : Prop := Nonzero f ∧ ldpc_check (unpacked f) ≠ 0

theorem Finds.not_goesOn {f : ℕ → Bool} (h : Finds f) : ¬ GoesOn f := fun hon => hon.2 h.2

theorem bp_loop_of_finds {codeword : ℕ → R} {t : ℕ} (h : Finds (decision codeword t)) (iters : ℕ)
    (plain : List UInt8) {e : ℕ} (he : 0 < e) :
    bp_loop codeword (iters + 1) ⟨plain, messages codeword t, e⟩ =
      ⟨unpacked (decision codeword t), messages codeword t, 0⟩ := by
  have hsum : ((unpacked (hard codeword (messages codeword t))).map UInt8.toNat).sum ≠ 0 :=
    fun hzero => (sum_unpacked _).1 hzero h.1
  have hcheck : ldpc_check (unpacked (hard codeword (messages codeword t))) = 0 := h.2
  simp only [bp_loop, if_neg hsum, hcheck, if_pos he, and_true]
  rfl

theorem bp_loop_of_goesOn {codeword : ℕ → R} {t : ℕ} (h : GoesOn (decision codeword t))
    (iters : ℕ) (plain : List UInt8) {e : ℕ} (he : 0 < e) :
    ∃ e', 0 < e' ∧ bp_loop codeword (iters + 1) ⟨plain, messages codeword t, e⟩ =
      bp_loop codeword iters ⟨unpacked (decision codeword t), messages codeword (t + 1), e'⟩ := by
  have hsum : ((unpacked (hard codeword (messages codeword t))).map UInt8.toNat).sum ≠ 0 :=
    fun hzero => (sum_unpacked _).1 hzero h.1
  have hcheck : ldpc_check (unpacked (hard codeword (messages codeword t))) ≠ 0 := h.2
  have hcond : ¬ (ldpc_check (unpacked (hard codeword (messages codeword t))) < e ∧
      ldpc_check (unpacked (hard codeword (messages codeword t))) = 0) := fun h => hcheck h.2
  refine ⟨if ldpc_check (unpacked (decision codeword t)) < e then
    ldpc_check (unpacked (decision codeword t)) else e, ?_, ?_⟩
  · split_ifs
    · exact Nat.pos_of_ne_zero hcheck
    · exact he
  · simp only [bp_loop, if_neg hsum, if_neg hcond]
    rfl

theorem bp_loop_of_stops {codeword : ℕ → R} {t : ℕ} (hfinds : ¬ Finds (decision codeword t))
    (hon : ¬ GoesOn (decision codeword t)) (iters : ℕ) (plain : List UInt8) (e : ℕ) :
    (bp_loop codeword (iters + 1) ⟨plain, messages codeword t, e⟩).min_errors = e := by
  have hzero : ¬ Nonzero (decision codeword t) := fun h =>
    (em _).elim (fun hcheck => hfinds ⟨h, hcheck⟩) fun hcheck => hon ⟨h, hcheck⟩
  have hsum : ((unpacked (hard codeword (messages codeword t))).map UInt8.toNat).sum = 0 :=
    (sum_unpacked _).2 hzero
  simp only [bp_loop, if_pos hsum]

/-- The loop ends in success at the first iteration whose hard decisions are not to be improved, if
these are a codeword. -/
theorem bp_loop_iff (codeword : ℕ → R) (iters t : ℕ) (plain : List UInt8) {e : ℕ} (he : 0 < e)
    (word : List UInt8) :
    ((bp_loop codeword iters ⟨plain, messages codeword t, e⟩).min_errors = 0 ∧
      (bp_loop codeword iters ⟨plain, messages codeword t, e⟩).plain = word) ↔
    ∃ k < iters, Finds (decision codeword (t + k)) ∧
      (∀ j < k, GoesOn (decision codeword (t + j))) ∧
      unpacked (decision codeword (t + k)) = word := by
  induction iters generalizing t plain e with
  | zero =>
    rw [bp_loop]
    simp [Nat.ne_of_gt he]
  | succ iters ih =>
    by_cases hfinds : Finds (decision codeword t)
    · rw [bp_loop_of_finds hfinds iters plain he]
      constructor
      · rintro ⟨-, hword⟩
        exact ⟨0, Nat.succ_pos _, hfinds, fun j hj => absurd hj (Nat.not_lt_zero j), hword⟩
      · rintro ⟨k, -, -, hon, hword⟩
        -- no iteration goes on past the first one
        rcases Nat.eq_zero_or_pos k with rfl | hk
        · exact ⟨rfl, hword⟩
        · exact absurd (hon 0 hk) hfinds.not_goesOn
    by_cases hon : GoesOn (decision codeword t)
    · obtain ⟨e', he', hstep⟩ := bp_loop_of_goesOn hon iters plain he
      rw [hstep, ih (t + 1) _ he']
      constructor
      · rintro ⟨k, hk, hfound, hbefore, hword⟩
        rw [Nat.add_assoc, Nat.add_comm 1] at hfound hword
        refine ⟨k + 1, by omega, hfound, fun j hj => ?_, hword⟩
        rcases Nat.eq_zero_or_pos j with rfl | hpos
        · exact hon
        · have hj' := hbefore (j - 1) (by omega)
          rwa [show t + 1 + (j - 1) = t + j by omega] at hj'
      · rintro ⟨k, hk, hfound, hbefore, hword⟩
        rcases Nat.eq_zero_or_pos k with rfl | hpos
        · exact absurd hfound hfinds
        · rw [show t + k = t + 1 + (k - 1) by omega] at hfound hword
          refine ⟨k - 1, by omega, hfound, fun j hj => ?_, hword⟩
          have hj' := hbefore (j + 1) (by omega)
          rwa [show t + (j + 1) = t + 1 + j by omega] at hj'
    · constructor
      · rintro ⟨hzero, -⟩
        rw [bp_loop_of_stops hfinds hon] at hzero
        exact absurd hzero (Nat.ne_of_gt he)
      · rintro ⟨k, -, hfound, hbefore, -⟩
        rcases Nat.eq_zero_or_pos k with rfl | hpos
        · exact absurd hfound hfinds
        · exact absurd (hbefore 0 hpos) hon

theorem bp_decode_iff (codeword : ℕ → R) (max_iters : ℤ) (plain word : List UInt8) :
    ((bp_decode codeword max_iters plain).2 = 0 ∧
      (bp_decode codeword max_iters plain).1 = word) ↔
    ∃ k < max_iters.toNat, Finds (decision codeword k) ∧
      (∀ j < k, GoesOn (decision codeword j)) ∧ unpacked (decision codeword k) = word := by
  have hloop := bp_loop_iff codeword max_iters.toNat 0 plain (e := 83) (by decide) word
  simp only [Nat.zero_add] at hloop
  exact hloop

/-! ## The decoder -/

variable [Sub R]

def variance (log174 : ℕ → R) : R :=
  let sum := (List.range 174).foldl (fun sum i => sum + log174 i) 0.0
  let sum2 := (List.range 174).foldl (fun sum2 i => sum2 + log174 i * log174 i) 0.0
  let inv_n := 1.0 / 174.0
  (sum2 - sum * sum * inv_n) * inv_n

/-- Scale the soft decisions to a fixed variance. -/
def ftx_normalize_logl (sqrtf : R → R) (log174 : ℕ → R) : ℕ → R :=
  if variance log174 < 1e-6 then fun _ => 0.0
  else
    let norm_factor := sqrtf (24.0 / variance log174)
    fun i => log174 i * norm_factor

/-- Decode from soft decisions. -/
def ftx_decode_from_llr (sqrtf : R → R) (log174_in : ℕ → R) (max_iterations : ℤ)
    (message : ftx_message_t) (status : ftx_decode_status_t) :
    Bool × ftx_message_t × ftx_decode_status_t :=
  let log174 := ftx_normalize_logl sqrtf log174_in
  let (plain174, ldpc_errors) := bp_decode log174 max_iterations (List.replicate 174 0)
  let status := { status with ldpc_errors }
  if ldpc_errors > 0 then (false, message, status) else take_payload plain174 message status

/-- The word of a decision is taken as a message exactly when it begins with the message and its
checksum. -/
theorem take_payload_unpacked (f : ℕ → Bool) (message : ftx_message_t)
    (status : ftx_decode_status_t) (p : Payload) :
    (take_payload (unpacked f) message status).1 = true ∧
      (take_payload (unpacked f) message status).2.1.payload = p.bytes ↔
    ∀ i < 91, f i = bit (a91 p.bytes) i := by
  have hbit : ∀ i < 91, plainBit (unpacked f) i = f i := fun i hi =>
    plainBit_unpacked f (by omega)
  -- a word is accepted if the checksum behind the message is its own
  have hcrc : (∀ i < 77, bit p.bytes i = f i) →
      (syndrome (plainBit (unpacked f)) = 0 ↔ ∀ i < 91, f i = bit (a91 p.bytes) i) := by
    intro h
    have hpayload : ∀ i < 77, bit p.bytes i = plainBit (unpacked f) i :=
      fun i hi => (h i hi).trans (hbit i (by omega)).symm
    rw [syndrome_eq_zero_iff_add_crc (List.length_replicate (n := 12)) hpayload]
    exact forall₂_congr fun i hi => by rw [hbit i hi, a91]
  constructor
  · rintro ⟨haccept, hpayload⟩
    apply (hcrc fun i hi => ?_).1 ((take_payload_iff ..).1 haccept)
    rw [← hpayload, (take_payload_payload haccept).2 i (by omega), messageBit, decide_eq_true hi,
      Bool.true_and, hbit i (by omega)]
  · intro h
    have hmessage : ∀ i < 77, bit p.bytes i = f i := by
      intro i hi
      rw [h i (by omega), bit_a91_of_lt _ hi]
    have haccept := (take_payload_iff _ message status).2 ((hcrc hmessage).2 h)
    obtain ⟨hlen, hbits⟩ := take_payload_payload haccept
    refine ⟨haccept, p.eq_of_bits hlen fun i hi => ?_⟩
    rw [hbits i hi, messageBit]
    by_cases hlt : i < 77
    · rw [hbit i (by omega), hmessage i hlt]
    · rw [decide_eq_false hlt, Bool.false_and, Bool.false_and]

/-- The hard decisions are the codeword of a message. -/
def IsCodeword (f : ℕ → Bool) (p : Payload) : Prop :=
  ∀ n < 174, f n = bit (encode174 (a91 p.bytes)) n

/-- A word is the codeword of a message exactly when it has no parity errors and is taken as the
message. -/
theorem isCodeword_iff (f : ℕ → Bool) (message : ftx_message_t) (status : ftx_decode_status_t)
    (p : Payload) : IsCodeword f p ↔ ldpc_check (unpacked f) = 0 ∧
      (take_payload (unpacked f) message status).1 = true ∧
      (take_payload (unpacked f) message status).2.1.payload = p.bytes := by
  rw [take_payload_unpacked]
  constructor
  · intro hword
    refine ⟨(ldpc_check_unpacked f).2 ?_, fun i hi => ?_⟩
    · rwa [message91_of_codeword (length_a91 p.bytes) (fun n hn => bit_a91_of_ge _ hn) hword]
    · rw [hword i (by omega), bit_codeword_of_lt _ hi]
  · rintro ⟨hcheck, hmessage⟩
    have hpacked : message91 f = a91 p.bytes := by
      apply ext_bits
      · rw [length_a91]
        exact length_pack_bits ..
      · intro n _
        rw [bit_message91]
        by_cases hn : n < 91
        · rw [decide_eq_true hn, Bool.true_and, hmessage n hn]
        · rw [decide_eq_false hn, Bool.false_and, bit_a91_of_ge _ (by omega)]
    have h := (ldpc_check_unpacked f).1 hcheck
    rwa [hpacked] at h

theorem IsCodeword.nonzero_iff {f : ℕ → Bool} {p : Payload} (h : IsCodeword f p) :
    Nonzero f ↔ ∃ i < 77, bit p.bytes i = true := by
  rw [← codeword_nonzero_iff]
  exact exists_congr fun n => and_congr_right fun hn => by rw [h n hn]

/-- What is taken from an accepted word is a message of 77 bits. -/
theorem exists_payload {plain174 : List UInt8} {message : ftx_message_t}
    {status : ftx_decode_status_t} (h : (take_payload plain174 message status).1 = true) :
    ∃ p : Payload, (take_payload plain174 message status).2.1.payload = p.bytes := by
  obtain ⟨hlen, hbits⟩ := take_payload_payload h
  refine ⟨⟨_, hlen, fun i hle hlt => ?_⟩, rfl⟩
  rw [hbits i hlt, messageBit, decide_eq_false (Nat.not_lt.2 hle), Bool.false_and]

theorem ftx_decode_from_llr_iff (sqrtf : R → R) (log174_in : ℕ → R) (max_iterations : ℤ)
    (message : ftx_message_t) (status : ftx_decode_status_t) (p : Payload) :
    ((ftx_decode_from_llr sqrtf log174_in max_iterations message status).1 = true ∧
      (ftx_decode_from_llr sqrtf log174_in max_iterations message status).2.1.payload = p.bytes) ↔
    (∃ i < 77, bit p.bytes i = true) ∧ ∃ k < max_iterations.toNat,
      IsCodeword (decision (ftx_normalize_logl sqrtf log174_in) k) p ∧
      ∀ j < k, GoesOn (decision (ftx_normalize_logl sqrtf log174_in) j) := by
  generalize hllr : ftx_normalize_logl sqrtf log174_in = log174
  have hbp := bp_decode_iff log174 max_iterations (List.replicate 174 0)
  generalize hout : bp_decode log174 max_iterations (List.replicate 174 0) = out at hbp
  obtain ⟨plain174, ldpc_errors⟩ := out
  have hdecode : ftx_decode_from_llr sqrtf log174_in max_iterations message status =
      if ldpc_errors > 0 then (false, message, { status with ldpc_errors })
      else take_payload plain174 message { status with ldpc_errors } := by
    rw [ftx_decode_from_llr, hllr, hout]
  rw [hdecode]
  constructor
  · rintro ⟨haccept, hpayload⟩
    -- with parity errors left the word is refused
    have hzero : ldpc_errors = 0 := by
      by_contra h
      rw [if_pos (Nat.pos_of_ne_zero h)] at haccept
      exact Bool.false_ne_true haccept
    obtain ⟨k, hk, hfinds, hbefore, hword⟩ := (hbp plain174).1 ⟨hzero, rfl⟩
    rw [if_neg (by omega), ← hword] at haccept hpayload
    have hcodeword := (isCodeword_iff _ message _ p).2 ⟨hfinds.2, haccept, hpayload⟩
    exact ⟨hcodeword.nonzero_iff.1 hfinds.1, k, hk, hcodeword, hbefore⟩
  · rintro ⟨hne, k, hk, hcodeword, hbefore⟩
    obtain ⟨hcheck, haccept, hpayload⟩ :=
      (isCodeword_iff _ message { status with ldpc_errors } p).1 hcodeword
    obtain ⟨hzero, hword⟩ : ldpc_errors = 0 ∧ plain174 = unpacked (decision log174 k) :=
      (hbp _).2 ⟨k, hk, ⟨hcodeword.nonzero_iff.2 hne, hcheck⟩, hbefore, rfl⟩
    rw [if_neg (Nat.not_lt.2 (Nat.le_of_eq hzero)), hword]
    exact ⟨haccept, hpayload⟩

/-- What is accepted is a message of 77 bits. -/
theorem exists_payload_of_llr {sqrtf : R → R} {log174_in : ℕ → R} {max_iterations : ℤ}
    {message : ftx_message_t} {status : ftx_decode_status_t}
    (h : (ftx_decode_from_llr sqrtf log174_in max_iterations message status).1 = true) :
    ∃ p : Payload,
      (ftx_decode_from_llr sqrtf log174_in max_iterations message status).2.1.payload =
        p.bytes := by
  rw [ftx_decode_from_llr] at h ⊢
  dsimp only at h ⊢
  split_ifs at h ⊢
  exact exists_payload h

/-- A message is left as it was when nothing is accepted. -/
theorem message_of_llr_reject {sqrtf : R → R} {log174_in : ℕ → R} {max_iterations : ℤ}
    {message : ftx_message_t} {status : ftx_decode_status_t}
    (h : (ftx_decode_from_llr sqrtf log174_in max_iterations message status).1 = false) :
    (ftx_decode_from_llr sqrtf log174_in max_iterations message status).2.1 = message := by
  rw [ftx_decode_from_llr] at h ⊢
  dsimp only at h ⊢
  split_ifs at h ⊢
  · rfl
  · exact take_payload_reject h

/-- The decoder returns a message exactly when the hard decisions of some iteration are its codeword
and those of all iterations before are neither zero nor free of parity errors. So it returns no
other payload than a message of 77 bits, and never that of zeros. Otherwise it leaves the message as
it was. -/
theorem ftx_decode_from_llr_spec (sqrtf : R → R) (log174_in : ℕ → R) (max_iterations : ℤ)
    (message : ftx_message_t) (status : ftx_decode_status_t) :
    let result := ftx_decode_from_llr sqrtf log174_in max_iterations message status
    (∀ p : Payload, result.1 = true ∧ result.2.1.payload = p.bytes ↔
      (∃ i < 77, bit p.bytes i = true) ∧ ∃ k < max_iterations.toNat,
        IsCodeword (decision (ftx_normalize_logl sqrtf log174_in) k) p ∧
        ∀ j < k, GoesOn (decision (ftx_normalize_logl sqrtf log174_in) j)) ∧
    (result.1 = true → ∃ p : Payload, result.2.1.payload = p.bytes) ∧
    (result.1 = false → result.2.1 = message) := by
  exact ⟨ftx_decode_from_llr_iff sqrtf log174_in max_iterations message status,
    exists_payload_of_llr, message_of_llr_reject⟩

end Arithmetic

end GranolaSdr.Ft8.BeliefPropagation
