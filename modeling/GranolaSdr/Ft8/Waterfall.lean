import GranolaSdr.Ft8.Candidates
import GranolaSdr.Ft8.EncodeText

/-!
# Decoding a candidate

`ftx_decode_candidate` in `src/ft8_lib/ft8/decode.c` takes the soft decisions of a candidate from
the waterfall and decodes them.

## Main definitions

* `ft8_extract_symbol`, `ft8_extract_likelihood`, `ft4_extract_symbol`, `ft4_extract_likelihood`:
  the soft decisions of a candidate;
* `ftx_decode_candidate`;
* `Carries`: a place where the tones of a frame stand out.

## Main results

* `extract_likelihood_eq`: the soft decisions of a frame in the waterfall;
* `receive_waterfall`: a frame in the waterfall is found and decoded.
-/

namespace GranolaSdr.Ft8.Waterfall

open Crc14 Encode BeliefPropagation Candidates Demapping Hf.SoftDemap

/-! ## Soft decisions -/

def kFT4_Gray_map : List ℕ := [0, 1, 3, 2]

def kFT4_XOR_sequence : List UInt8 := [0x4A, 0x5E, 0x89, 0xB4, 0xB0, 0x8A, 0x79, 0x55, 0xBE, 0x28]

section Extract

variable {R : Type} [Field R] [LinearOrder R] (wf : ftx_waterfall_t)

def WF_ELEM_MAG (x : ℤ) : R := x * 0.5 - 120.0

/-- The magnitudes of a symbol in the order of the labels. -/
def grayMagnitudes (i : ℤ) (gray : List ℕ) : Option (List R) :=
  gray.mapM fun (tone : ℕ) => (wf.read (i + tone)).map WF_ELEM_MAG

def ft4_extract_symbol (i : ℤ) : Option (List R) := do
  let s2 ← grayMagnitudes wf i kFT4_Gray_map
  let s := fun j => s2.getD j 0
  return [max (s 2) (s 3) - max (s 0) (s 1), max (s 1) (s 3) - max (s 0) (s 2)]

def ft8_extract_symbol (i : ℤ) : Option (List R) := do
  let s2 ← grayMagnitudes wf i (Tones.kFT8_Gray_map.map Fin.val)
  return llrs max4 fun j => s2.getD j 0

/-- The soft decisions of a data symbol, or zeros if it is outside of the waterfall. -/
def extract_data (extract_symbol : ℤ → Option (List R)) (bits : ℕ) (sym_idx : ℕ → ℕ)
    (cand : ftx_candidate_t) (log174 : ℕ → R) (k : ℕ) : Option (ℕ → R) :=
  let block := cand.time_offset + sym_idx k
  let logl := if block < 0 ∨ wf.num_blocks ≤ block then some (List.replicate bits 0)
    else extract_symbol (wf.get_cand_mag cand + sym_idx k * wf.block_stride)
  logl.map (Memory.write log174 (bits * k))

/-- The soft decisions of all data symbols. -/
def extract_likelihood (extract_symbol : ℤ → Option (List R)) (bits num_data : ℕ)
    (sym_idx : ℕ → ℕ) (cand : ftx_candidate_t) (log174 : ℕ → R) : Option (ℕ → R) :=
  (List.range num_data).foldlM (extract_data wf extract_symbol bits sym_idx cand) log174

def ft4_extract_likelihood (cand : ftx_candidate_t) (log174 : ℕ → R) : Option (ℕ → R) :=
  extract_likelihood wf (ft4_extract_symbol wf) 2 87
    (fun k => k + if k < 29 then 5 else if k < 58 then 9 else 13) cand log174

def ft8_extract_likelihood (cand : ftx_candidate_t) (log174 : ℕ → R) : Option (ℕ → R) :=
  extract_likelihood wf (ft8_extract_symbol wf) 3 58 (fun k => k + if k < 29 then 7 else 14) cand
    log174

/-- Decode a candidate. The soft decisions are an array without initial values. -/
def ftx_decode_candidate (sqrtf : R → R) (cand : ftx_candidate_t) (max_iterations : ℤ)
    (log174 : ℕ → R) (message : ftx_message_t) (status : ftx_decode_status_t) :
    Option (Bool × ftx_message_t × ftx_decode_status_t) := do
  let log174 ← match wf.protocol with
    | .FTX_PROTOCOL_FT4 => ft4_extract_likelihood wf cand log174
    | .FTX_PROTOCOL_FT8 => ft8_extract_likelihood wf cand log174
  let log174 := ftx_normalize_logl sqrtf log174
  let (plain174, ldpc_errors) := bp_decode log174 max_iterations (List.replicate 174 0)
  let status := { status with ldpc_errors }
  if ldpc_errors > 0 then return (false, message, status)
  else
    let (ok, message, status) := take_payload plain174 message status
    match wf.protocol with
    | .FTX_PROTOCOL_FT4 =>
      return (ok, if ok then { message with
        payload := List.zipWith (· ^^^ ·) message.payload kFT4_XOR_sequence } else message, status)
    | .FTX_PROTOCOL_FT8 => return (ok, message, status)

end Extract

/-! ## A frame in the waterfall -/

/-- A candidate with the tones of a frame at one magnitude, and all others beside them at another
one. -/
structure Carries (wf : ftx_waterfall_t) (cand : ftx_candidate_t) (tones : List (Fin 8)) (A B : ℤ) :
    Prop where
  first : 0 ≤ cand.time_offset
  last : cand.time_offset + 79 ≤ wf.num_blocks
  level_eq : ∀ q : ℕ, q < 79 → ∀ tone : Fin 8,
    level wf cand (cand.time_offset + q) tone.val = if tones[q]? = some tone then A else B

section Real

variable {wf : ftx_waterfall_t} {cand : ftx_candidate_t}

/-- A list of numbers that can all be read. -/
theorem mapM_eq_some {α β : Type} {g : α → Option β} {f : α → β} {l : List α}
    (h : ∀ a ∈ l, g a = some (f a)) : l.mapM g = some (l.map f) := by
  induction l with
  | nil => rfl
  | cons a l ih =>
    rw [List.mapM_cons, h a List.mem_cons_self, ih fun b hb => h b (List.mem_cons_of_mem a hb)]
    rfl

/-- The soft decisions of a data symbol of a frame. -/
theorem ft8_extract_symbol_eq {A B : ℤ} {c : Fin 174 → Bool} (hinside : Inside wf ft8Sync cand)
    (h : Carries wf cand (kFT8Refine.frame c) A B) (k : Fin 58) :
    ft8_extract_symbol (R := ℝ) wf (wf.get_cand_mag cand + data_pos k * wf.block_stride) =
      some (llrs max4 fun j => if j = label (bits c k) then WF_ELEM_MAG A else WF_ELEM_MAG B) := by
  have hdata := isData_data_pos k.2
  unfold IsData at hdata
  have hinj : Function.Injective kFT8Refine.tone_map.get := by decide
  have hsent : (kFT8Refine.frame c)[data_pos k]? =
      some (kFT8Refine.tone_map.get (label (bits c k))) := getElem?_frame _ _ _ k
  -- the cells of the symbol are in the waterfall
  have hcell : ∀ tone : Fin 8,
      (wf.read (wf.get_cand_mag cand + data_pos k * wf.block_stride + tone.val)).map WF_ELEM_MAG =
        some (if tone = kFT8Refine.tone_map.get (label (bits c k)) then WF_ELEM_MAG (R := ℝ) A
          else WF_ELEM_MAG B) := by
    intro tone
    have hfirst := h.first
    have hlast := h.last
    have htones : (tone.val : ℤ) < ft8Sync.num_tones := Int.ofNat_lt.2 tone.2
    rw [index_eq, read_index hinside (by omega) (by omega) (Int.natCast_nonneg _) htones,
      Option.map_some, h.level_eq _ (by omega) tone, hsent, apply_ite WF_ELEM_MAG]
    simp only [Option.some_inj, eq_comm]
  -- they are read in the order of the labels
  have hread : grayMagnitudes (R := ℝ) wf (wf.get_cand_mag cand + data_pos k * wf.block_stride)
      (Tones.kFT8_Gray_map.map Fin.val) = some (Tones.kFT8_Gray_map.map fun tone =>
        if tone = kFT8Refine.tone_map.get (label (bits c k)) then WF_ELEM_MAG A
          else WF_ELEM_MAG B) := by
    rw [grayMagnitudes, List.mapM_map]
    exact mapM_eq_some fun tone _ => hcell tone
  rw [ft8_extract_symbol, hread, Option.bind_eq_bind, Option.bind_some]
  refine congrArg some (congrArg (llrs max4) ?_)
  ext j
  have hgray : (Tones.kFT8_Gray_map.map fun tone =>
      if tone = kFT8Refine.tone_map.get (label (bits c k)) then WF_ELEM_MAG (R := ℝ) A
        else WF_ELEM_MAG B).getD j 0 =
      if kFT8Refine.tone_map.get j = kFT8Refine.tone_map.get (label (bits c k)) then WF_ELEM_MAG A
        else WF_ELEM_MAG B := by
    fin_cases j <;> rfl
  rw [hgray]
  simp only [hinj.eq_iff]

/-- A loop that never fails. -/
theorem foldlM_eq_some {α β : Type} {f : β → α → Option β} {g : β → α → β} {l : List α}
    (h : ∀ a ∈ l, ∀ s, f s a = some (g s a)) (s : β) : l.foldlM f s = some (l.foldl g s) := by
  induction l generalizing s with
  | nil => rfl
  | cons a l ih =>
    rw [List.foldlM_cons, h a List.mem_cons_self, List.foldl_cons]
    exact ih (fun b hb => h b (List.mem_cons_of_mem a hb)) _

/-- The soft decisions of a data symbol, as a list. -/
noncomputable def symbolLlrs (c : Fin 174 → Bool) (A B : ℤ) (k : ℕ) : List ℝ :=
  if hk : k < 58 then
    llrs max4 fun j => if j = label (bits c ⟨k, hk⟩) then WF_ELEM_MAG A else WF_ELEM_MAG B
  else []

/-- The soft decisions of a frame in the waterfall. -/
theorem extract_likelihood_eq {A B : ℤ} (hle : B ≤ A) {c : Fin 174 → Bool}
    (hinside : Inside wf ft8Sync cand) (h : Carries wf cand (kFT8Refine.frame c) A B)
    (log174 : ℕ → ℝ) :
    ∃ llr, ft8_extract_likelihood wf cand log174 = some llr ∧
      ∀ n : Fin 174, llr n = if c n then ((A : ℝ) - B) * 0.5 else -(((A : ℝ) - B) * 0.5) := by
  have hstep : ∀ k ∈ List.range 58, ∀ log174 : ℕ → ℝ,
      extract_data wf (ft8_extract_symbol wf) 3 (fun k => k + if k < 29 then 7 else 14) cand
          log174 k =
        some (Memory.write log174 (3 * k) (symbolLlrs c A B k)) := by
    intro k hk log174
    have hlt := List.mem_range.1 hk
    have hdata := isData_data_pos hlt
    unfold IsData at hdata
    have hfirst := h.first
    have hlast := h.last
    have hsymbol := ft8_extract_symbol_eq hinside h ⟨k, hlt⟩
    change (Option.map _ (if cand.time_offset + data_pos k < 0 ∨
      wf.num_blocks ≤ cand.time_offset + data_pos k then _ else ft8_extract_symbol wf
        (wf.get_cand_mag cand + data_pos k * wf.block_stride))) = _
    rw [if_neg (by omega), hsymbol, symbolLlrs, dif_pos hlt]
    rfl
  refine ⟨_, foldlM_eq_some hstep log174, fun n => ?_⟩
  have hmag : (WF_ELEM_MAG B : ℝ) ≤ WF_ELEM_MAG A := by
    have hcast : (B : ℝ) ≤ A := Int.cast_le.2 hle
    unfold WF_ELEM_MAG
    linarith
  have hlen : ∀ k, (symbolLlrs c A B k).length ≤ 3 := by
    intro k
    unfold symbolLlrs
    split_ifs
    · exact le_rfl
    · exact Nat.zero_le 3
  -- the decision of a bit is in the list of its symbol
  have hk : (n : ℕ) / 3 < 58 := by omega
  have hentry := getElem?_llrs_single hmag (label (bits c ⟨n / 3, hk⟩))
    ⟨n % 3, Nat.mod_lt _ (by decide)⟩
  have hlist : symbolLlrs c A B (n / 3) =
      llrs max4 fun j => if j = label (bits c ⟨n / 3, hk⟩) then WF_ELEM_MAG A else WF_ELEM_MAG B :=
    dif_pos hk
  rw [← hlist, bit_label, bits] at hentry
  have hwrite := Launch.foldl_write hlen (List.mem_range.2 hk) hentry log174
  have hsplit : 3 * ((n : ℕ) / 3) + n % 3 = n := Nat.div_add_mod _ _
  simp only [hsplit, Fin.eta] at hwrite
  have hdiff : (WF_ELEM_MAG A : ℝ) - WF_ELEM_MAG B = ((A : ℝ) - B) * 0.5 := by
    rw [WF_ELEM_MAG, WF_ELEM_MAG, sub_sub_sub_cancel_right, sub_mul]
  rw [hwrite, ← neg_sub (WF_ELEM_MAG A) (WF_ELEM_MAG B : ℝ), hdiff]

/-! ## Finding and decoding -/

/-- The sync tones of a frame. -/
theorem Carries.shows {A B : ℤ} {c : Fin 174 → Bool}
    (h : Carries wf cand (kFT8Refine.frame c) A B) :
    Shows wf ft8Sync cand A B := by
  intro m hm k hstored tone htone
  have hk : k < 7 := hstored.1
  have hm : m < 3 := hm
  have hsent : (kFT8Refine.frame c)[36 * m + k]? = some (kFT8Refine.costas.get ⟨k, hk⟩) :=
    getElem?_frame_sync (fun _ => kFT8Refine.costas) kFT8Refine.tone_map c ⟨m, hm⟩ ⟨k, hk⟩
  -- the sync tones are those of the pattern that the search compares with
  have hpattern : ∀ k : Fin 7, (kFT8Refine.costas.get k).val = ft8Tone m k := by
    intro k
    revert k
    change ∀ k : Fin 7, (kFT8Refine.costas.get k).val = Tones.kFT8_Costas_pattern.getD k 0
    decide
  have hblock : syncBlock ft8Sync cand m k = cand.time_offset + (36 * m + k : ℕ) := by
    change cand.time_offset + (((0 : ℕ) : ℤ) + ((36 : ℕ) : ℤ) * m + k) = _
    push_cast
    ring
  have hlt : tone < 8 := htone
  have hlevel := h.level_eq (36 * m + k) (by omega) ⟨tone, hlt⟩
  have hiff : some (kFT8Refine.costas.get ⟨k, hk⟩) = some ⟨tone, hlt⟩ ↔ tone = ft8Tone m k := by
    rw [Option.some_inj, Fin.ext_iff, hpattern]
    exact eq_comm
  rw [hsent] at hlevel
  rw [hblock]
  exact hlevel.trans (if_congr hiff rfl rfl)

theorem decode_candidate_eq {R : Type} [Field R] [LinearOrder R] {wf : ftx_waterfall_t}
    (hprotocol : wf.protocol = .FTX_PROTOCOL_FT8) (sqrtf : R → R) (cand : ftx_candidate_t)
    (max_iterations : ℤ) (log174 : ℕ → R) (message : ftx_message_t) (status : ftx_decode_status_t) :
    ftx_decode_candidate wf sqrtf cand max_iterations log174 message status =
      (ft8_extract_likelihood wf cand log174).map fun llr =>
        ftx_decode_from_llr sqrtf llr max_iterations message status := by
  unfold ftx_decode_candidate
  rw [hprotocol]
  dsimp only
  cases ft8_extract_likelihood wf cand log174 with
  | none => rfl
  | some llr =>
    rw [Option.bind_eq_bind, Option.bind_some, Option.map_some, ftx_decode_from_llr]
    dsimp only
    split_ifs
    · rfl
    · rfl

/-- A frame in the waterfall is decoded. -/
theorem decode_frame (p : Payload) (hne : ∃ i < 77, PackedBits.bit p.bytes i = true)
    (hprotocol : wf.protocol = .FTX_PROTOCOL_FT8) (hinside : Inside wf ft8Sync cand) {A B : ℤ}
    (hlt : B < A)
    (h : Carries wf cand (kFT8Refine.frame (Tones.codewordBits (encode174 (a91 p.bytes)))) A B)
    {max_iterations : ℤ} (hmax : 1 ≤ max_iterations) (log174 : ℕ → ℝ) (message : ftx_message_t)
    (status : ftx_decode_status_t) :
    ∃ message' status',
      ftx_decode_candidate wf Real.sqrt cand max_iterations log174 message status =
        some (true, message', status') ∧ message'.payload = p.bytes := by
  obtain ⟨llr, hextract, hllr⟩ := extract_likelihood_eq hlt.le hinside h log174
  have hd : (0.5 : ℝ) ≤ ((A : ℝ) - B) * 0.5 := by
    have hcast : ((B + 1 : ℤ) : ℝ) ≤ A := Int.cast_le.2 hlt
    push_cast at hcast
    linarith
  have hreads : Reads llr (Tones.codewordBits (encode174 (a91 p.bytes))) := by
    intro n
    have hpos : (0 : ℝ) < ((A : ℝ) - B) * 0.5 := lt_of_lt_of_le (by norm_num) hd
    rw [hllr n]
    cases Tones.codewordBits (encode174 (a91 p.bytes)) n with
    | true => exact ⟨hpos.ne', iff_of_true hpos rfl⟩
    | false => exact ⟨(neg_neg_of_pos hpos).ne, iff_of_false (neg_neg_of_pos hpos).not_gt
        Bool.false_ne_true⟩
  have hvar : 1e-6 ≤ variance llr := RoundTrip.variance_codeword_ge p hne hd hllr
  obtain ⟨haccept, hpayload⟩ :=
    (RoundTrip.ftx_decode_from_llr_reads p hreads max_iterations message status).2 ⟨hne, hvar, hmax⟩
  rw [decode_candidate_eq hprotocol, hextract, Option.map_some]
  generalize ftx_decode_from_llr Real.sqrt llr max_iterations message status = result
    at haccept hpayload ⊢
  obtain ⟨ok, message', status'⟩ := result
  obtain rfl : ok = true := haccept
  exact ⟨message', status', rfl, hpayload⟩

/-- A frame in a waterfall that has no other magnitudes than those of its tones and of what
surrounds them, or some between, and where there is place for all that have the score of the
frame. -/
structure Stands (wf : ftx_waterfall_t) (cand : ftx_candidate_t) (tones : List (Fin 8)) (A B : ℤ)
    (num_candidates : ℕ) : Prop where
  protocol_eq : wf.protocol = .FTX_PROTOCOL_FT8
  lt : B < A
  mag_bounds : ∀ x ∈ wf.mag, B ≤ x.toNat ∧ x.toNat ≤ A
  mem_places : cand ∈ places wf 0 (-1)
  carries : Carries wf cand tones A B
  few : ((places wf 0 (-1)).filter (score wf · = A - B)).length ≤ num_candidates

/-- A text of plain callsigns and an extra field that survives, where the suffixes `/P` and `/R` of
the callsigns do not exclude each other, is encoded to tones. Where they stand in a waterfall, by at
least the score asked for, the search finds them, and the candidate is decoded to the text as it
was, in at least one iteration. The arithmetic is exact. -/
theorem receive_waterfall {σ τ : Type} {hash_if : HashInterface σ} {hash_if' : HashInterface τ}
    {call_to call_de extra : List Char} (hto : ' ' ∉ call_to) (hde : ' ' ∉ call_de)
    (hpto : Plain call_to) (hpde : Plain call_de) (hextra : Survives extra)
    (hmix : ¬ (anyEnds call_to call_de ['/', 'P'] = true ∧
      anyEnds call_to call_de ['/', 'R'] = true))
    (s : σ) (s' : τ) :
    ∃ payload tones, (ftx_message_encode hash_if (ftx_message_text call_to call_de extra) s).1 =
        .ok payload ∧ ft8_encode payload = some tones ∧
      ∀ (wf : ftx_waterfall_t) (cand : ftx_candidate_t) (A B : ℤ) (num_candidates : ℕ)
        (heap : ℕ → ftx_candidate_t) (min_score max_iterations : ℤ) (log174 : ℕ → ℝ)
        (message : ftx_message_t) (status : ftx_decode_status_t),
        Stands wf cand tones A B num_candidates → min_score ≤ A - B → 1 ≤ max_iterations →
        ∃ st, ftx_find_candidates wf num_candidates heap min_score = some st ∧
          { cand with score := A - B } ∈ found st ∧
          ∃ message' status', ftx_decode_candidate wf Real.sqrt { cand with score := A - B }
              max_iterations log174 message status = some (true, message', status') ∧
            (ftx_message_decode hash_if' message'.payload s').1 =
              .ok (ftx_message_text call_to call_de extra) := by
  obtain ⟨payload, hencode, hstd, hdecode⟩ :=
    @decode_encode_text _ hash_if _ hash_if' _ _ _ hto hde hpto hpde hextra hmix s s'
  obtain ⟨p, rfl, hne⟩ := exists_payload_of_std hstd
  refine ⟨p.bytes, _, hencode, Tones.ft8_tones_eq (length_encode174 (a91 p.bytes)), ?_⟩
  intro wf cand A B num_candidates heap min_score max_iterations log174 message status hstands hmin
    hmax
  have hmode : syncMode wf = ft8Sync := by
    rw [syncMode, hstands.protocol_eq]
  have hinside : Inside wf ft8Sync cand := hmode ▸ inside_of_mem_places le_rfl hstands.mem_places
  have hshows : Shows wf (syncMode wf) cand A B := hmode ▸ hstands.carries.shows
  -- the first sync symbol lies in the waterfall
  have hstored : ∃ m < (syncMode wf).num_sync, ∃ k, Stored wf (syncMode wf) cand m k := by
    have hfirst := hstands.carries.first
    have hlast := hstands.carries.last
    have hblock : syncBlock ft8Sync cand 0 0 = cand.time_offset := by
      change cand.time_offset + (((0 : ℕ) : ℤ) + ((36 : ℕ) : ℤ) * (0 : ℕ) + (0 : ℕ)) = _
      omega
    rw [hmode]
    refine ⟨0, by decide, 0, by decide, ?_, ?_⟩
    · omega
    · omega
  obtain ⟨hpos, hmem⟩ :=
    mem_best hstands.mag_bounds hmin hstands.mem_places hshows hstored hstands.few
  obtain ⟨st, hfind, -, hbest⟩ := @exists_find_candidates wf _ hpos heap min_score
  -- the score that the search has written changes nothing of where the frame is
  have hcarries : Carries wf { cand with score := A - B }
      (kFT8Refine.frame (Tones.codewordBits (encode174 (a91 p.bytes)))) A B :=
    ⟨hstands.carries.first, hstands.carries.last, hstands.carries.level_eq⟩
  have hinside' : Inside wf ft8Sync { cand with score := A - B } :=
    ⟨hinside.freq_nonneg, hinside.freq_le, hinside.time_sub_lt, hinside.freq_sub_lt⟩
  obtain ⟨message', status', hdecoded, hpayload⟩ := decode_frame p hne hstands.protocol_eq hinside'
    hstands.lt hcarries hmax log174 message status
  refine ⟨st, hfind, (hmem _ hbest).1, message', status', hdecoded, ?_⟩
  rw [hpayload]
  exact hdecode

/-! ## A waterfall of one frame -/

/-- The magnitudes of the tones of a frame. -/
def toneMagnitudes (tones : List (Fin 8)) : List UInt8 :=
  (List.range (79 * 8)).map fun (i : ℕ) =>
    if (tones[i / 8]?).map Fin.val = some (i % 8) then 40 else 0

theorem length_toneMagnitudes (tones : List (Fin 8)) :
    (toneMagnitudes tones).length = 79 * (1 * 1 * 8) := by
  rw [toneMagnitudes, List.length_map, List.length_range]

/-- A frame, and nothing else. -/
def frameWaterfall (tones : List (Fin 8)) : ftx_waterfall_t :=
  ⟨79, 79, 8, 1, 1, toneMagnitudes tones, 1 * 1 * 8, .FTX_PROTOCOL_FT8, Nat.le_refl 79, one_lt_byte,
    one_lt_byte, rfl, length_toneMagnitudes tones⟩

theorem mag_frameWaterfall (tones : List (Fin 8)) :
    (frameWaterfall tones).mag = toneMagnitudes tones := by
  rw [frameWaterfall]

theorem mem_places_frameWaterfall (tones : List (Fin 8)) :
    ⟨0, 0, 0, 0, 0⟩ ∈ places (frameWaterfall tones) 0 (-1) := by
  unfold places
  simp only [List.mem_flatMap, List.mem_map, List.mem_range]
  refine ⟨0, Nat.one_pos, 0, Nat.one_pos, 0, by decide, 0, ?_, rfl⟩
  change 0 < (min ((8 : ℕ) : ℤ) ((8 : ℕ) - (((8 : ℕ) : ℤ) - 1)) - 0).toNat
  decide

theorem carries_frameWaterfall (tones : List (Fin 8)) :
    Carries (frameWaterfall tones) ⟨0, 0, 0, 0, 0⟩ tones 40 0 := by
  refine ⟨le_rfl, le_rfl, fun q hq tone => ?_⟩
  have htone := tone.2
  have hindex : index (frameWaterfall tones) ⟨0, 0, 0, 0, 0⟩ (0 + q) tone.val =
      (q * 8 + tone.val : ℕ) := by
    change (((((0 : ℤ) + q) * ((1 : ℕ) : ℤ) + ((0 : ℕ) : ℤ)) * ((1 : ℕ) : ℤ) + ((0 : ℕ) : ℤ)) *
      ((8 : ℕ) : ℤ) + 0 + (tone.val : ℤ)) = _
    push_cast
    ring
  have hlt : q * 8 + tone.val < 79 * 8 := by omega
  have hdiv : (q * 8 + tone.val) / 8 = q := by omega
  have hmod : (q * 8 + tone.val) % 8 = tone.val := by omega
  rw [level, hindex, ftx_waterfall_t.read, if_pos (Int.natCast_nonneg _), Int.toNat_natCast,
    mag_frameWaterfall, toneMagnitudes, List.getElem?_map, List.getElem?_range hlt,
    Option.map_some, Option.map_some, Option.getD_some, hdiv, hmod]
  have hiff : (tones[q]?).map Fin.val = some tone.val ↔ tones[q]? = some tone := by
    cases tones[q]? with
    | none => simp
    | some tone' => simp [Fin.ext_iff]
  simp only [hiff]
  split_ifs <;> rfl

theorem stands_frameWaterfall (tones : List (Fin 8)) :
    Stands (frameWaterfall tones) ⟨0, 0, 0, 0, 0⟩ tones 40 0
      (places (frameWaterfall tones) 0 (-1)).length := by
  refine ⟨rfl, by decide, fun x hx => ?_, mem_places_frameWaterfall tones,
    carries_frameWaterfall tones, List.length_filter_le _ _⟩
  rw [mag_frameWaterfall, toneMagnitudes] at hx
  obtain ⟨i, -, rfl⟩ := List.mem_map.1 hx
  split_ifs <;> decide

/-- A call to all stations in such a waterfall. -/
theorem receive_waterfall_cq :
    ∃ payload tones,
      (ftx_message_encode .null (ftx_message_text ['C', 'Q'] ['K', '1', 'A', 'B', 'C']
        ['F', 'N', '4', '2']) ()).1 = .ok payload ∧ ft8_encode payload = some tones ∧
      let wf := frameWaterfall tones
      ∃ st, ftx_find_candidates wf (places wf 0 (-1)).length (fun _ => default) 10 = some st ∧
        ⟨40 - 0, 0, 0, 0, 0⟩ ∈ found st ∧
        ∃ message status,
          ftx_decode_candidate wf Real.sqrt ⟨40 - 0, 0, 0, 0, 0⟩ 25 (fun _ => 0) ⟨[], 0⟩
            ⟨0, 0, 0⟩ = some (true, message, status) ∧
          (ftx_message_decode .null message.payload ()).1 =
            .ok (ftx_message_text ['C', 'Q'] ['K', '1', 'A', 'B', 'C'] ['F', 'N', '4', '2']) := by
  have halias :
      ¬ Alias (['K', '1', 'A', 'B', 'C'].take (length_base ['K', '1', 'A', 'B', 'C'])) := by
    rintro (⟨h, -⟩ | ⟨h, -⟩)
    · exact absurd h (by decide)
    · exact absurd h (by decide)
  obtain ⟨payload, tones, hencode, htones, hreceive⟩ := @receive_waterfall _ _ .null .null
    ['C', 'Q'] ['K', '1', 'A', 'B', 'C'] ['F', 'N', '4', '2'] (by decide) (by decide)
    (Or.inr (Or.inr (Or.inl rfl))) (Or.inr (Or.inr (Or.inr ⟨by decide, halias⟩)))
    (Or.inr (Or.inr (Or.inr (Or.inr (Or.inl ⟨rfl, by decide⟩))))) (by decide) () ()
  exact ⟨payload, tones, hencode, htones,
    hreceive (frameWaterfall tones) ⟨0, 0, 0, 0, 0⟩ 40 0 _ _ 10 25 _ ⟨[], 0⟩ ⟨0, 0, 0⟩
      (stands_frameWaterfall tones) (by decide) (by decide)⟩

end Real

end GranolaSdr.Ft8.Waterfall
