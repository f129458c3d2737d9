import GranolaSdr.Cuda.MagWindow
import GranolaSdr.Ft8.Tones

/-!
# The soft-symbol kernels

`ft8_soft_symbols` and `js8_soft_symbols` of `src/gm/cuda` compute the soft decisions of all
candidates of a scan, one thread for each data symbol of a candidate. The kernels differ in the tone
that they read for a label only.

## Main definitions

* `Candidates`: the arrays that the scan has filled;
* `soft_symbols_kernel`: one thread;
* `ft8_soft_symbols`, `js8_soft_symbols`: the threads of a launch, in some order.

## Main results

* `reads_launch`: the soft decisions of a candidate whose tones are one-hot;
* `soft_demap_reads`: `refine_llr` and both kernels read the codeword that was sent;
* `reads_ft8_encode`: among them the tones that the encoder of `src/ft8_lib` computes.
-/

namespace GranolaSdr.Cuda

open Demapping Hf.SoftDemap

/-- The arrays of the candidates of a scan. -/
structure Candidates where
  cand_fo : ℕ → ℤ
  cand_to : ℕ → UInt8
  cand_ts : ℕ → UInt8
  cand_fs : ℕ → UInt8
  cand_count : ℕ

/-- The magnitudes of the tones of a candidate. -/
def Candidates.magnitude (cands : Candidates) (w : MagWindow) (cand_idx p : ℕ) (j : Fin 8) : ℕ :=
  w.magnitude (cands.cand_ts cand_idx).toNat (cands.cand_fs cand_idx).toNat
    ((cands.cand_to cand_idx).toNat + p) (cands.cand_fo cand_idx + j)

namespace SoftSymbols

def kFT8_Gray_map_d : Vector (Fin 8) 8 := #v[0, 1, 3, 2, 5, 6, 4, 7]

/-- A JS8 symbol is its label. -/
def naturalMap : Vector (Fin 8) 8 := #v[0, 1, 2, 3, 4, 5, 6, 7]

def FT8_ND_SOFT : ℕ := 58

def FTX_LDPC_N_D : ℕ := 174

variable (tone_map : Vector (Fin 8) 8) (w : MagWindow) (cands : Candidates) (max_cands : ℕ)

/-- The magnitude of a label, zero outside of the bins. -/
noncomputable def s2 (cand_idx block_abs : ℕ) (j : Fin 8) : ℝ :=
  let sub := (cands.cand_ts cand_idx).toNat * w.freq_osr + (cands.cand_fs cand_idx).toNat
  let bin := cands.cand_fo cand_idx + tone_map.get j
  if 0 ≤ bin ∧ bin < w.num_bins then
    -- the rows of a candidate of the scan lie in the ring
    ((w.byteAt block_abs sub bin.toNat).getD 0).toNat * 0.5
  else 0

/-- One thread, for a data symbol of a candidate. -/
noncomputable def soft_symbols_kernel (log174_d : ℕ → ℝ) (flat : ℕ) : ℕ → ℝ :=
  let cand_idx := flat / FT8_ND_SOFT
  let k := flat % FT8_ND_SOFT
  let n := min cands.cand_count max_cands
  if n ≤ cand_idx then log174_d
  else
    let sym_idx := k + if k < 29 then 7 else 14
    let block_abs := (cands.cand_to cand_idx).toNat + sym_idx
    let out := cand_idx * FTX_LDPC_N_D + k * 3
    if w.num_blocks ≤ block_abs then Memory.write log174_d out [0, 0, 0]
    else Memory.write log174_d out (llrs lse4 (s2 tone_map w cands cand_idx block_abs))

/-- The threads of a launch, in blocks of 256. -/
def threads : List ℕ := List.range ((max_cands * FT8_ND_SOFT + 256 - 1) / 256 * 256)

/-- A launch, whose threads run in some order. -/
noncomputable def launch (order : List ℕ) (log174_d : ℕ → ℝ) : ℕ → ℝ :=
  order.foldl (soft_symbols_kernel tone_map w cands max_cands) log174_d

noncomputable def ft8_soft_symbols (order : List ℕ) (log174_d : ℕ → ℝ) : ℕ → ℝ :=
  launch kFT8_Gray_map_d w cands max_cands order log174_d

noncomputable def js8_soft_symbols (order : List ℕ) (log174_d : ℕ → ℝ) : ℕ → ℝ :=
  launch naturalMap w cands max_cands order log174_d

/-! ## What a thread writes -/

/-- The values that a thread writes. -/
noncomputable def written (flat : ℕ) : List ℝ :=
  let cand_idx := flat / FT8_ND_SOFT
  let block_abs := (cands.cand_to cand_idx).toNat + data_pos (flat % FT8_ND_SOFT)
  if min cands.cand_count max_cands ≤ cand_idx then []
  else if w.num_blocks ≤ block_abs then [0, 0, 0]
  else llrs lse4 (s2 tone_map w cands cand_idx block_abs)

/-- The threads write side by side. -/
theorem kernel_eq_write (log174_d : ℕ → ℝ) (flat : ℕ) :
    soft_symbols_kernel tone_map w cands max_cands log174_d flat =
      Memory.write log174_d (3 * flat) (written tone_map w cands max_cands flat) := by
  -- the cells of a thread follow those of the thread before it
  have hout : flat / FT8_ND_SOFT * FTX_LDPC_N_D + flat % FT8_ND_SOFT * 3 = 3 * flat := by
    unfold FT8_ND_SOFT FTX_LDPC_N_D
    omega
  dsimp only [soft_symbols_kernel, written]
  rw [hout]
  by_cases hcand : min cands.cand_count max_cands ≤ flat / FT8_ND_SOFT
  · rw [if_pos hcand, if_pos hcand]
    -- a thread without a candidate writes nothing
    ext i
    show _ = if 3 * flat ≤ i then _ else _
    rw [List.getElem?_nil, Option.getD_none, ite_self]
  · rw [if_neg hcand, if_neg hcand, apply_ite (Memory.write log174_d (3 * flat))]
    rfl

theorem length_written (flat : ℕ) : (written tone_map w cands max_cands flat).length ≤ 3 := by
  unfold written
  dsimp only
  split_ifs
  · exact Nat.zero_le 3
  · exact le_rfl
  · exact le_rfl

variable {tone_map w cands max_cands}

/-- Where a magnitude is not zero, a candidate's thread reads the magnitudes. -/
theorem s2_eq {cand_idx p : ℕ} {tone : Fin 8} (hpos : 0 < cands.magnitude w cand_idx p tone)
    (j : Fin 8) :
    s2 tone_map w cands cand_idx ((cands.cand_to cand_idx).toNat + p) j =
      cands.magnitude w cand_idx p (tone_map.get j) * 0.5 := by
  -- a magnitude outside of the window is zero
  obtain ⟨hblock, htime, hfreq, -⟩ : _ ∧ _ ∧ _ ∧ _ := by
    by_contra hout
    rw [Candidates.magnitude, MagWindow.magnitude, if_neg hout] at hpos
    exact hpos.ne' rfl
  dsimp only [s2]
  split_ifs with hbin
  · -- the bin of the tone is in the window, too
    obtain ⟨bin, hnat⟩ := Int.eq_ofNat_of_zero_le hbin.1
    obtain ⟨byte, hbyte, heq⟩ := MagWindow.byteAt_eq hblock htime hfreq
      (Int.ofNat_lt.1 (hnat ▸ hbin.2))
    rw [Candidates.magnitude, hnat, Int.toNat_natCast, hbyte, Option.getD_some, heq]
  · rw [Candidates.magnitude, MagWindow.magnitude, if_neg fun h => hbin h.2.2.2, Nat.cast_zero,
      zero_mul]

theorem mem_threads {cand_idx k : ℕ} (hcand : cand_idx < max_cands) (hk : k < 58) :
    cand_idx * 58 + k ∈ threads max_cands := by
  have hlt : cand_idx * 58 + k < max_cands * 58 := MagWindow.mul_add_lt hcand hk
  rw [threads, List.mem_range, FT8_ND_SOFT]
  omega

/-- The soft decisions of a candidate whose tones are those of a frame. -/
theorem reads_launch (hinj : Function.Injective tone_map.get) {costas : Fin 3 → Vector (Fin 8) 7}
    {c : Fin 174 → Bool} {order : List ℕ} (horder : order.Perm (threads max_cands)) {cand_idx : ℕ}
    (hcand : cand_idx < min cands.cand_count max_cands)
    (h : OneHot (frame costas tone_map c) (cands.magnitude w cand_idx)) (log174_d : ℕ → ℝ) :
    Reads (fun i => launch tone_map w cands max_cands order log174_d (cand_idx * 174 + i)) c := by
  refine reads_of_symbols fun k i => ?_
  -- halved bytes are one-hot as the bytes are
  have hhalf : OneHot (frame costas tone_map c) fun p j =>
      (cands.magnitude w cand_idx p j : ℝ) * 0.5 :=
    h.map (f := fun n : ℕ => (n : ℝ) * 0.5) (by norm_num) fun a ha => by positivity
  obtain ⟨llr, hllr, hdecides⟩ := hhalf.decides_llrs favours_lse4 hinj k i
  obtain ⟨tone, a, -, ha, hmag⟩ := h (data_pos k) (isData_data_pos k.2)
  have hpos : 0 < cands.magnitude w cand_idx (data_pos k) tone := by
    rw [hmag, single, if_pos rfl]
    exact ha
  -- so the symbol is in the window, and its thread does not write zeros
  have hblock : (cands.cand_to cand_idx).toNat + data_pos k < w.num_blocks := by
    by_contra hout
    rw [Candidates.magnitude, MagWindow.magnitude, if_neg fun h => hout h.1] at hpos
    exact hpos.ne' rfl
  have hdiv : (cand_idx * 58 + k) / FT8_ND_SOFT = cand_idx := by
    unfold FT8_ND_SOFT
    omega
  have hmod : (cand_idx * 58 + k) % FT8_ND_SOFT = k := by
    unfold FT8_ND_SOFT
    omega
  have hwritten :
      (written tone_map w cands max_cands (cand_idx * 58 + k))[(i : ℕ)]? = some llr := by
    dsimp only [written]
    rw [hdiv, hmod, if_neg (not_le.2 hcand), if_neg (not_le.2 hblock), funext (s2_eq hpos)]
    exact hllr
  -- the cell is written by the thread of the symbol alone
  have hcell : cand_idx * 174 + (3 * k + i) = 3 * (cand_idx * 58 + k) + i := by ring
  have hmem : cand_idx * 58 + (k : ℕ) ∈ order :=
    horder.mem_iff.2 (mem_threads (lt_of_lt_of_le hcand (min_le_right _ _)) k.2)
  simp only [launch, funext fun mem => funext (kernel_eq_write tone_map w cands max_cands mem)]
  rw [hcell, Launch.foldl_write (length_written tone_map w cands max_cands) hmem hwritten]
  exact hdecides

/-! ## Agreement with the modulation -/

theorem injective_kFT8Refine : Function.Injective kFT8Refine.tone_map.get := by decide

theorem injective_kJS8Refine : Function.Injective kJS8Refine.tone_map.get := by decide

/-- For every codeword, the last stage of `refine_llr` and both kernels read it from one-hot tones
of its frame. The Costas blocks of the JS8 modes differ. -/
theorem soft_demap_reads (c : Fin 174 → Bool) :
    (∀ mode ∈ [kFT8Refine, kJS8Refine], ∀ (Z : ℕ → ℂ) (log174 : ℕ → ℝ),
      OneHot (mode.frame c) (fun p j => ‖Z (p * 8 + j)‖) → Reads (extract_llr mode Z log174) c) ∧
    (∀ (w : MagWindow) (cands : Candidates) (max_cands : ℕ) (order : List ℕ) (log174_d : ℕ → ℝ)
      (cand_idx : ℕ), order.Perm (threads max_cands) → cand_idx < min cands.cand_count max_cands →
      OneHot (kFT8Refine.frame c) (cands.magnitude w cand_idx) →
      Reads (fun i => ft8_soft_symbols w cands max_cands order log174_d (cand_idx * 174 + i)) c) ∧
    (∀ (costas : Fin 3 → Vector (Fin 8) 7) (w : MagWindow) (cands : Candidates) (max_cands : ℕ)
      (order : List ℕ) (log174_d : ℕ → ℝ) (cand_idx : ℕ),
      order.Perm (threads max_cands) → cand_idx < min cands.cand_count max_cands →
      OneHot (frame costas kJS8Refine.tone_map c) (cands.magnitude w cand_idx) →
      Reads (fun i => js8_soft_symbols w cands max_cands order log174_d (cand_idx * 174 + i))
        c) := by
  refine ⟨?_, ?_, ?_⟩
  · intro mode hmode Z log174 h
    refine reads_extract_llr ?_ h log174
    rcases List.mem_pair.1 hmode with rfl | rfl
    · exact injective_kFT8Refine
    · exact injective_kJS8Refine
  · intro w cands max_cands order log174_d cand_idx horder hcand h
    exact reads_launch injective_kFT8Refine horder hcand h log174_d
  · intro costas w cands max_cands order log174_d cand_idx horder hcand h
    exact reads_launch injective_kJS8Refine horder hcand h log174_d

/-- The kernel reads the codeword from the tones that `ft8_encode` makes of it. -/
theorem reads_ft8_encode {codeword : List UInt8} (hlen : codeword.length = 22)
    {tones : List (Fin 8)} (htones : Ft8.Tones.ft8_tones codeword = some tones) {w : MagWindow}
    {cands : Candidates} {max_cands : ℕ} {order : List ℕ} (horder : order.Perm (threads max_cands))
    {cand_idx : ℕ} (hcand : cand_idx < min cands.cand_count max_cands)
    (h : OneHot tones (cands.magnitude w cand_idx)) (log174_d : ℕ → ℝ) :
    Reads (fun i => ft8_soft_symbols w cands max_cands order log174_d (cand_idx * 174 + i))
      (Ft8.Tones.codewordBits codeword) := by
  obtain rfl : kFT8Refine.frame (Ft8.Tones.codewordBits codeword) = tones :=
    Option.some.inj ((Ft8.Tones.ft8_tones_eq hlen).symm.trans htones)
  exact reads_launch injective_kFT8Refine horder hcand h log174_d

/-- A codeword. -/
def everyFifth (i : Fin 174) : Bool := (i : ℕ) % 5 = 0

/-- A ring of eight bins that holds a frame from its first slot on. -/
def frameWindow (tones : List (Fin 8)) : MagWindow where
  mag := List.ofFn fun a : Fin 632 => if tones[(a : ℕ) / 8]? = some (Fin.ofNat 8 a) then 200 else 0
  snap_start := 0
  ring_size := 79
  num_bins := 8
  num_blocks := 79
  time_osr := 1
  freq_osr := 1
  ring_pos := by decide
  length_mag := List.length_ofFn

/-- One candidate, at the start of the window and of the bins. -/
def oneCandidate : Candidates := ⟨fun _ => 0, fun _ => 0, fun _ => 0, fun _ => 0, 1⟩

theorem oneHot_frameWindow {tones : List (Fin 8)} (hlen : tones.length = 79) :
    OneHot tones (oneCandidate.magnitude (frameWindow tones) 0) := by
  refine oneHot_of_cells hlen (v := 200) (by decide) fun p j hp => ?_
  have hlt : p < 79 := by
    unfold IsData at hp
    omega
  have hcell : 8 * p + (j : ℕ) < 632 := by omega
  have hdiv : (8 * p + (j : ℕ)) / 8 = p := by omega
  have hofNat : Fin.ofNat 8 (8 * p + j) = j := Fin.ext (by rw [Fin.val_ofNat]; omega)
  have hbyte : (frameWindow tones).mag[8 * p + (j : ℕ)]? =
      some (if tones[p]? = some j then 200 else 0) := by
    unfold frameWindow
    rw [List.getElem?_ofFn, dif_pos hcell]
    dsimp only
    rw [hdiv, hofNat]
  have haddress : (((0 + p) % 79 * 1 + 0) * 1 + 0) * 8 + (j : ℕ) = 8 * p + j := by omega
  show (frameWindow tones).magnitude 0 0 (0 + p) (0 + (j : ℤ)) = _
  rw [Nat.zero_add, zero_add, MagWindow.magnitude,
    if_pos ⟨hlt, Nat.one_pos, Nat.one_pos, Int.natCast_nonneg _, Int.ofNat_lt.2 j.2⟩,
    MagWindow.sample, List.getD_eq_getElem?_getD]
  show ((frameWindow tones).mag[(((0 + p) % 79 * 1 + 0) * 1 + 0) * 8 + (j : ℕ)]?.getD 0).toNat = _
  rw [haddress, hbyte, Option.getD_some]
  split_ifs <;> rfl

theorem soft_demap_reads_everyFifth :
    Reads (extract_llr kJS8Refine (frameBins (kJS8Refine.frame everyFifth)) 0) everyFifth ∧
    Reads (fun i => ft8_soft_symbols (frameWindow (kFT8Refine.frame everyFifth)) oneCandidate 1
      (threads 1) 0 (0 * 174 + i)) everyFifth ∧
    Reads (fun i => js8_soft_symbols (frameWindow (kJS8Refine.frame everyFifth)) oneCandidate 1
      (threads 1).reverse 0 (0 * 174 + i)) everyFifth :=
  have h := soft_demap_reads everyFifth
  ⟨h.1 _ (by simp) _ _ (oneHot_frameBins (length_frame ..)),
    h.2.1 _ _ _ _ _ _ List.Perm.rfl (by decide) (oneHot_frameWindow (length_frame ..)),
    h.2.2 _ _ _ _ _ _ _ (List.reverse_perm _) (by decide) (oneHot_frameWindow (length_frame ..))⟩

end SoftSymbols

end GranolaSdr.Cuda
