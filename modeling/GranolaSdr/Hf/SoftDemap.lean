import GranolaSdr.Lib.Demapping
import GranolaSdr.Lib.Launch
import Mathlib.Analysis.Complex.Norm

/-!
# Modulation of a frame, and its soft decisions

A frame of FT8 or JS8 has 79 symbols of eight tones: 58 data symbols of three bits each, between
three Costas blocks of seven symbols. The last stage of `refine_llr` in `src/gm/hf/refine.cc` takes
the soft decisions of the 174 bits from the tone bins of all symbols.

## Main definitions

* `RefineMode`, `kFT8Refine`, `kJS8Refine`: the Costas block and the tone map of a mode;
* `frame`: the tones of a frame;
* `OneHot`: only the transmitted tone of each data symbol has a magnitude;
* `extract_llr`: the last stage of `refine_llr`;
* `Reads`: soft decisions with the signs of the bits of a codeword;
* `frameBins`: tone bins without noise.

## Main results

* `OneHot.decides_llrs`: the soft decisions of a data symbol of a frame;
* `reads_extract_llr`: the soft decisions of the last stage;
* `extract_llr_eq`: their values, where all tones have one magnitude.
-/

namespace GranolaSdr.Hf.SoftDemap

open Demapping

/-- The sync tones and the order of the tones of a mode. -/
structure RefineMode where
  costas : Vector (Fin 8) 7
  /-- The tone of a label. -/
  tone_map : Vector (Fin 8) 8

def kFT8Refine : RefineMode :=
  ⟨.ofFn ![3, 1, 4, 0, 6, 5, 2], .ofFn ![0, 1, 3, 2, 5, 6, 4, 7]⟩

def kJS8Refine : RefineMode :=
  ⟨.ofFn ![4, 2, 5, 6, 1, 3, 0], .ofFn ![0, 1, 2, 3, 4, 5, 6, 7]⟩

/-- The position of a data symbol. -/
def data_pos (k : ℕ) : ℕ := k + if k < 29 then 7 else 14

/-! ## Modulation -/

/-- The bits of a data symbol. -/
def bits (c : Fin 174 → Bool) (k : Fin 58) (i : Fin 3) : Bool := c ⟨3 * k + i, by omega⟩

/-- The data symbols of a codeword. -/
def dataSymbols (tone_map : Vector (Fin 8) 8) (c : Fin 174 → Bool) : List (Fin 8) :=
  List.ofFn fun k => tone_map.get (label (bits c k))

/-- The tones of a frame: a Costas block, 29 data symbols, and so on. Those that `ft8_encode` makes
with its own tables are such a frame, by `Ft8.Tones.ft8_tones_eq`. -/
def frame (costas : Fin 3 → Vector (Fin 8) 7) (tone_map : Vector (Fin 8) 8) (c : Fin 174 → Bool) :
    List (Fin 8) :=
  (costas 0).toList ++ (dataSymbols tone_map c).take 29 ++ (costas 1).toList ++
    (dataSymbols tone_map c).drop 29 ++ (costas 2).toList

/-- The frame of a mode, with three equal Costas blocks. -/
def RefineMode.frame (mode : RefineMode) (c : Fin 174 → Bool) : List (Fin 8) :=
  SoftDemap.frame (fun _ => mode.costas) mode.tone_map c

/-- A position between the Costas blocks. -/
def IsData (p : ℕ) : Prop := 7 ≤ p ∧ p < 36 ∨ 43 ≤ p ∧ p < 72

instance (p : ℕ) : Decidable (IsData p) := inferInstanceAs (Decidable (_ ∨ _))

theorem isData_data_pos {k : ℕ} (hk : k < 58) : IsData (data_pos k) := by
  unfold IsData data_pos
  split_ifs <;> omega

theorem length_frame (costas : Fin 3 → Vector (Fin 8) 7) (tone_map : Vector (Fin 8) 8)
    (c : Fin 174 → Bool) : (frame costas tone_map c).length = 79 := by
  simp only [frame, dataSymbols, List.length_append, Vector.length_toList, List.length_take,
    List.length_drop, List.length_ofFn]
  rfl

/-- An element of the first of two lists, the length of which is known. -/
theorem getElem?_append_lt {α : Type*} {l l' : List α} {n i : ℕ} (hlen : l.length = n)
    (hi : i < n) :
    (l ++ l')[i]? = l[i]? := List.getElem?_append_left (hlen ▸ hi)

/-- An element of the second of two lists, counted from its start. -/
theorem getElem?_append_add {α : Type*} {l l' : List α} {n : ℕ} (hlen : l.length = n) (i : ℕ) :
    (l ++ l')[n + i]? = l'[i]? := by
  rw [← hlen, List.getElem?_append_right (Nat.le_add_right _ _), Nat.add_sub_cancel_left]

section Frame

variable (costas : Fin 3 → Vector (Fin 8) 7) (tone_map : Vector (Fin 8) 8) (c : Fin 174 → Bool)

theorem length_dataSymbols : (dataSymbols tone_map c).length = 58 := List.length_ofFn

theorem length_take_dataSymbols : ((dataSymbols tone_map c).take 29).length = 29 := by
  rw [List.length_take, length_dataSymbols]
  rfl

theorem length_drop_dataSymbols : ((dataSymbols tone_map c).drop 29).length = 29 := by
  rw [List.length_drop, length_dataSymbols]

theorem length_costas (m : Fin 3) : (costas m).toList.length = 7 := Vector.length_toList

/-- The symbols of a frame at the positions of the data symbols. -/
theorem getElem?_frame (k : Fin 58) :
    (frame costas tone_map c)[data_pos k]? = some (tone_map.get (label (bits c k))) := by
  have hk : (dataSymbols tone_map c)[(k : ℕ)]? = some (tone_map.get (label (bits c k))) := by
    rw [dataSymbols, List.getElem?_ofFn, dif_pos k.2]
  rw [← hk]
  simp only [frame, List.append_assoc]
  by_cases h : (k : ℕ) < 29
  · -- behind the first Costas block
    have hpos : data_pos k = 7 + k := by
      rw [data_pos, if_pos h, Nat.add_comm]
    rw [hpos, getElem?_append_add (length_costas costas 0),
      getElem?_append_lt (length_take_dataSymbols tone_map c) h, List.getElem?_take_of_lt h]
  · -- behind the second one
    have hpos : data_pos k = 7 + (29 + (7 + (k - 29))) := by
      rw [data_pos, if_neg h]
      omega
    have hrest : (k : ℕ) - 29 < 29 := by omega
    rw [hpos, getElem?_append_add (length_costas costas 0),
      getElem?_append_add (length_take_dataSymbols tone_map c),
      getElem?_append_add (length_costas costas 1),
      getElem?_append_lt (length_drop_dataSymbols tone_map c) hrest, List.getElem?_drop,
      Nat.add_sub_cancel' (Nat.le_of_not_lt h)]

/-- The sync symbols of a frame. -/
theorem getElem?_frame_sync (m : Fin 3) (k : Fin 7) :
    (frame costas tone_map c)[36 * (m : ℕ) + k]? = some ((costas m).get k) := by
  have hget : ∀ m, (costas m).toList[(k : ℕ)]? = some ((costas m).get k) := fun m =>
    List.getElem?_eq_getElem (by rw [length_costas]; exact k.2)
  simp only [frame, List.append_assoc]
  -- past the Costas blocks and the halves of the data before it
  match m with
  | 0 =>
    rw [Fin.val_zero, Nat.mul_zero, Nat.zero_add, getElem?_append_lt (length_costas costas 0) k.2,
      hget]
  | 1 =>
    have hpos : 36 * ((1 : Fin 3) : ℕ) + k = 7 + (29 + k) := by
      rw [Fin.val_one]
      omega
    rw [hpos, getElem?_append_add (length_costas costas 0),
      getElem?_append_add (length_take_dataSymbols tone_map c),
      getElem?_append_lt (length_costas costas 1) k.2, hget]
  | 2 =>
    have hpos : 36 * ((2 : Fin 3) : ℕ) + k = 7 + (29 + (7 + (29 + k))) := by
      rw [Fin.val_two]
      omega
    rw [hpos, getElem?_append_add (length_costas costas 0),
      getElem?_append_add (length_take_dataSymbols tone_map c),
      getElem?_append_add (length_costas costas 1),
      getElem?_append_add (length_drop_dataSymbols tone_map c), hget]

end Frame

/-! ## Soft decisions -/

section OneHot

variable {R : Type*} [Zero R] [LT R]

/-- Only the transmitted tone of a data symbol has a magnitude. -/
def OneHot (tones : List (Fin 8)) (mag : ℕ → Fin 8 → R) : Prop :=
  ∀ p, IsData p → ∃ tone a, tones[p]? = some tone ∧ 0 < a ∧ mag p = single a tone

theorem OneHot.map {S : Type*} [Zero S] [LT S] {tones : List (Fin 8)} {mag : ℕ → Fin 8 → R}
    (h : OneHot tones mag) {f : R → S} (hzero : f 0 = 0) (hpos : ∀ a, 0 < a → 0 < f a) :
    OneHot tones fun p j => f (mag p j) := by
  intro p hp
  obtain ⟨tone, a, htone, ha, hmag⟩ := h p hp
  refine ⟨tone, f a, htone, hpos a ha, ?_⟩
  ext j
  show f (mag p j) = single (f a) tone j
  rw [hmag, single, single, apply_ite f, hzero]

/-- A value in the cells of the transmitted tones, and zero in the others. -/
theorem oneHot_of_cells {tones : List (Fin 8)} (hlen : tones.length = 79) {v : R} (hv : 0 < v)
    {mag : ℕ → Fin 8 → R}
    (hmag : ∀ p j, IsData p → mag p j = if tones[p]? = some j then v else 0) :
    OneHot tones mag := by
  intro p hp
  have hlt : p < tones.length := by
    unfold IsData at hp
    omega
  refine ⟨tones[p], v, List.getElem?_eq_getElem hlt, hv, ?_⟩
  ext j
  simp only [hmag p j hp, List.getElem?_eq_getElem hlt, Option.some.injEq, single, eq_comm]

end OneHot

/-- Soft decisions with the signs of the bits of a codeword. -/
def Reads (log174 : ℕ → ℝ) (c : Fin 174 → Bool) : Prop := ∀ i : Fin 174, Decides (log174 i) (c i)

/-- Three soft decisions for each data symbol are those of the codeword. -/
theorem reads_of_symbols {log174 : ℕ → ℝ} {c : Fin 174 → Bool}
    (h : ∀ (k : Fin 58) (i : Fin 3), Decides (log174 (3 * k + i)) (bits c k i)) :
    Reads log174 c := by
  intro i
  have hi := h ⟨i / 3, by omega⟩ ⟨i % 3, Nat.mod_lt _ (by decide)⟩
  have hsplit : 3 * ((i : ℕ) / 3) + i % 3 = i := Nat.div_add_mod _ _
  simpa only [bits, hsplit, Fin.eta] using hi

/-- The soft decisions of a data symbol, when no two labels share a tone. -/
theorem OneHot.decides_llrs {combine : ℝ → ℝ → ℝ → ℝ → ℝ} (hcombine : Favours combine)
    {costas : Fin 3 → Vector (Fin 8) 7} {tone_map : Vector (Fin 8) 8}
    (hinj : Function.Injective tone_map.get) {c : Fin 174 → Bool} {mag : ℕ → Fin 8 → ℝ}
    (h : OneHot (SoftDemap.frame costas tone_map c) mag) (k : Fin 58) (i : Fin 3) :
    ∃ llr, (llrs combine fun j => mag (data_pos k) (tone_map.get j))[(i : ℕ)]? = some llr ∧
      Decides llr (bits c k i) := by
  obtain ⟨tone, a, htone, ha, hmag⟩ := h (data_pos k) (isData_data_pos k.2)
  obtain rfl : tone_map.get (label (bits c k)) = tone :=
    Option.some.inj ((getElem?_frame costas tone_map c k).symm.trans htone)
  -- in the order of the labels the magnitude is at the label of the bits
  have hsingle : (fun j => mag (data_pos k) (tone_map.get j)) = single a (label (bits c k)) := by
    ext j
    simp only [hmag, single, hinj.eq_iff]
  rw [hsingle, ← bit_label (bits c k) i]
  exact Demapping.decides_llrs hcombine ha _ i

/-! ## The last stage of `refine_llr` -/

noncomputable def hypot (z : ℂ) : ℝ := √(z.re ^ 2 + z.im ^ 2)

theorem hypot_eq_norm (z : ℂ) : hypot z = ‖z‖ := (Complex.norm_eq_sqrt_sq_add_sq z).symm

/-- The magnitudes of a data symbol, in the order of the labels. -/
noncomputable def s2 (mode : RefineMode) (Z : ℕ → ℂ) (k : ℕ) (j : Fin 8) : ℝ :=
  hypot (Z (data_pos k * 8 + mode.tone_map.get j))

/-- The last stage of `refine_llr`, on the tone bins of the 79 symbols. -/
noncomputable def extract_llr (mode : RefineMode) (Z : ℕ → ℂ) (log174 : ℕ → ℝ) : ℕ → ℝ :=
  (List.range 58).foldl (fun log174 k => Memory.write log174 (3 * k) (llrs max4 (s2 mode Z k)))
    log174

/-- When the tone bins of a frame are one-hot, the last stage reads its codeword. -/
theorem reads_extract_llr {mode : RefineMode} (hinj : Function.Injective mode.tone_map.get)
    {c : Fin 174 → Bool} {Z : ℕ → ℂ} (h : OneHot (mode.frame c) fun p j => ‖Z (p * 8 + j)‖)
    (log174 : ℕ → ℝ) : Reads (extract_llr mode Z log174) c := by
  refine reads_of_symbols fun k i => ?_
  obtain ⟨llr, hllr, hdecides⟩ := OneHot.decides_llrs favours_max4 hinj h k i
  simp only [← hypot_eq_norm] at hllr
  have hlen : ∀ k, (llrs max4 (s2 mode Z k)).length ≤ 3 := fun _ => le_rfl
  rwa [extract_llr, Launch.foldl_write hlen (List.mem_range.2 k.2) hllr log174]

/-- Where all transmitted tones have one magnitude, the soft decisions differ in their signs
only. -/
theorem extract_llr_eq {mode : RefineMode} (hinj : Function.Injective mode.tone_map.get)
    {c : Fin 174 → Bool} {a : ℝ} (ha : 0 ≤ a) {Z : ℕ → ℂ}
    (hZ : ∀ p (j : Fin 8), ‖Z (p * 8 + j)‖ = if (mode.frame c)[p]? = some j then a else 0)
    (log174 : ℕ → ℝ) (n : Fin 174) :
    extract_llr mode Z log174 n = if c n then a else -a := by
  have hk : (n : ℕ) / 3 < 58 := by omega
  -- in the order of the labels the magnitude is at the label of the bits
  have hlabel : s2 mode Z (n / 3) = fun j => if j = label (bits c ⟨n / 3, hk⟩) then a else 0 := by
    ext j
    have hsent : (mode.frame c)[data_pos (n / 3)]? =
        some (mode.tone_map.get (label (bits c ⟨n / 3, hk⟩))) := getElem?_frame _ _ c ⟨n / 3, hk⟩
    rw [s2, hypot_eq_norm, hZ, hsent]
    simp only [Option.some_inj, hinj.eq_iff, eq_comm]
  have hentry := getElem?_llrs_single ha (label (bits c ⟨n / 3, hk⟩))
    ⟨n % 3, Nat.mod_lt _ (by decide)⟩
  rw [← hlabel, bit_label, bits, sub_zero, zero_sub] at hentry
  have hlen : ∀ k, (llrs max4 (s2 mode Z k)).length ≤ 3 := fun _ => le_rfl
  have hwrite := Launch.foldl_write hlen (List.mem_range.2 hk) hentry log174
  have hsplit : 3 * ((n : ℕ) / 3) + n % 3 = n := Nat.div_add_mod _ _
  simp only [hsplit, Fin.eta] at hwrite
  exact hwrite

/-! ## Tone bins without noise -/

/-- The tone bins of a frame, one of which is one in every symbol. -/
noncomputable def frameBins (tones : List (Fin 8)) (n : ℕ) : ℂ :=
  if tones[n / 8]? = some (Fin.ofNat 8 n) then 1 else 0

theorem norm_frameBins (tones : List (Fin 8)) (p : ℕ) (j : Fin 8) :
    ‖frameBins tones (p * 8 + j)‖ = if tones[p]? = some j then 1 else 0 := by
  have hdiv : (p * 8 + (j : ℕ)) / 8 = p := by omega
  have hofNat : Fin.ofNat 8 (p * 8 + j) = j := Fin.ext (by rw [Fin.val_ofNat]; omega)
  rw [frameBins, hdiv, hofNat, apply_ite norm, norm_one, norm_zero]

theorem oneHot_frameBins {tones : List (Fin 8)} (hlen : tones.length = 79) :
    OneHot tones fun p j => ‖frameBins tones (p * 8 + j)‖ :=
  oneHot_of_cells hlen one_pos fun p j _ => norm_frameBins tones p j

end GranolaSdr.Hf.SoftDemap
