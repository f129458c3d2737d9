import GranolaSdr.Ft8.Tones
import GranolaSdr.Lib.MinHeap
import Mathlib.Data.List.TakeWhile
import Mathlib.Tactic.LinearCombination

/-!
# The search for candidates

`ftx_find_candidates` in `src/ft8_lib/ft8/decode.c` compares the sync tones of every place of a
waterfall with the cells around them, and keeps the places with the best scores.

## Main definitions

* `ftx_waterfall_t`, `ftx_candidate_t`: magnitudes of a slot, and a place in it;
* `SyncMode`, `sync_score`, `ft8_sync_score`, `ft4_sync_score`: the score of a place, `none` if a
  cell outside of the waterfall is read;
* `ftx_find_candidates_range`, `ftx_find_candidates`: the places with the best scores;
* `Shows`: a place where the sync tones stand out from all that surrounds them.

## Main results

* `ftx_find_candidates_spec`: no cell outside is read, and the candidates are the best places in the
  order of their scores;
* `mem_ftx_find_candidates`: a place that shows the sync tones is among them.
-/

namespace GranolaSdr.Ft8.Candidates

/-! ## The waterfall -/

inductive ftx_protocol_t where
  | FTX_PROTOCOL_FT4
  | FTX_PROTOCOL_FT8
  deriving DecidableEq

/-- The magnitudes of a slot, by block, subdivisions and bin. A counter of subdivisions has one
byte. -/
structure ftx_waterfall_t where
  max_blocks : ℕ
  num_blocks : ℕ
  num_bins : ℕ
  time_osr : ℕ
  freq_osr : ℕ
  mag : List UInt8
  block_stride : ℕ
  protocol : ftx_protocol_t
  num_blocks_le : num_blocks ≤ max_blocks
  time_osr_lt : time_osr < 2 ^ 8
  freq_osr_lt : freq_osr < 2 ^ 8
  block_stride_eq : block_stride = time_osr * freq_osr * num_bins
  length_mag : mag.length = max_blocks * block_stride

structure ftx_candidate_t where
  score : ℤ
  time_offset : ℤ
  freq_offset : ℤ
  time_sub : ℕ
  freq_sub : ℕ
  deriving DecidableEq, Inhabited

namespace ftx_waterfall_t

variable (wf : ftx_waterfall_t)

/-- The magnitude at an index. -/
def read (i : ℤ) : Option ℤ := if 0 ≤ i then wf.mag[i.toNat]?.map fun x => x.toNat else none

/-- The index of the first cell of a candidate. -/
def get_cand_mag (candidate : ftx_candidate_t) : ℤ :=
  let offset := candidate.time_offset
  let offset := offset * wf.time_osr + candidate.time_sub
  let offset := offset * wf.freq_osr + candidate.freq_sub
  offset * wf.num_bins + candidate.freq_offset

end ftx_waterfall_t

/-! ## The score of a place -/

/-- The sync symbols of a protocol: how many groups of them there are, how long these are, how far
apart and where they begin, and their tones. -/
structure SyncMode where
  num_sync : ℕ
  length_sync : ℕ
  sync_offset : ℕ
  first : ℕ
  num_tones : ℕ
  pattern : ℕ → ℕ → ℕ
  pattern_lt : ∀ m < num_sync, ∀ k < length_sync, pattern m k < num_tones
  pattern_ne : ∀ m < num_sync, ∀ k, k + 1 < length_sync → pattern m k ≠ pattern m (k + 1)

def kFT4_Costas_pattern : List (List ℕ) := [[0, 1, 3, 2], [1, 0, 2, 3], [2, 3, 1, 0], [3, 2, 0, 1]]

def ft8Tone (_ k : ℕ) : ℕ := Tones.kFT8_Costas_pattern.getD k 0

def ft4Tone (m k : ℕ) : ℕ := (kFT4_Costas_pattern.getD m []).getD k 0

theorem ft8Tone_lt : ∀ m < 3, ∀ k < 7, ft8Tone m k < 8 := by decide

theorem ft8Tone_ne : ∀ m < 3, ∀ k, k + 1 < 7 → ft8Tone m k ≠ ft8Tone m (k + 1) := by
  have hall : ∀ m < 3, ∀ k < 6, ft8Tone m k ≠ ft8Tone m (k + 1) := by decide
  exact fun m hm k hk => hall m hm k (Nat.lt_of_succ_lt_succ hk)

theorem ft4Tone_lt : ∀ m < 4, ∀ k < 4, ft4Tone m k < 4 := by decide

theorem ft4Tone_ne : ∀ m < 4, ∀ k, k + 1 < 4 → ft4Tone m k ≠ ft4Tone m (k + 1) := by
  have hall : ∀ m < 4, ∀ k < 3, ft4Tone m k ≠ ft4Tone m (k + 1) := by decide
  exact fun m hm k hk => hall m hm k (Nat.lt_of_succ_lt_succ hk)

def ft8Sync : SyncMode := ⟨3, 7, 36, 0, 8, ft8Tone, ft8Tone_lt, ft8Tone_ne⟩

def ft4Sync : SyncMode := ⟨4, 4, 33, 1, 4, ft4Tone, ft4Tone_lt, ft4Tone_ne⟩

section Score

variable (wf : ftx_waterfall_t)

/-- Compare a cell with another one: the sum of the differences, and their number. -/
def compare (cell other : ℤ) (s : ℤ × ℕ) : Option (ℤ × ℕ) := do
  let a ← wf.read cell
  let b ← wf.read other
  return (s.1 + (a - b), s.2 + 1)

/-- A comparison that is only made under a condition. -/
def compareIf (cond : Prop) [Decidable cond] (cell other : ℤ) (s : ℤ × ℕ) : Option (ℤ × ℕ) :=
  if cond then compare wf cell other s else some s

/-- Compare the expected tone of a sync symbol with its neighbours in frequency and in time. -/
def syncSymbol (mode : SyncMode) (candidate : ftx_candidate_t) (m k : ℕ) (s : ℤ × ℕ) :
    Option (ℤ × ℕ) :=
  let block : ℤ := mode.first + mode.sync_offset * m + k
  let block_abs := candidate.time_offset + block
  if block_abs < 0 then some s
  else do
    let sm := mode.pattern m k
    let cell := wf.get_cand_mag candidate + block * wf.block_stride + sm
    let s ← compareIf wf (0 < sm) cell (cell - 1) s
    let s ← compareIf wf (sm < mode.num_tones - 1) cell (cell + 1) s
    let s ← compareIf wf (0 < k ∧ 0 < block_abs) cell (cell - wf.block_stride) s
    compareIf wf (k + 1 < mode.length_sync ∧ block_abs + 1 < wf.num_blocks) cell
      (cell + wf.block_stride) s

/-- The symbols of a group before the end of the waterfall. -/
def syncGroup (mode : SyncMode) (candidate : ftx_candidate_t) (s : ℤ × ℕ) (m : ℕ) :
    Option (ℤ × ℕ) :=
  ((List.range mode.length_sync).takeWhile fun (k : ℕ) =>
    candidate.time_offset + (mode.first + mode.sync_offset * m + k) < wf.num_blocks).foldlM
    (fun s k => syncSymbol wf mode candidate m k s) s

/-- The average difference, rounded to zero. -/
def sync_score (mode : SyncMode) (candidate : ftx_candidate_t) : Option ℤ := do
  let (score, num_average) ← (List.range mode.num_sync).foldlM (syncGroup wf mode candidate) (0, 0)
  return if 0 < num_average then score.tdiv num_average else score

def ft8_sync_score (candidate : ftx_candidate_t) : Option ℤ := sync_score wf ft8Sync candidate

def ft4_sync_score (candidate : ftx_candidate_t) : Option ℤ := sync_score wf ft4Sync candidate

/-! ## The search -/

def heapify_down (heap : ℕ → ftx_candidate_t) (heap_size : ℕ) : ℕ → ftx_candidate_t :=
  MinHeap.down ftx_candidate_t.score heap heap_size 0

def heapify_up (heap : ℕ → ftx_candidate_t) (heap_size : ℕ) : ℕ → ftx_candidate_t :=
  MinHeap.up ftx_candidate_t.score heap (heap_size - 1)

/-- Keep a candidate if there is place for it, or a worse one that makes place. -/
def keep (num_candidates : ℕ) (s : MinHeap.State ftx_candidate_t) (candidate : ftx_candidate_t) :
    MinHeap.State ftx_candidate_t :=
  let s := if s.size = num_candidates ∧ (s.cells 0).score < candidate.score then
      let heap_size := s.size - 1
      ⟨heapify_down (Function.update s.cells 0 (s.cells heap_size)) heap_size, heap_size⟩
    else s
  if s.size < num_candidates then
    ⟨heapify_up (Function.update s.cells s.size candidate) (s.size + 1), s.size + 1⟩
  else s

/-- The sync symbols of the waterfall's protocol. -/
def syncMode : SyncMode :=
  match wf.protocol with
  | .FTX_PROTOCOL_FT4 => ft4Sync
  | .FTX_PROTOCOL_FT8 => ft8Sync

/-- Score a place in 16 bits, and keep it if the score is not too low. -/
def consider (num_candidates : ℕ) (min_score : ℤ) (s : MinHeap.State ftx_candidate_t)
    (candidate : ftx_candidate_t) : Option (MinHeap.State ftx_candidate_t) := do
  let score ← sync_score wf (syncMode wf) candidate
  let candidate := { candidate with score := score.bmod (2 ^ 16) }
  return if candidate.score < min_score then s else keep num_candidates s candidate

/-- The places of the loops. -/
def places (freq_offset_start freq_offset_end : ℤ) : List ftx_candidate_t :=
  let freq_end := if freq_offset_end < 0 then (wf.num_bins : ℤ) else freq_offset_end
  let last := min freq_end (wf.num_bins - ((syncMode wf).num_tones - 1))
  (List.range wf.time_osr).flatMap fun time_sub =>
    (List.range wf.freq_osr).flatMap fun freq_sub =>
      (List.range 30).flatMap fun (time_offset : ℕ) =>
        (List.range (last - freq_offset_start).toNat).map fun (i : ℕ) =>
          ⟨0, time_offset, freq_offset_start + i, time_sub, freq_sub⟩

/-- Search a range of bins. The heap is not sorted. -/
def ftx_find_candidates_range (num_candidates : ℕ) (heap : ℕ → ftx_candidate_t) (min_score : ℤ)
    (freq_offset_start freq_offset_end : ℤ) : Option (MinHeap.State ftx_candidate_t) :=
  (places wf freq_offset_start freq_offset_end).foldlM (consider wf num_candidates min_score)
    ⟨heap, 0⟩

/-- The heapsort behind the search. -/
def heapsort : (ℕ → ftx_candidate_t) → ℕ → ℕ → ftx_candidate_t
  | heap, len_unsorted + 2 =>
    heapsort (heapify_down (MinHeap.swap heap (len_unsorted + 1) 0) (len_unsorted + 1))
      (len_unsorted + 1)
  | heap, _ => heap

/-- Search all bins, the candidate with the best score first. -/
def ftx_find_candidates (num_candidates : ℕ) (heap : ℕ → ftx_candidate_t) (min_score : ℤ) :
    Option (MinHeap.State ftx_candidate_t) := do
  let s ← ftx_find_candidates_range wf num_candidates heap min_score 0 (-1)
  return ⟨heapsort s.cells s.size, s.size⟩

/-! ## What is read -/

/-- A place in the waterfall where all tones are stored. -/
structure Inside (mode : SyncMode) (candidate : ftx_candidate_t) : Prop where
  freq_nonneg : 0 ≤ candidate.freq_offset
  freq_le : candidate.freq_offset + mode.num_tones ≤ wf.num_bins
  time_sub_lt : candidate.time_sub < wf.time_osr
  freq_sub_lt : candidate.freq_sub < wf.freq_osr

/-- The index of the cell of a tone in a block. -/
def index (candidate : ftx_candidate_t) (block_abs tone : ℤ) : ℤ :=
  ((block_abs * wf.time_osr + candidate.time_sub) * wf.freq_osr + candidate.freq_sub) *
    wf.num_bins + candidate.freq_offset + tone

/-- The magnitude of a tone in a block. -/
def level (candidate : ftx_candidate_t) (block_abs tone : ℤ) : ℤ :=
  (wf.read (index wf candidate block_abs tone)).getD 0

theorem index_eq (candidate : ftx_candidate_t) (block tone : ℤ) :
    wf.get_cand_mag candidate + block * wf.block_stride + tone =
      index wf candidate (candidate.time_offset + block) tone := by
  rw [ftx_waterfall_t.get_cand_mag, index, wf.block_stride_eq]
  push_cast
  ring

variable {wf} {mode : SyncMode} {candidate : ftx_candidate_t}

/-- The digits of a number of mixed radix. -/
theorem digits_lt {a b n k : ℤ} (ha : a < n) (hb : b < k) (hk : 0 ≤ k) : a * k + b < n * k := by
  have hstep : (a + 1) * k ≤ n * k := Int.mul_le_mul_of_nonneg_right ha hk
  linarith

/-- The cells of a place are stored. -/
theorem read_index (h : Inside wf mode candidate) {block_abs tone : ℤ} (hlow : 0 ≤ block_abs)
    (hhigh : block_abs < wf.num_blocks) (htone : 0 ≤ tone) (htones : tone < mode.num_tones) :
    wf.read (index wf candidate block_abs tone) = some (level wf candidate block_abs tone) := by
  -- the index is a number of mixed radix, each of its digits below its base
  have htime : block_abs * wf.time_osr + candidate.time_sub < wf.num_blocks * wf.time_osr :=
    digits_lt hhigh (Int.ofNat_lt.2 h.time_sub_lt) (Int.natCast_nonneg _)
  have hfreq := digits_lt htime (Int.ofNat_lt.2 h.freq_sub_lt) (Int.natCast_nonneg wf.freq_osr)
  have hbin : candidate.freq_offset + tone < wf.num_bins := by
    have hle := h.freq_le
    omega
  have hlt := digits_lt hfreq hbin (Int.natCast_nonneg _)
  have hnonneg : 0 ≤ index wf candidate block_abs tone := by
    have hfreq_nonneg := h.freq_nonneg
    unfold index
    positivity
  -- the blocks seen so far are among those that there is memory for
  have hstored : (wf.num_blocks : ℤ) * wf.time_osr * wf.freq_osr * wf.num_bins ≤ wf.mag.length := by
    rw [wf.length_mag, wf.block_stride_eq]
    push_cast
    have hblocks : (wf.num_blocks : ℤ) ≤ wf.max_blocks := Int.ofNat_le.2 wf.num_blocks_le
    have hle := Int.mul_le_mul_of_nonneg_right hblocks
      (Int.natCast_nonneg (wf.time_osr * wf.freq_osr * wf.num_bins))
    push_cast at hle
    linarith
  have hindex : index wf candidate block_abs tone < wf.mag.length := by
    unfold index
    linarith
  rw [level, ftx_waterfall_t.read, if_pos hnonneg, List.getElem?_eq_getElem (by omega)]
  rfl

/-- A cell that the cell of a sync symbol is compared with. -/
inductive Neighbour (wf : ftx_waterfall_t) (mode : SyncMode) (m k : ℕ) (block_abs : ℤ) :
    ℤ → ℤ → Prop where
  | lower : 0 < mode.pattern m k → Neighbour wf mode m k block_abs block_abs (mode.pattern m k - 1)
  | higher : mode.pattern m k + 1 < mode.num_tones →
      Neighbour wf mode m k block_abs block_abs (mode.pattern m k + 1)
  | earlier : 0 < k → 0 < block_abs →
      Neighbour wf mode m k block_abs (block_abs - 1) (mode.pattern m k)
  | later : k + 1 < mode.length_sync → block_abs + 1 < wf.num_blocks →
      Neighbour wf mode m k block_abs (block_abs + 1) (mode.pattern m k)

/-- The block of a sync symbol. -/
def syncBlock (mode : SyncMode) (candidate : ftx_candidate_t) (m k : ℕ) : ℤ :=
  candidate.time_offset + (mode.first + mode.sync_offset * m + k)

/-- It is in the waterfall. -/
theorem Neighbour.stored {m k : ℕ} {block_abs block_abs' tone : ℤ} (hm : m < mode.num_sync)
    (hk : k < mode.length_sync) (hlow : 0 ≤ block_abs) (hhigh : block_abs < wf.num_blocks)
    (h : Neighbour wf mode m k block_abs block_abs' tone) :
    0 ≤ block_abs' ∧ block_abs' < wf.num_blocks ∧ 0 ≤ tone ∧ tone < mode.num_tones := by
  have htone := mode.pattern_lt m hm k hk
  cases h <;> omega

/-- What is kept by all comparisons of a place. -/
def Kept (wf : ftx_waterfall_t) (mode : SyncMode) (candidate : ftx_candidate_t)
    (P : ℤ × ℕ → Prop) : Prop :=
  ∀ m < mode.num_sync, ∀ k < mode.length_sync, 0 ≤ syncBlock mode candidate m k →
    syncBlock mode candidate m k < wf.num_blocks → ∀ block_abs tone,
    Neighbour wf mode m k (syncBlock mode candidate m k) block_abs tone → ∀ s, P s →
    P (s.1 + (level wf candidate (syncBlock mode candidate m k) (mode.pattern m k) -
      level wf candidate block_abs tone), s.2 + 1)

theorem compare_eq (h : Inside wf mode candidate) {block_abs tone block_abs' tone' : ℤ}
    (hlow : 0 ≤ block_abs) (hhigh : block_abs < wf.num_blocks) (htone : 0 ≤ tone)
    (htones : tone < mode.num_tones) (hlow' : 0 ≤ block_abs') (hhigh' : block_abs' < wf.num_blocks)
    (htone' : 0 ≤ tone') (htones' : tone' < mode.num_tones) (s : ℤ × ℕ) :
    compare wf (index wf candidate block_abs tone) (index wf candidate block_abs' tone') s =
      some (s.1 + (level wf candidate block_abs tone - level wf candidate block_abs' tone'),
        s.2 + 1) := by
  rw [compare, read_index h hlow hhigh htone htones, read_index h hlow' hhigh' htone' htones']
  rfl

theorem exists_compareIf {P : ℤ × ℕ → Prop} {cond : Prop} [Decidable cond] {cell other : ℤ}
    {s : ℤ × ℕ} (hs : P s)
    (h : cond → ∃ s', compare wf cell other s = some s' ∧ P s' ∧ s'.2 = s.2 + 1) :
    ∃ s', compareIf wf cond cell other s = some s' ∧ P s' ∧ s'.2 = s.2 + if cond then 1 else 0 := by
  unfold compareIf
  by_cases hcond : cond
  · rw [if_pos hcond, if_pos hcond]
    exact h hcond
  · rw [if_neg hcond, if_neg hcond]
    exact ⟨s, rfl, hs, rfl⟩

/-- The comparisons of one sync symbol. There is at least one, if it is in the waterfall. -/
theorem syncSymbol_spec (h : Inside wf mode candidate) {P : ℤ × ℕ → Prop}
    (hP : Kept wf mode candidate P) {m k : ℕ} (hm : m < mode.num_sync) (hk : k < mode.length_sync)
    (hhigh : syncBlock mode candidate m k < wf.num_blocks) {s : ℤ × ℕ} (hs : P s) :
    ∃ s', syncSymbol wf mode candidate m k s = some s' ∧ P s' ∧ s.2 ≤ s'.2 ∧
      (0 ≤ syncBlock mode candidate m k ∧ 1 < mode.num_tones → s.2 < s'.2) := by
  have hcell := index_eq wf candidate (mode.first + mode.sync_offset * m + k) (mode.pattern m k)
  rw [← syncBlock] at hcell
  unfold syncSymbol
  dsimp only
  rw [← syncBlock, hcell]
  generalize hblock : syncBlock mode candidate m k = block_abs at hhigh ⊢
  by_cases hlow : block_abs < 0
  · rw [if_pos hlow]
    exact ⟨s, rfl, hs, le_rfl, fun hinside => absurd hinside.1 (not_le.2 hlow)⟩
  · have hlow := not_lt.1 hlow
    have htone := mode.pattern_lt m hm k hk
    have hstep : ∀ {block_abs' tone' : ℤ}, Neighbour wf mode m k block_abs block_abs' tone' →
        ∀ {s}, P s → ∃ s', compare wf (index wf candidate block_abs (mode.pattern m k))
          (index wf candidate block_abs' tone') s = some s' ∧ P s' ∧ s'.2 = s.2 + 1 := by
      intro block_abs' tone' hneighbour s hs
      obtain ⟨hlow', hhigh', htone', htones'⟩ := hneighbour.stored hm hk hlow hhigh
      refine ⟨_, compare_eq h hlow hhigh (Int.natCast_nonneg _) (Int.ofNat_lt.2 htone) hlow' hhigh'
        htone' htones' s, ?_, rfl⟩
      subst hblock
      exact hP m hm k hk hlow hhigh _ _ hneighbour s hs
    -- the other cells of the comparisons
    have hlower : index wf candidate block_abs (mode.pattern m k) - 1 =
        index wf candidate block_abs (mode.pattern m k - 1) := by
      unfold index
      ring
    have hhigher : index wf candidate block_abs (mode.pattern m k) + 1 =
        index wf candidate block_abs (mode.pattern m k + 1) := by
      unfold index
      ring
    have hstride : ∀ c : ℤ, index wf candidate block_abs (mode.pattern m k) + c * wf.block_stride =
        index wf candidate (block_abs + c) (mode.pattern m k) := by
      intro c
      unfold index
      rw [wf.block_stride_eq]
      push_cast
      ring
    have hearlier := hstride (-1)
    have hlater := hstride 1
    rw [neg_one_mul, ← sub_eq_add_neg, ← sub_eq_add_neg] at hearlier
    rw [one_mul] at hlater
    rw [if_neg (not_lt.2 hlow), hlower, hhigher, hearlier, hlater]
    obtain ⟨s₁, h₁, hs₁, hn₁⟩ := exists_compareIf hs fun hpos : 0 < mode.pattern m k =>
      hstep (.lower hpos) hs
    obtain ⟨s₂, h₂, hs₂, hn₂⟩ := exists_compareIf hs₁
      fun hlt : mode.pattern m k < mode.num_tones - 1 =>
      hstep (.higher (by omega)) hs₁
    obtain ⟨s₃, h₃, hs₃, hn₃⟩ := exists_compareIf hs₂ fun hback : 0 < k ∧ 0 < block_abs =>
      hstep (.earlier hback.1 hback.2) hs₂
    obtain ⟨s₄, h₄, hs₄, hn₄⟩ := exists_compareIf hs₃
      fun hforward : k + 1 < mode.length_sync ∧ block_abs + 1 < wf.num_blocks =>
      hstep (.later hforward.1 hforward.2) hs₃
    rw [h₁, Option.bind_eq_bind, Option.bind_some, h₂, Option.bind_some, h₃, Option.bind_some]
    refine ⟨s₄, h₄, hs₄, by omega, fun htwo => ?_⟩
    by_cases hpos : 0 < mode.pattern m k
    · rw [if_pos hpos] at hn₁
      omega
    · rw [if_pos (by omega)] at hn₂
      omega

/-- A loop that never fails keeps what each of its steps keeps, and what grows in a step has grown
in the end. -/
theorem exists_foldlM {β γ : Type*} {P : β → Prop} {μ : β → ℕ} {T : γ → Prop}
    {f : β → γ → Option β} {l : List γ}
    (h : ∀ a ∈ l, ∀ s, P s → ∃ s', f s a = some s' ∧ P s' ∧ μ s ≤ μ s' ∧ (T a → μ s < μ s')) {s : β}
    (hs : P s) :
    ∃ s', l.foldlM f s = some s' ∧ P s' ∧ μ s ≤ μ s' ∧ ((∃ a ∈ l, T a) → μ s < μ s') := by
  induction l generalizing s with
  | nil => exact ⟨s, rfl, hs, le_rfl, fun ⟨a, ha, _⟩ => absurd ha List.not_mem_nil⟩
  | cons a l ih =>
    obtain ⟨s₁, hstep, hs₁, hle, hlt⟩ := h a List.mem_cons_self s hs
    obtain ⟨s₂, hrest, hs₂, hle', hlt'⟩ := ih (fun b hb => h b (List.mem_cons_of_mem a hb)) hs₁
    refine ⟨s₂, ?_, hs₂, hle.trans hle', ?_⟩
    · rw [List.foldlM_cons, hstep]
      exact hrest
    · rintro ⟨b, hb, hT⟩
      rcases List.mem_cons.1 hb with rfl | hb
      · exact (hlt hT).trans_le hle'
      · exact hle.trans_lt (hlt' ⟨b, hb, hT⟩)

/-- A sync symbol in the waterfall. -/
def Stored (wf : ftx_waterfall_t) (mode : SyncMode) (candidate : ftx_candidate_t) (m k : ℕ) :
    Prop :=
  k < mode.length_sync ∧ 0 ≤ syncBlock mode candidate m k ∧
    syncBlock mode candidate m k < wf.num_blocks

/-- A group of which nothing in the waterfall is skipped. -/
theorem mem_takeWhile {m k : ℕ} (h : Stored wf mode candidate m k) :
    k ∈ (List.range mode.length_sync).takeWhile fun (k : ℕ) =>
      decide (syncBlock mode candidate m k < wf.num_blocks) := by
  obtain ⟨hk, -, hhigh⟩ := h
  have hsplit : List.range mode.length_sync = List.range (k + 1) ++
      (List.range (mode.length_sync - (k + 1))).map (k + 1 + ·) := by
    rw [← List.range_add, Nat.add_sub_cancel' hk]
  have hbefore : ∀ j ∈ List.range (k + 1),
      decide (syncBlock mode candidate m j < wf.num_blocks) = true := by
    intro j hj
    have hle := List.mem_range.1 hj
    apply decide_eq_true
    unfold syncBlock at hhigh ⊢
    omega
  rw [hsplit, List.takeWhile_append_of_pos hbefore]
  exact List.mem_append_left _ (List.mem_range.2 (Nat.lt_succ_self k))

/-- The comparisons of a place. -/
theorem sync_score_spec (h : Inside wf mode candidate) (htwo : 1 < mode.num_tones)
    {P : ℤ × ℕ → Prop} (hP : Kept wf mode candidate P) (hzero : P (0, 0)) :
    ∃ s, P s ∧ sync_score wf mode candidate = some (if 0 < s.2 then s.1.tdiv s.2 else s.1) ∧
      ((∃ m < mode.num_sync, ∃ k, Stored wf mode candidate m k) → 0 < s.2) := by
  -- one sync block after the other, and in each of them one symbol after the other
  have hgroup : ∀ m ∈ List.range mode.num_sync, ∀ s, P s →
      ∃ s', syncGroup wf mode candidate s m = some s' ∧ P s' ∧ s.2 ≤ s'.2 ∧
        ((∃ k, Stored wf mode candidate m k) → s.2 < s'.2) := by
    intro m hm s hs
    have hloop : ∀ k ∈ (List.range mode.length_sync).takeWhile fun (k : ℕ) =>
        decide (syncBlock mode candidate m k < wf.num_blocks), ∀ s, P s →
        ∃ s', syncSymbol wf mode candidate m k s = some s' ∧ P s' ∧ s.2 ≤ s'.2 ∧
          (0 ≤ syncBlock mode candidate m k ∧ 1 < mode.num_tones → s.2 < s'.2) := by
      intro k hk s hs
      have hmem := (List.takeWhile_sublist _).subset hk
      have hbefore := List.mem_takeWhile_imp hk
      exact syncSymbol_spec h hP (List.mem_range.1 hm) (List.mem_range.1 hmem)
        (of_decide_eq_true hbefore) hs
    obtain ⟨s', hfold, hs', hle, hlt⟩ := exists_foldlM (μ := Prod.snd) hloop hs
    exact ⟨s', hfold, hs', hle, fun ⟨k, hk⟩ => hlt ⟨k, mem_takeWhile hk, hk.2.1, htwo⟩⟩
  obtain ⟨s, hs, hPs, -, hlt⟩ := exists_foldlM (μ := Prod.snd) hgroup hzero
  refine ⟨s, hPs, ?_, fun ⟨m, hm, hstored⟩ => hlt ⟨m, List.mem_range.2 hm, hstored⟩⟩
  rw [sync_score, hs]
  rfl

/-! ## Scores -/

/-- The magnitude of a stored cell is one of the waterfall. -/
theorem level_bounds {A B : ℤ} (hmag : ∀ x ∈ wf.mag, B ≤ x.toNat ∧ x.toNat ≤ A)
    (h : Inside wf mode candidate) {block_abs tone : ℤ} (hlow : 0 ≤ block_abs)
    (hhigh : block_abs < wf.num_blocks) (htone : 0 ≤ tone) (htones : tone < mode.num_tones) :
    B ≤ level wf candidate block_abs tone ∧ level wf candidate block_abs tone ≤ A := by
  have hread := read_index h hlow hhigh htone htones
  generalize level wf candidate block_abs tone = value at hread ⊢
  unfold ftx_waterfall_t.read at hread
  split_ifs at hread
  obtain ⟨x, hx, rfl⟩ := Option.map_eq_some_iff.1 hread
  exact hmag x (List.mem_of_getElem? hx)

/-- An average is no greater than all that it is taken of. -/
theorem tdiv_le {score d : ℤ} {n : ℕ} (hd : 0 ≤ d) (hn : 0 < n) (h : score ≤ d * n) :
    score.tdiv n ≤ d := by
  rcases Int.le_total 0 score with hpos | hneg
  · rw [Int.tdiv_eq_ediv_of_nonneg hpos]
    exact Int.ediv_le_of_le_mul (Int.natCast_pos.2 hn) h
  · have hflip : 0 ≤ (-score).tdiv n :=
      Int.tdiv_nonneg (Int.neg_nonneg.2 hneg) (Int.natCast_nonneg n)
    rw [Int.neg_tdiv] at hflip
    omega

variable (wf) in
/-- The score of a place. -/
def score (candidate : ftx_candidate_t) : ℤ := (sync_score wf (syncMode wf) candidate).getD 0

theorem one_lt_num_tones (wf : ftx_waterfall_t) : 1 < (syncMode wf).num_tones := by
  unfold syncMode
  cases wf.protocol <;> decide

/-- No cell outside of the waterfall is read, and the score is no greater than the differences
between its magnitudes. -/
theorem sync_score_eq (h : Inside wf (syncMode wf) candidate) {A B : ℤ} (hle : B ≤ A)
    (hmag : ∀ x ∈ wf.mag, B ≤ x.toNat ∧ x.toNat ≤ A) :
    sync_score wf (syncMode wf) candidate = some (score wf candidate) ∧
      |score wf candidate| ≤ A - B := by
  -- no comparison adds more than the greatest difference to the sum
  have hkept : Kept wf (syncMode wf) candidate fun s =>
      s.1 ≤ (A - B) * s.2 ∧ -s.1 ≤ (A - B) * s.2 := by
    rintro m hm k hk hfirst hlast block_abs tone hneighbour s ⟨hhigh, hlow⟩
    have hcell := level_bounds hmag h hfirst hlast (Int.natCast_nonneg _)
      (Int.ofNat_lt.2 ((syncMode wf).pattern_lt m hm k hk))
    obtain ⟨hlow', hhigh', htone', htones'⟩ := hneighbour.stored hm hk hfirst hlast
    have hother := level_bounds hmag h hlow' hhigh' htone' htones'
    push_cast
    constructor
    · linarith
    · linarith
  obtain ⟨s, ⟨hhigh, hlow⟩, hscore, -⟩ :=
    sync_score_spec h (one_lt_num_tones wf) hkept ⟨by simp, by simp⟩
  have hvalue : score wf candidate = if 0 < s.2 then s.1.tdiv s.2 else s.1 := by
    rw [score, hscore]
    rfl
  refine ⟨hscore.trans (congrArg some hvalue.symm), ?_⟩
  rw [hvalue]
  split_ifs with hpos
  · -- the mean of the comparisons is rounded towards zero
    apply abs_le'.2
    rw [← Int.neg_tdiv]
    exact ⟨tdiv_le (sub_nonneg.2 hle) hpos hhigh, tdiv_le (sub_nonneg.2 hle) hpos hlow⟩
  · obtain hzero : s.2 = 0 := Nat.eq_zero_of_not_pos hpos
    rw [hzero, Int.natCast_zero, mul_zero] at hhigh hlow
    rw [show s.1 = 0 by omega, abs_zero]
    omega

/-- A place with the sync tones at one magnitude and all that surrounds them at another one. -/
def Shows (wf : ftx_waterfall_t) (mode : SyncMode) (candidate : ftx_candidate_t) (A B : ℤ) : Prop :=
  ∀ m < mode.num_sync, ∀ k, Stored wf mode candidate m k → ∀ tone : ℕ, tone < mode.num_tones →
    level wf candidate (syncBlock mode candidate m k) tone =
      if tone = mode.pattern m k then A else B

/-- What surrounds the sync tones of such a place. -/
theorem Shows.level_neighbour {A B : ℤ} (h : Shows wf mode candidate A B) {m k : ℕ}
    (hm : m < mode.num_sync) (hstored : Stored wf mode candidate m k) {block_abs tone : ℤ}
    (hneighbour : Neighbour wf mode m k (syncBlock mode candidate m k) block_abs tone) :
    level wf candidate block_abs tone = B := by
  have htone := mode.pattern_lt m hm k hstored.1
  obtain ⟨hk, hlow, hhigh⟩ := hstored
  cases hneighbour with
  | lower hpos =>
    have hcast : ((mode.pattern m k : ℕ) : ℤ) - 1 = ((mode.pattern m k - 1 : ℕ) : ℤ) := by omega
    rw [hcast, h m hm k ⟨hk, hlow, hhigh⟩ _ (by omega), if_neg (by omega)]
  | higher hlt =>
    rw [← Nat.cast_succ, h m hm k ⟨hk, hlow, hhigh⟩ _ (by omega), if_neg (by omega)]
  | earlier hpos hback =>
    have hblock : syncBlock mode candidate m k - 1 = syncBlock mode candidate m (k - 1) := by
      unfold syncBlock
      omega
    have hne := mode.pattern_ne m hm (k - 1) (by omega)
    rw [Nat.sub_add_cancel hpos] at hne
    rw [hblock, h m hm (k - 1) ⟨by omega, by omega, by omega⟩ _ htone, if_neg hne.symm]
  | later hlt hforward =>
    have hblock : syncBlock mode candidate m k + 1 = syncBlock mode candidate m (k + 1) := by
      unfold syncBlock
      omega
    rw [hblock, h m hm (k + 1) ⟨hlt, by omega, by omega⟩ _ htone,
      if_neg (mode.pattern_ne m hm k hlt)]

/-- The score of such a place is the difference between the two magnitudes. -/
theorem Shows.score_eq {A B : ℤ} (h : Shows wf (syncMode wf) candidate A B)
    (hinside : Inside wf (syncMode wf) candidate)
    (hstored : ∃ m < (syncMode wf).num_sync, ∃ k, Stored wf (syncMode wf) candidate m k) :
    score wf candidate = A - B := by
  have hkept : Kept wf (syncMode wf) candidate fun s => s.1 = (A - B) * s.2 := by
    intro m hm k hk hlow hhigh block_abs tone hneighbour s hs
    have htone := (syncMode wf).pattern_lt m hm k hk
    rw [h.level_neighbour hm ⟨hk, hlow, hhigh⟩ hneighbour, h m hm k ⟨hk, hlow, hhigh⟩ _ htone,
      if_pos rfl]
    push_cast
    linarith
  obtain ⟨s, hs, hscore, hpos⟩ :=
    sync_score_spec hinside (one_lt_num_tones wf) hkept (by simp)
  have hpos := hpos hstored
  rw [score, hscore, Option.getD_some, if_pos hpos, hs]
  exact Int.mul_tdiv_cancel _ (by omega)

/-! ## The search -/

theorem keep_eq_offer (num_candidates : ℕ) :
    keep num_candidates = MinHeap.offer ftx_candidate_t.score num_candidates := rfl

theorem heapsort_eq_sort (heap : ℕ → ftx_candidate_t) (size : ℕ) :
    heapsort heap size = MinHeap.sort ftx_candidate_t.score heap size := by
  fun_induction MinHeap.sort ftx_candidate_t.score heap size with
  | case1 => rfl
  | case2 => rfl
  | case3 heap n ih =>
    rw [heapsort]
    exact ih

/-- The places of the loops are in the waterfall. -/
theorem inside_of_mem_places {freq_offset_start freq_offset_end : ℤ}
    (hstart : 0 ≤ freq_offset_start) (h : candidate ∈ places wf freq_offset_start freq_offset_end) :
    Inside wf (syncMode wf) candidate := by
  have htwo := one_lt_num_tones wf
  unfold places at h
  simp only [List.mem_flatMap, List.mem_map, List.mem_range] at h
  obtain ⟨time_sub, htime, freq_sub, hfreq, time_offset, -, i, hi, rfl⟩ := h
  have hlast := min_le_right (if freq_offset_end < 0 then (wf.num_bins : ℤ) else freq_offset_end)
    (wf.num_bins - (((syncMode wf).num_tones : ℤ) - 1))
  generalize min (if freq_offset_end < 0 then (wf.num_bins : ℤ) else freq_offset_end)
    (wf.num_bins - (((syncMode wf).num_tones : ℤ) - 1)) = last at hi hlast
  refine ⟨?_, ?_, htime, hfreq⟩
  · dsimp only
    omega
  · dsimp only
    omega

variable (wf) in
/-- A place with its score. -/
def scored (candidate : ftx_candidate_t) : ftx_candidate_t :=
  { candidate with score := score wf candidate }

/-- The score of a place fits into 16 bits. -/
theorem consider_eq (h : Inside wf (syncMode wf) candidate) (num_candidates : ℕ) (min_score : ℤ)
    (s : MinHeap.State ftx_candidate_t) :
    consider wf num_candidates min_score s candidate =
      some (if min_score ≤ score wf candidate then
        MinHeap.offer ftx_candidate_t.score num_candidates s (scored wf candidate) else s) := by
  obtain ⟨hscore, hbound⟩ :=
    sync_score_eq h (A := 255) (B := 0) (by decide)
      fun x _ => ⟨by omega, by have := x.toNat_lt; omega⟩
  have hbmod : (score wf candidate).bmod (2 ^ 16) = score wf candidate := by
    have hlow := (abs_le.1 hbound).1
    have hhigh := (abs_le.1 hbound).2
    exact Int.bmod_eq_of_le (by omega) (by omega)
  rw [consider, hscore, Option.bind_eq_bind, Option.bind_some, hbmod, keep_eq_offer]
  by_cases hmin : score wf candidate < min_score
  · rw [if_neg (not_le.2 hmin)]
    exact congrArg some (if_pos hmin)
  · rw [if_pos (not_lt.1 hmin)]
    exact congrArg some (if_neg hmin)

variable (wf) in
/-- The places of the loops with their scores, as far as these are not too low. -/
def scoredPlaces (min_score freq_offset_start freq_offset_end : ℤ) : List ftx_candidate_t :=
  ((places wf freq_offset_start freq_offset_end).map (scored wf)).filter (min_score ≤ ·.score)

/-- The loops offer all of them to the heap. -/
theorem ftx_find_candidates_range_eq {freq_offset_start : ℤ} (hstart : 0 ≤ freq_offset_start)
    (freq_offset_end : ℤ) (num_candidates : ℕ) (heap : ℕ → ftx_candidate_t) (min_score : ℤ) :
    ftx_find_candidates_range wf num_candidates heap min_score freq_offset_start freq_offset_end =
      some ((scoredPlaces wf min_score freq_offset_start freq_offset_end).foldl
        (MinHeap.offer ftx_candidate_t.score num_candidates) ⟨heap, 0⟩) := by
  -- by induction over the places, as the search skips those whose score is too low
  have hloop : ∀ l : List ftx_candidate_t, (∀ c ∈ l, Inside wf (syncMode wf) c) → ∀ s,
      l.foldlM (consider wf num_candidates min_score) s =
        some (((l.map (scored wf)).filter (min_score ≤ ·.score)).foldl
          (MinHeap.offer ftx_candidate_t.score num_candidates) s) := by
    intro l
    induction l with
    | nil => exact fun _ s => rfl
    | cons c l ih =>
      intro h s
      rw [List.foldlM_cons, consider_eq (h c List.mem_cons_self), Option.bind_eq_bind,
        Option.bind_some, ih fun c' hc' => h c' (List.mem_cons_of_mem c hc'), List.map_cons]
      have hkey : (scored wf c).score = score wf c := rfl
      rw [List.filter_cons, hkey]
      by_cases hmin : min_score ≤ score wf c
      · rw [if_pos hmin, if_pos (decide_eq_true hmin), List.foldl_cons]
      · rw [if_neg hmin, if_neg fun h => hmin (of_decide_eq_true h)]
  exact hloop _ (fun c hc => inside_of_mem_places hstart hc) _

/-- The candidates. -/
def found (s : MinHeap.State ftx_candidate_t) : List ftx_candidate_t :=
  (List.range s.size).map s.cells

theorem coe_found (s : MinHeap.State ftx_candidate_t) :
    (found s : Multiset ftx_candidate_t) = MinHeap.content s.cells s.size := rfl

/-- What the search returns. -/
theorem exists_find_candidates {num_candidates : ℕ} (hpos : 0 < num_candidates)
    (heap : ℕ → ftx_candidate_t) (min_score : ℤ) :
    ∃ s, ftx_find_candidates wf num_candidates heap min_score = some s ∧
      (found s).Pairwise (fun a b => b.score ≤ a.score) ∧
      MinHeap.Best ftx_candidate_t.score num_candidates (scoredPlaces wf min_score 0 (-1))
        (found s) := by
  have hrange := @ftx_find_candidates_range_eq wf 0 le_rfl (-1) num_candidates heap min_score
  obtain ⟨hheap, hbest⟩ := @MinHeap.holds_foldl_offer _ _ _ ftx_candidate_t.score _ hpos
    (scoredPlaces wf min_score 0 (-1)) heap
  generalize List.foldl (MinHeap.offer ftx_candidate_t.score num_candidates) ⟨heap, 0⟩
    (scoredPlaces wf min_score 0 (-1)) = s at hrange hheap hbest
  refine ⟨⟨heapsort s.cells s.size, s.size⟩, ?_, ?_, ?_⟩
  · rw [ftx_find_candidates, hrange]
    rfl
  · -- the heap is sorted in place
    rw [found, List.pairwise_map, List.pairwise_iff_getElem]
    intro i j hi hj hij
    rw [List.length_range] at hi hj
    rw [List.getElem_range, List.getElem_range]
    dsimp only
    rw [heapsort_eq_sort]
    exact MinHeap.sorted_sort hheap hij hj
  · rw [coe_found]
    dsimp only
    rw [heapsort_eq_sort, MinHeap.content_sort]
    exact hbest

/-- The search reads no cell outside of the waterfall. Where there is room for at least one place,
it returns as many of the places whose scores are not too low as there is room for, in the order of
their scores, and none of the others has a better score. -/
theorem ftx_find_candidates_spec {num_candidates : ℕ} (hpos : 0 < num_candidates)
    (heap : ℕ → ftx_candidate_t) (min_score : ℤ) :
    ∃ s, ftx_find_candidates wf num_candidates heap min_score = some s ∧
      (∀ c ∈ places wf 0 (-1), sync_score wf (syncMode wf) c = some (score wf c)) ∧
      (found s).length = min num_candidates (scoredPlaces wf min_score 0 (-1)).length ∧
      (found s).Pairwise (fun a b => b.score ≤ a.score) ∧
      ∃ rest, (found s ++ rest).Perm (scoredPlaces wf min_score 0 (-1)) ∧
        ∀ a ∈ found s, ∀ b ∈ rest, b.score ≤ a.score := by
  obtain ⟨s, hfind, hsorted, hcard, rest, hall, hle⟩ :=
    @exists_find_candidates wf _ hpos heap min_score
  refine ⟨s, hfind, fun c hc => ?_, hcard, hsorted, rest.toList, ?_, fun a ha b hb => ?_⟩
  · exact (sync_score_eq (inside_of_mem_places le_rfl hc) (A := 255) (B := 0) (by decide)
      fun x _ => ⟨by omega, by have := x.toNat_lt; omega⟩).1
  · rw [← Multiset.coe_eq_coe, ← Multiset.coe_add, Multiset.coe_toList]
    exact hall
  · exact hle a (Multiset.mem_coe.2 ha) b (Multiset.mem_toList.1 hb)

/-- A place that shows the sync tones has the best score of all, and there is place for it among the
best ones, if there is for all that have this score. -/
theorem mem_best {num_candidates : ℕ} {min_score A B : ℤ}
    (hmag : ∀ x ∈ wf.mag, B ≤ x.toNat ∧ x.toNat ≤ A) (hmin : min_score ≤ A - B)
    (hc : candidate ∈ places wf 0 (-1)) (hshows : Shows wf (syncMode wf) candidate A B)
    (hstored : ∃ m < (syncMode wf).num_sync, ∃ k, Stored wf (syncMode wf) candidate m k)
    (hfew : ((places wf 0 (-1)).filter (score wf · = A - B)).length ≤ num_candidates) :
    0 < num_candidates ∧ ∀ best : List ftx_candidate_t,
      MinHeap.Best ftx_candidate_t.score num_candidates (scoredPlaces wf min_score 0 (-1)) best →
        { candidate with score := A - B } ∈ best ∧ ∀ c ∈ best, c.score ≤ A - B := by
  have hinside := inside_of_mem_places le_rfl hc
  have hscore := hshows.score_eq hinside hstored
  -- a sync tone in the waterfall has a magnitude between the two
  have hle : B ≤ A := by
    obtain ⟨m, hm, k, hk, hlow, hhigh⟩ := hstored
    have hbounds := level_bounds hmag hinside hlow hhigh (Int.natCast_nonneg _)
      (Int.ofNat_lt.2 ((syncMode wf).pattern_lt m hm k hk))
    exact hbounds.1.trans hbounds.2
  have hmax : ∀ c ∈ places wf 0 (-1), score wf c ≤ A - B := fun c hc =>
    (abs_le.1 (sync_score_eq (inside_of_mem_places le_rfl hc) hle hmag).2).2
  have hmem : scored wf candidate ∈ scoredPlaces wf min_score 0 (-1) := by
    refine List.mem_filter.2 ⟨List.mem_map_of_mem hc, decide_eq_true ?_⟩
    exact hmin.trans hscore.ge
  -- no place has a better score, so those at least as good are those with this one
  have hcount : ((scoredPlaces wf min_score 0 (-1)).filter
      ((scored wf candidate).score ≤ ·.score)).length ≤ num_candidates := by
    refine le_trans ?_ hfew
    rw [scoredPlaces, List.filter_filter, ← List.countP_eq_length_filter, List.countP_map,
      ← List.countP_eq_length_filter]
    refine List.countP_mono_left fun c hc h => decide_eq_true ?_
    have hbetter := of_decide_eq_true (Bool.and_eq_true_iff.1 h).1
    exact le_antisymm (hmax c hc) (hscore.ge.trans hbetter)
  refine ⟨?_, fun best hbest => ⟨?_, fun c hc => ?_⟩⟩
  · have hcounted : candidate ∈ (places wf 0 (-1)).filter (score wf · = A - B) :=
      List.mem_filter.2 ⟨hc, decide_eq_true hscore⟩
    exact (List.length_pos_of_mem hcounted).trans_le hfew
  · rw [← hscore]
    refine Multiset.mem_coe.1 (hbest.mem_of_card_lt (Multiset.mem_coe.2 hmem) ?_)
    rw [Multiset.filter_coe, Multiset.coe_card]
    exact hcount
  · obtain ⟨-, rest, hall, -⟩ := hbest
    have hall' : c ∈ scoredPlaces wf min_score 0 (-1) := by
      rw [← Multiset.mem_coe, ← hall]
      exact Multiset.mem_add.2 (Or.inl (Multiset.mem_coe.2 hc))
    obtain ⟨c', hc', rfl⟩ := List.mem_map.1 (List.mem_filter.1 hall').1
    exact hmax c' hc'

/-- A place that shows the sync tones with the magnitude `A`, and `B` around them, is found with the
best score of all, as long as there is room for all that have this score. No magnitude of the
waterfall is below `B` or above `A`, and the score asked for is at most `A - B`. -/
theorem mem_ftx_find_candidates {num_candidates : ℕ} (heap : ℕ → ftx_candidate_t)
    {min_score A B : ℤ} (hmag : ∀ x ∈ wf.mag, B ≤ x.toNat ∧ x.toNat ≤ A) (hmin : min_score ≤ A - B)
    (hc : candidate ∈ places wf 0 (-1)) (hshows : Shows wf (syncMode wf) candidate A B)
    (hstored : ∃ m < (syncMode wf).num_sync, ∃ k, Stored wf (syncMode wf) candidate m k)
    (hfew : ((places wf 0 (-1)).filter (score wf · = A - B)).length ≤ num_candidates) :
    ∃ s, ftx_find_candidates wf num_candidates heap min_score = some s ∧
      { candidate with score := A - B } ∈ found s ∧ ∀ c ∈ found s, c.score ≤ A - B := by
  obtain ⟨hpos, hmem⟩ := mem_best hmag hmin hc hshows hstored hfew
  obtain ⟨s, hfind, -, hbest⟩ := @exists_find_candidates wf _ hpos heap min_score
  exact ⟨s, hfind, hmem _ hbest⟩

end Score

/-! ## A waterfall of one block -/

theorem one_lt_byte : 1 < 2 ^ 8 := by decide

theorem one_le_one_block : 1 ≤ 1 := Nat.le_refl 1

/-- The first sync tone, and nothing else. -/
def oneBlock : ftx_waterfall_t :=
  ⟨1, 1, 8, 1, 1, [0, 0, 0, 9, 0, 0, 0, 0], 8, .FTX_PROTOCOL_FT8, one_le_one_block, one_lt_byte,
    one_lt_byte, rfl, rfl⟩

/-- There are 30 places with a score that is not negative, and room for two of them. -/
theorem find_candidates_oneBlock :
    (scoredPlaces oneBlock 0 0 (-1)).length = 30 ∧
    ∃ s, ftx_find_candidates oneBlock 2 (fun _ => default) 0 = some s ∧
      (∀ c ∈ places oneBlock 0 (-1),
        sync_score oneBlock (syncMode oneBlock) c = some (score oneBlock c)) ∧
      (found s).length = min 2 (scoredPlaces oneBlock 0 0 (-1)).length ∧
      (found s).Pairwise (fun a b => b.score ≤ a.score) ∧
      ∃ rest, (found s ++ rest).Perm (scoredPlaces oneBlock 0 0 (-1)) ∧
        ∀ a ∈ found s, ∀ b ∈ rest, b.score ≤ a.score :=
  ⟨by decide +kernel, ftx_find_candidates_spec (by decide) (fun _ => default) 0⟩

theorem shows_oneBlock : Shows oneBlock (syncMode oneBlock) ⟨0, 0, 0, 0, 0⟩ 9 0 := by
  intro m hm k hstored tone htone
  have hhigh : (0 : ℤ) + (((0 : ℕ) : ℤ) + ((36 : ℕ) : ℤ) * m + k) < ((1 : ℕ) : ℤ) := hstored.2.2
  obtain rfl : m = 0 := by omega
  obtain rfl : k = 0 := by omega
  have hall : ∀ tone < 8, level oneBlock ⟨0, 0, 0, 0, 0⟩ 0 (tone : ℕ) =
      if tone = ft8Tone 0 0 then 9 else 0 := by decide +kernel
  exact hall tone htone

theorem mem_find_candidates_oneBlock :
    ∃ s, ftx_find_candidates oneBlock 1 (fun _ => default) 5 = some s ∧
      ⟨9 - 0, 0, 0, 0, 0⟩ ∈ found s ∧ ∀ c ∈ found s, c.score ≤ 9 - 0 :=
  @mem_ftx_find_candidates oneBlock ⟨0, 0, 0, 0, 0⟩ 1 (fun _ => default) 5 9 0 (by decide +kernel)
    (by decide) (by decide +kernel) shows_oneBlock
    ⟨0, by decide, 0, by decide, by decide, by decide⟩ (by decide +kernel)

end GranolaSdr.Ft8.Candidates
