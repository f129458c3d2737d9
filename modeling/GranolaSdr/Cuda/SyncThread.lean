import GranolaSdr.Cuda.SyncTile
import GranolaSdr.Hf.SoftDemap

/-!
# A thread of a sync scan

Behind the barrier, each thread of a sync scan scores one position from the tile of its block, with
one of two metrics. The kernels of `src/gm/cuda` differ in their Costas blocks only.

## Main definitions

* `Entry`: a candidate, as it is stored;
* `legacySymbol`, `maxLogSymbol`, `groups`: the bodies of the loops over the sync symbols, and the
  loops;
* `thread`: a thread behind the barrier, where a read of a cell that was not loaded fails.

## Main results

* `getElem?_frame_kCostas`: the tones that are looked for are the sync symbols of the frames;
* `read_tone`: the cells that a thread reads have been loaded;
* `groups_eq`: the loops over the sync symbols sum up their terms;
* `thread_eq`: a thread scores its position.
-/

namespace GranolaSdr.Cuda.SyncScan

open scoped Demapping

/-- FT8, with three equal blocks. -/
def kCostas_ft8 : Costas := fun _ => #v[3, 1, 4, 0, 6, 5, 2]

/-- JS8 Normal, with three equal blocks. -/
def kCostas_js8 : Costas := fun _ => #v[4, 2, 5, 6, 1, 3, 0]

/-- JS8 Fast, Slow, Turbo and Ultra. -/
def kCostasModified : Costas :=
  ![#v[0, 6, 2, 3, 5, 4, 1], #v[1, 5, 0, 2, 3, 6, 4], #v[2, 5, 0, 6, 4, 1, 3]]

open Hf.SoftDemap in
/-- The tones that are looked for are the sync symbols of the frames. -/
theorem getElem?_frame_kCostas (c : Fin 174 → Bool) (m : Fin 3) (k : Fin 7) :
    (kFT8Refine.frame c)[36 * (m : ℕ) + k]? = some ((kCostas_ft8 m).get k) ∧
      (kJS8Refine.frame c)[36 * (m : ℕ) + k]? = some ((kCostas_js8 m).get k) := by
  have hft8 : kCostas_ft8 m = kFT8Refine.costas := show kCostas_ft8 0 = _ by decide
  have hjs8 : kCostas_js8 m = kJS8Refine.costas := show kCostas_js8 0 = _ by decide
  rw [hft8, hjs8]
  exact ⟨getElem?_frame_sync _ _ _ m k, getElem?_frame_sync _ _ _ m k⟩

/-- A candidate, as it is stored. -/
structure Entry where
  cand_fo : ℤ
  cand_to : UInt8
  cand_ts : UInt8
  cand_fs : UInt8
  /-- A number of 16 bits. -/
  cand_score : ℤ

/-- The position and the score that are stored. -/
def Entry.view (e : Entry) : Position × ℤ :=
  (⟨e.cand_fo.toNat, e.cand_to.toNat, e.cand_ts.toNat, e.cand_fs.toNat⟩, e.cand_score)

/-- A conversion to 16 bits. -/
def int16 (n : ℤ) : ℤ := n.bmod (2 ^ 16)

/-! ## A thread -/

/-- Read a cell of the tile. -/
def read (smem : Tile) (i : ℕ) : Option ℤ := (smem i).map fun val => (val.toNat : ℤ)

/-- Compare a sync tone with a cell of the tile, under a condition. -/
def compareIf (c : Prop) [Decidable c] (smem : Tile) (cur : ℤ) (i : ℕ) (acc : ℤ × ℕ) :
    Option (ℤ × ℕ) :=
  if c then do
    let val ← read smem i
    return (acc.1 + (cur - val), acc.2 + 1)
  else some acc

section Loops

variable (costas : Costas) (w : MagWindow) (b : Block) (tid : Fin BLOCK_SZ) (smem : Tile)

/-- The legacy metric at a sync symbol. -/
def legacySymbol (m : Fin 3) (k : Fin 7) (acc : ℤ × ℕ) : Option (ℤ × ℕ) := do
  let block_abs := b.time_off + 36 * m + k
  let sm : ℕ := (costas m).get k
  let si : ℕ := (m * 7 + k) * WINDOW + tid
  let cur ← read smem (si + sm)
  let acc ← compareIf (0 < sm) smem cur (si + sm - 1) acc
  let acc ← compareIf (sm < 7) smem cur (si + sm + 1) acc
  let si_prev : ℕ := (m * 7 + k - 1) * WINDOW + tid
  let acc ← compareIf (0 < (k : ℕ) ∧ 0 < block_abs) smem cur (si_prev + sm) acc
  let si_next : ℕ := (m * 7 + k + 1) * WINDOW + tid
  compareIf ((k : ℕ) < 6 ∧ block_abs + 1 < w.num_blocks) smem cur (si_next + sm) acc

/-- The greatest magnitude of some tones other than the sync tone. -/
def bestOther (si sm : ℕ) (js : List (Fin 8)) (best_other : ℤ) : Option ℤ :=
  js.foldlM (fun best_other (j : Fin 8) =>
    if (j : ℕ) = sm then some best_other
    else do
      let v ← read smem (si + j)
      return if best_other < v then v else best_other) best_other

/-- The max-log metric at a sync symbol. -/
def maxLogSymbol (m : Fin 3) (k : Fin 7) (acc : ℤ × ℕ) : Option (ℤ × ℕ) := do
  let sm : ℕ := (costas m).get k
  let si : ℕ := (m * 7 + k) * WINDOW + tid
  let cur ← read smem (si + sm)
  let best_other ← bestOther smem si sm (List.finRange 8) 0
  return (acc.1 + (cur - best_other), acc.2 + 1)

/-- The loop over the symbols of a Costas block, which ends with the window. -/
def symbols (body : Fin 7 → ℤ × ℕ → Option (ℤ × ℕ)) (block : ℕ) :
    List (Fin 7) → ℤ × ℕ → Option (ℤ × ℕ)
  | [], acc => some acc
  | k :: ks, acc =>
    if w.num_blocks ≤ block + k then some acc
    else do
      let acc ← body k acc
      symbols body block ks acc

/-- The loop over the Costas blocks. -/
def groups (body : Fin 3 → Fin 7 → ℤ × ℕ → Option (ℤ × ℕ)) : Option (ℤ × ℕ) :=
  (List.finRange 3).foldlM
    (fun acc m => symbols w (body m) (b.time_off + 36 * m) (List.finRange 7) acc) (0, 0)

/-- The score that is stored for the legacy metric. -/
def finishLegacy (min_score : ℚ) (total : ℤ × ℕ) : Option ℤ :=
  let (score, num_avg) := total
  if num_avg = 0 then none
  else
    let score := score.tdiv num_avg
    if score < trunc min_score then none
    else some (int16 (if 32767 < score then 32767 else score))

/-- The score that is stored for the max-log metric. -/
def finishMaxLog (min_score : ℚ) (total : ℤ × ℕ) : Option ℤ :=
  let (score, num_valid) := total
  if num_valid = 0 then none
  else
    let fscore : ℚ := score / num_valid
    if fscore < min_score then none
    else some (if 32767 ≤ fscore then 32767 else int16 (trunc fscore))

/-- The entry of a thread that has found a candidate. -/
def entry (cand_score : ℤ) : Entry where
  cand_fo := (b.fo_base + tid : ℕ)
  cand_to := UInt8.ofNat b.time_off
  cand_ts := UInt8.ofNat (b.time_sub w)
  cand_fs := UInt8.ofNat (b.freq_sub w)
  cand_score

/-- A thread behind the barrier. -/
def thread (legacy_costas : Bool) (min_score : ℚ) : Option (Option Entry) :=
  if (w.num_bins : ℤ) - 8 < (b.fo_base + tid : ℕ) then some none
  else if legacy_costas then do
    let total ← groups w b (legacySymbol costas w b tid smem)
    return (finishLegacy min_score total).map (entry w b tid)
  else do
    let total ← groups w b (maxLogSymbol costas tid smem)
    return (finishMaxLog min_score total).map (entry w b tid)

end Loops

/-! ## The metrics of a thread -/

/-- The position of a thread. -/
def position (w : MagWindow) (b : Block) (tid : Fin BLOCK_SZ) : Position :=
  ⟨b.fo_base + tid, b.time_off, b.time_sub w, b.freq_sub w⟩

/-- A tile whose cells hold their magnitudes. -/
def Loaded (w : MagWindow) (b : Block) (smem : Tile) : Prop :=
  ∀ i < smem_bytes, ∃ val, smem i = some val ∧ val.toNat = b.cell w i

section Metric

variable {costas : Costas} {w : MagWindow} {b : Block} {tid : Fin BLOCK_SZ} {smem : Tile}

/-- The tones of a thread, with their neighbours, lie in the halo of the tile. -/
theorem read_tone (hsmem : Loaded w b smem) (m : Fin 3) (k : Fin 7) {j : ℕ} (hj : j ≤ 8) :
    read smem ((m * 7 + k) * WINDOW + tid + j) =
      some ((position w b tid).tone w ((position w b tid).block m k) j) := by
  -- the last thread reads up to the end of the halo
  have hoff : (tid : ℕ) + j < WINDOW := by
    have htid : (tid : ℕ) < BLOCK_SZ := tid.2
    unfold WINDOW
    omega
  have hslot : (m * 7 + k : ℕ) * WINDOW + (tid + j) < smem_bytes :=
    MagWindow.mul_add_lt (by unfold NUM_COSTAS_SLOTS; omega) hoff
  have hm : (m * 7 + k : ℕ) / 7 = m := by omega
  have hk : (m * 7 + k : ℕ) % 7 = k := by omega
  obtain ⟨val, hval, hcell⟩ := hsmem _ hslot
  rw [read, Nat.add_assoc, hval, Option.map_some, hcell, Block.cell_row _ _ hoff, hm, hk]
  rw [← Nat.add_assoc, Nat.cast_add (b.fo_base + tid)]
  rfl

theorem compareIf_eq {c : Prop} [Decidable c] {cur v : ℤ} {i : ℕ}
    (hread : c → read smem i = some v) (acc : ℤ × ℕ) :
    compareIf c smem cur i acc = some (acc + if c then (cur - v, 1) else 0) := by
  unfold compareIf
  split_ifs with hc
  · rw [hread hc]
    rfl
  · rw [add_zero]

/-- The same tone in the symbol before. -/
theorem read_prev (hsmem : Loaded w b smem) (m : Fin 3) {k : Fin 7} (hpos : 0 < (k : ℕ)) {j : ℕ}
    (hj : j ≤ 8) :
    read smem ((m * 7 + k - 1) * WINDOW + tid + j) =
      some ((position w b tid).tone w ((position w b tid).block m k - 1) j) := by
  have hk : (m * 7 + k - 1 : ℕ) = m * 7 + (⟨k - 1, by omega⟩ : Fin 7) := Nat.add_sub_assoc hpos _
  have hblock : (position w b tid).block m k - 1 = (position w b tid).block m ⟨k - 1, by omega⟩ :=
    Nat.add_sub_assoc hpos _
  rw [hk, hblock]
  exact read_tone hsmem m _ hj

/-- The same tone in the symbol after. -/
theorem read_next (hsmem : Loaded w b smem) (m : Fin 3) {k : Fin 7} (hlt : (k : ℕ) < 6) {j : ℕ}
    (hj : j ≤ 8) :
    read smem ((m * 7 + k + 1) * WINDOW + tid + j) =
      some ((position w b tid).tone w ((position w b tid).block m k + 1) j) :=
  read_tone hsmem m ⟨k + 1, by omega⟩ hj

/-- The body of the legacy loop adds the terms of its symbol. -/
theorem legacySymbol_eq (hsmem : Loaded w b smem) {m : Fin 3} {k : Fin 7} (acc : ℤ × ℕ) :
    legacySymbol costas w b tid smem m k acc =
      some (acc + (((position w b tid).neighbours costas w m k).map fun nb =>
        ((position w b tid).sync costas w m k - (position w b tid).tone w nb.1 nb.2, 1)).sum) := by
  set p := position w b tid
  set sm : ℕ := ((costas m).get k).val with hsm
  have hsm8 : sm < 8 := ((costas m).get k).2
  have hcur : read smem ((m * 7 + k) * WINDOW + tid + sm) = some (p.sync costas w m k) :=
    read_tone hsmem m k (by omega)
  have hbelow : 0 < sm → read smem ((m * 7 + k) * WINDOW + tid + sm - 1) =
      some (p.tone w (p.block m k) ((sm : ℤ) - 1)) := by
    intro hpos
    rw [Nat.add_sub_assoc hpos, read_tone hsmem m k (by omega), Nat.cast_sub hpos, Nat.cast_one]
  have habove : sm < 7 → read smem ((m * 7 + k) * WINDOW + tid + sm + 1) =
      some (p.tone w (p.block m k) ((sm : ℤ) + 1)) := by
    intro hlt
    rw [Nat.add_assoc _ sm, read_tone hsmem m k (by omega), Nat.cast_add, Nat.cast_one]
  have hprev : 0 < (k : ℕ) ∧ 0 < b.time_off + 36 * m + k →
      read smem ((m * 7 + k - 1) * WINDOW + tid + sm) =
        some (p.tone w (p.block m k - 1) (sm : ℤ)) := fun h => read_prev hsmem m h.1 (by omega)
  have hnext : (k : ℕ) < 6 ∧ b.time_off + 36 * m + k + 1 < w.num_blocks →
      read smem ((m * 7 + k + 1) * WINDOW + tid + sm) =
        some (p.tone w (p.block m k + 1) (sm : ℤ)) := fun h => read_next hsmem m h.1 (by omega)
  -- a symbol behind the first of its block is not in the first block of the window
  have hfirst : (0 < (k : ℕ) ∧ 0 < b.time_off + 36 * m + k) ↔ 0 < (k : ℕ) :=
    ⟨And.left, fun hpos => ⟨hpos, by omega⟩⟩
  unfold legacySymbol
  dsimp only
  rw [← hsm, hcur]
  dsimp only [Option.bind_eq_bind, Option.bind_some]
  rw [compareIf_eq hbelow]
  dsimp only [Option.bind_some]
  rw [compareIf_eq habove]
  dsimp only [Option.bind_some]
  rw [compareIf_eq hprev]
  dsimp only [Option.bind_some]
  rw [compareIf_eq hnext]
  -- the four comparisons are the four parts of the list of neighbours
  simp only [hfirst, Position.neighbours, ← hsm, List.map_append, List.sum_append,
    apply_ite (List.map _), apply_ite List.sum, List.map_singleton, List.map_nil,
    List.sum_singleton, List.sum_nil]
  rw [← add_assoc acc, ← add_assoc acc, ← add_assoc acc]
  rfl

/-- The loop over the tones finds the greatest of them. -/
theorem bestOther_eq {si : ℕ} (sm : Fin 8) {f : Fin 8 → ℕ}
    (hread : ∀ j : Fin 8, read smem (si + j) = some (f j : ℤ)) (js : List (Fin 8)) (best : ℕ) :
    bestOther smem si sm js best = some ((best ⊔ (js.toFinset.erase sm).sup f : ℕ) : ℤ) := by
  induction js generalizing best with
  | nil =>
    rw [List.toFinset_nil, Finset.erase_empty, Finset.sup_empty, sup_bot_eq]
    rfl
  | cons j js ih =>
    rw [bestOther, List.foldlM_cons, List.toFinset_cons]
    by_cases hj : j = sm
    · -- the sync tone is passed over
      rw [if_pos (congrArg Fin.val hj), hj, Finset.erase_insert_eq_erase]
      exact ih best
    · -- the comparison keeps the greater of the two
      have hmax : (if (best : ℤ) < f j then (f j : ℤ) else best) = ((best ⊔ f j : ℕ) : ℤ) := by
        split_ifs with hlt
        · rw [Nat.max_eq_right (by omega)]
        · rw [Nat.max_eq_left (by omega)]
      rw [if_neg fun heq => hj (Fin.ext heq), hread, Finset.erase_insert_of_ne hj,
        Finset.sup_insert, ← sup_assoc]
      dsimp only [Option.bind_eq_bind, Option.bind_some, Option.pure_def]
      rw [hmax]
      exact ih _

/-- The body of the max-log loop adds the term of its symbol. -/
theorem maxLogSymbol_eq (hsmem : Loaded w b smem) {m : Fin 3} {k : Fin 7} (acc : ℤ × ℕ) :
    maxLogSymbol costas tid smem m k acc =
      some (acc + ((position w b tid).sync costas w m k -
        (position w b tid).bestOther costas w m k, 1)) := by
  set p := position w b tid
  have hcur : read smem ((m * 7 + k) * WINDOW + tid + ((costas m).get k).val) =
      some (p.sync costas w m k) := read_tone hsmem m k (by omega)
  have htones : ∀ j : Fin 8, read smem ((m * 7 + k) * WINDOW + tid + j) =
      some (w.magnitude p.time_sub p.freq_sub (p.block m k) (p.fo + (j : ℕ)) : ℤ) := fun j =>
    read_tone hsmem m k (by omega)
  have hbest := bestOther_eq ((costas m).get k) htones (List.finRange 8) 0
  rw [List.toFinset_finRange, Nat.cast_zero, Nat.zero_max] at hbest
  unfold maxLogSymbol
  dsimp only
  rw [hcur]
  dsimp only [Option.bind_eq_bind, Option.bind_some]
  rw [hbest]
  rfl

/-- The loop over the symbols of a Costas block adds the terms of those in the window. -/
theorem symbols_eq {body : Fin 7 → ℤ × ℕ → Option (ℤ × ℕ)} {term : Fin 7 → ℤ × ℕ}
    (hbody : ∀ k acc, body k acc = some (acc + term k)) {block : ℕ} {ks : List (Fin 7)}
    (hks : ks.Pairwise (· < ·)) (acc : ℤ × ℕ) :
    symbols w body block ks acc =
      some (acc +
        (ks.map fun k : Fin 7 => if block + k < w.num_blocks then term k else 0).sum) := by
  induction ks generalizing acc with
  | nil => rw [symbols, List.map_nil, List.sum_nil, add_zero]
  | cons k ks ih =>
    rw [List.pairwise_cons] at hks
    rw [symbols, List.map_cons, List.sum_cons]
    by_cases hk : w.num_blocks ≤ block + k
    · -- the symbols behind one outside of the window are outside of it, too
      have hrest : (ks.map fun k : Fin 7 => if block + k < w.num_blocks then term k else 0) =
          ks.map fun _ => 0 :=
        List.map_congr_left fun k' hk' => if_neg (by have := hks.1 k' hk'; omega)
      rw [if_pos hk, if_neg (not_lt.2 hk), hrest, List.sum_map_zero, add_zero, add_zero]
    · rw [if_neg hk, if_pos (not_le.1 hk), hbody]
      dsimp only [Option.bind_eq_bind, Option.bind_some]
      rw [ih hks.2, add_assoc]

theorem foldlM_add {ι M : Type*} [AddMonoid M] {f : M → ι → Option M} {g : ι → M}
    (hf : ∀ acc i, f acc i = some (acc + g i)) (l : List ι) (acc : M) :
    l.foldlM f acc = some (acc + (l.map g).sum) := by
  induction l generalizing acc with
  | nil => rw [List.map_nil, List.sum_nil, add_zero]; rfl
  | cons i l ih =>
    rw [List.foldlM_cons, hf, List.map_cons, List.sum_cons, ← add_assoc]
    exact ih _

/-- The loops over the sync symbols sum up their terms. -/
theorem groups_eq {body : Fin 3 → Fin 7 → ℤ × ℕ → Option (ℤ × ℕ)} {term : Fin 3 → Fin 7 → ℤ × ℕ}
    (hbody : ∀ m k acc, body m k acc = some (acc + term m k)) :
    groups w b body = some (overSymbols w (position w b tid) term) := by
  have hsymbols : ∀ (acc : ℤ × ℕ) (m : Fin 3),
      symbols w (body m) (b.time_off + 36 * m) (List.finRange 7) acc =
        some (acc + ∑ k, if (position w b tid).block m k < w.num_blocks then term m k else 0) := by
    intro acc m
    rw [symbols_eq (hbody m) (List.pairwise_lt_finRange 7), Fin.sum_univ_def]
    rfl
  rw [groups, foldlM_add hsymbols, overSymbols, Fin.sum_univ_def]
  rw [← Prod.zero_eq_mk, zero_add]

/-- The score of a thread whose eight tones lie in the bins. -/
def result (costas : Costas) (w : MagWindow) (legacy_costas : Bool) (min_score : ℚ) (b : Block)
    (tid : Fin BLOCK_SZ) : Option ℤ :=
  if b.fo_base + tid + 8 ≤ w.num_bins then
    score costas w legacy_costas min_score (position w b tid)
  else none

theorem int16_of_abs_le {n : ℤ} (h : |n| ≤ 255) : int16 n = n := by
  rw [abs_le] at h
  unfold int16
  rw [Int.bmod_def]
  split_ifs <;> omega

/-- An average of bytes is stored as it is. -/
theorem finishLegacy_eq {total : ℤ × ℕ} (htotal : Bounded total) (min_score : ℚ) :
    finishLegacy min_score total = legacyAverage min_score total := by
  have hsmall := abs_tdiv_le htotal
  -- the clamp is for values that an average of bytes does not take
  have hclamp : ¬32767 < total.1.tdiv total.2 := by
    rw [abs_le] at hsmall
    omega
  unfold finishLegacy legacyAverage
  dsimp only
  rw [if_neg hclamp, int16_of_abs_le hsmall]

theorem finishMaxLog_eq {total : ℤ × ℕ} (htotal : Bounded total) (min_score : ℚ) :
    finishMaxLog min_score total = maxLogAverage min_score total := by
  have hsmall := abs_div_le htotal
  have hclamp : ¬32767 ≤ (total.1 : ℚ) / total.2 := by
    rw [abs_le] at hsmall
    linarith
  unfold finishMaxLog maxLogAverage
  dsimp only
  rw [if_neg hclamp, int16_of_abs_le (abs_trunc_le (n := 255) hsmall)]

theorem groups_legacy (hsmem : Loaded w b smem) :
    groups w b (legacySymbol costas w b tid smem) = some (legacy costas w (position w b tid)) :=
  groups_eq fun _ _ acc => legacySymbol_eq hsmem acc

theorem groups_maxLog (hsmem : Loaded w b smem) :
    groups w b (maxLogSymbol costas tid smem) = some (maxLog costas w (position w b tid)) :=
  groups_eq fun _ _ acc => maxLogSymbol_eq hsmem acc

/-- A thread scores its position. -/
theorem thread_eq (hsmem : Loaded w b smem) (legacy_costas : Bool) (min_score : ℚ) :
    thread costas w b tid smem legacy_costas min_score =
      some ((result costas w legacy_costas min_score b tid).map (entry w b tid)) := by
  unfold thread result
  by_cases hfo : (w.num_bins : ℤ) - 8 < (b.fo_base + tid : ℕ)
  · rw [if_pos hfo, if_neg (by omega)]
    rfl
  have hin : b.fo_base + tid + 8 ≤ w.num_bins := by omega
  rw [if_neg hfo, if_pos hin]
  cases legacy_costas with
  | true =>
    rw [if_pos rfl, groups_legacy hsmem]
    exact congrArg (fun s => some (Option.map _ s)) (finishLegacy_eq bounded_legacy _)
  | false =>
    rw [if_neg Bool.false_ne_true, groups_maxLog hsmem]
    exact congrArg (fun s => some (Option.map _ s)) (finishMaxLog_eq bounded_maxLog _)

end Metric

end GranolaSdr.Cuda.SyncScan
