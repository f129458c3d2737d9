import GranolaSdr.Cuda.SyncThread
import Mathlib.Data.List.ProdSigma

/-!
# The sync scans

`ft8_gpu_scan`, `js8_gpu_scan` and `js8_fast_gpu_scan` of `src/gm/cuda` launch a grid of blocks of
threads over all positions of a window. A thread whose position reaches the threshold appends it to
the list of candidates, in an order that is not determined. The FT8 kernel can skip blocks of bins.

## Main definitions

* `Schedule`: the orders in which the threads load their tiles, and in which they append;
* `gpu_scan`: a scan, where an access out of bounds fails;
* `Exact`: the candidates of a scan are those of the direct evaluation.

## Main results

* `scan_spec`: the candidates of a scan that may skip blocks of bins;
* `gpu_scans_exact`: the three scans are exact.
-/

namespace GranolaSdr.Cuda.SyncScan

/-- The candidate arrays, and how many candidates have been found. -/
structure Out where
  cands : ℕ → Entry
  cand_count : ℕ

/-- The counter is advanced atomically; a candidate beyond the cap is counted only. -/
def Out.push (out : Out) (max_cands : ℕ) (e : Entry) : Out where
  cands := if out.cand_count < max_cands then Function.update out.cands out.cand_count e
    else out.cands
  cand_count := out.cand_count + 1

/-- The blocks of bins of the grid. -/
def grid_x (w : MagWindow) : ℕ := (w.num_bins + BLOCK_SZ - 1) / BLOCK_SZ

def grid_y (w : MagWindow) : ℕ := 30 * w.time_osr * w.freq_osr

/-- The threads of the grid. -/
def threads (w : MagWindow) : List (Block × Fin BLOCK_SZ) :=
  ((List.range (grid_x w) ×ˢ List.range (grid_y w)).map fun i => Block.mk i.1 i.2) ×ˢ
    List.finRange BLOCK_SZ

/-- The orders in which the threads of a scan run. -/
structure Schedule (w : MagWindow) where
  /-- Within each block, before the barrier. -/
  loads : Block → List (Fin BLOCK_SZ)
  /-- Over all blocks, behind the barrier. -/
  order : List (Block × Fin BLOCK_SZ)
  loads_perm : ∀ b, (loads b).Perm (List.finRange BLOCK_SZ)
  order_perm : order.Perm (threads w)

section Scan

variable (costas : Costas) (w : MagWindow) (legacy_costas : Bool) (min_score : ℚ) (max_cands : ℕ)

/-- The flag of a block of bins. Without flags, all blocks are scanned. -/
def isActive (block_active : Option (List UInt8)) (blockIdx_x : ℕ) : Option Bool :=
  match block_active with
  | none => some true
  | some flags => flags[blockIdx_x]?.map (· != 0)

/-- A thread, from its start to its end. -/
def scanThread (block_active : Option (List UInt8)) (loads : Block → List (Fin BLOCK_SZ))
    (out : Out) (t : Block × Fin BLOCK_SZ) : Option Out := do
  let active ← isActive block_active t.1.blockIdx_x
  if active then
    let smem ← t.1.tile w (loads t.1)
    let found ← thread costas w t.1 t.2 smem legacy_costas min_score
    match found with
    | none => return out
    | some e => return out.push max_cands e
  else return out

/-- A scan, into arrays with some content. -/
def gpu_scan (block_active : Option (List UInt8)) (schedule : Schedule w) (cands : ℕ → Entry) :
    Option Out :=
  schedule.order.foldlM (scanThread costas w legacy_costas min_score max_cands block_active
    schedule.loads) ⟨cands, 0⟩

def ft8_gpu_scan : Option (List UInt8) → Schedule w → (ℕ → Entry) → Option Out :=
  gpu_scan kCostas_ft8 w legacy_costas min_score max_cands

def js8_gpu_scan : Schedule w → (ℕ → Entry) → Option Out :=
  gpu_scan kCostas_js8 w legacy_costas min_score max_cands none

def js8_fast_gpu_scan : Schedule w → (ℕ → Entry) → Option Out :=
  gpu_scan kCostasModified w legacy_costas min_score max_cands none

/-- No access of a scan was out of bounds, and it has found the positions that the direct evaluation
admits, each once and with its score. Those below the cap are stored. -/
def Exact (result : Option Out) : Prop :=
  ∃ (out : Out) (found : List (Position × ℤ)), result = some out ∧
    out.cand_count = found.length ∧
    (∀ i, i < max_cands → i < found.length → found[i]? = some (out.cands i).view) ∧
    found.Nodup ∧
    ∀ p s, (p, s) ∈ found ↔ p.InRange w ∧ score costas w legacy_costas min_score p = some s

end Scan

/-! ## The list of candidates -/

/-- The arrays hold the entries found so far, up to the cap. -/
structure Out.Holds (out : Out) (max_cands : ℕ) (found : List Entry) : Prop where
  cand_count : out.cand_count = found.length
  cands : ∀ i, i < max_cands → i < found.length → found[i]? = some (out.cands i)

theorem Out.holds_init (max_cands : ℕ) (cands : ℕ → Entry) :
    Out.Holds ⟨cands, 0⟩ max_cands [] where
  cand_count := rfl
  cands _ _ hi := absurd hi (Nat.not_lt_zero _)

theorem Out.Holds.push {out : Out} {max_cands : ℕ} {found : List Entry}
    (h : out.Holds max_cands found) (e : Entry) :
    (out.push max_cands e).Holds max_cands (found ++ [e]) where
  cand_count := by rw [List.length_append, ← h.cand_count]; rfl
  cands i hmax hi := by
    rw [List.length_append, List.length_singleton] at hi
    unfold Out.push
    dsimp only
    rcases Nat.lt_or_ge i found.length with hlt | hge
    · -- an earlier entry is not written over
      have hne : i ≠ out.cand_count := by rw [h.cand_count]; omega
      rw [List.getElem?_append_left hlt, h.cands i hmax hlt]
      split_ifs
      · rw [Function.update_of_ne hne]
      · rfl
    · -- the new one is stored unless the list is full
      obtain rfl : i = out.cand_count := by rw [h.cand_count]; omega
      rw [if_pos hmax, Function.update_self, h.cand_count, List.getElem?_append_right le_rfl,
        Nat.sub_self]
      rfl

section Candidates

variable {costas : Costas} {w : MagWindow} {legacy_costas : Bool} {min_score : ℚ} {max_cands : ℕ}
  {block_active : Option (List UInt8)}

theorem mem_threads {t : Block × Fin BLOCK_SZ} :
    t ∈ threads w ↔ t.1.blockIdx_x < grid_x w ∧ t.1.InGrid w := by
  obtain ⟨⟨x, y⟩, tid⟩ := t
  rw [threads, List.mem_product, List.mem_map]
  constructor
  · rintro ⟨⟨⟨x', y'⟩, hmem, hblock⟩, -⟩
    cases hblock
    obtain ⟨hx, hy⟩ := List.mem_product.1 hmem
    exact ⟨List.mem_range.1 hx, List.mem_range.1 hy⟩
  · rintro ⟨hx, hy⟩
    exact ⟨⟨(x, y), List.mem_product.2 ⟨List.mem_range.2 hx, List.mem_range.2 hy⟩, rfl⟩,
      List.mem_finRange _⟩

theorem nodup_threads : (threads w).Nodup := by
  refine List.Nodup.product (List.Nodup.map ?_ ?_) (List.nodup_finRange _)
  · -- a block is its two indices
    rintro ⟨x, y⟩ ⟨x', y'⟩ heq
    cases heq
    rfl
  · exact List.nodup_range.product List.nodup_range

/-- The blocks of bins that are not skipped. -/
def active (block_active : Option (List UInt8)) (blockIdx_x : ℕ) : Bool :=
  match block_active with
  | none => true
  | some flags => flags.getD blockIdx_x 0 != 0

theorem isActive_eq (hflags : ∀ flags ∈ block_active, grid_x w ≤ flags.length) {x : ℕ}
    (hx : x < grid_x w) : isActive block_active x = some (active block_active x) := by
  cases block_active with
  | none => rfl
  | some flags =>
    have hlt : x < flags.length := lt_of_lt_of_le hx (hflags flags rfl)
    rw [isActive, active, List.getD_eq_getElem?_getD, List.getElem?_eq_getElem hlt]
    rfl

/-- The entry that a thread appends. -/
def found (costas : Costas) (w : MagWindow) (legacy_costas : Bool) (min_score : ℚ)
    (block_active : Option (List UInt8)) (t : Block × Fin BLOCK_SZ) : Option Entry :=
  if active block_active t.1.blockIdx_x then
    (result costas w legacy_costas min_score t.1 t.2).map (entry w t.1 t.2)
  else none

/-- A thread appends its entry, and none of its accesses is out of bounds. -/
theorem scanThread_eq (hflags : ∀ flags ∈ block_active, grid_x w ≤ flags.length)
    {loads : Block → List (Fin BLOCK_SZ)} {t : Block × Fin BLOCK_SZ}
    (hloads : (loads t.1).Perm (List.finRange BLOCK_SZ)) (ht : t ∈ threads w) (out : Out) :
    scanThread costas w legacy_costas min_score max_cands block_active loads out t =
      some (match found costas w legacy_costas min_score block_active t with
        | none => out
        | some e => out.push max_cands e) := by
  obtain ⟨hx, hgrid⟩ := mem_threads.1 ht
  obtain ⟨smem, htile, hsmem⟩ := Block.exists_tile hgrid hloads
  unfold scanThread found
  rw [isActive_eq hflags hx]
  dsimp only [Option.bind_eq_bind, Option.bind_some]
  split_ifs
  · -- the tile is loaded before any thread reads it
    rw [htile]
    dsimp only [Option.bind_some]
    rw [thread_eq hsmem]
    dsimp only [Option.bind_some]
    cases (result costas w legacy_costas min_score t.1 t.2).map (entry w t.1 t.2) <;> rfl
  · rfl

/-- The candidates of some threads, in their order. -/
theorem foldlM_scanThread (hflags : ∀ flags ∈ block_active, grid_x w ≤ flags.length)
    {loads : Block → List (Fin BLOCK_SZ)} (hloads : ∀ b, (loads b).Perm (List.finRange BLOCK_SZ))
    {order : List (Block × Fin BLOCK_SZ)} (horder : ∀ t ∈ order, t ∈ threads w) {out : Out}
    {before : List Entry} (h : out.Holds max_cands before) :
    ∃ out', order.foldlM
        (scanThread costas w legacy_costas min_score max_cands block_active loads) out = some out' ∧
      out'.Holds max_cands
        (before ++ order.filterMap (found costas w legacy_costas min_score block_active)) := by
  induction order generalizing out before with
  | nil => exact ⟨out, rfl, by rwa [List.filterMap_nil, List.append_nil]⟩
  | cons t order ih =>
    rw [List.forall_mem_cons] at horder
    rw [List.foldlM_cons, scanThread_eq hflags (hloads t.1) horder.1]
    cases hfound : found costas w legacy_costas min_score block_active t with
    | none =>
      rw [List.filterMap_cons_none hfound]
      exact ih horder.2 h
    | some e =>
      rw [List.filterMap_cons_some hfound, List.append_cons]
      exact ih horder.2 (h.push e)

/-! ## The positions -/

/-- The steps of the oversampling fit into a byte. -/
theorem view_entry (htime : w.time_osr ≤ 256) (hfreq : w.freq_osr ≤ 256) {b : Block}
    (h : b.InGrid w) (tid : Fin BLOCK_SZ) (s : ℤ) :
    (entry w b tid s).view = (position w b tid, s) := by
  -- each of the three fits into its byte
  have hto : b.time_off < 256 := lt_trans (Nat.mod_lt _ (by decide)) (by decide)
  have hts : b.time_sub w < 256 := lt_of_lt_of_le (Block.time_sub_lt h) htime
  have hfs : b.freq_sub w < 256 := lt_of_lt_of_le (Block.freq_sub_lt h) hfreq
  rw [Entry.view, entry, position, Int.toNat_natCast, UInt8.toNat_ofNat_of_lt' hto,
    UInt8.toNat_ofNat_of_lt' hts, UInt8.toNat_ofNat_of_lt' hfs]

/-- Each thread has its own position. -/
theorem position_injective {b b' : Block} {tid tid' : Fin BLOCK_SZ}
    (h : position w b tid = position w b' tid') : b = b' ∧ tid = tid' := by
  obtain ⟨hfo, htime, hts, hfs⟩ := Position.mk.inj h
  -- the second index is made of the time offset and the two steps
  have hsub : b.sub = b'.sub := by
    rw [Block.sub_eq (w := w) (b := b), Block.sub_eq (w := w) (b := b'), hts, hfs]
  have hy : b.blockIdx_y = b'.blockIdx_y := by
    unfold Block.sub at hsub
    unfold Block.time_off at htime
    omega
  have htid : (tid : ℕ) < 256 := tid.2
  have htid' : (tid' : ℕ) < 256 := tid'.2
  unfold Block.fo_base BLOCK_SZ at hfo
  obtain ⟨x, y⟩ := b
  obtain ⟨x', y'⟩ := b'
  obtain rfl : y = y' := hy
  -- the bin is made of the first index and the thread
  obtain rfl : x = x' := by
    dsimp only at hfo
    omega
  exact ⟨rfl, Fin.ext (Nat.add_left_cancel hfo)⟩

/-- Every position of the scan is the position of a thread. -/
theorem exists_thread {p : Position} (h : p.InRange w) :
    ∃ t ∈ threads w, position w t.1 t.2 = p := by
  have hfo : p.fo / BLOCK_SZ * BLOCK_SZ + p.fo % BLOCK_SZ = p.fo := Nat.div_add_mod' _ _
  have hx : p.fo / BLOCK_SZ < grid_x w := by
    have hbins := h.fo
    unfold grid_x BLOCK_SZ
    omega
  -- the second index of a block has the digits of the other three
  have hsub : ((p.time_sub * w.freq_osr + p.freq_sub) * 30 + p.time_off) / 30 =
      p.time_sub * w.freq_osr + p.freq_sub := by
    have htime : p.time_off < 30 := h.time_off
    omega
  have htime : ((p.time_sub * w.freq_osr + p.freq_sub) * 30 + p.time_off) % 30 = p.time_off := by
    have htime : p.time_off < 30 := h.time_off
    omega
  have hts : (p.time_sub * w.freq_osr + p.freq_sub) / w.freq_osr = p.time_sub := by
    rw [Nat.mul_comm, Nat.mul_add_div (lt_of_le_of_lt (Nat.zero_le _) h.freq_sub),
      Nat.div_eq_of_lt h.freq_sub, Nat.add_zero]
  have hfs : (p.time_sub * w.freq_osr + p.freq_sub) % w.freq_osr = p.freq_sub := by
    rw [Nat.mul_comm, Nat.mul_add_mod, Nat.mod_eq_of_lt h.freq_sub]
  have hy : (p.time_sub * w.freq_osr + p.freq_sub) * 30 + p.time_off <
      30 * w.time_osr * w.freq_osr := by
    rw [Nat.mul_assoc, Nat.mul_comm 30]
    exact MagWindow.mul_add_lt (MagWindow.mul_add_lt h.time_sub h.freq_sub) h.time_off
  refine ⟨(⟨p.fo / BLOCK_SZ, (p.time_sub * w.freq_osr + p.freq_sub) * 30 + p.time_off⟩,
    ⟨p.fo % BLOCK_SZ, Nat.mod_lt _ (by decide)⟩), mem_threads.2 ⟨hx, hy⟩, ?_⟩
  unfold position Block.fo_base Block.time_sub Block.freq_sub Block.sub Block.time_off
  dsimp only
  rw [hfo, hsub, htime, hts, hfs]

/-- A thread finds its position exactly when the direct evaluation admits it. -/
theorem mem_result {p : Position} {s : ℤ} :
    (∃ t ∈ threads w, position w t.1 t.2 = p ∧
        active block_active t.1.blockIdx_x = true ∧
        result costas w legacy_costas min_score t.1 t.2 = some s) ↔
      p.InRange w ∧ active block_active (p.fo / BLOCK_SZ) = true ∧
        score costas w legacy_costas min_score p = some s := by
  -- the flag of a position is that of its block of bins
  have hdiv : ∀ t : Block × Fin BLOCK_SZ, (t.1.fo_base + t.2) / BLOCK_SZ = t.1.blockIdx_x := by
    intro t
    rw [Block.fo_base, Nat.mul_comm, Nat.mul_add_div (by decide), Nat.div_eq_of_lt t.2.2,
      Nat.add_zero]
  constructor
  · rintro ⟨t, ht, rfl, hactive, hresult⟩
    obtain ⟨-, hgrid⟩ := mem_threads.1 ht
    unfold result at hresult
    split_ifs at hresult with hfo
    refine ⟨⟨hfo, Nat.mod_lt _ (by decide), Block.time_sub_lt hgrid, Block.freq_sub_lt hgrid⟩, ?_,
      hresult⟩
    rw [← hactive]
    exact congrArg _ (hdiv t)
  · rintro ⟨hin, hactive, hscore⟩
    -- the thread at the position scores it
    obtain ⟨t, ht, rfl⟩ := exists_thread hin
    refine ⟨t, ht, rfl, ?_, ?_⟩
    · rw [← hactive]
      exact congrArg _ (hdiv t).symm
    · exact (if_pos hin.fo).trans hscore

/-- What a thread appends, as a position with its score. -/
theorem map_view_found (htime : w.time_osr ≤ 256) (hfreq : w.freq_osr ≤ 256)
    {t : Block × Fin BLOCK_SZ} (ht : t ∈ threads w) {p : Position} {s : ℤ} :
    (found costas w legacy_costas min_score block_active t).map Entry.view = some (p, s) ↔
      position w t.1 t.2 = p ∧ active block_active t.1.blockIdx_x = true ∧
        result costas w legacy_costas min_score t.1 t.2 = some s := by
  have hview := view_entry htime hfreq (mem_threads.1 ht).2 t.2
  unfold found
  split_ifs with hactive
  · rw [Option.map_map, Option.map_eq_some_iff]
    constructor
    · rintro ⟨s', hs', heq⟩
      obtain ⟨hp, hs⟩ := Prod.mk.inj ((hview s').symm.trans heq)
      exact ⟨hp, hactive, hs ▸ hs'⟩
    · rintro ⟨rfl, -, hs⟩
      exact ⟨s, hs, hview s⟩
  · exact ⟨nofun, fun h => absurd h.2.1 hactive⟩

variable (costas legacy_costas min_score max_cands) in
/-- The candidates of a scan that may skip blocks of bins. -/
theorem scan_spec (hflags : ∀ flags ∈ block_active, grid_x w ≤ flags.length)
    (htime : w.time_osr ≤ 256) (hfreq : w.freq_osr ≤ 256) (schedule : Schedule w)
    (cands : ℕ → Entry) :
    ∃ (out : Out) (found : List (Position × ℤ)),
      gpu_scan costas w legacy_costas min_score max_cands block_active schedule cands = some out ∧
      out.cand_count = found.length ∧
      (∀ i, i < max_cands → i < found.length → found[i]? = some (out.cands i).view) ∧
      found.Nodup ∧
      ∀ p s, (p, s) ∈ found ↔ p.InRange w ∧ active block_active (p.fo / BLOCK_SZ) = true ∧
        score costas w legacy_costas min_score p = some s := by
  have hmem : ∀ t ∈ schedule.order, t ∈ threads w := fun t => schedule.order_perm.mem_iff.1
  have hscan : ∃ out,
      gpu_scan costas w legacy_costas min_score max_cands block_active schedule cands = some out ∧
        out.Holds max_cands
          ([] ++ schedule.order.filterMap (found costas w legacy_costas min_score block_active)) :=
    foldlM_scanThread hflags schedule.loads_perm hmem (Out.holds_init max_cands cands)
  obtain ⟨out, hout, hholds⟩ := hscan
  rw [List.nil_append] at hholds
  refine ⟨out, _, hout, hholds.cand_count.trans (List.length_map Entry.view).symm, ?_, ?_, ?_⟩
  · intro i hmax hi
    rw [List.length_map] at hi
    rw [List.getElem?_map, hholds.cands i hmax hi]
    rfl
  · rw [List.map_filterMap, List.Nodup, List.pairwise_filterMap]
    refine (schedule.order_perm.nodup_iff.2 nodup_threads).imp_of_mem ?_
    -- two threads with one position are the same
    rintro t t' ht ht' hne ⟨p, s⟩ hfound ⟨p', s'⟩ hfound' heq
    obtain ⟨rfl, -⟩ := Prod.mk.inj heq
    have hp := ((map_view_found htime hfreq (hmem t ht)).1 hfound).1
    have hp' := ((map_view_found htime hfreq (hmem t' ht')).1 hfound').1
    obtain ⟨hb, htid⟩ := position_injective (hp.trans hp'.symm)
    exact hne (Prod.ext hb htid)
  · intro p s
    rw [List.map_filterMap, List.mem_filterMap, ← mem_result]
    constructor
    · rintro ⟨t, ht, hfound⟩
      exact ⟨t, hmem t ht, (map_view_found htime hfreq (hmem t ht)).1 hfound⟩
    · rintro ⟨t, ht, hfound⟩
      exact ⟨t, schedule.order_perm.mem_iff.2 ht, (map_view_found htime hfreq ht).2 hfound⟩

/-- Without flags, all positions are scanned. -/
theorem exact_gpu_scan (htime : w.time_osr ≤ 256) (hfreq : w.freq_osr ≤ 256) (schedule : Schedule w)
    (cands : ℕ → Entry) :
    Exact costas w legacy_costas min_score max_cands
      (gpu_scan costas w legacy_costas min_score max_cands none schedule cands) := by
  obtain ⟨out, found, hout, hcount, hcands, hnodup, hfound⟩ :=
    scan_spec costas legacy_costas min_score max_cands
      (fun flags h => absurd h (Option.not_mem_none flags)) htime hfreq schedule cands
  refine ⟨out, found, hout, hcount, hcands, hnodup, fun p s => (hfound p s).trans ?_⟩
  exact and_congr_right fun _ => and_iff_right rfl

end Candidates

/-- The tiled scans find exactly the candidates of the direct evaluation, for either metric, any
window of any ring, and any order of the threads. -/
theorem gpu_scans_exact (w : MagWindow) (htime : w.time_osr ≤ 256) (hfreq : w.freq_osr ≤ 256)
    (legacy_costas : Bool) (min_score : ℚ) (max_cands : ℕ) (schedule : Schedule w)
    (cands : ℕ → Entry) :
    Exact kCostas_ft8 w legacy_costas min_score max_cands
        (ft8_gpu_scan w legacy_costas min_score max_cands none schedule cands) ∧
      Exact kCostas_js8 w legacy_costas min_score max_cands
        (js8_gpu_scan w legacy_costas min_score max_cands schedule cands) ∧
      Exact kCostasModified w legacy_costas min_score max_cands
        (js8_fast_gpu_scan w legacy_costas min_score max_cands schedule cands) := by
  refine ⟨?_, ?_, ?_⟩
  · exact exact_gpu_scan htime hfreq schedule cands
  · exact exact_gpu_scan htime hfreq schedule cands
  · exact exact_gpu_scan htime hfreq schedule cands

/-- A window around the end of a ring, with two blocks of bins. -/
def rampWindow : MagWindow where
  mag := (List.range (200 * (4 * 2 * 300))).map UInt8.ofNat
  snap_start := 150
  ring_size := 200
  num_bins := 300
  num_blocks := 106
  time_osr := 4
  freq_osr := 2
  ring_pos := by decide
  length_mag := by rw [List.length_map, List.length_range]

/-- The threads in the order of the grid. -/
def inOrder (w : MagWindow) : Schedule w where
  loads _ := List.finRange BLOCK_SZ
  order := threads w
  loads_perm _ := List.Perm.rfl
  order_perm := List.Perm.rfl

theorem gpu_scans_exact_rampWindow :
    Exact kCostas_ft8 rampWindow true 5 50000
        (ft8_gpu_scan rampWindow true 5 50000 none (inOrder _) fun _ => ⟨0, 0, 0, 0, 0⟩) ∧
      Exact kCostas_js8 rampWindow true 5 50000
        (js8_gpu_scan rampWindow true 5 50000 (inOrder _) fun _ => ⟨0, 0, 0, 0, 0⟩) ∧
      Exact kCostasModified rampWindow true 5 50000
        (js8_fast_gpu_scan rampWindow true 5 50000 (inOrder _) fun _ => ⟨0, 0, 0, 0, 0⟩) :=
  gpu_scans_exact rampWindow (by decide) (by decide) true 5 50000 (inOrder _) _

end GranolaSdr.Cuda.SyncScan
