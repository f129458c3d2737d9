import GranolaSdr.Cuda.SyncMetric
import GranolaSdr.Lib.Launch
import Mathlib.Data.List.FinRange

/-!
# The tile of a sync scan

The threads of a block first load the 21 rows that their candidates read into shared memory, each
thread every 256th byte, over the bins of the block and a halo of eight bins. Bytes outside of the
window or of the bins are zero.

## Main definitions

* `Block`: a block of threads, with the position of its candidates;
* `loadByte`, `load`: what one thread loads;
* `tile`: the shared memory behind the barrier, where an access out of bounds fails.

## Main results

* `load_eq`: what one thread leaves in the shared memory;
* `exists_tile`: the tile holds the magnitudes of the window.
-/

namespace GranolaSdr.Cuda.SyncScan

/-- The threads of a block. -/
def BLOCK_SZ : ℕ := 256

/-- The bins of a row of the tile. -/
def WINDOW : ℕ := BLOCK_SZ + 8

def NUM_COSTAS_SLOTS : ℕ := 21

/-- The bytes of shared memory that a launch asks for. -/
def smem_bytes : ℕ := NUM_COSTAS_SLOTS * (BLOCK_SZ + 8)

/-- The shared memory of a block. A cell that has not been written holds nothing. -/
abbrev Tile := ℕ → Option UInt8

/-- A block of threads. -/
structure Block where
  blockIdx_x : ℕ
  blockIdx_y : ℕ
  deriving DecidableEq

namespace Block

variable (w : MagWindow) (b : Block)

def fo_base : ℕ := b.blockIdx_x * BLOCK_SZ

def sub : ℕ := b.blockIdx_y / 30

def time_off : ℕ := b.blockIdx_y % 30

def time_sub : ℕ := b.sub / w.freq_osr

def freq_sub : ℕ := b.sub % w.freq_osr

/-- The byte that a cell of the tile is loaded with. -/
def loadByte (i : ℕ) : Option UInt8 :=
  let slot_idx := i / WINDOW
  let fo_off := i % WINDOW
  let m := slot_idx / 7
  let k := slot_idx % 7
  let block_abs := b.time_off + 36 * m + k
  if block_abs < w.num_blocks then
    let global_fo := b.fo_base + fo_off
    if global_fo < w.num_bins then w.byteAt block_abs b.sub global_fo else some 0
  else some 0

/-- Write a cell of the shared memory. -/
def store (smem : Tile) (i : ℕ) (val : UInt8) : Option Tile :=
  if i < smem_bytes then some (Function.update smem i (some val)) else none

/-- The loop of a thread, from a cell on. -/
def load (i : ℕ) (smem : Tile) : Option Tile :=
  if i < NUM_COSTAS_SLOTS * WINDOW then do
    let val ← b.loadByte w i
    let smem ← store smem i val
    load (i + BLOCK_SZ) smem
  else some smem
termination_by NUM_COSTAS_SLOTS * WINDOW - i
decreasing_by
  unfold BLOCK_SZ
  omega

/-- The shared memory after the threads have loaded it, in some order. -/
def tile (order : List (Fin BLOCK_SZ)) : Option Tile :=
  order.foldlM (fun smem (tid : Fin BLOCK_SZ) => load w b tid smem) fun _ => none

/-- A block of the grid. -/
def InGrid : Prop := b.blockIdx_y < 30 * w.time_osr * w.freq_osr

variable {w b}

/-! ## What the threads load -/

theorem sub_lt (h : b.InGrid w) : b.sub < w.time_osr * w.freq_osr := by
  rw [InGrid, Nat.mul_assoc] at h
  exact Nat.div_lt_of_lt_mul h

theorem freq_osr_pos (h : b.InGrid w) : 0 < w.freq_osr :=
  Nat.pos_of_ne_zero fun hzero => by
    rw [InGrid, hzero] at h
    exact Nat.not_lt_zero _ h

theorem time_sub_lt (h : b.InGrid w) : b.time_sub w < w.time_osr :=
  Nat.div_lt_of_lt_mul (by rw [Nat.mul_comm]; exact sub_lt h)

theorem freq_sub_lt (h : b.InGrid w) : b.freq_sub w < w.freq_osr := Nat.mod_lt _ (freq_osr_pos h)

theorem sub_eq : b.sub = b.time_sub w * w.freq_osr + b.freq_sub w := by
  rw [time_sub, freq_sub, Nat.mul_comm, Nat.div_add_mod]

/-- The magnitude that a cell of the tile stands for. -/
def cell (w : MagWindow) (b : Block) (i : ℕ) : ℕ :=
  w.magnitude (b.time_sub w) (b.freq_sub w) (b.time_off + 36 * (i / WINDOW / 7) + i / WINDOW % 7)
    ((b.fo_base + i % WINDOW : ℕ) : ℤ)

/-- A cell is loaded with its magnitude, from an address in the ring. -/
theorem loadByte_eq (h : b.InGrid w) (i : ℕ) :
    ∃ val, b.loadByte w i = some val ∧ val.toNat = b.cell w i := by
  unfold loadByte cell
  dsimp only
  split_ifs with hblock hbin
  · rw [sub_eq (w := w)]
    exact MagWindow.byteAt_eq hblock (time_sub_lt h) (freq_sub_lt h) hbin
  · refine ⟨0, rfl, ?_⟩
    rw [MagWindow.magnitude, if_neg fun hin => hbin (Int.ofNat_lt.1 hin.2.2.2.2)]
    rfl
  · refine ⟨0, rfl, ?_⟩
    rw [MagWindow.magnitude, if_neg fun hin => hblock hin.1]
    rfl

/-- The byte of a cell. -/
def byteOf (w : MagWindow) (b : Block) (i : ℕ) : UInt8 := (b.loadByte w i).getD 0

theorem loadByte_eq_byteOf (h : b.InGrid w) (i : ℕ) : b.loadByte w i = some (b.byteOf w i) := by
  obtain ⟨val, hval, -⟩ := loadByte_eq h i
  rw [byteOf, hval]
  rfl

theorem toNat_byteOf (h : b.InGrid w) (i : ℕ) : (b.byteOf w i).toNat = b.cell w i := by
  obtain ⟨val, hval, hcell⟩ := loadByte_eq h i
  rw [byteOf, hval, Option.getD_some, hcell]

theorem store_eq {i : ℕ} (hi : i < smem_bytes) (smem : Tile) (val : UInt8) :
    store smem i val = some (Function.update smem i (some val)) := if_pos hi

/-- A thread writes every 256th cell from one on. -/
theorem load_eq (h : b.InGrid w) (i : ℕ) (smem : Tile) :
    b.load w i smem = some fun a =>
      if i ≤ a ∧ a < smem_bytes ∧ a % BLOCK_SZ = i % BLOCK_SZ then some (b.byteOf w a)
      else smem a := by
  fun_induction load w b i smem with
  | case1 i smem hi ih =>
    rw [loadByte_eq_byteOf h]
    dsimp only [Option.bind_eq_bind, Option.bind_some]
    rw [store_eq hi]
    dsimp only [Option.bind_some]
    rw [ih]
    congr 1
    ext1 a
    rw [Nat.add_mod_right]
    by_cases ha : a = i
    · subst ha
      rw [if_neg fun hle => absurd hle.1 (by unfold BLOCK_SZ; omega), Function.update_self,
        if_pos ⟨le_rfl, hi, rfl⟩]
    · -- the next cell of the thread is `BLOCK_SZ` cells further
      have hnext : i + BLOCK_SZ ≤ a ∧ a < smem_bytes ∧ a % BLOCK_SZ = i % BLOCK_SZ ↔
          i ≤ a ∧ a < smem_bytes ∧ a % BLOCK_SZ = i % BLOCK_SZ := by
        unfold BLOCK_SZ
        omega
      simp only [Function.update_of_ne ha, hnext]
  | case2 i smem hi =>
    congr 1
    ext1 a
    rw [if_neg fun ha => hi (lt_of_le_of_lt ha.1 ha.2.1)]

/-- The cells that a thread writes, and what it writes there. -/
def written (w : MagWindow) (b : Block) (tid : Fin BLOCK_SZ) (a : ℕ) : Option (Option UInt8) :=
  if a < smem_bytes ∧ a % BLOCK_SZ = tid then some (some (b.byteOf w a)) else none

/-- What a thread leaves in the shared memory. -/
def loaded (w : MagWindow) (b : Block) (smem : Tile) (tid : Fin BLOCK_SZ) : Tile := fun a =>
  (written w b tid a).getD (smem a)

theorem load_thread (h : b.InGrid w) (tid : Fin BLOCK_SZ) (smem : Tile) :
    b.load w tid smem = some (b.loaded w smem tid) := by
  rw [load_eq h, Nat.mod_eq_of_lt tid.2]
  congr 1
  ext1 a
  have hle : a % BLOCK_SZ = tid → (tid : ℕ) ≤ a := fun heq => heq ▸ Nat.mod_le a BLOCK_SZ
  unfold loaded written
  split_ifs with hlow hhigh hhigh
  · rfl
  · exact absurd hlow.2 hhigh
  · exact absurd ⟨hle hhigh.2, hhigh⟩ hlow
  · rfl

theorem apart_written : Launch.Apart (written w b) := by
  intro t t' a v v' hv hv'
  unfold written at hv hv'
  split_ifs at hv hv' with ht ht'
  exact Fin.ext (ht.2.symm.trans ht'.2)

/-- Behind the barrier, every cell of the tile holds its magnitude, and no access has failed. -/
theorem exists_tile (h : b.InGrid w) {order : List (Fin BLOCK_SZ)}
    (horder : order.Perm (List.finRange BLOCK_SZ)) :
    ∃ smem, b.tile w order = some smem ∧
      ∀ i < smem_bytes, ∃ val, smem i = some val ∧ val.toNat = b.cell w i := by
  refine ⟨order.foldl (b.loaded w) fun _ => none, ?_,
    fun i hi => ⟨b.byteOf w i, ?_, toNat_byteOf h i⟩⟩
  · have hload : (fun (smem : Tile) (tid : Fin BLOCK_SZ) => b.load w tid smem) = fun smem tid =>
        some (b.loaded w smem tid) := by
      ext1 smem
      ext1 tid
      exact load_thread h tid smem
    rw [tile, hload]
    exact List.foldlM_pure
  · -- the cell is written by the thread of its remainder
    have hmem : (⟨i % BLOCK_SZ, Nat.mod_lt i (by decide)⟩ : Fin BLOCK_SZ) ∈ order :=
      horder.mem_iff.2 (List.mem_finRange _)
    have hwrites : Launch.Writes (b.loaded w) (written w b) := fun _ _ _ => rfl
    exact hwrites.foldl_of_mem apart_written hmem (if_pos ⟨hi, rfl⟩) _

/-- A cell by its row and its bin. -/
theorem cell_row (slot off : ℕ) (hoff : off < WINDOW) :
    b.cell w (slot * WINDOW + off) = w.magnitude (b.time_sub w) (b.freq_sub w)
      (b.time_off + 36 * (slot / 7) + slot % 7) ((b.fo_base + off : ℕ) : ℤ) := by
  have hdiv : (slot * WINDOW + off) / WINDOW = slot := by
    rw [Nat.mul_comm, Nat.mul_add_div (by decide), Nat.div_eq_of_lt hoff, Nat.add_zero]
  have hmod : (slot * WINDOW + off) % WINDOW = off := by
    rw [Nat.mul_comm, Nat.mul_add_mod, Nat.mod_eq_of_lt hoff]
  rw [cell, hdiv, hmod]

end Block

end GranolaSdr.Cuda.SyncScan
