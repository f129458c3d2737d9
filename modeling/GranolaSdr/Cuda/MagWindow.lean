import Mathlib.Algebra.Order.Ring.Nat
import Mathlib.Tactic.Ring

/-!
# A window of the magnitude ring

The scan and the soft-symbol kernels read a window of the magnitude ring: some blocks from a slot
on, around the end of the ring. A block holds one byte for every step of the time and the frequency
oversampling and every bin.

## Main definitions

* `MagWindow`: the ring, its dimensions, and a window of it;
* `MagWindow.byteAt`: the byte at the address that the kernels compute;
* `MagWindow.magnitude`: the magnitude in a bin of the window.

## Main results

* `MagWindow.address_lt`: the address lies in the ring;
* `MagWindow.byteAt_eq`: the byte at the address is the magnitude.
-/

namespace GranolaSdr.Cuda

/-- The magnitude ring and a window of it. -/
structure MagWindow where
  mag : List UInt8
  /-- The slot of the first block of the window. -/
  snap_start : ℕ
  /-- The slots of the ring. -/
  ring_size : ℕ
  num_bins : ℕ
  /-- The blocks of the window. -/
  num_blocks : ℕ
  time_osr : ℕ
  freq_osr : ℕ
  ring_pos : 0 < ring_size
  length_mag : mag.length = ring_size * (time_osr * freq_osr * num_bins)

namespace MagWindow

variable (w : MagWindow)

def block_stride : ℕ := w.time_osr * w.freq_osr * w.num_bins

/-- The slot of a block of the window. -/
def ring_slot (block_abs : ℕ) : ℕ := (w.snap_start + block_abs) % w.ring_size

/-- The address of a bin of a block, in one of the `time_osr * freq_osr` rows of the block. -/
def address (block_abs sub bin : ℕ) : ℕ :=
  w.ring_slot block_abs * w.block_stride + sub * w.num_bins + bin

/-- The byte at the address, if it lies in the ring. -/
def byteAt (block_abs sub bin : ℕ) : Option UInt8 := w.mag[w.address block_abs sub bin]?

/-- The ring as an array of four dimensions, without bytes outside of it. -/
def sample (slot time_sub freq_sub bin : ℕ) : ℕ :=
  (w.mag.getD (((slot * w.time_osr + time_sub) * w.freq_osr + freq_sub) * w.num_bins + bin) 0).toNat

/-- The magnitude in a block and a bin of the window, zero outside of it. -/
def magnitude (time_sub freq_sub block : ℕ) (bin : ℤ) : ℕ :=
  if block < w.num_blocks ∧ time_sub < w.time_osr ∧ freq_sub < w.freq_osr ∧
      0 ≤ bin ∧ bin < w.num_bins then
    w.sample ((w.snap_start + block) % w.ring_size) time_sub freq_sub bin.toNat
  else 0

variable {w} {block_abs time_sub freq_sub bin : ℕ}

/-- A pair of numbers below their bounds is below the product as one number. -/
theorem mul_add_lt {a b m n : ℕ} (ha : a < m) (hb : b < n) : a * n + b < m * n := by
  calc a * n + b < (a + 1) * n := by rw [Nat.add_one_mul]; omega
    _ ≤ m * n := Nat.mul_le_mul_right n ha

theorem address_lt (block_abs : ℕ) {sub : ℕ} (hsub : sub < w.time_osr * w.freq_osr)
    (hbin : bin < w.num_bins) :
    w.address block_abs sub bin < w.mag.length := by
  have hslot : w.ring_slot block_abs < w.ring_size := Nat.mod_lt _ w.ring_pos
  rw [w.length_mag, address, Nat.add_assoc]
  exact mul_add_lt hslot (mul_add_lt hsub hbin)

/-- The address has the digits of the four indices. -/
theorem address_eq :
    w.address block_abs (time_sub * w.freq_osr + freq_sub) bin =
      ((w.ring_slot block_abs * w.time_osr + time_sub) * w.freq_osr + freq_sub) * w.num_bins +
        bin := by
  unfold address block_stride
  ring

/-- In the window, the byte at the address is the magnitude. -/
theorem byteAt_eq (hblock : block_abs < w.num_blocks) (htime : time_sub < w.time_osr)
    (hfreq : freq_sub < w.freq_osr) (hbin : bin < w.num_bins) :
    ∃ byte, w.byteAt block_abs (time_sub * w.freq_osr + freq_sub) bin = some byte ∧
      byte.toNat = w.magnitude time_sub freq_sub block_abs bin := by
  have hlt := address_lt block_abs (mul_add_lt htime hfreq) hbin
  refine ⟨_, List.getElem?_eq_getElem hlt, ?_⟩
  rw [magnitude, if_pos ⟨hblock, htime, hfreq, Int.natCast_nonneg bin, Int.ofNat_lt.2 hbin⟩, sample,
    Int.toNat_natCast]
  change _ = (w.mag.getD (((w.ring_slot block_abs * _ + _) * _ + _) * _ + _) 0).toNat
  rw [← address_eq, List.getD_eq_getElem?_getD, List.getElem?_eq_getElem hlt, Option.getD_some]

end MagWindow

end GranolaSdr.Cuda
