import GranolaSdr.Cuda.MagBlock
import GranolaSdr.Lib.Memory

/-!
# The staging buffer of `MagBlock`

`MagBlock::doCopy` appends one block of samples to a staging buffer. Once the buffer holds more than
two FFT lengths it transforms the windows at its start and moves the samples behind the first FFT
length to the front. Here the sizes are arbitrary, and the buffer is followed sample by sample. The
fill is a number of 32 bits, which the sizes that `HFRx` passes do not exceed.

## Main definitions

* `Params`, `State`, `doCopy`: the sizes, the buffer with its counters, and one call;
* `stateAt`, `slotAt`: the state before a call, and the magnitude slot that it produces;
* `State.Inv`: the buffer holds the samples since the next window began;
* `shiftRanges`: the cells that a shift reads and those that it writes.

## Main results

* `framing`: where the window of each slot starts;
* `shift_disjoint_iff`: the two ranges of a shift overlap from the first shift on.
-/

namespace GranolaSdr.Cuda.Staging

open Memory

/-- The sizes that a `MagBlock` is built with. -/
structure Params where
  /-- The samples of a block. -/
  length : ℕ
  rfft_length : ℕ
  time_osr : ℕ
  /-- The slots of the magnitude ring. -/
  N : ℕ
  retain_complex : Bool
  fill_lt : 2 * rfft_length + length < 2 ^ 32

variable {α : Type*}

/-- The staging buffer and the counters. -/
structure State (α : Type*) where
  demodData_d : ℕ → α
  buff_pos : ℕ
  cplx_wi : ℕ
  /-- The index of the magnitude ring. -/
  write_idx : ℕ
  /-- The table of window starts, by the slot of the magnitude ring. -/
  slot_cplx_idx : ℕ → ℕ

/-- A magnitude slot: its index, the windows that are transformed for it, one for each step of the
time oversampling, and the block that is recorded for it. -/
structure Slot (α : Type*) where
  index : ℕ
  windows : List (List α)
  cplx_start : ℕ

variable (p : Params)

/-- The windows that are transformed. -/
def windows (data : ℕ → α) : List (List α) :=
  (List.range p.time_osr).map fun t =>
    (List.range p.rfft_length).map fun i => data (t * p.rfft_length / p.time_osr + i)

/-- One call, with the block that it takes. -/
def doCopy (s : State α) (block : ℕ → α) : State α × Option (Slot α) :=
  let data := copy s.demodData_d s.buff_pos block 0 p.length
  let buff_pos := (s.buff_pos + p.length) % 2 ^ 32
  let cplx_wi := if p.retain_complex then s.cplx_wi + 1 else s.cplx_wi
  if 2 * p.rfft_length < buff_pos then
    let cplx_start := if p.retain_complex then cplx_wi - buff_pos / p.length else 0
    let rest := buff_pos - p.rfft_length
    ({ demodData_d := copy data 0 data p.rfft_length rest
       buff_pos := rest
       cplx_wi
       write_idx := s.write_idx + 1
       slot_cplx_idx := if p.retain_complex then
         Function.update s.slot_cplx_idx (s.write_idx % p.N) cplx_start else s.slot_cplx_idx },
      some { index := s.write_idx, windows := windows p data, cplx_start })
  else ({ s with demodData_d := data, buff_pos, cplx_wi }, none)

/-- The state at the start, whatever the buffer holds. -/
def init (mem : ℕ → α) : State α := ⟨mem, 0, 0, 0, fun _ => 0⟩

/-- The state before call `n`, where block `k` is `blocks k`. -/
def stateAt (mem : ℕ → α) (blocks : ℕ → ℕ → α) : ℕ → State α
  | 0 => init mem
  | n + 1 => (doCopy p (stateAt mem blocks n) (blocks n)).1

/-- The slot that call `n` produces. -/
def slotAt (mem : ℕ → α) (blocks : ℕ → ℕ → α) (n : ℕ) : Option (Slot α) :=
  (doCopy p (stateAt p mem blocks n) (blocks n)).2

/-- The fill of the buffer in call `n`, with the block and before a shift. -/
def fillAt (mem : ℕ → α) (blocks : ℕ → ℕ → α) (n : ℕ) : ℕ :=
  ((stateAt p mem blocks n).buff_pos + p.length) % 2 ^ 32

/-- The samples of all blocks, one after another. -/
def samples (blocks : ℕ → ℕ → α) (n : ℕ) : α := blocks (n / p.length) (n % p.length)

/-- Before call `n` the buffer holds the samples since the window of the next slot began. -/
structure State.Inv (s : State α) (blocks : ℕ → ℕ → α) (n : ℕ) : Prop where
  fill : s.buff_pos + s.write_idx * p.rfft_length = n * p.length
  fill_le : s.buff_pos ≤ 2 * p.rfft_length
  started : 0 < s.write_idx → p.rfft_length < s.buff_pos
  holds : Holds s.demodData_d 0 (samples p blocks) (s.write_idx * p.rfft_length) s.buff_pos
  cplx_wi : p.retain_complex → s.cplx_wi = n

variable {p} {s : State α} {blocks : ℕ → ℕ → α} {n : ℕ}

theorem inv_init (mem : ℕ → α) (blocks : ℕ → ℕ → α) : (init mem).Inv p blocks 0 where
  fill := by simp [init]
  fill_le := Nat.zero_le _
  started := fun h => absurd h (Nat.lt_irrefl 0)
  holds := holds_zero _ _ _ _
  cplx_wi _ := rfl

/-- A block is a range of the samples. -/
theorem holds_block (blocks : ℕ → ℕ → α) (n : ℕ) :
    Holds (blocks n) 0 (samples p blocks) (n * p.length) p.length := by
  intro i hi
  have hpos : 0 < p.length := Nat.zero_lt_of_lt hi
  rw [samples, Nat.mul_comm, Nat.mul_add_div hpos, Nat.mul_add_mod, Nat.div_eq_of_lt hi,
    Nat.mod_eq_of_lt hi, Nat.zero_add]
  rfl

/-- The buffer with the block of the call. -/
def appended (p : Params) (s : State α) (block : ℕ → α) : ℕ → α :=
  copy s.demodData_d s.buff_pos block 0 p.length

/-- The block is put behind the samples that are there. -/
theorem State.Inv.holds_appended (h : s.Inv p blocks n) :
    Holds (appended p s (blocks n)) 0 (samples p blocks) (s.write_idx * p.rfft_length)
      (s.buff_pos + p.length) := by
  have hold : Holds (appended p s (blocks n)) 0 (samples p blocks)
      (s.write_idx * p.rfft_length) s.buff_pos :=
    h.holds.copy_of_disjoint (Or.inl (Nat.zero_add _).le)
  have hnew : Holds (appended p s (blocks n)) s.buff_pos (samples p blocks) (n * p.length)
      p.length := (holds_block blocks n).copy
  rw [← h.fill, Nat.add_comm s.buff_pos] at hnew
  refine hold.append ?_
  rw [Nat.zero_add]
  exact hnew

/-- The fill does not exceed 32 bits. -/
theorem State.Inv.mod_eq (h : s.Inv p blocks n) :
    (s.buff_pos + p.length) % 2 ^ 32 = s.buff_pos + p.length := by
  have hle := h.fill_le
  have hlt := p.fill_lt
  exact Nat.mod_eq_of_lt (by omega)

/-- A call that does not fill the buffer. -/
theorem State.Inv.doCopy_of_le (h : s.Inv p blocks n)
    (hfill : s.buff_pos + p.length ≤ 2 * p.rfft_length) :
    doCopy p s (blocks n) = ({ s with
      demodData_d := appended p s (blocks n)
      buff_pos := s.buff_pos + p.length
      cplx_wi := if p.retain_complex then s.cplx_wi + 1 else s.cplx_wi }, none) := by
  rw [doCopy, h.mod_eq]
  exact if_neg (Nat.not_lt.2 hfill)

/-- A call that fills the buffer. -/
theorem State.Inv.doCopy_of_lt (h : s.Inv p blocks n)
    (hfill : 2 * p.rfft_length < s.buff_pos + p.length) :
    ∃ cplx_start, (p.retain_complex → cplx_start = n + 1 - (s.buff_pos + p.length) / p.length) ∧
      doCopy p s (blocks n) =
        ({ demodData_d := copy (appended p s (blocks n)) 0 (appended p s (blocks n))
             p.rfft_length (s.buff_pos + p.length - p.rfft_length)
           buff_pos := s.buff_pos + p.length - p.rfft_length
           cplx_wi := if p.retain_complex then s.cplx_wi + 1 else s.cplx_wi
           write_idx := s.write_idx + 1
           slot_cplx_idx := if p.retain_complex then
             Function.update s.slot_cplx_idx (s.write_idx % p.N) cplx_start
               else s.slot_cplx_idx },
          some ⟨s.write_idx, windows p (appended p s (blocks n)), cplx_start⟩) := by
  rw [doCopy, h.mod_eq]
  refine ⟨_, ?_, if_pos hfill⟩
  intro hretain
  rw [if_pos hretain, if_pos hretain, h.cplx_wi hretain]

/-- Every call keeps the invariant, if no block is longer than an FFT. -/
theorem State.Inv.doCopy (h : s.Inv p blocks n) (hlength : p.length ≤ p.rfft_length) :
    (doCopy p s (blocks n)).1.Inv p blocks (n + 1) := by
  have hfill := h.fill
  have hle := h.fill_le
  have hmul : (n + 1) * p.length = n * p.length + p.length := Nat.succ_mul ..
  have hcplx : p.retain_complex →
      (if p.retain_complex then s.cplx_wi + 1 else s.cplx_wi) = n + 1 := by
    intro hretain
    rw [if_pos hretain, h.cplx_wi hretain]
  rcases Nat.lt_or_ge (2 * p.rfft_length) (s.buff_pos + p.length) with hfull | hfull
  · obtain ⟨cplx_start, -, hstep⟩ := h.doCopy_of_lt hfull
    rw [hstep]
    refine ⟨?_, ?_, ?_, ?_, hcplx⟩
    · show s.buff_pos + p.length - p.rfft_length + (s.write_idx + 1) * p.rfft_length = _
      rw [hmul, Nat.succ_mul]
      omega
    · show s.buff_pos + p.length - p.rfft_length ≤ _
      omega
    · intro _
      show p.rfft_length < s.buff_pos + p.length - p.rfft_length
      omega
    · -- the samples behind the first FFT length, moved to the front
      have hrest := h.holds_appended.sub (k := p.rfft_length)
        (m := s.buff_pos + p.length - p.rfft_length) (by omega)
      rw [Nat.zero_add, ← Nat.succ_mul] at hrest
      exact hrest.copy
  · rw [h.doCopy_of_le hfull]
    refine ⟨?_, hfull, fun hstarted => (h.started hstarted).trans_le (Nat.le_add_right ..),
      h.holds_appended, hcplx⟩
    show s.buff_pos + p.length + s.write_idx * p.rfft_length = _
    rw [hmul]
    omega

theorem inv_stateAt (hlength : p.length ≤ p.rfft_length) (mem : ℕ → α) (blocks : ℕ → ℕ → α)
    (n : ℕ) : (stateAt p mem blocks n).Inv p blocks n := by
  induction n with
  | zero => exact inv_init mem blocks
  | succ n ih => exact ih.doCopy hlength

/-! ## Framing -/

/-- The windows of a slot are ranges of the samples. -/
theorem State.Inv.windows_eq (h : s.Inv p blocks n)
    (hfill : 2 * p.rfft_length < s.buff_pos + p.length) :
    windows p (appended p s (blocks n)) = (List.range p.time_osr).map fun t =>
      (List.range p.rfft_length).map fun i =>
        samples p blocks (s.write_idx * p.rfft_length + t * p.rfft_length / p.time_osr + i) := by
  refine List.map_congr_left fun t ht => List.map_congr_left fun i hi => ?_
  rw [List.mem_range] at ht hi
  -- a step of the oversampling starts within the first FFT length
  have hstart : t * p.rfft_length / p.time_osr ≤ p.rfft_length := by
    apply Nat.div_le_of_le_mul
    exact Nat.mul_le_mul_right _ ht.le
  have hcell := h.holds_appended (t * p.rfft_length / p.time_osr + i) (by omega)
  rw [Nat.zero_add] at hcell
  rw [hcell, Nat.add_assoc]

/-- The block in which a window starts, counted back from the last one. -/
theorem State.Inv.cplx_start_mul (h : s.Inv p blocks n) (hdvd : p.length ∣ p.rfft_length)
    (hpos : 0 < p.length) :
    (n + 1 - (s.buff_pos + p.length) / p.length) * p.length = s.write_idx * p.rfft_length := by
  -- the fill is a whole number of blocks, and so is what the slots have taken
  obtain ⟨c, hc⟩ := hdvd
  have hfill := h.fill
  have hbuff : s.buff_pos = p.length * (n - s.write_idx * c) := by
    rw [Nat.mul_sub, Nat.mul_comm p.length n, ← hfill, hc, Nat.mul_left_comm,
      Nat.add_sub_cancel_right]
  have hle : s.write_idx * c ≤ n := by
    refine Nat.le_of_mul_le_mul_left ?_ hpos
    rw [Nat.mul_comm p.length n, ← hfill, hc, Nat.mul_left_comm]
    exact Nat.le_add_left ..
  have hdiv : (s.buff_pos + p.length) / p.length = n - s.write_idx * c + 1 := by
    rw [hbuff, ← Nat.mul_succ, Nat.mul_div_cancel_left _ hpos]
  have hstart : n + 1 - (n - s.write_idx * c + 1) = s.write_idx * c := by omega
  rw [hdiv, hstart, hc, Nat.mul_assoc, Nat.mul_comm c]

/-- For blocks no longer than an FFT, and any number of calls: the fill stays within two FFT lengths
and a block, a call produces one slot at most, the windows of slot `w` are those from sample
`w * rfft_length` on, and if whole blocks make up an FFT length then the block that is recorded for
the slot is the one that its window starts with. -/
theorem framing (hlength : p.length ≤ p.rfft_length) (mem : ℕ → α) (blocks : ℕ → ℕ → α) (n : ℕ) :
    fillAt p mem blocks n ≤ 2 * p.rfft_length + p.length ∧
    (stateAt p mem blocks (n + 1)).write_idx =
      (stateAt p mem blocks n).write_idx + (slotAt p mem blocks n).toList.length ∧
    ∀ slot ∈ slotAt p mem blocks n,
      slot.index = (stateAt p mem blocks n).write_idx ∧
      slot.windows = ((List.range p.time_osr).map fun t => (List.range p.rfft_length).map fun i =>
        samples p blocks (slot.index * p.rfft_length + t * p.rfft_length / p.time_osr + i)) ∧
      (p.retain_complex → p.length ∣ p.rfft_length →
        slot.cplx_start * p.length = slot.index * p.rfft_length ∧
          (stateAt p mem blocks (n + 1)).slot_cplx_idx (slot.index % p.N) = slot.cplx_start) := by
  have h := inv_stateAt hlength mem blocks n
  have hle := h.fill_le
  refine ⟨?_, ?_⟩
  · rw [fillAt, h.mod_eq]
    omega
  rcases Nat.lt_or_ge (2 * p.rfft_length) ((stateAt p mem blocks n).buff_pos + p.length)
    with hfull | hfull
  · -- the call produces the slot and shifts by one FFT length
    obtain ⟨cplx_start, hcplx, hstep⟩ := h.doCopy_of_lt hfull
    rw [slotAt, stateAt, hstep]
    refine ⟨rfl, fun slot hslot => ?_⟩
    obtain rfl := Option.some.inj hslot
    refine ⟨rfl, h.windows_eq hfull, fun hretain hdvd => ⟨?_, ?_⟩⟩
    · show cplx_start * p.length = _
      rw [hcplx hretain]
      exact h.cplx_start_mul hdvd (by omega)
    · dsimp only
      rw [if_pos hretain, Function.update_self]
  · -- too few samples are there, and the call only appends
    rw [slotAt, stateAt, h.doCopy_of_le hfull]
    exact ⟨rfl, nofun⟩

/-! ## The shift -/

/-- The cells that a shift writes and those that it reads, for a fill of the buffer. -/
def shiftRanges (p : Params) (fill : ℕ) : Set ℕ × Set ℕ :=
  (Set.Ico 0 (0 + (fill - p.rfft_length)),
    Set.Ico p.rfft_length (p.rfft_length + (fill - p.rfft_length)))

/-- If call `n` shifts the buffer, the two ranges are disjoint. -/
def ShiftDisjoint (p : Params) (mem : ℕ → α) (blocks : ℕ → ℕ → α) (n : ℕ) : Prop :=
  2 * p.rfft_length < fillAt p mem blocks n →
    Disjoint (shiftRanges p (fillAt p mem blocks n)).1 (shiftRanges p (fillAt p mem blocks n)).2

/-- The ranges of every shift overlap: more than an FFT length is moved by an FFT length. -/
theorem not_disjoint_shiftRanges {fill : ℕ} (h : 2 * p.rfft_length < fill) :
    ¬Disjoint (shiftRanges p fill).1 (shiftRanges p fill).2 := by
  rw [shiftRanges, disjoint_ranges_iff]
  omega

/-- Until the buffer is full its fill is what was taken. -/
theorem buff_pos_stateAt (mem : ℕ → α) (blocks : ℕ → ℕ → α) {n : ℕ}
    (h : n * p.length ≤ 2 * p.rfft_length) : (stateAt p mem blocks n).buff_pos = n * p.length := by
  have hlt := p.fill_lt
  induction n with
  | zero => exact (Nat.zero_mul _).symm
  | succ n ih =>
    rw [Nat.succ_mul] at h ⊢
    have hbuff := ih (by omega)
    have hmod : ((stateAt p mem blocks n).buff_pos + p.length) % 2 ^ 32 =
        n * p.length + p.length := by
      rw [hbuff]
      exact Nat.mod_eq_of_lt (by omega)
    rw [stateAt, doCopy, hmod, if_neg (Nat.not_lt.2 h)]

theorem fillAt_eq (mem : ℕ → α) (blocks : ℕ → ℕ → α) {n : ℕ}
    (h : n * p.length ≤ 2 * p.rfft_length) : fillAt p mem blocks n = (n + 1) * p.length := by
  have hlt := p.fill_lt
  rw [fillAt, buff_pos_stateAt mem blocks h, Nat.succ_mul]
  exact Nat.mod_eq_of_lt (by omega)

/-- The ranges of all shifts are disjoint exactly as long as there is none: until more than two FFT
lengths of samples are taken. -/
theorem shift_disjoint_iff (p : Params) (mem : ℕ → α) (blocks : ℕ → ℕ → α) (n : ℕ) :
    (∀ k < n, ShiftDisjoint p mem blocks k) ↔ n * p.length ≤ 2 * p.rfft_length := by
  constructor
  · intro h
    induction n with
    | zero =>
      rw [Nat.zero_mul]
      exact Nat.zero_le _
    | succ n ih =>
      have hn := ih fun k hk => h k (Nat.lt_succ_of_lt hk)
      have hlast := h n (Nat.lt_succ_self n)
      rw [ShiftDisjoint, fillAt_eq mem blocks hn] at hlast
      -- one more block would bring the first shift
      by_contra hfull
      exact not_disjoint_shiftRanges (Nat.not_le.1 hfull) (hlast (Nat.not_le.1 hfull))
  · intro h k hk hfull
    have hk' : (k + 1) * p.length ≤ n * p.length := Nat.mul_le_mul_right _ hk
    have hle : k * p.length ≤ (k + 1) * p.length := Nat.mul_le_mul_right _ (Nat.le_succ k)
    rw [fillAt_eq mem blocks (hle.trans (hk'.trans h))] at hfull
    exact absurd (hk'.trans h) (Nat.not_le.2 hfull)

/-! ## The sizes of the normal mode -/

/-- The sizes of the normal mode. -/
def normal : Params := ⟨MagBlock.length, MagBlock.rfft_length, 4, MagBlock.N, true, by decide⟩

/-- How many slots there are before a call, in the normal mode. -/
theorem write_idx_normal (mem : ℕ → α) (blocks : ℕ → ℕ → α) (n : ℕ) :
    (stateAt normal mem blocks n).write_idx = (n - 33) / 32 := by
  have h := inv_stateAt (p := normal) (by decide) mem blocks n
  have hfill : _ + _ * 65536 = n * 2048 := h.fill
  have hle : _ ≤ 2 * 65536 := h.fill_le
  have hstarted : _ → 65536 < _ := h.started
  omega

/-- The counters are those of the model of the rings, between two blocks. -/
theorem settled_eq_stateAt {t : MagBlock.State} {n : ℕ} (h : t.Settled n) (mem : ℕ → α)
    (blocks : ℕ → ℕ → α) :
    t.buff_pos = (stateAt normal mem blocks n).buff_pos ∧
      t.write_idx = (stateAt normal mem blocks n).write_idx ∧
      t.cplx_write_idx = (stateAt normal mem blocks n).cplx_wi := by
  have hinv := inv_stateAt (p := normal) (by decide) mem blocks n
  have hwrite := write_idx_normal mem blocks n
  have hbuff := h.inv.buff_pos
  rw [h.enqueued, h.recorded] at hbuff
  have hbuff : _ + 2048 * _ = 2048 * n := hbuff
  have hfill := hinv.fill
  rw [hwrite] at hfill
  have hfill : _ + _ * 65536 = n * 2048 := hfill
  refine ⟨?_, h.write_idx.trans hwrite.symm, h.cplx_write_idx.trans (hinv.cplx_wi rfl).symm⟩
  omega

/-- With the sixty-fifth block of the normal mode the first slot is produced. -/
theorem framing_normal :
    ∃ slot ∈ slotAt normal (fun _ => 0) (fun k i => 2048 * k + i) 64, slot.index = 0 ∧
      slot.windows = ((List.range 4).map fun t => (List.range 65536).map fun i =>
        samples normal (fun k i => 2048 * k + i) (0 * 65536 + t * 65536 / 4 + i)) ∧
      slot.cplx_start * 2048 = 0 * 65536 := by
  obtain ⟨-, hcount, hslot⟩ :=
    framing (p := normal) (by decide) (fun _ => 0) (fun k i => 2048 * k + i) 64
  rw [write_idx_normal, write_idx_normal] at hcount
  rw [write_idx_normal] at hslot
  cases hsome : slotAt normal (fun _ => 0) (fun k i => 2048 * k + i) 64 with
  | none =>
    rw [hsome] at hcount
    exact absurd hcount (by decide)
  | some slot =>
    obtain ⟨hindex, hwindows, hcplx⟩ := hslot slot hsome
    have hzero : slot.index = 0 := hindex
    rw [hzero] at hwindows hcplx
    exact ⟨slot, rfl, hzero, hwindows, (hcplx rfl (by decide)).1⟩

/-- In the normal mode the ranges of the first shift overlap. -/
theorem shift_overlaps_normal :
    ¬ShiftDisjoint normal (fun _ => 0) (fun k i => 2048 * k + i) 64 := by
  have hfill := fillAt_eq (p := normal) (fun _ => 0) (fun k i => 2048 * k + i) (n := 64) (by decide)
  intro h
  rw [ShiftDisjoint, hfill] at h
  exact not_disjoint_shiftRanges (by decide) (h (by decide))

end GranolaSdr.Cuda.Staging
