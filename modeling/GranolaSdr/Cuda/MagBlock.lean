import GranolaSdr.Lib.Run
import GranolaSdr.Lib.RingLog

/-!
# The rings of `MagBlock`

`MagBlock::doCopy` takes one block of composite samples. It enqueues the copy of the block into the
complex retention ring and advances the ring's index. Each time more than two FFT lengths of samples
have gathered it writes one slot of the magnitude ring, and records for it the number of the block
in which its window starts, in a table with one entry per slot of the magnitude ring. The stream
runs the enqueued copies in order, at any time.

## Main definitions

* `State`, `step`: the rings, the table and the stream, and the steps of `doCopy`;
* `State.Inv`: the bookkeeping of samples, slots and copies.

## Main results

* `State.inv_step`: every step keeps it;
* `State.Inv.recorded_eq`: the window of slot `j` starts with block `32 * j`;
* `State.Inv.slot_cplx_idx_eq`: what an entry of the table holds.
-/

namespace GranolaSdr.Cuda.MagBlock

/-- The slots of the magnitude ring. -/
def N : ℕ := 200

/-- The samples of a composite block. -/
def length : ℕ := 2048

/-- The samples of one FFT. -/
def rfft_length : ℕ := 65536

/-- The blocks of the complex retention ring. -/
def kComplexCompositeBlocks : ℕ := 4096

instance : NeZero N := ⟨by decide⟩

instance : NeZero kComplexCompositeBlocks := ⟨by decide⟩

/-- Where `doCopy` stands. -/
inductive Phase where
  | idle
  /-- The copies are enqueued, the index of the complex ring is not advanced yet. -/
  | store
  /-- Before the gathered samples are compared with two FFT lengths. -/
  | emit
  /-- A magnitude slot is enqueued and recorded, its index is not advanced yet. -/
  | advance
  deriving DecidableEq

/-- The rings and the table. -/
structure State where
  /-- The samples gathered. -/
  buff_pos : ℕ
  /-- The index of the complex ring. -/
  cplx_write_idx : ℕ
  /-- The index of the magnitude ring. -/
  write_idx : ℕ
  slot_cplx_idx : Fin N → ℕ
  /-- The number of the block whose samples a slot of the complex ring holds. -/
  complex_ring : Fin kComplexCompositeBlocks → Option ℕ
  phase : Phase
  /-- The starts recorded so far, in the order of the magnitude slots. -/
  recorded : List ℕ
  /-- How many copies into the complex ring have been enqueued. -/
  enqueued : ℕ
  /-- How many of them the stream has run. -/
  executed : ℕ

/-- What can happen next. -/
inductive Action where
  | enqueue
  | store
  | emit
  | advance
  /-- The stream runs the oldest copy it has not run. -/
  | stream
  deriving DecidableEq

/-- The state at the start. -/
def init : State where
  buff_pos := 0
  cplx_write_idx := 0
  write_idx := 0
  slot_cplx_idx _ := 0
  complex_ring _ := none
  phase := .idle
  recorded := []
  enqueued := 0
  executed := 0

namespace State

/-- The steps of `doCopy` and of the stream. -/
def step (s : State) : Action → Option State
  | .enqueue =>
    match s.phase with
    | .idle =>
      some { s with buff_pos := s.buff_pos + length, enqueued := s.enqueued + 1, phase := .store }
    | _ => none
  | .store =>
    match s.phase with
    | .store => some { s with cplx_write_idx := s.cplx_write_idx + 1, phase := .emit }
    | _ => none
  | .emit =>
    match s.phase with
    | .emit =>
      if 2 * rfft_length < s.buff_pos then
        let cplx_start := s.cplx_write_idx - s.buff_pos / length
        some { s with
          buff_pos := s.buff_pos - rfft_length
          slot_cplx_idx := Function.update s.slot_cplx_idx (Fin.ofNat N s.write_idx) cplx_start
          recorded := s.recorded ++ [cplx_start]
          phase := .advance }
      else some { s with phase := .idle }
    | _ => none
  | .advance =>
    match s.phase with
    | .advance => some { s with write_idx := s.write_idx + 1, phase := .idle }
    | _ => none
  | .stream =>
    if s.executed < s.enqueued then
      some { s with
        complex_ring := Function.update s.complex_ring
          (Fin.ofNat kComplexCompositeBlocks s.executed) (some s.executed)
        executed := s.executed + 1 }
    else none

/-- The bookkeeping. The samples gathered are those of the blocks since the window of the next
magnitude slot began, 32 blocks after the one before. -/
structure Inv (s : State) : Prop where
  enqueued : s.enqueued = s.cplx_write_idx + if s.phase = .store then 1 else 0
  write_idx : s.recorded.length = s.write_idx + if s.phase = .advance then 1 else 0
  buff_pos : s.buff_pos + length * (32 * s.recorded.length) = length * s.enqueued
  buff_le : s.buff_pos ≤ 2 * rfft_length + if s.phase = .store ∨ s.phase = .emit then length else 0
  recorded : s.recorded = (List.range s.recorded.length).map (32 * ·)
  table : RingLog.Represents 0 s.slot_cplx_idx s.recorded
  executed : s.executed ≤ s.enqueued
  ring : s.complex_ring = RingLog.holds s.executed

variable {s s' : State}

theorem inv_init : init.Inv where
  enqueued := rfl
  write_idx := rfl
  buff_pos := rfl
  buff_le := Nat.zero_le _
  recorded := rfl
  table := RingLog.represents_nil
  executed := le_rfl
  ring := rfl

/-! ### What each step does -/

theorem of_step_enqueue (hstep : s.step .enqueue = some s') :
    s.phase = .idle ∧
      s' = { s with
        buff_pos := s.buff_pos + length, enqueued := s.enqueued + 1, phase := .store } := by
  simp only [step] at hstep
  split at hstep
  · next hidle => exact ⟨hidle, (Option.some.inj hstep).symm⟩
  · cases hstep

theorem of_step_store (hstep : s.step .store = some s') :
    s.phase = .store ∧
      s' = { s with cplx_write_idx := s.cplx_write_idx + 1, phase := .emit } := by
  simp only [step] at hstep
  split at hstep
  · next hstore => exact ⟨hstore, (Option.some.inj hstep).symm⟩
  · cases hstep

/-- A magnitude slot is recorded, or too few samples have gathered. -/
theorem of_step_emit (hstep : s.step .emit = some s') :
    s.phase = .emit ∧
      (2 * rfft_length < s.buff_pos ∧
        s' = { s with
          buff_pos := s.buff_pos - rfft_length
          slot_cplx_idx := Function.update s.slot_cplx_idx (Fin.ofNat N s.write_idx)
            (s.cplx_write_idx - s.buff_pos / length)
          recorded := s.recorded ++ [s.cplx_write_idx - s.buff_pos / length]
          phase := .advance } ∨
      s.buff_pos ≤ 2 * rfft_length ∧ s' = { s with phase := .idle }) := by
  simp only [step] at hstep
  split at hstep
  · next hemit =>
    refine ⟨hemit, ?_⟩
    split_ifs at hstep with hfull
    · exact Or.inl ⟨hfull, (Option.some.inj hstep).symm⟩
    · exact Or.inr ⟨Nat.not_lt.1 hfull, (Option.some.inj hstep).symm⟩
  · cases hstep

theorem of_step_advance (hstep : s.step .advance = some s') :
    s.phase = .advance ∧ s' = { s with write_idx := s.write_idx + 1, phase := .idle } := by
  simp only [step] at hstep
  split at hstep
  · next hadvance => exact ⟨hadvance, (Option.some.inj hstep).symm⟩
  · cases hstep

theorem of_step_stream (hstep : s.step .stream = some s') :
    s.executed < s.enqueued ∧
      s' = { s with
        complex_ring := Function.update s.complex_ring
          (Fin.ofNat kComplexCompositeBlocks s.executed) (some s.executed)
        executed := s.executed + 1 } := by
  simp only [step, Option.ite_none_right_eq_some, Option.some.injEq] at hstep
  exact ⟨hstep.1, hstep.2.symm⟩

/-! ### Every step keeps the bookkeeping -/

theorem inv_enqueue (h : s.Inv) (hstep : s.step .enqueue = some s') : s'.Inv := by
  obtain ⟨hidle, rfl⟩ := of_step_enqueue hstep
  have hwrite := h.write_idx
  have henqueued := h.enqueued
  have hbuff := h.buff_pos
  have hle := h.buff_le
  simp only [hidle, reduceCtorEq, if_false, or_self] at hwrite henqueued hle
  refine ⟨by simp [henqueued], by simp [hwrite], ?_, ?_, h.recorded, h.table,
    h.executed.trans (Nat.le_succ _), h.ring⟩
  · change s.buff_pos + length + length * (32 * s.recorded.length) = length * (s.enqueued + 1)
    rw [Nat.mul_succ]
    omega
  · simp only [true_or, if_true]
    omega

theorem inv_store (h : s.Inv) (hstep : s.step .store = some s') : s'.Inv := by
  obtain ⟨hstore, rfl⟩ := of_step_store hstep
  have hwrite := h.write_idx
  have henqueued := h.enqueued
  have hle := h.buff_le
  simp only [hstore, reduceCtorEq, if_true, if_false, true_or] at hwrite henqueued hle
  exact ⟨by simp [henqueued], by simp [hwrite], h.buff_pos, by simpa using hle, h.recorded,
    h.table, h.executed, h.ring⟩

/-- When `doCopy` records a slot, the window of the slot started 32 blocks after the one before. -/
theorem Inv.cplx_start_eq (h : s.Inv) (hemit : s.phase = .emit) :
    s.cplx_write_idx - s.buff_pos / length = 32 * s.recorded.length := by
  have henqueued := h.enqueued
  have hbuff := h.buff_pos
  simp only [hemit, reduceCtorEq, if_false, Nat.add_zero] at henqueued
  rw [← henqueued]
  simp only [length] at hbuff ⊢
  omega

theorem inv_emit (h : s.Inv) (hstep : s.step .emit = some s') : s'.Inv := by
  obtain ⟨hemit, ⟨hfull, rfl⟩ | ⟨hfew, rfl⟩⟩ := of_step_emit hstep
  all_goals
    have hwrite := h.write_idx
    have henqueued := h.enqueued
    have hbuff := h.buff_pos
    have hle := h.buff_le
    simp only [hemit, reduceCtorEq, if_true, if_false, or_true, Nat.add_zero]
      at hwrite henqueued hle
  · -- a slot is emitted, and one FFT length leaves the buffer
    refine ⟨by simpa using henqueued, by simp [hwrite], ?_, ?_, ?_, ?_, h.executed, h.ring⟩
    · simp only [List.length_append, List.length_singleton]
      simp only [length, rfft_length] at hbuff hfull ⊢
      omega
    · simp only [length, rfft_length] at hle hfull ⊢
      omega
    · -- the recorded start is 32 times the number of the slot
      rw [h.cplx_start_eq hemit, List.length_append, List.length_singleton, List.range_succ,
        List.map_append, ← h.recorded]
      rfl
    · rw [← hwrite]
      exact h.table.write _
  · exact ⟨by simpa using henqueued, by simpa using hwrite, hbuff, by simpa using hfew,
      h.recorded, h.table, h.executed, h.ring⟩

theorem inv_advance (h : s.Inv) (hstep : s.step .advance = some s') : s'.Inv := by
  obtain ⟨hadvance, rfl⟩ := of_step_advance hstep
  have hwrite := h.write_idx
  have henqueued := h.enqueued
  have hle := h.buff_le
  simp only [hadvance, reduceCtorEq, if_true, if_false, or_self] at hwrite henqueued hle
  exact ⟨by simpa using henqueued, by simp [hwrite], h.buff_pos, by simpa using hle, h.recorded,
    h.table, h.executed, h.ring⟩

/-- The copy run is the next one, and it lands in the slot of its number. -/
theorem inv_stream (h : s.Inv) (hstep : s.step .stream = some s') : s'.Inv := by
  obtain ⟨hlt, rfl⟩ := of_step_stream hstep
  refine ⟨h.enqueued, h.write_idx, h.buff_pos, h.buff_le, h.recorded, h.table, hlt, ?_⟩
  -- the ring holds what has been written, and one more block
  change Function.update s.complex_ring _ _ = RingLog.holds (s.executed + 1)
  rw [h.ring, RingLog.holds_succ]

theorem inv_step (s : State) (a : Action) (s' : State) (h : s.Inv) (hstep : s.step a = some s') :
    s'.Inv := by
  cases a with
  | enqueue => exact inv_enqueue h hstep
  | store => exact inv_store h hstep
  | emit => exact inv_emit h hstep
  | advance => exact inv_advance h hstep
  | stream => exact inv_stream h hstep

/-- The starts recorded stay recorded. -/
theorem recorded_prefix {a : Action} (hstep : s.step a = some s') : s.recorded <+: s'.recorded := by
  cases a with
  | enqueue =>
    obtain ⟨-, rfl⟩ := of_step_enqueue hstep
    exact List.prefix_rfl
  | store =>
    obtain ⟨-, rfl⟩ := of_step_store hstep
    exact List.prefix_rfl
  | emit =>
    obtain ⟨-, ⟨-, rfl⟩ | ⟨-, rfl⟩⟩ := of_step_emit hstep
    · exact List.prefix_append ..
    · exact List.prefix_rfl
  | advance =>
    obtain ⟨-, rfl⟩ := of_step_advance hstep
    exact List.prefix_rfl
  | stream =>
    obtain ⟨-, rfl⟩ := of_step_stream hstep
    exact List.prefix_rfl

/-- The window of magnitude slot `m` starts with block `32 * m`. -/
theorem Inv.recorded_eq (h : s.Inv) {m : ℕ} (hm : m < s.recorded.length) :
    s.recorded[m]? = some (32 * m) := by
  rw [h.recorded, List.getElem?_map, List.getElem?_range (by simpa using hm)]
  rfl

/-- An entry of the table holds the start recorded last for one of its magnitude slots. -/
theorem Inv.slot_cplx_idx_eq (h : s.Inv) {m : ℕ} (hm : m < s.recorded.length) :
    s.slot_cplx_idx (Fin.ofNat N m) = 32 * RingLog.newest N s.recorded.length m := by
  have hholds := RingLog.holds_ofNat (N := N) hm
  obtain ⟨-, hlt, -⟩ := RingLog.holds_eq_some_iff.1 hholds
  have hentry := h.table.of_holds hholds
  rw [h.recorded_eq hlt] at hentry
  exact (Option.some.inj hentry).symm

end State

/-! ## A steady run -/

/-- The steps for block `n`, after which the stream runs its copy. The block completes a magnitude
slot if it is block 64 or a multiple of 32 later. -/
def blockActions (n : ℕ) : List Action :=
  .enqueue :: .store :: .emit ::
    ((if 64 ≤ n ∧ n % 32 = 0 then [.advance] else []) ++ [.stream])

/-- The steps for `k` blocks from block `n` on. -/
def blocksActions : ℕ → ℕ → List Action
  | _, 0 => []
  | n, k + 1 => blockActions n ++ blocksActions (n + 1) k

/-- Between two blocks, with the copies of all `n` blocks run. -/
structure State.Settled (s : State) (n : ℕ) : Prop where
  inv : s.Inv
  phase : s.phase = .idle
  enqueued : s.enqueued = n
  executed : s.executed = n
  recorded : s.recorded.length = (n - 33) / 32

theorem settled_init : init.Settled 0 := ⟨State.inv_init, rfl, rfl, rfl, rfl⟩

theorem State.Settled.cplx_write_idx {s : State} {n : ℕ} (h : s.Settled n) :
    s.cplx_write_idx = n := by
  have henqueued := h.inv.enqueued
  rw [h.phase, h.enqueued] at henqueued
  exact henqueued.symm

theorem State.Settled.write_idx {s : State} {n : ℕ} (h : s.Settled n) :
    s.write_idx = (n - 33) / 32 := by
  have hwrite := h.inv.write_idx
  rw [h.phase, h.recorded] at hwrite
  exact hwrite.symm

/-- One more block. -/
theorem State.Settled.block {s : State} {n : ℕ} (h : s.Settled n) :
    ∃ t, Run.exec step s (blockActions n) = some t ∧ t.Settled (n + 1) := by
  have hbuff := h.inv.buff_pos
  rw [h.enqueued, h.recorded] at hbuff
  -- a magnitude block is emitted every 32 blocks, from block 64 on
  have hcond : 2 * rfft_length < s.buff_pos + length ↔ 64 ≤ n ∧ n % 32 = 0 := by
    simp only [length, rfft_length] at hbuff ⊢
    omega
  have hsome : (Run.exec step s (blockActions n)).isSome := by
    by_cases hemit : 64 ≤ n ∧ n % 32 = 0 <;>
      simp [blockActions, hemit, step, h.phase, h.enqueued, h.executed, hcond]
  obtain ⟨t, ht⟩ := Option.isSome_iff_exists.1 hsome
  have hend : t.phase = .idle ∧ t.enqueued = n + 1 ∧ t.executed = n + 1 ∧
      t.recorded.length = (n + 1 - 33) / 32 := by
    by_cases hemit : 64 ≤ n ∧ n % 32 = 0
    · simp only [blockActions, hemit, step, h.phase, h.enqueued, h.executed, hcond, and_self,
        if_true, Run.exec_cons, Option.bind_some, List.cons_append, List.nil_append, Run.exec_nil,
        Nat.lt_succ_self, Option.some.injEq] at ht
      subst ht
      refine ⟨rfl, rfl, rfl, ?_⟩
      simp only [List.length_append, List.length_singleton, h.recorded]
      omega
    · simp only [blockActions, hemit, step, h.phase, h.enqueued, h.executed, hcond, if_true,
        if_false, Run.exec_cons, Option.bind_some, List.nil_append, Run.exec_nil,
        Nat.lt_succ_self, Option.some.injEq] at ht
      subst ht
      refine ⟨rfl, rfl, rfl, ?_⟩
      simp only [h.recorded]
      omega
  obtain ⟨hphase, henqueued, hexecuted, hrecorded⟩ := hend
  exact ⟨t, ht, Run.inv_of_exec' inv_step h.inv ht, hphase, henqueued, hexecuted, hrecorded⟩

/-- The copy of the next block reaches the ring before the ring's index is advanced. -/
theorem State.Settled.overwrite {s : State} {n : ℕ} (h : s.Settled n) :
    ∃ t, Run.exec step s [.enqueue, .stream] = some t ∧
      t.complex_ring (Fin.ofNat kComplexCompositeBlocks n) = some n := by
  refine ⟨{ s with
    buff_pos := s.buff_pos + length
    enqueued := n + 1
    phase := .store
    complex_ring :=
      Function.update s.complex_ring (Fin.ofNat kComplexCompositeBlocks n) (some n)
    executed := n + 1 }, ?_, Function.update_self ..⟩
  simp [step, h.phase, h.enqueued, h.executed]

/-- Any number of blocks more. -/
theorem State.Settled.blocks {s : State} {n : ℕ} (h : s.Settled n) (k : ℕ) :
    ∃ t, Run.exec step s (blocksActions n k) = some t ∧ t.Settled (n + k) := by
  induction k generalizing s n with
  | zero => exact ⟨s, rfl, h⟩
  | succ k ih =>
    obtain ⟨u, hu, hsettled⟩ := h.block
    obtain ⟨t, ht, hsettled'⟩ := ih hsettled
    refine ⟨t, ?_, by rwa [Nat.add_right_comm, Nat.add_assoc] at hsettled'⟩
    rw [blocksActions, Run.exec_append, hu, Option.bind_some, ht]

end GranolaSdr.Cuda.MagBlock
