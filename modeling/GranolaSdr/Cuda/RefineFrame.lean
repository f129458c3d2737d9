import GranolaSdr.Cuda.MagBlock
import GranolaSdr.Hf.RefineWorker

/-!
# Reading a frame back for refinement

`refineCandidate` looks up the block in which a candidate's frame starts, checks that the complex
retention ring holds the whole frame, and copies it out. It runs on the refine worker, for a job
that may have been queued long before, while `MagBlock` and the stream go on.

## Main definitions

* `State`, `step`: the scan callback, the refine worker and `MagBlock` with its stream;
* `State.StartsRight`, `State.FramesRight`: the frame starts that are used are those recorded for
  the candidates' magnitude slots, and the blocks copied are those of the frames;
* `State.EntryInTime`: no frame is accepted by an entry of the table that has been replaced;
* `State.CopiedInTime`: each block is copied out between its own write and the next to its slot.

## Main results

* `starts_right_iff`, `frames_right_iff`: a run does the first exactly if it meets the second.
-/

namespace GranolaSdr.Cuda.Refine

open MagBlock (N kComplexCompositeBlocks)

/-- The magnitude slots of a scan window, `FT8_CAPTURE_BLOCKS`. -/
def cap_blocks : ℕ := 106

/-- The time offsets a scan tries within its window. -/
def time_offsets : ℕ := 30

/-- The symbols of a frame. -/
def kRefineNsym : ℕ := 79

def blocks_per_sym : ℕ := MagBlock.rfft_length / MagBlock.length

def FRAME_BLOCKS : ℕ := kRefineNsym * blocks_per_sym

/-- What a refine job says of its candidate's place in time. -/
structure Job where
  snap_start : ℕ
  to_ : ℕ
  deriving DecidableEq

/-- The magnitude slot a candidate begins in. -/
def Job.mag_slot (job : Job) : ℕ := job.snap_start + job.to_

/-- A call that has passed the checks: the start it uses, and for each block copied so far the
number of the block that the ring held. -/
structure Call where
  job : Job
  cplx_start : ℕ
  frame : List (Option ℕ)
  deriving DecidableEq

/-- Where the refine worker stands. -/
inductive Worker where
  | idle
  /-- Before the table is read. -/
  | table (job : Job)
  /-- Before the index of the complex ring is loaded, with the start read and the number of
  magnitude slots that were recorded then. -/
  | load (job : Job) (cplx_start recorded : ℕ)
  /-- Copying the frame. -/
  | copy (call : Call)
  deriving DecidableEq

/-- `MagBlock`, the queue, the worker, and the calls that have returned true. -/
structure State where
  mag : MagBlock.State
  refine_q : List Job
  worker : Worker
  refined : List Call

/-- What can happen next. -/
inductive Action where
  /-- `MagBlock` or the stream takes a step. -/
  | mag (a : MagBlock.Action)
  /-- The callback of the scan launched at slot `wi` queues a candidate. -/
  | scan (wi to_ : ℕ)
  /-- The worker takes the oldest job. -/
  | take
  | table
  | load
  /-- The worker copies the next block. -/
  | copy
  /-- The worker returns true. -/
  | return_
  deriving DecidableEq

/-- The state at the start. -/
def init : State := ⟨MagBlock.init, [], .idle, []⟩

/-- The slot block `i` of a frame is copied from: the blocks from the start to the end of the ring
first, then those from the beginning of the ring. -/
def copySlot (cplx_start i : ℕ) : Fin kComplexCompositeBlocks :=
  let s0 := cplx_start % kComplexCompositeBlocks
  let first := min FRAME_BLOCKS (kComplexCompositeBlocks - s0)
  if i < first then Fin.ofNat kComplexCompositeBlocks (s0 + i)
  else Fin.ofNat kComplexCompositeBlocks (i - first)

/-- Block `i` of a frame is copied from the slot its number has in the ring. -/
theorem copySlot_eq {cplx_start i : ℕ} (hi : i < FRAME_BLOCKS) :
    copySlot cplx_start i = Fin.ofNat kComplexCompositeBlocks (cplx_start + i) := by
  have hmod := Nat.mod_lt cplx_start (show 0 < kComplexCompositeBlocks by decide)
  have hdiv := Nat.div_add_mod cplx_start kComplexCompositeBlocks
  rw [copySlot]
  split_ifs with hfirst
  · rw [RingLog.ofNat_eq_ofNat_iff]
    exact Nat.ModEq.add_right i (Nat.mod_modEq ..)
  · rw [RingLog.ofNat_eq_ofNat_iff]
    have hwrap : min FRAME_BLOCKS (kComplexCompositeBlocks - cplx_start % kComplexCompositeBlocks) =
        kComplexCompositeBlocks - cplx_start % kComplexCompositeBlocks := by omega
    rw [hwrap] at hfirst ⊢
    -- past the end of the ring the numbers go on by a multiple of its length
    have hsum : cplx_start + i =
        kComplexCompositeBlocks * (cplx_start / kComplexCompositeBlocks + 1) +
        (i - (kComplexCompositeBlocks - cplx_start % kComplexCompositeBlocks)) := by
      rw [Nat.mul_succ]
      omega
    rw [hsum, Nat.ModEq, Nat.mul_add_mod]

namespace State

/-- The steps of all parties. -/
def step (s : State) : Action → Option State
  | .mag a => (s.mag.step a).map fun mag => { s with mag := mag }
  | .scan wi to_ =>
    if cap_blocks ≤ wi ∧ wi ≤ s.mag.write_idx ∧ to_ < time_offsets then
      some { s with refine_q := Hf.Refine.pushJob s.refine_q ⟨wi - cap_blocks, to_⟩ }
    else none
  | .take =>
    match s.worker, s.refine_q with
    | .idle, job :: refine_q => some { s with refine_q := refine_q, worker := .table job }
    | _, _ => none
  | .table =>
    match s.worker with
    | .table job =>
      let cplx_start := s.mag.slot_cplx_idx (Fin.ofNat N job.mag_slot)
      some { s with worker := .load job cplx_start s.mag.recorded.length }
    | _ => none
  | .load =>
    match s.worker with
    | .load job cplx_start _ =>
      let cwi := s.mag.cplx_write_idx
      -- the frame is not complete yet, or has aged out
      if cwi < cplx_start + FRAME_BLOCKS then some { s with worker := .idle }
      else if kComplexCompositeBlocks < cwi - cplx_start then some { s with worker := .idle }
      else some { s with worker := .copy ⟨job, cplx_start, []⟩ }
    | _ => none
  | .copy =>
    match s.worker with
    | .copy call =>
      if call.frame.length < FRAME_BLOCKS then
        let block := s.mag.complex_ring (copySlot call.cplx_start call.frame.length)
        some { s with worker := .copy { call with frame := call.frame ++ [block] } }
      else none
    | _ => none
  | .return_ =>
    match s.worker with
    | .copy call =>
      if call.frame.length < FRAME_BLOCKS then none
      else some { s with worker := .idle, refined := s.refined ++ [call] }
    | _ => none

/-- The calls that have passed the checks. -/
def calls (s : State) : List Call :=
  s.refined ++
    match s.worker with
    | .copy call => [call]
    | _ => []

/-- Every call uses the start that was recorded for its magnitude slot. -/
def StartsRight (s : State) : Prop :=
  ∀ call ∈ s.calls, s.mag.recorded[call.job.mag_slot]? = some call.cplx_start

/-- Every block copied is the block with that number. -/
def FramesRight (s : State) : Prop :=
  ∀ call ∈ s.calls, ∀ i < call.frame.length, call.frame[i]? = some (some (call.cplx_start + i))

/-- When the checks are made, the entry had not been replaced when it was read, or the frame of the
magnitude slot that had replaced it is not complete or has aged out. -/
def EntryInTime (s : State) : Action → Prop
  | .load =>
    ∀ job cplx_start recorded, s.worker = .load job cplx_start recorded →
      recorded ≤ job.mag_slot + N ∨
        s.mag.cplx_write_idx < 32 * RingLog.newest N recorded job.mag_slot + FRAME_BLOCKS ∨
        32 * RingLog.newest N recorded job.mag_slot + kComplexCompositeBlocks < s.mag.cplx_write_idx
  | _ => True

/-- When a block is copied, the stream has run the copy of that block into the ring, and not yet
that of the block as many blocks later as the ring has slots. -/
def CopiedInTime (s : State) : Action → Prop
  | .copy =>
    ∀ call, s.worker = .copy call →
      call.cplx_start + call.frame.length < s.mag.executed ∧
        s.mag.executed ≤ call.cplx_start + call.frame.length + kComplexCompositeBlocks
  | _ => True

/-- The invariant: all candidates lie in magnitude slots that have been recorded. -/
structure Inv (s : State) : Prop where
  mag : s.mag.Inv
  queued : ∀ job ∈ s.refine_q, job.mag_slot < s.mag.recorded.length
  table : ∀ job, s.worker = .table job → job.mag_slot < s.mag.recorded.length
  load : ∀ job cplx_start recorded, s.worker = .load job cplx_start recorded →
    job.mag_slot < recorded ∧ recorded ≤ s.mag.recorded.length ∧
      cplx_start = 32 * RingLog.newest N recorded job.mag_slot
  calls : ∀ call ∈ s.calls,
    call.job.mag_slot < s.mag.recorded.length ∧ call.frame.length ≤ FRAME_BLOCKS

variable {s s' : State}

theorem inv_init : init.Inv where
  mag := MagBlock.State.inv_init
  queued := nofun
  table := nofun
  load := nofun
  calls := nofun

theorem calls_of_worker (h : ∀ call, s.worker ≠ .copy call) : s.calls = s.refined := by
  rw [calls]
  split
  · next call hcall => exact absurd hcall (h call)
  · exact List.append_nil _

theorem calls_of_copy {call : Call} (h : s.worker = .copy call) :
    s.calls = s.refined ++ [call] := by
  rw [calls, h]

theorem Inv.of_mag (h : s.Inv) {mag : MagBlock.State} (hmag : mag.Inv)
    (hle : s.mag.recorded.length ≤ mag.recorded.length) : ({ s with mag := mag } : State).Inv where
  mag := hmag
  queued job hjob := (h.queued job hjob).trans_le hle
  table job hjob := (h.table job hjob).trans_le hle
  load job cplx_start recorded hload :=
    have ⟨hlt, hrecorded, hstart⟩ := h.load job cplx_start recorded hload
    ⟨hlt, hrecorded.trans hle, hstart⟩
  calls call hcall := ⟨(h.calls call hcall).1.trans_le hle, (h.calls call hcall).2⟩

/-- A step that leaves the worker idle. -/
theorem Inv.of_idle (h : s.Inv) {refined : List Call}
    (hrefined : ∀ call ∈ refined, call ∈ s.calls) :
    ({ s with worker := .idle, refined := refined } : State).Inv where
  mag := h.mag
  queued := h.queued
  table := nofun
  load := nofun
  calls call hcall := h.calls call (hrefined call (by simpa [State.calls] using hcall))

theorem mem_calls_of_refined {call : Call} (h : call ∈ s.refined) : call ∈ s.calls :=
  List.mem_append_left _ h

theorem inv_scan (h : s.Inv) {wi to_ : ℕ} (hstep : s.step (.scan wi to_) = some s') : s'.Inv := by
  simp only [step, Option.ite_none_right_eq_some, Option.some.injEq] at hstep
  obtain ⟨⟨hcap, hwi, hto⟩, rfl⟩ := hstep
  refine ⟨h.mag, ?_, h.table, h.load, h.calls⟩
  intro job hjob
  rcases Hf.Refine.mem_pushJob hjob with hjob | rfl
  · exact h.queued job hjob
  · -- the slot lies in the window, and the window had been recorded
    have hrecorded := h.mag.write_idx
    simp only [Job.mag_slot, cap_blocks, time_offsets] at hcap hto ⊢
    omega

theorem inv_table (h : s.Inv) (hstep : s.step .table = some s') : s'.Inv := by
  simp only [step] at hstep
  split at hstep
  · next job htable =>
    obtain rfl := Option.some.inj hstep
    have hlt := h.table job htable
    refine ⟨h.mag, h.queued, nofun, ?_, ?_⟩
    · intro job' cplx_start recorded hload
      obtain ⟨rfl, rfl, rfl⟩ := Worker.load.inj hload
      exact ⟨hlt, le_rfl, h.mag.slot_cplx_idx_eq hlt⟩
    · intro call hcall
      exact h.calls call (mem_calls_of_refined (by simpa [State.calls] using hcall))
  · exact nomatch hstep

theorem inv_load (h : s.Inv) (hstep : s.step .load = some s') : s'.Inv := by
  simp only [step] at hstep
  split at hstep
  · next job cplx_start recorded hload =>
    obtain ⟨hlt, hle, -⟩ := h.load job cplx_start recorded hload
    split_ifs at hstep
    · obtain rfl := Option.some.inj hstep
      exact h.of_idle fun call hcall => mem_calls_of_refined hcall
    · obtain rfl := Option.some.inj hstep
      exact h.of_idle fun call hcall => mem_calls_of_refined hcall
    · obtain rfl := Option.some.inj hstep
      refine ⟨h.mag, h.queued, nofun, nofun, ?_⟩
      intro call hcall
      rw [calls_of_copy rfl, List.mem_append, List.mem_singleton] at hcall
      rcases hcall with hcall | rfl
      · exact h.calls call (mem_calls_of_refined hcall)
      · exact ⟨hlt.trans_le hle, Nat.zero_le _⟩
  · exact nomatch hstep

theorem inv_copy (h : s.Inv) (hstep : s.step .copy = some s') : s'.Inv := by
  simp only [step] at hstep
  split at hstep
  · next call hcopy =>
    simp only [Option.ite_none_right_eq_some, Option.some.injEq] at hstep
    obtain ⟨hlt, rfl⟩ := hstep
    refine ⟨h.mag, h.queued, nofun, nofun, ?_⟩
    intro call' hcall
    rw [calls_of_copy rfl, List.mem_append, List.mem_singleton] at hcall
    rcases hcall with hcall | rfl
    · exact h.calls call' (mem_calls_of_refined hcall)
    · have hmem : call ∈ s.calls := by simp [calls_of_copy hcopy]
      refine ⟨(h.calls call hmem).1, ?_⟩
      rw [List.length_append]
      exact hlt
  · exact nomatch hstep

/-- Every step keeps the invariant. -/
theorem inv_step (s : State) (a : Action) (s' : State) (h : s.Inv) (hstep : s.step a = some s') :
    s'.Inv := by
  cases a with
  | mag a =>
    simp only [step, Option.map_eq_some_iff] at hstep
    obtain ⟨mag, hmag, rfl⟩ := hstep
    -- what has been recorded stays recorded
    exact h.of_mag (MagBlock.State.inv_step s.mag a mag h.mag hmag)
      (MagBlock.State.recorded_prefix hmag).length_le
  | scan wi to_ => exact inv_scan h hstep
  | take =>
    simp only [step] at hstep
    split at hstep
    · next job refine_q hidle hqueue =>
      obtain rfl := Option.some.inj hstep
      -- the job is taken from the queue, whose jobs all keep the bounds
      refine ⟨h.mag, fun j hj => h.queued j (hqueue ▸ List.mem_cons_of_mem _ hj), ?_, nofun, ?_⟩
      · intro j hj
        obtain rfl := Worker.table.inj hj
        exact h.queued _ (hqueue ▸ List.mem_cons_self)
      · intro call hcall
        exact h.calls call (mem_calls_of_refined (by simpa [State.calls] using hcall))
    · exact nomatch hstep
  | table => exact inv_table h hstep
  | load => exact inv_load h hstep
  | copy => exact inv_copy h hstep
  | return_ =>
    simp only [step] at hstep
    split at hstep
    · next call hcopy =>
      simp only [Option.ite_none_left_eq_some, Option.some.injEq] at hstep
      obtain ⟨-, rfl⟩ := hstep
      -- the call was made before, and stays among the calls
      exact h.of_idle fun c hc => by rwa [calls_of_copy hcopy]
    · exact nomatch hstep

/-- Calls begin when the checks are passed and change when a block is copied. -/
theorem calls_eq {a : Action} (hstep : s.step a = some s') (hload : a ≠ .load) (hcopy : a ≠ .copy) :
    s'.calls = s.calls := by
  cases a with
  | load => exact absurd rfl hload
  | copy => exact absurd rfl hcopy
  | mag a =>
    simp only [step, Option.map_eq_some_iff] at hstep
    obtain ⟨mag, -, rfl⟩ := hstep
    rfl
  | scan wi to_ =>
    simp only [step, Option.ite_none_right_eq_some, Option.some.injEq] at hstep
    obtain ⟨-, rfl⟩ := hstep
    rfl
  | take =>
    simp only [step] at hstep
    split at hstep
    · next hidle _ =>
      obtain rfl := Option.some.inj hstep
      simp [calls, hidle]
    · exact nomatch hstep
  | table =>
    simp only [step] at hstep
    split at hstep
    · next job htable =>
      obtain rfl := Option.some.inj hstep
      simp [calls, htable]
    · exact nomatch hstep
  | return_ =>
    simp only [step] at hstep
    split at hstep
    · next call hcopy =>
      simp only [Option.ite_none_left_eq_some, Option.some.injEq] at hstep
      obtain ⟨-, rfl⟩ := hstep
      simp [calls, hcopy]
    · exact nomatch hstep

/-! ## The start of the frame -/

theorem Inv.startsRight_iff (h : s.Inv) :
    s.StartsRight ↔ ∀ call ∈ s.calls, call.cplx_start = 32 * call.job.mag_slot := by
  refine forall₂_congr fun call hcall => ?_
  rw [h.mag.recorded_eq (h.calls call hcall).1, Option.some.injEq, eq_comm]

/-- Passing the checks keeps the starts right exactly if the entry is in time. -/
theorem startsRight_load (h : s.Inv) (hstart : s.StartsRight) (hstep : s.step .load = some s') :
    s'.StartsRight ↔ s.EntryInTime .load := by
  have h' := inv_load h hstep
  simp only [step] at hstep
  split at hstep
  · next job cplx_start recorded hload =>
    obtain ⟨hlt, -, hcplx⟩ := h.load job cplx_start recorded hload
    have hrefined : ∀ call ∈ s.refined, call.cplx_start = 32 * call.job.mag_slot :=
      fun call hcall =>
      h.startsRight_iff.1 hstart call (mem_calls_of_refined hcall)
    -- the start read is that of the slot recorded last in the entry
    have hentry : s.EntryInTime .load ↔ recorded ≤ job.mag_slot + N ∨
        s.mag.cplx_write_idx < cplx_start + FRAME_BLOCKS ∨
        cplx_start + kComplexCompositeBlocks < s.mag.cplx_write_idx := by
      simp [EntryInTime, hload, hcplx]
    rw [h'.startsRight_iff, hentry]
    split_ifs at hstep with hincomplete haged
    · obtain rfl := Option.some.inj hstep
      rw [calls_of_worker (by simp)]
      exact iff_of_true hrefined (Or.inr (Or.inl hincomplete))
    · obtain rfl := Option.some.inj hstep
      rw [calls_of_worker (by simp)]
      exact iff_of_true hrefined (Or.inr (Or.inr (by omega)))
    · obtain rfl := Option.some.inj hstep
      rw [calls_of_copy rfl]
      -- the checks are passed, so only an entry not replaced is right
      have hnew : cplx_start = 32 * job.mag_slot ↔ recorded ≤ job.mag_slot + N := by
        rw [hcplx, ← RingLog.newest_eq_self_iff hlt]
        omega
      constructor
      · intro hall
        exact Or.inl (hnew.1 (hall ⟨job, cplx_start, []⟩ (by simp)))
      · intro hin call hcall
        rcases List.mem_append.1 hcall with hcall | hcall
        · exact hrefined call hcall
        · obtain rfl := List.mem_singleton.1 hcall
          exact hnew.2 (by omega)
  · exact nomatch hstep

/-- Whether all starts are right changes only when a call passes the checks. -/
theorem startsRight_step (s : State) (a : Action) (s' : State) (h : s.Inv) (hstart : s.StartsRight)
    (hstep : s.step a = some s') : s'.StartsRight ↔ s.EntryInTime a := by
  have h' := inv_step s a s' h hstep
  cases a with
  | load => exact startsRight_load h hstart hstep
  | copy =>
    -- copying a block leaves the start of the call as it is
    refine iff_of_true (h'.startsRight_iff.2 ?_) trivial
    simp only [step] at hstep
    split at hstep
    · next call hcopy =>
      simp only [Option.ite_none_right_eq_some, Option.some.injEq] at hstep
      obtain ⟨-, rfl⟩ := hstep
      rw [h.startsRight_iff, calls_of_copy hcopy] at hstart
      rw [calls_of_copy rfl]
      simpa [or_imp, forall_and] using hstart
    · exact nomatch hstep
  | mag | scan | take | table | return_ =>
    refine iff_of_true (h'.startsRight_iff.2 ?_) trivial
    rw [calls_eq hstep nofun nofun]
    exact h.startsRight_iff.1 hstart

theorem startsRight_init : init.StartsRight := nofun

/-- Throughout a run, every call that passes the checks uses the start recorded for its magnitude
slot, exactly if in every call the entry of the table is in time. -/
theorem starts_right_iff (actions : List Action) {s : State}
    (hrun : Run.exec step init actions = some s) :
    (∀ as, as <+: actions → ∀ t ∈ Run.exec step init as, t.StartsRight) ↔
      Run.Along step EntryInTime init actions :=
  Run.forall_prefix_iff_along_of_inv inv_step startsRight_step inv_init startsRight_init hrun

/-! ## The blocks of the frame -/

/-- Copying a block is right exactly if it is copied in time. -/
theorem framesRight_copy (h : s.Inv) (hframes : s.FramesRight) (hstep : s.step .copy = some s') :
    s'.FramesRight ↔ s.CopiedInTime .copy := by
  simp only [step] at hstep
  split at hstep
  · next call hcopy =>
    simp only [Option.ite_none_right_eq_some, Option.some.injEq] at hstep
    obtain ⟨hlt, rfl⟩ := hstep
    have hright := hframes call (by simp [calls_of_copy hcopy])
    -- the slot holds the last block the stream has copied into it
    have hblock : s.mag.complex_ring (copySlot call.cplx_start call.frame.length) =
        some (call.cplx_start + call.frame.length) ↔ s.CopiedInTime .copy := by
      rw [copySlot_eq hlt, h.mag.ring, RingLog.holds_eq_some_iff]
      simp [CopiedInTime, hcopy]
    rw [← hblock, FramesRight, calls_of_copy rfl]
    constructor
    · intro hall
      have hlast := hall _ (List.mem_append_right _ List.mem_cons_self) call.frame.length (by simp)
      simpa using hlast
    · intro heq call' hcall i hi
      rcases List.mem_append.1 hcall with hcall | hcall
      · exact hframes call' (mem_calls_of_refined hcall) i hi
      · obtain rfl := List.mem_singleton.1 hcall
        rw [List.length_append, List.length_singleton] at hi
        rcases Nat.lt_succ_iff_lt_or_eq.1 hi with hi | rfl
        · rw [List.getElem?_append_left hi]
          exact hright i hi
        · rw [List.getElem?_append_right le_rfl]
          simpa using heq
  · exact nomatch hstep

/-- Whether all blocks are right changes only when a block is copied. -/
theorem framesRight_step (s : State) (a : Action) (s' : State) (h : s.Inv)
    (hframes : s.FramesRight) (hstep : s.step a = some s') : s'.FramesRight ↔ s.CopiedInTime a := by
  cases a with
  | copy => exact framesRight_copy h hframes hstep
  | load =>
    refine iff_of_true (fun call hcall i hi => ?_) trivial
    simp only [step] at hstep
    split at hstep
    · have hold : call ∈ s.refined ∨ call.frame = [] := by
        split_ifs at hstep <;> obtain rfl := Option.some.inj hstep
        · exact Or.inl (by simpa [State.calls] using hcall)
        · exact Or.inl (by simpa [State.calls] using hcall)
        · rw [calls_of_copy rfl, List.mem_append, List.mem_singleton] at hcall
          exact hcall.imp_right (congrArg Call.frame)
      -- a call that has just begun has no block yet
      rcases hold with hold | hempty
      · exact hframes call (mem_calls_of_refined hold) i hi
      · rw [hempty] at hi
        exact absurd hi (Nat.not_lt_zero i)
    · exact nomatch hstep
  | mag | scan | take | table | return_ =>
    refine iff_of_true ?_ trivial
    rw [FramesRight, calls_eq hstep nofun nofun]
    exact hframes

theorem framesRight_init : init.FramesRight := nofun

/-- Throughout a run, every block copied is the block with that number, exactly if every block is
copied in time. -/
theorem frames_right_iff (actions : List Action) {s : State}
    (hrun : Run.exec step init actions = some s) :
    (∀ as, as <+: actions → ∀ t ∈ Run.exec step init as, t.FramesRight) ↔
      Run.Along step CopiedInTime init actions :=
  Run.forall_prefix_iff_along_of_inv inv_step framesRight_step inv_init framesRight_init hrun

/-! ## Runs -/

/-- The steps of `MagBlock` for `k` blocks from block `n` on. -/
def magRun (n k : ℕ) : List Action := (MagBlock.blocksActions n k).map .mag

theorem exec_map_mag (s : State) (as : List MagBlock.Action) :
    Run.exec step s (as.map .mag) =
      (Run.exec MagBlock.State.step s.mag as).map fun mag => { s with mag := mag } := by
  induction as generalizing s with
  | nil => rfl
  | cons a as ih =>
    rw [List.map_cons, Run.exec_cons, Run.exec_cons, step]
    cases s.mag.step a with
    | none => rfl
    | some mag => exact ih { s with mag := mag }

theorem exec_magRun {n : ℕ} (h : s.mag.Settled n) (k : ℕ) :
    ∃ mag, Run.exec step s (magRun n k) = some { s with mag := mag } ∧ mag.Settled (n + k) := by
  obtain ⟨mag, hmag, hsettled⟩ := h.blocks k
  exact ⟨mag, by rw [magRun, exec_map_mag, hmag, Option.map_some], hsettled⟩

/-- The first scan that has a whole window finds a candidate at its start, and then `k` more blocks
come in. -/
def queuedRun (k : ℕ) : List Action := magRun 0 3489 ++ .scan 108 0 :: magRun 3489 k

theorem exec_queuedRun (k : ℕ) :
    ∃ mag, Run.exec step init (queuedRun k) = some ⟨mag, [⟨2, 0⟩], .idle, []⟩ ∧
      mag.Settled (3489 + k) := by
  obtain ⟨mag, hmag, hsettled⟩ := exec_magRun (s := init) MagBlock.settled_init 3489
  have hscan : ({ init with mag := mag } : State).step (.scan 108 0) =
      some ⟨mag, [⟨2, 0⟩], .idle, []⟩ := by
    simp [step, hsettled.write_idx, cap_blocks, time_offsets, init, Hf.Refine.pushJob,
      Hf.Refine.kRefineQueueMax]
  obtain ⟨mag', hmag', hsettled'⟩ :=
    exec_magRun (s := ⟨mag, [⟨2, 0⟩], .idle, []⟩) hsettled k
  refine ⟨mag', ?_, by rwa [Nat.zero_add] at hsettled'⟩
  rw [queuedRun, Run.exec_append, hmag, Option.bind_some, Run.exec_cons, hscan, Option.bind_some]
  rwa [Nat.zero_add] at hmag'

/-- Taking a job whose frame passes the checks. -/
theorem exec_serve {mag : MagBlock.State} {n : ℕ} (h : mag.Settled n) (job : Job) (cplx_start : ℕ)
    (hslot : job.mag_slot < (n - 33) / 32)
    (hstart : cplx_start = 32 * RingLog.newest N ((n - 33) / 32) job.mag_slot)
    (hcomplete : cplx_start + FRAME_BLOCKS ≤ n) (haged : n ≤ cplx_start + kComplexCompositeBlocks) :
    Run.exec step ⟨mag, [job], .idle, []⟩ [.take, .table, .load] =
      some ⟨mag, [], .copy ⟨job, cplx_start, []⟩, []⟩ := by
  have hentry : mag.slot_cplx_idx (Fin.ofNat N job.mag_slot) = cplx_start := by
    rw [h.inv.slot_cplx_idx_eq (h.recorded ▸ hslot), h.recorded, hstart]
  have hcwi := h.cplx_write_idx
  simp only [Run.exec_cons, step, Option.bind_some, hentry, hcwi, Run.exec_nil]
  rw [if_neg (Nat.not_lt.2 hcomplete), if_neg (by omega)]
  rfl

/-- The blocks that are copied while the ring does not change. -/
def copied (mag : MagBlock.State) (cplx_start i k : ℕ) : List (Option ℕ) :=
  (List.range' i k).map fun i => mag.complex_ring (copySlot cplx_start i)

theorem exec_copies {call : Call} (hcopy : s.worker = .copy call) {k : ℕ}
    (hk : call.frame.length + k ≤ FRAME_BLOCKS) :
    Run.exec step s (List.replicate k .copy) =
      some { s with
        worker := .copy { call with
          frame := call.frame ++ copied s.mag call.cplx_start call.frame.length k } } := by
  induction k generalizing s call with
  | zero =>
    obtain ⟨mag, refine_q, worker, refined⟩ := s
    obtain rfl : worker = .copy call := hcopy
    simp [copied]
  | succ k ih =>
    -- the frame is not full, so the next block is copied
    have hlt : call.frame.length < FRAME_BLOCKS := by omega
    have hstep : s.step .copy = some { s with
        worker := .copy { call with
          frame := call.frame ++
            [s.mag.complex_ring (copySlot call.cplx_start call.frame.length)] } } := by
      simp [step, hcopy, hlt]
    rw [List.replicate_succ, Run.exec_cons, hstep, Option.bind_some, ih rfl]
    · simp [copied, List.range'_succ]
    · rw [List.length_append, List.length_singleton]
      omega

/-- Copying a whole frame and returning. -/
theorem exec_finish (mag : MagBlock.State) (job : Job) (cplx_start : ℕ) :
    Run.exec step ⟨mag, [], .copy ⟨job, cplx_start, []⟩, []⟩
        (List.replicate FRAME_BLOCKS .copy ++ [.return_]) =
      some ⟨mag, [], .idle, [⟨job, cplx_start, copied mag cplx_start 0 FRAME_BLOCKS⟩]⟩ := by
  have hcopies := exec_copies (s := ⟨mag, [], .copy ⟨job, cplx_start, []⟩, []⟩) rfl
    (k := FRAME_BLOCKS) (by simp)
  rw [Run.exec_append, hcopies, Option.bind_some]
  simp [step, copied]

/-- The job is served when `MagBlock` has gone on by 5503 blocks, 171 magnitude slots. -/
def staleRun : List Action :=
  queuedRun 5503 ++ ([.take, .table, .load] ++ (List.replicate FRAME_BLOCKS .copy ++ [.return_]))

/-- The entry of the candidate's magnitude slot 2 has been replaced by that of slot 202, whose frame
is complete. -/
theorem exec_staleRun :
    ∃ s, Run.exec step init staleRun = some s ∧
      ∃ call ∈ s.refined, call.job.mag_slot = 2 ∧ call.cplx_start = 6464 := by
  obtain ⟨mag, hmag, hsettled⟩ := exec_queuedRun 5503
  have hserve := exec_serve hsettled ⟨2, 0⟩ 6464 (by decide) (by decide) (by decide) (by decide)
  refine ⟨⟨mag, [], .idle, [⟨⟨2, 0⟩, 6464, copied mag 6464 0 FRAME_BLOCKS⟩]⟩, ?_,
    _, List.mem_singleton_self _, rfl, rfl⟩
  rw [staleRun, Run.exec_append, hmag, Option.bind_some, Run.exec_append, hserve, Option.bind_some,
    exec_finish]

/-- The candidate's frame started with block 64, and the call uses block 6464. -/
theorem staleRun_not_startsRight :
    ∃ s, Run.exec step init staleRun = some s ∧ ¬s.StartsRight ∧
      ∃ call ∈ s.refined,
        s.mag.recorded[call.job.mag_slot]? = some 64 ∧ call.cplx_start = 6464 := by
  obtain ⟨s, hs, call, hcall, hslot, hstart⟩ := exec_staleRun
  have hinv : s.Inv := Run.inv_of_exec' inv_step inv_init hs
  have hrecorded := hinv.mag.recorded_eq (hinv.calls call (mem_calls_of_refined hcall)).1
  rw [hslot] at hrecorded
  refine ⟨s, hs, fun hright => ?_, call, hcall, by rw [hslot, hrecorded], hstart⟩
  have heq := hright call (mem_calls_of_refined hcall)
  rw [hslot, hrecorded, hstart] at heq
  exact absurd heq (by decide)

/-- The entry is not in time. -/
theorem starts_right_iff_staleRun : ¬Run.Along step EntryInTime init staleRun := by
  obtain ⟨s, hs, call, hcall, hslot, hstart⟩ := exec_staleRun
  have hinv : s.Inv := Run.inv_of_exec' inv_step inv_init hs
  rw [← starts_right_iff staleRun hs]
  intro hright
  have heq := hinv.startsRight_iff.1 (hright staleRun List.prefix_rfl s hs) call
    (mem_calls_of_refined hcall)
  rw [hslot, hstart] at heq
  exact absurd heq (by decide)

/-- The job is served when the frame is as old as the ring is long, and the next block comes in
before the first one is copied. -/
def tornRun : List Action :=
  queuedRun 671 ++ ([.take, .table, .load] ++ ([.enqueue, .stream].map .mag ++
    (List.replicate FRAME_BLOCKS .copy ++ [.return_])))

/-- The slot of the first block of the frame, block 64, holds block 4160 when it is copied. -/
theorem exec_tornRun :
    ∃ s, Run.exec step init tornRun = some s ∧
      ∃ call ∈ s.refined, call.cplx_start = 64 ∧ call.frame.length = FRAME_BLOCKS ∧
        call.frame[0]? = some (some 4160) := by
  obtain ⟨mag, hmag, hsettled⟩ := exec_queuedRun 671
  have hserve := exec_serve hsettled ⟨2, 0⟩ 64 (by decide) (by decide) (by decide) (by decide)
  obtain ⟨mag', hmag', hslot⟩ := hsettled.overwrite
  refine ⟨⟨mag', [], .idle, [⟨⟨2, 0⟩, 64, copied mag' 64 0 FRAME_BLOCKS⟩]⟩, ?_,
    _, List.mem_singleton_self _, rfl, by simp [copied], ?_⟩
  · rw [tornRun, Run.exec_append, hmag, Option.bind_some, Run.exec_append, hserve, Option.bind_some,
      Run.exec_append, exec_map_mag, hmag', Option.map_some, Option.bind_some, exec_finish]
  · have hfirst : copySlot 64 0 = Fin.ofNat kComplexCompositeBlocks 4160 := by decide
    rw [copied, List.getElem?_map, List.getElem?_range' (by decide), Option.map_some]
    exact congrArg some ((congrArg mag'.complex_ring hfirst).trans hslot)

/-- The call returns true with a block that is not of the frame. -/
theorem tornRun_not_framesRight :
    ∃ s, Run.exec step init tornRun = some s ∧ ¬s.FramesRight ∧
      ∃ call ∈ s.refined, call.cplx_start = 64 ∧ call.frame[0]? = some (some 4160) := by
  obtain ⟨s, hs, call, hcall, hstart, hlength, hblock⟩ := exec_tornRun
  refine ⟨s, hs, fun hright => ?_, call, hcall, hstart, hblock⟩
  have heq := hright call (mem_calls_of_refined hcall) 0 (by rw [hlength]; decide)
  rw [hblock, hstart] at heq
  exact absurd heq (by decide)

/-- The block is not copied in time. -/
theorem frames_right_iff_tornRun : ¬Run.Along step CopiedInTime init tornRun := by
  obtain ⟨s, hs, call, hcall, hstart, hlength, hblock⟩ := exec_tornRun
  rw [← frames_right_iff tornRun hs]
  intro hright
  have heq := hright tornRun List.prefix_rfl s hs call (mem_calls_of_refined hcall) 0
    (by rw [hlength]; decide)
  rw [hblock, hstart] at heq
  exact absurd heq (by decide)

end State

end GranolaSdr.Cuda.Refine
