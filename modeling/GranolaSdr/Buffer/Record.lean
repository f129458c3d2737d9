import GranolaSdr.Lib.RingLog
import GranolaSdr.Lib.Run

/-!
# Recording a buffer

A producer fills the slots of a ring and publishes the number of the last block as the position of
the buffer. `BufferFile::runRecord` waits for the position to pass the last block it has written,
reads the position, and writes the block of that number. It writes one block for each wake-up,
whatever the position has advanced by. A position of 0 also stands for a buffer without any block.

## Main definitions

* `State`, `step`: the ring, the producer and the recorder, and their steps;
* `State.Lossless`: the file holds the blocks published since the recorder started, in order, and
  all of them when the recorder waits;
* `State.Paced`: each wake-up finds one new block.

## Main results

* `lossless_iff_paced`: of the runs in which the recorder does not lag by the ring, those that
  record every block.
-/

namespace GranolaSdr.Buffer

/-- The shape of a buffer. -/
structure Shape where
  num_slots : ℕ
  block_samples : ℕ
  num_slots_pos : 0 < num_slots
  block_samples_pos : 0 < block_samples

instance (shape : Shape) : NeZero shape.num_slots := ⟨shape.num_slots_pos.ne'⟩

/-- The slot of a block, `n % num_slots`. -/
def Shape.slot (shape : Shape) (n : ℕ) : Fin shape.num_slots := Fin.ofNat shape.num_slots n

namespace Record

/-- Where the recorder stands. -/
inductive Phase (β : Type*) where
  /-- Before its starting position is read. -/
  | start
  /-- Before the run flag is loaded at the head of the loop. -/
  | check
  /-- In `getPosition`, before the position has been reached. -/
  | wait
  /-- In `getPosition`, before the position is read. -/
  | now
  /-- Before the block is copied out of the ring. -/
  | copy (next : ℕ)
  /-- Before the block is written. -/
  | write (next : ℕ) (block : β)
  /-- The thread has ended. -/
  | stopped
  deriving DecidableEq

/-- The buffer, its producer and the recorder. -/
structure State (shape : Shape) (β : Type*) where
  /-- The position of the buffer, in samples. -/
  buffPosition : ℕ
  slots : Fin shape.num_slots → β
  running : Bool
  phase : Phase β
  pos : ℕ
  file : List β
  /-- The blocks filled in so far. -/
  blocks : List β
  /-- How many of them have been published. -/
  published : ℕ
  /-- How many had been when the recorder read its starting position. -/
  start : ℕ

/-- What can happen next. -/
inductive Action (β : Type*) where
  /-- The producer fills the slot of the next block. -/
  | fill (block : β)
  /-- The producer publishes the block. -/
  | publish
  /-- The recorder is told to stop. -/
  | stop
  /-- The recorder takes its next step. -/
  | record

variable {shape : Shape} {β : Type*}

/-- A buffer without any block, in memory that holds `d`, and a recorder about to start. -/
def init (d : β) : State shape β where
  buffPosition := 0
  slots _ := d
  running := true
  phase := .start
  pos := 0
  file := []
  blocks := []
  published := 0
  start := 0

namespace State

/-- `getNow(1)` -/
def getNow (s : State shape β) : ℕ := s.buffPosition / shape.block_samples

/-- The next step of `runRecord`. -/
def recordStep (s : State shape β) : Option (State shape β) :=
  match s.phase with
  | .start => some { s with pos := s.getNow, start := s.published, phase := .check }
  | .check => some { s with phase := if s.running then .wait else .stopped }
  | .wait =>
    if s.buffPosition < shape.block_samples * (s.pos + 1) then none
    else some { s with phase := .now }
  | .now => some { s with phase := .copy s.getNow }
  | .copy next => some { s with phase := .write next (s.slots (shape.slot next)) }
  | .write next block =>
    some { s with file := s.file ++ [block], pos := next, phase := .check }
  | .stopped => none

/-- The steps of the system. -/
def step (s : State shape β) : Action β → Option (State shape β)
  | .fill block =>
    if s.blocks.length = s.published then
      some { s with
        slots := Function.update s.slots (shape.slot s.blocks.length) block
        blocks := s.blocks ++ [block] }
    else none
  | .publish =>
    if s.blocks.length = s.published + 1 then
      some { s with
        buffPosition := shape.block_samples * s.published
        published := s.published + 1 }
    else none
  | .stop => some { s with running := false }
  | .record => s.recordStep

/-- The blocks from number `start` on, up to but without number `n`. -/
def since (s : State shape β) (n : ℕ) : List β := (s.blocks.take n).drop s.start

/-- What has been written are the blocks since the recorder started, each once and in order. -/
def Right (s : State shape β) : Prop := s.file ≠ [] → s.file = s.since (s.pos + 1)

/-- The recorder waits for a block that has not been published. -/
def Blocked (s : State shape β) : Prop :=
  s.phase = .wait ∧ s.buffPosition < shape.block_samples * (s.pos + 1)

/-- Every block published since the recorder started is recorded: what has been written is right,
and nothing is missing when the recorder waits. -/
def Lossless (s : State shape β) : Prop :=
  s.Right ∧ (s.Blocked → s.file = s.since s.published)

/-- The recorder does not copy a block that it lags behind by the ring or more. -/
def NoLag (s : State shape β) : Action β → Prop
  | .record => ∀ next, s.phase = .copy next → s.blocks.length ≤ next + shape.num_slots
  | _ => True

/-- A recorder that wakes up finds exactly one block published since the last one written, and no
block is published to a recorder that has started on an empty buffer. -/
def Paced (s : State shape β) : Action β → Prop
  | .publish => s.phase ≠ .start → 0 < s.start
  | .record => s.phase = .now → s.published = s.pos + 2
  | _ => True

/-- The recorder writes the block after the last one, and has not started on an empty buffer. -/
def WritesNext (s : State shape β) : Action β → Prop
  | .record => ∀ next block, s.phase = .write next block → 0 < s.start ∧ next = s.pos + 1
  | _ => True

/-- The block that the recorder is about to copy or to write. -/
def pending (s : State shape β) : Option ℕ :=
  match s.phase with
  | .copy next | .write next _ => some next
  | _ => none

/-- The recorder has not missed the first block, and goes for the block after the last one. -/
def OnTrack (s : State shape β) : Prop :=
  (s.phase ≠ .start → 0 < s.start ∨ s.published = 0) ∧ ∀ next ∈ s.pending, next = s.pos + 1

/-- The invariant of the buffer and the recorder. -/
structure Inv (d : β) (s : State shape β) : Prop where
  position : s.buffPosition = shape.block_samples * (s.published - 1)
  published_le : s.published ≤ s.blocks.length
  slots : RingLog.Represents d s.slots s.blocks
  fresh : s.phase = .start → s.file = []
  start_le : s.start ≤ s.published
  pos_le : s.pos ≤ s.published - 1
  file_le : s.file.length + (s.start - 1) ≤ s.pos
  pos_of_nil : s.file = [] → s.pos = s.start - 1
  now : s.phase = .now → s.pos + 1 < s.published
  copy : ∀ next, s.phase = .copy next → s.pos < next ∧ next < s.published
  write : ∀ next block, s.phase = .write next block →
    s.pos < next ∧ next < s.published ∧ s.blocks[next]? = some block

variable {d : β} {s s' : State shape β}

/-- What a step of the recorder can do. -/
theorem recordStep_cases (hstep : s.recordStep = some s') :
    (s.phase = .start ∧ s' = { s with pos := s.getNow, start := s.published, phase := .check }) ∨
    (s.phase = .check ∧ s' = { s with phase := if s.running then .wait else .stopped }) ∨
    (s.phase = .wait ∧ ¬s.buffPosition < shape.block_samples * (s.pos + 1) ∧
      s' = { s with phase := .now }) ∨
    (s.phase = .now ∧ s' = { s with phase := .copy s.getNow }) ∨
    (∃ next, s.phase = .copy next ∧
      s' = { s with phase := .write next (s.slots (shape.slot next)) }) ∨
    ∃ next block, s.phase = .write next block ∧
      s' = { s with file := s.file ++ [block], pos := next, phase := .check } := by
  cases hphase : s.phase with
  -- of the phases that go on, waiting is the only one with a condition
  | wait =>
    simp only [recordStep, hphase, Option.ite_none_left_eq_some, Option.some.injEq] at hstep
    exact .inr (.inr (.inl ⟨rfl, hstep.1, hstep.2.symm⟩))
  | start | check | now | copy | write =>
    simp only [recordStep, hphase, Option.some.injEq] at hstep
    simp [← hstep]
  | stopped =>
    simp only [recordStep, hphase] at hstep
    cases hstep

theorem inv_init : (init d : State shape β).Inv d where
  position := by simp [init]
  published_le := le_rfl
  slots := RingLog.represents_nil
  fresh _ := rfl
  start_le := le_rfl
  pos_le := le_rfl
  file_le := le_rfl
  pos_of_nil _ := rfl
  now h := by cases h
  copy next h := by cases h
  write next block h := by cases h

/-- The position read is the number of the last block published. -/
theorem Inv.getNow_eq (h : s.Inv d) : s.getNow = s.published - 1 := by
  rw [getNow, h.position, Nat.mul_div_cancel_left _ shape.block_samples_pos]

/-- The position has been reached once the block of that number has been published. -/
theorem Inv.position_lt_iff (h : s.Inv d) {n : ℕ} (hn : 0 < n) :
    s.buffPosition < shape.block_samples * n ↔ s.published ≤ n := by
  rw [h.position, Nat.mul_lt_mul_left shape.block_samples_pos]
  omega

theorem Inv.fill (h : s.Inv d) (block : β) :
    Inv d { s with
      slots := Function.update s.slots (shape.slot s.blocks.length) block
      blocks := s.blocks ++ [block] } where
  position := h.position
  published_le := by
    rw [List.length_append]
    exact h.published_le.trans (Nat.le_add_right _ _)
  slots := h.slots.write block
  fresh := h.fresh
  start_le := h.start_le
  pos_le := h.pos_le
  file_le := h.file_le
  pos_of_nil := h.pos_of_nil
  now := h.now
  copy := h.copy
  -- the block that is about to be written was filled before
  write next b hphase := by
    obtain ⟨hpos, hlt, hb⟩ := h.write next b hphase
    refine ⟨hpos, hlt, ?_⟩
    rw [List.getElem?_append_left (hlt.trans_le h.published_le)]
    exact hb

theorem Inv.publish (h : s.Inv d) (hfilled : s.blocks.length = s.published + 1) :
    Inv d { s with
      buffPosition := shape.block_samples * s.published
      published := s.published + 1 } where
  position := rfl
  published_le := hfilled.ge
  slots := h.slots
  fresh := h.fresh
  start_le := h.start_le.trans (Nat.le_succ _)
  pos_le := h.pos_le.trans (Nat.sub_le _ _)
  file_le := h.file_le
  pos_of_nil := h.pos_of_nil
  now hphase := (h.now hphase).trans (Nat.lt_succ_self _)
  copy next hphase := by
    obtain ⟨hpos, hlt⟩ := h.copy next hphase
    exact ⟨hpos, hlt.trans (Nat.lt_succ_self _)⟩
  write next b hphase := by
    obtain ⟨hpos, hlt, hb⟩ := h.write next b hphase
    exact ⟨hpos, hlt.trans (Nat.lt_succ_self _), hb⟩

/-- A step to a phase about which the invariant says nothing more. -/
theorem Inv.goto (h : s.Inv d) {phase : Phase β} (hfresh : phase ≠ .start)
    (hnow : phase = .now → s.pos + 1 < s.published)
    (hcopy : ∀ next, phase = .copy next → s.pos < next ∧ next < s.published)
    (hwrite : ∀ next block, phase = .write next block →
      s.pos < next ∧ next < s.published ∧ s.blocks[next]? = some block) :
    Inv d { s with phase := phase } where
  position := h.position
  published_le := h.published_le
  slots := h.slots
  fresh hphase := absurd hphase hfresh
  start_le := h.start_le
  pos_le := h.pos_le
  file_le := h.file_le
  pos_of_nil := h.pos_of_nil
  now := hnow
  copy := hcopy
  write := hwrite

/-- The recorder reads its starting position. -/
theorem Inv.begin (h : s.Inv d) (hphase : s.phase = .start) :
    Inv d { s with pos := s.getNow, start := s.published, phase := .check } where
  position := h.position
  published_le := h.published_le
  slots := h.slots
  fresh hphase := by cases hphase
  start_le := le_rfl
  pos_le := h.getNow_eq.le
  file_le := by
    rw [h.fresh hphase, h.getNow_eq]
    exact (Nat.zero_add _).le
  pos_of_nil _ := h.getNow_eq
  now hphase := by cases hphase
  copy next hphase := by cases hphase
  write next b hphase := by cases hphase

/-- The recorder writes a block. -/
theorem Inv.append (h : s.Inv d) {next : ℕ} {block : β} (hphase : s.phase = .write next block) :
    Inv d { s with file := s.file ++ [block], pos := next, phase := .check } where
  position := h.position
  published_le := h.published_le
  slots := h.slots
  fresh hphase := by cases hphase
  start_le := h.start_le
  pos_le := Nat.le_sub_one_of_lt (h.write next block hphase).2.1
  file_le := by
    -- one block more in the file, and the position advances by one at least
    have hfile := h.file_le
    have hpos := (h.write next block hphase).1
    change (s.file ++ [block]).length + (s.start - 1) ≤ next
    rw [List.length_append, List.length_singleton]
    omega
  pos_of_nil hnil := absurd hnil (by simp)
  now hphase := by cases hphase
  copy next hphase := by cases hphase
  write next b hphase := by cases hphase

/-- A step of a recorder that does not lag. -/
theorem Inv.record (h : s.Inv d) (hlag : s.NoLag (.record : Action β))
    (hstep : s.recordStep = some s') : s'.Inv d := by
  rcases recordStep_cases hstep with ⟨hphase, rfl⟩ | ⟨-, rfl⟩ | ⟨-, hreached, rfl⟩ |
    ⟨hphase, rfl⟩ | ⟨next, hphase, rfl⟩ | ⟨next, block, hphase, rfl⟩
  · exact h.begin hphase
  · split_ifs
    · exact h.goto (by simp) (fun h => by cases h) (fun _ h => by cases h) fun _ _ h => by cases h
    · exact h.goto (by simp) (fun h => by cases h) (fun _ h => by cases h) fun _ _ h => by cases h
  · rw [h.position_lt_iff (Nat.succ_pos _), Nat.not_le] at hreached
    exact h.goto (by simp) (fun _ => hreached) (fun _ h => by cases h) fun _ _ h => by cases h
  · -- the position read is at least the one waited for
    have hnow := h.now hphase
    rw [h.getNow_eq]
    refine h.goto (by simp) (fun h => by cases h) (fun next h => ?_) fun _ _ h => by cases h
    cases h
    omega
  · obtain ⟨hpos, hlt⟩ := h.copy next hphase
    refine h.goto (by simp) (fun h => by cases h) (fun _ h => by cases h) fun n b hb => ?_
    cases hb
    -- the slot still holds the block, which is among the last ones filled in
    exact ⟨hpos, hlt, h.slots.getElem? (hlt.trans_le h.published_le) (hlag next hphase)⟩
  · exact h.append hphase

/-- Every step in which the recorder does not lag keeps the invariant. -/
theorem inv_step {a : Action β} (h : s.Inv d) (hlag : s.NoLag a) (hstep : s.step a = some s') :
    s'.Inv d := by
  cases a with
  | fill block =>
    simp only [step, Option.ite_none_right_eq_some, Option.some.injEq] at hstep
    obtain ⟨-, rfl⟩ := hstep
    exact h.fill block
  | publish =>
    simp only [step, Option.ite_none_right_eq_some, Option.some.injEq] at hstep
    obtain ⟨hfilled, rfl⟩ := hstep
    exact h.publish hfilled
  | stop =>
    obtain rfl := Option.some.inj hstep
    exact ⟨h.position, h.published_le, h.slots, h.fresh, h.start_le, h.pos_le, h.file_le,
      h.pos_of_nil, h.now, h.copy, h.write⟩
  | record => exact h.record hlag hstep

/-- The last block written, if any, is in the ring's history. -/
theorem Inv.pos_lt_length (h : s.Inv d) (hne : s.file ≠ []) : s.pos < s.blocks.length := by
  have hfile := h.file_le
  have hpos := h.pos_le
  have hpublished := h.published_le
  have hlen := List.length_pos_of_ne_nil hne
  omega

/-- As long as the file is right, it holds the blocks since the recorder started up to the last
one written. -/
theorem Inv.file_eq (h : s.Inv d) (hright : s.Right) (hstart : 0 < s.start) :
    s.file = s.since (s.pos + 1) := by
  by_cases hnil : s.file = []
  · have hpos : s.pos + 1 = s.start := by
      have := h.pos_of_nil hnil
      omega
    rw [hnil, since, hpos, List.drop_eq_nil_of_le (List.length_take_le _ _)]
  · exact hright hnil

/-- A block is written behind those since the start exactly when it is the next one. -/
theorem Inv.right_append_iff (h : s.Inv d) (hright : s.Right) {next : ℕ} {block : β}
    (hphase : s.phase = .write next block) :
    Right { s with file := s.file ++ [block], pos := next, phase := .check } ↔
      0 < s.start ∧ next = s.pos + 1 := by
  obtain ⟨hpos, hlt, hblock⟩ := h.write next block hphase
  have hle := hlt.trans_le h.published_le
  have hfile := h.file_le
  constructor
  · intro hright'
    -- a skipped block leaves the file too short
    have hright' : s.file ++ [block] = s.since (next + 1) := hright' (by simp)
    have hlen := congrArg List.length hright'
    rw [since, List.length_append, List.length_singleton, List.length_drop, List.length_take]
      at hlen
    omega
  · rintro ⟨hstart, rfl⟩ -
    have hstart_le : s.start ≤ (s.blocks.take (s.pos + 1)).length := by
      rw [List.length_take]
      omega
    have htake : s.blocks.take (s.pos + 1 + 1) = s.blocks.take (s.pos + 1) ++ [block] := by
      rw [List.take_add_one, hblock, Option.toList_some]
    simp only [since]
    rw [htake, List.drop_append_of_le_length hstart_le, h.file_eq hright hstart, since]

/-- A step of the recorder keeps the file right exactly when it writes no block but the next. -/
theorem Inv.right_record (h : s.Inv d) (hright : s.Right) (hstep : s.recordStep = some s') :
    s'.Right ↔ s.WritesNext (.record : Action β) := by
  have hother : (∀ next block, s.phase ≠ .write next block) → s.WritesNext (.record : Action β) :=
    fun hne next block hphase => absurd hphase (hne next block)
  rcases recordStep_cases hstep with ⟨hphase, rfl⟩ | ⟨hphase, rfl⟩ | ⟨hphase, -, rfl⟩ |
    ⟨hphase, rfl⟩ | ⟨next, hphase, rfl⟩ | ⟨next, block, hphase, rfl⟩
  · exact iff_of_true (fun hne => absurd (h.fresh hphase) hne) (hother (by simp [hphase]))
  · exact iff_of_true hright (hother (by simp [hphase]))
  · exact iff_of_true hright (hother (by simp [hphase]))
  · exact iff_of_true hright (hother (by simp [hphase]))
  · exact iff_of_true hright (hother (by simp [hphase]))
  · rw [h.right_append_iff hright hphase]
    constructor
    · rintro hnext n b hb
      obtain ⟨rfl, -⟩ := Phase.write.inj (hphase.symm.trans hb)
      exact hnext
    · exact fun hwrites => hwrites next block hphase

/-- A step keeps the file right exactly when it does not write a block other than the next. -/
theorem right_step {a : Action β} (h : s.Inv d) (hright : s.Right) (hstep : s.step a = some s') :
    s'.Right ↔ s.WritesNext a := by
  cases a with
  | fill block =>
    simp only [step, Option.ite_none_right_eq_some, Option.some.injEq] at hstep
    obtain ⟨-, rfl⟩ := hstep
    refine iff_of_true (fun hne => ?_) trivial
    have hne : s.file ≠ [] := hne
    -- the new block comes after the last one read
    have hle : s.pos + 1 ≤ s.blocks.length := h.pos_lt_length hne
    simp only [since]
    rw [List.take_append_of_le_length hle]
    exact hright hne
  | publish =>
    simp only [step, Option.ite_none_right_eq_some, Option.some.injEq] at hstep
    obtain ⟨-, rfl⟩ := hstep
    exact iff_of_true hright trivial
  | stop =>
    obtain rfl := Option.some.inj hstep
    exact iff_of_true hright trivial
  | record => exact h.right_record hright hstep

/-- A paced step of the recorder leads it to the block after the last one. -/
theorem Inv.onTrack_record (h : s.Inv d) (hstep : s.recordStep = some s') :
    s.OnTrack ∧ s.Paced (.record : Action β) ↔ s'.OnTrack ∧ s.WritesNext (.record : Action β) := by
  rcases recordStep_cases hstep with ⟨hphase, rfl⟩ | ⟨hphase, rfl⟩ | ⟨hphase, -, rfl⟩ |
    ⟨hphase, rfl⟩ | ⟨next, hphase, rfl⟩ | ⟨next, block, hphase, rfl⟩
  · simpa [OnTrack, Paced, WritesNext, pending, hphase] using
      (Nat.eq_zero_or_pos s.published).symm
  · split_ifs
    · simp [OnTrack, Paced, WritesNext, pending, hphase]
    · simp [OnTrack, Paced, WritesNext, pending, hphase]
  · simp [OnTrack, Paced, WritesNext, pending, hphase]
  · -- the block read is the one published last
    have hnow := h.now hphase
    have hnext : s.getNow = s.pos + 1 ↔ s.published = s.pos + 2 := by
      rw [h.getNow_eq]
      omega
    simp [OnTrack, Paced, WritesNext, pending, hphase, hnext]
  · simp [OnTrack, Paced, WritesNext, pending, hphase]
  · -- a block has been published, so the recorder has not started on an empty buffer
    have hpublished : s.published ≠ 0 := Nat.ne_zero_of_lt (h.write next block hphase).2.1
    simp [OnTrack, Paced, WritesNext, pending, hphase, hpublished]

theorem onTrack_step {a : Action β} (h : s.Inv d) (hstep : s.step a = some s') :
    s.OnTrack ∧ s.Paced a ↔ s'.OnTrack ∧ s.WritesNext a := by
  cases a with
  | fill block =>
    simp only [step, Option.ite_none_right_eq_some, Option.some.injEq] at hstep
    obtain ⟨-, rfl⟩ := hstep
    exact Iff.rfl
  | publish =>
    simp only [step, Option.ite_none_right_eq_some, Option.some.injEq] at hstep
    obtain ⟨-, rfl⟩ := hstep
    constructor
    · rintro ⟨⟨-, hnext⟩, hpaced⟩
      -- the publish is what ends an empty start: `Paced` says here what `OnTrack` says after it
      exact ⟨⟨fun hphase => .inl (hpaced hphase), hnext⟩, trivial⟩
    · rintro ⟨⟨hstart, hnext⟩, -⟩
      have hpaced : s.phase ≠ .start → 0 < s.start := fun hphase =>
        (hstart hphase).resolve_right (Nat.succ_ne_zero _)
      exact ⟨⟨fun hphase => .inl (hpaced hphase), hnext⟩, hpaced⟩
  | stop =>
    obtain rfl := Option.some.inj hstep
    exact Iff.rfl
  | record => exact h.onTrack_record hstep

/-- A recorder that waits for a block not yet published has written all published before. -/
theorem Inv.file_of_blocked (h : s.Inv d) (hright : s.Right) (hstart : 0 < s.start)
    (hblocked : s.Blocked) : s.file = s.since s.published := by
  have hle := (h.position_lt_iff (Nat.succ_pos _)).1 hblocked.2
  have hpos := h.pos_le
  have hstart_le := h.start_le
  have hlast : s.pos + 1 = s.published := by omega
  rw [h.file_eq hright hstart, hlast]

/-- A recorder that is on track has lost nothing as long as the file is right. -/
theorem Inv.lossless (h : s.Inv d) (hright : s.Right) (htrack : s.OnTrack) : s.Lossless := by
  refine ⟨hright, fun hblocked => ?_⟩
  rcases htrack.1 (by simp [hblocked.1]) with hstart | hpublished
  · exact h.file_of_blocked hright hstart hblocked
  · have hfile := h.file_le
    have hpos := h.pos_le
    have hnil : s.file = [] := List.length_eq_zero_iff.1 (by omega)
    rw [hnil, since, hpublished, List.take_zero, List.drop_nil]

/-- A recorder that waits and has lost nothing is on track. -/
theorem Inv.onTrack_of_blocked (h : s.Inv d) (hblocked : s.Blocked) (hlossless : s.Lossless) :
    s.OnTrack := by
  refine ⟨fun _ => ?_, by simp [pending, hblocked.1]⟩
  have hlen := congrArg List.length (hlossless.2 hblocked)
  rw [since, List.length_drop, List.length_take_of_le h.published_le] at hlen
  have hfile := h.file_le
  have hpos := h.pos_le
  omega

/-! ## Runs -/

variable {as : List (Action β)}

theorem inv_exec (hrun : Run.exec step (init d) as = some s)
    (hlag : Run.Along step NoLag (init d : State shape β) as) : s.Inv d :=
  Run.inv_of_exec (fun _ _ _ h hlag hstep => inv_step h hlag hstep) inv_init hlag hrun

theorem right_init : (init d : State shape β).Right := fun hne => absurd rfl hne

theorem onTrack_init : (init d : State shape β).OnTrack :=
  ⟨fun h => absurd rfl h, fun _ h => by cases h⟩

/-- The file is right throughout a run exactly when each block written is the next one. -/
theorem forall_right_iff (hrun : Run.exec step (init d) as = some s)
    (hlag : Run.Along step NoLag (init d : State shape β) as) :
    (∀ bs, bs <+: as → ∀ t ∈ Run.exec step (init d : State shape β) bs, t.Right) ↔
      Run.Along step WritesNext (init d : State shape β) as :=
  Run.forall_prefix_iff_along_of_along (fun _ _ _ h hlag hstep => inv_step h hlag hstep)
    (fun _ _ _ h hright _ hstep => right_step h hright hstep) inv_init right_init hlag hrun

/-- A run is paced exactly when each block written is the next one and it ends on track. -/
theorem along_paced_iff (hrun : Run.exec step (init d) as = some s)
    (hlag : Run.Along step NoLag (init d : State shape β) as) :
    Run.Along step Paced (init d : State shape β) as ↔
      s.OnTrack ∧ Run.Along step WritesNext (init d : State shape β) as := by
  have hiff := Run.and_along_iff (fun _ _ _ h hlag hstep => inv_step h hlag hstep)
    (fun _ _ _ h _ hstep => onTrack_step h hstep) inv_init hlag hrun
  exact (and_iff_right onTrack_init).symm.trans hiff

end State

/-- In every run in which the recorder does not lag by the ring or more and each wake-up finds one
new block, every block published since the recorder started is recorded. A run at whose end the
recorder waits records every block only in this way. -/
theorem lossless_iff_paced {d : β} {s : State shape β} {as : List (Action β)}
    (hrun : Run.exec State.step (init d) as = some s)
    (hlag : Run.Along State.step State.NoLag (init d : State shape β) as) :
    (Run.Along State.step State.Paced (init d : State shape β) as →
      ∀ bs, bs <+: as → ∀ t ∈ Run.exec State.step (init d : State shape β) bs, t.Lossless) ∧
    (s.Blocked →
      (∀ bs, bs <+: as → ∀ t ∈ Run.exec State.step (init d : State shape β) bs, t.Lossless) →
      Run.Along State.step State.Paced (init d : State shape β) as) := by
  constructor
  · intro hpaced bs hbs t ht
    have hlag' := hlag.of_prefix hbs
    obtain ⟨htrack, hwrites⟩ := (State.along_paced_iff ht hlag').1 (hpaced.of_prefix hbs)
    have hright := (State.forall_right_iff ht hlag').2 hwrites bs List.prefix_rfl t ht
    exact (State.inv_exec ht hlag').lossless hright htrack
  · intro hblocked hlossless
    have htrack := (State.inv_exec hrun hlag).onTrack_of_blocked hblocked
      (hlossless as List.prefix_rfl s hrun)
    have hwrites :=
      (State.forall_right_iff hrun hlag).1 fun bs hbs t ht => (hlossless bs hbs t ht).1
    exact (State.along_paced_iff hrun hlag).2 ⟨htrack, hwrites⟩

instance (s : State shape β) (a : Action β) : Decidable (s.NoLag a) :=
  match a with
  | .record =>
    match h : s.phase with
    | .copy next => decidable_of_iff (s.blocks.length ≤ next + shape.num_slots)
        (by simp [State.NoLag, h])
    | .start | .check | .wait | .now | .write _ _ | .stopped =>
      isTrue (by simp [State.NoLag, h])
  | .fill _ | .publish | .stop => isTrue trivial

instance [DecidableEq β] (s : State shape β) : Decidable s.Right :=
  inferInstanceAs (Decidable (_ → _))

/-- Four slots of two samples. -/
def fourSlots : Shape := ⟨4, 2, by decide, by decide⟩

/-- A block is published, the recorder starts and waits, and the next one is recorded. -/
def singleRun : List (Action ℕ) :=
  [.fill 10, .publish, .record, .record, .fill 11, .publish, .record, .record, .record, .record]

theorem lossless_iff_paced_singleRun :
    ∃ s, Run.exec State.step (init 0 : State fourSlots ℕ) singleRun = some s ∧
      (Run.Along State.step State.Paced (init 0 : State fourSlots ℕ) singleRun →
        ∀ bs, bs <+: singleRun →
          ∀ t ∈ Run.exec State.step (init 0 : State fourSlots ℕ) bs, t.Lossless) ∧
      (s.Blocked →
        (∀ bs, bs <+: singleRun →
          ∀ t ∈ Run.exec State.step (init 0 : State fourSlots ℕ) bs, t.Lossless) →
        Run.Along State.step State.Paced (init 0 : State fourSlots ℕ) singleRun) := by
  obtain ⟨s, hs⟩ := Option.isSome_iff_exists.1
    (by decide : (Run.exec State.step (init 0 : State fourSlots ℕ) singleRun).isSome)
  exact ⟨s, hs, lossless_iff_paced hs (by decide)⟩

/-- Two blocks are published between two wake-ups of the recorder. -/
def doubleRun : List (Action ℕ) :=
  [.fill 10, .publish, .record, .record, .fill 11, .publish, .fill 12, .publish, .record, .record,
    .record, .record]

/-- The recorder does not lag by the ring, but writes only the second of the two blocks. -/
theorem doubleRun_not_lossless :
    Run.Along State.step State.NoLag (init 0 : State fourSlots ℕ) doubleRun ∧
    (Run.exec State.step (init 0 : State fourSlots ℕ) doubleRun).map
        (fun s => (s.file, s.since s.published)) = some ([12], [11, 12]) ∧
    ∃ s, Run.exec State.step (init 0 : State fourSlots ℕ) doubleRun = some s ∧ ¬s.Right := by
  obtain ⟨s, hs⟩ := Option.isSome_iff_exists.1
    (by decide : (Run.exec State.step (init 0 : State fourSlots ℕ) doubleRun).isSome)
  have hwrong : (Run.exec State.step (init 0 : State fourSlots ℕ) doubleRun).all
      (fun s => decide ¬s.Right) := by
    decide
  rw [hs, Option.all_some, decide_eq_true_eq] at hwrong
  exact ⟨by decide, by decide, s, hs, hwrong⟩

end Record

end GranolaSdr.Buffer
