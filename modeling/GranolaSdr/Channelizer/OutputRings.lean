import GranolaSdr.Lib.Run
import Mathlib.Data.Fin.Basic
import Mathlib.Data.Nat.ModEq
import Mathlib.Logic.Function.Basic

/-!
# The channelizer's output rings

`HFChannelizer::doCopy` enqueues, for each output ring, a copy of the block's output into a slot of
the ring and a callback that announces the block and advances the ring's index. The host picks the
slot by the index at the time it enqueues the copy; the index only advances when the callback
runs. The stream runs the enqueued operations in order, at any time.

Each `Action.host` is one step of the running `doCopy`, so callbacks can run between any two of
them.

## Main definitions

* `State`, `step`: the rings, the stream and the host, and their steps;
* `State.Announced`: a callback about to run announces a slot that holds its block;
* `State.Kept`: a copy about to run overwrites announced blocks only;
* `EnqueuesDrained`: the host enqueues a copy by an index read while a multiple of the ring length
  of blocks was outstanding.

## Main results

* `rings_right`: both hold throughout every run that enqueues drained.
-/

namespace GranolaSdr.Channelizer

/-- The number of slots of each ring, `BUFFERS` and `AUDIO_RING`. -/
def BUFFERS : ℕ := 16

instance : NeZero BUFFERS := ⟨by decide⟩

/-- `NORM_INTERVAL` -/
def NORM_INTERVAL : ℕ := 64

/-- The output rings: audio, decoder composite and CW composite. -/
inductive Ring where
  | audio
  | composite
  | cw
  deriving DecidableEq, Repr

/-- The stream operations on the rings. -/
inductive StreamOp (β : Type*) where
  /-- Copy the output of a block into a slot. -/
  | copy (r : Ring) (slot : Fin BUFFERS) (out : β)
  /-- Announce the position the index stands at and advance the index. -/
  | callback (r : Ring)
  deriving DecidableEq

/-- The ring an operation is on. -/
def StreamOp.ring {β : Type*} : StreamOp β → Ring
  | .copy r _ _ => r
  | .callback r => r

@[simp]
theorem StreamOp.ring_copy {β : Type*} (r : Ring) (slot : Fin BUFFERS) (out : β) :
    (StreamOp.copy r slot out).ring = r := rfl

@[simp]
theorem StreamOp.ring_callback {β : Type*} (r : Ring) :
    (StreamOp.callback r : StreamOp β).ring = r := rfl

/-- One ring. -/
structure RingState (β : Type*) where
  /-- `audio_produce_idx`, `buffer_number` or `cw_buffer_number`. -/
  position : ℕ
  /-- The contents of the slots. -/
  slots : Fin BUFFERS → Option β
  /-- The outputs of the blocks processed so far, in order. -/
  processed : List β
  /-- How many of them have been copied into a slot. -/
  written : ℕ

/-- Where the running `doCopy` stands, with the outputs of its block. -/
inductive Host (β : Type*) where
  | idle
  /-- Before the index of the ring is read. -/
  | index (r : Ring) (outs : Ring → β)
  /-- Before the copy is enqueued, with the index read. -/
  | copy (r : Ring) (idx : ℕ) (outs : Ring → β)
  /-- Before the callback is enqueued. -/
  | callback (r : Ring) (outs : Ring → β)
  /-- Before the noise-floor normalization. -/
  | norm (outs : Ring → β)

/-- The rings, the index of the audio consumer, the frame counter, the stream and the host. -/
structure State (β : Type*) where
  rings : Ring → RingState β
  audio_consume_idx : ℕ
  norm_frame : ℕ
  queue : List (StreamOp β)
  host : Host β

/-- What can happen next. -/
inductive Action (β : Type*) where
  /-- `doCopy` is called for a block with these outputs. -/
  | doCopy (outs : Ring → β)
  /-- The running `doCopy` takes its next step. -/
  | host
  /-- The stream runs its next operation. -/
  | stream
  /-- The audio worker finishes a block. -/
  | consume

variable {β : Type*}

/-- The state before the first block. -/
def init : State β where
  rings _ := { position := 0, slots := fun _ => none, processed := [], written := 0 }
  audio_consume_idx := 0
  norm_frame := 0
  queue := []
  host := .idle

namespace State

/-- Change one ring. -/
def setRing (s : State β) (r : Ring) (rs : RingState β) : State β :=
  { s with rings := Function.update s.rings r rs }

/-- The host step after the callback of a ring. -/
def afterCallback (cw_enabled : Bool) (outs : Ring → β) : Ring → Host β
  | .audio => .norm outs
  | .composite => if cw_enabled then .index .cw outs else .idle
  | .cw => .idle

/-- `produce - consume < AUDIO_RING`, in unsigned arithmetic. -/
def AudioFits (s : State β) (produce : ℕ) : Prop :=
  s.audio_consume_idx ≤ produce ∧ produce - s.audio_consume_idx < BUFFERS

instance (s : State β) (produce : ℕ) : Decidable (s.AudioFits produce) :=
  inferInstanceAs (Decidable (_ ∧ _))

/-- Enqueue the copy of a block's output into the slot of the index read. -/
def enqueueCopy (s : State β) (r : Ring) (idx : ℕ) (outs : Ring → β) : State β :=
  { s.setRing r { s.rings r with processed := (s.rings r).processed ++ [outs r] } with
    queue := s.queue ++ [.copy r (Fin.ofNat BUFFERS idx) (outs r)]
    host := .callback r outs }

/-- The next step of the running `doCopy`. -/
def hostStep (cw_enabled : Bool) (s : State β) : Option (State β) :=
  match s.host with
  | .idle => none
  | .index r outs => some { s with host := .copy r (s.rings r).position outs }
  | .copy r idx outs =>
    -- a full audio ring drops the block
    if r = .audio ∧ ¬s.AudioFits idx then some { s with host := .norm outs }
    else some (s.enqueueCopy r idx outs)
  | .callback r outs =>
    some { s with queue := s.queue ++ [.callback r], host := afterCallback cw_enabled outs r }
  | .norm outs =>
    -- `cudaStreamSynchronize` returns once the stream is empty
    if (s.norm_frame + 1) % NORM_INTERVAL = 0 ∧ s.queue ≠ [] then none
    else some { s with norm_frame := s.norm_frame + 1, host := .index .composite outs }

/-- The stream runs the operation at its head. -/
def streamStep (s : State β) : Option (State β) :=
  match s.queue with
  | [] => none
  | .copy r slot out :: queue =>
    some { s.setRing r
        { s.rings r with
          slots := Function.update (s.rings r).slots slot (some out)
          written := (s.rings r).written + 1 } with
      queue := queue }
  | .callback r :: queue =>
    some { s.setRing r { s.rings r with position := (s.rings r).position + 1 } with queue := queue }

/-- The steps of the channelizer. -/
def step (cw_enabled : Bool) (s : State β) : Action β → Option (State β)
  | .doCopy outs =>
    match s.host with
    | .idle => some { s with host := .index .audio outs }
    | _ => none
  | .host => s.hostStep cw_enabled
  | .stream => s.streamStep
  | .consume =>
    if s.audio_consume_idx < (s.rings .audio).position then
      some { s with audio_consume_idx := s.audio_consume_idx + 1 }
    else none

/-- A callback about to run announces a position whose slot holds the block of that number. -/
def Announced (s : State β) : Prop :=
  ∀ r queue, s.queue = .callback r :: queue →
    ∃ out, (s.rings r).processed[(s.rings r).position]? = some out ∧
      (s.rings r).slots (Fin.ofNat BUFFERS (s.rings r).position) = some out

/-- When a copy is about to run, every block copied before it has been announced. -/
def Kept (s : State β) : Prop :=
  ∀ r slot out queue, s.queue = .copy r slot out :: queue →
    (s.rings r).written = (s.rings r).position

/-- A step that enqueues a copy does so by an index read while a multiple of the ring length of
blocks of that ring, as a rule none, was processed but not announced. -/
def EnqueuesDrained (s : State β) : Action β → Prop
  | .host =>
    match s.host with
    | .copy r idx _ =>
      r = .audio ∧ ¬s.AudioFits idx ∨ BUFFERS ∣ (s.rings r).processed.length - idx
    | _ => True
  | _ => True

/-! ## The outstanding operations of a ring -/

/-- The operations of ring `r` that announce `outs` from position `k` on. -/
def blockOps (r : Ring) : ℕ → List β → List (StreamOp β)
  | _, [] => []
  | k, out :: outs => .copy r (Fin.ofNat BUFFERS k) out :: .callback r :: blockOps r (k + 1) outs

theorem blockOps_append (r : Ring) (k : ℕ) (outs : List β) (out : β) :
    blockOps r k (outs ++ [out]) =
      blockOps r k outs ++ [.copy r (Fin.ofNat BUFFERS (k + outs.length)) out, .callback r] := by
  induction outs generalizing k with
  | nil => rfl
  | cons o outs ih =>
    have hlen : k + 1 + outs.length = k + (outs.length + 1) := by omega
    simp [blockOps, ih, hlen]

/-- The operations of ring `r` that are enqueued or, being the callback of an enqueued copy, about
to be. -/
def outstanding (s : State β) (r : Ring) : List (StreamOp β) :=
  s.queue.filter (·.ring = r) ++
    match s.host with
    | .callback r' _ => if r' = r then [.callback r] else []
    | _ => []

/-- The outstanding operations of a ring announce its processed blocks from its index on, each by
a copy into its own slot and a callback; the first copy may have run already. -/
def RingInv (r : Ring) (rs : RingState β) (ops : List (StreamOp β)) : Prop :=
  (rs.written = rs.position ∧ ops = blockOps r rs.position (rs.processed.drop rs.position)) ∨
    ∃ out outs, rs.processed.drop rs.position = out :: outs ∧ rs.written = rs.position + 1 ∧
      rs.slots (Fin.ofNat BUFFERS rs.position) = some out ∧
      ops = .callback r :: blockOps r (rs.position + 1) outs

/-- The invariant of the channelizer. -/
structure Inv (s : State β) : Prop where
  ring : ∀ r, RingInv r (s.rings r) (s.outstanding r)
  position_le : ∀ r, (s.rings r).position ≤ (s.rings r).processed.length
  index_le : ∀ r idx outs, s.host = .copy r idx outs → idx ≤ (s.rings r).position

variable {s s' : State β} {r : Ring} {cw_enabled : Bool}

theorem inv_init : Inv (init : State β) where
  ring _ := Or.inl ⟨rfl, rfl⟩
  position_le _ := le_rfl
  index_le _ _ _ h := nomatch h

/-- A step that leaves the rings and their outstanding operations alone keeps the invariant. -/
theorem Inv.congr (h : Inv s) (hrings : s'.rings = s.rings)
    (hops : ∀ r, s'.outstanding r = s.outstanding r)
    (hidx : ∀ r idx outs, s'.host = .copy r idx outs → idx ≤ (s.rings r).position) : Inv s' where
  ring r := by
    rw [hrings, hops]
    exact h.ring r
  position_le r := by
    rw [hrings]
    exact h.position_le r
  index_le r idx outs hhost := by
    rw [hrings]
    exact hidx r idx outs hhost

/-- Enqueuing the copy of the next block into its own slot. -/
theorem ringInv_enqueueCopy {rs : RingState β} {ops : List (StreamOp β)} (h : RingInv r rs ops)
    (hle : rs.position ≤ rs.processed.length) (out : β) :
    RingInv r { rs with processed := rs.processed ++ [out] }
      (ops ++ [.copy r (Fin.ofNat BUFFERS rs.processed.length) out, .callback r]) := by
  have hdrop : (rs.processed ++ [out]).drop rs.position = rs.processed.drop rs.position ++ [out] :=
    List.drop_append_of_le_length hle
  rcases h with ⟨hw, hops⟩ | ⟨o, outs, hpending, hw, hslot, hops⟩
  · refine Or.inl ⟨hw, ?_⟩
    rw [hops, hdrop, blockOps_append, List.length_drop, Nat.add_sub_cancel' hle]
  · have hlen : rs.position + 1 + outs.length = rs.processed.length := by
      have := congrArg List.length hpending
      rw [List.length_drop, List.length_cons] at this
      omega
    refine Or.inr ⟨o, outs ++ [out], by rw [hdrop, hpending, List.cons_append], hw, hslot, ?_⟩
    rw [hops, blockOps_append, hlen, List.cons_append]

/-- Running a copy. -/
theorem ringInv_copy {rs : RingState β} {slot : Fin BUFFERS} {out : β} {ops : List (StreamOp β)}
    (h : RingInv r rs (.copy r slot out :: ops)) :
    rs.written = rs.position ∧
      RingInv r
        { rs with slots := Function.update rs.slots slot (some out), written := rs.written + 1 }
        ops := by
  -- a copy comes first only if that of the block before has been announced
  rcases h with ⟨hw, hops⟩ | ⟨o, outs, -, -, -, hops⟩
  · cases hpending : rs.processed.drop rs.position with
    | nil => simp [hpending, blockOps] at hops
    | cons o outs =>
      rw [hpending, blockOps] at hops
      obtain ⟨hop, rfl⟩ := List.cons.inj hops
      injection hop with _ hslot hout
      subst hslot hout
      exact ⟨hw, Or.inr ⟨out, outs, hpending, by simp [hw], Function.update_self .., rfl⟩⟩
  · simp at hops

/-- Running a callback. -/
theorem ringInv_callback {rs : RingState β} {ops : List (StreamOp β)}
    (h : RingInv r rs (.callback r :: ops)) :
    (∃ out, rs.processed[rs.position]? = some out ∧
        rs.slots (Fin.ofNat BUFFERS rs.position) = some out) ∧
      rs.position < rs.processed.length ∧
      RingInv r { rs with position := rs.position + 1 } ops := by
  -- a callback comes first only if its copy has run
  rcases h with ⟨-, hops⟩ | ⟨out, outs, hpending, hw, hslot, hops⟩
  · cases hpending : rs.processed.drop rs.position with
    | nil => simp [hpending, blockOps] at hops
    | cons o outs => simp [hpending, blockOps] at hops
  · have hlt : rs.position < rs.processed.length := by
      have := congrArg List.length hpending
      rw [List.length_drop, List.length_cons] at this
      omega
    have hdrop := List.drop_eq_getElem_cons hlt
    rw [hpending] at hdrop
    obtain ⟨rfl, rfl⟩ := List.cons.inj hdrop
    exact ⟨⟨_, List.getElem?_eq_getElem hlt, hslot⟩, hlt, Or.inl ⟨hw, (List.cons.inj hops).2⟩⟩

/-! ## Steps -/

theorem outstanding_of_not_callback (hhost : ∀ r outs, s.host ≠ .callback r outs) (r : Ring) :
    s.outstanding r = s.queue.filter (·.ring = r) := by
  rw [outstanding]
  split
  · next r' outs h => exact absurd h (hhost r' outs)
  · exact List.append_nil _

/-- A step that changes one ring and the outstanding operations of that ring. -/
theorem Inv.of_ring (h : Inv s) {rs : RingState β}
    (hrings : s'.rings = Function.update s.rings r rs)
    (hring : RingInv r rs (s'.outstanding r)) (hle : rs.position ≤ rs.processed.length)
    (hmono : (s.rings r).position ≤ rs.position)
    (hops : ∀ q ≠ r, s'.outstanding q = s.outstanding q)
    (hhost : ∀ q idx outs, s'.host = .copy q idx outs → s.host = .copy q idx outs) : Inv s' where
  -- only ring `r` is different, all others are as before
  ring q := by
    rcases eq_or_ne q r with rfl | hne
    · rwa [hrings, Function.update_self]
    · rw [hrings, Function.update_of_ne hne, hops q hne]
      exact h.ring q
  position_le q := by
    rcases eq_or_ne q r with rfl | hne
    · rwa [hrings, Function.update_self]
    · rw [hrings, Function.update_of_ne hne]
      exact h.position_le q
  index_le q idx outs hcopy := by
    have hidx := h.index_le q idx outs (hhost q idx outs hcopy)
    rcases eq_or_ne q r with rfl | hne
    · rw [hrings, Function.update_self]
      exact hidx.trans hmono
    · rwa [hrings, Function.update_of_ne hne]

/-- Enqueuing a copy whose index was read while the ring was drained keeps the invariant. -/
theorem inv_enqueueCopy (h : Inv s) {idx : ℕ} {outs : Ring → β} (hhost : s.host = .copy r idx outs)
    (hdrained : BUFFERS ∣ (s.rings r).processed.length - idx) :
    Inv (s.enqueueCopy r idx outs) := by
  have hle := (h.index_le r idx outs hhost).trans (h.position_le r)
  -- the index read may be old, but it leads to the same slot
  have hslot : Fin.ofNat BUFFERS idx = Fin.ofNat BUFFERS (s.rings r).processed.length := by
    refine Fin.ext ?_
    have := (Nat.modEq_iff_dvd' hle).2 hdrained
    exact this
  have hops := outstanding_of_not_callback (s := s) (by simp [hhost])
  refine h.of_ring rfl ?_ ?_ le_rfl (fun q hne => ?_) fun _ _ _ h' => nomatch h'
  · have hring := ringInv_enqueueCopy (hops r ▸ h.ring r) (h.position_le r) (outs r)
    rw [← hslot] at hring
    simpa [enqueueCopy, setRing, outstanding] using hring
  · rw [List.length_append]
    exact (h.position_le r).trans (Nat.le_add_right _ _)
  · rw [hops q]
    simp [enqueueCopy, setRing, outstanding, hne.symm]

theorem inv_hostStep (h : Inv s) (hdrained : EnqueuesDrained s .host)
    (hstep : s.hostStep cw_enabled = some s') : Inv s' := by
  rw [hostStep] at hstep
  split at hstep
  · exact nomatch hstep
  · next r outs hhost =>
    obtain rfl := Option.some.inj hstep
    refine h.congr rfl (fun q => ?_) fun q idx outs' hcopy => ?_
    · simp [outstanding, hhost]
    · injection hcopy with hr hidx
      rw [← hidx, hr]
  · next r idx outs hhost =>
    split_ifs at hstep with hskip
    · obtain rfl := Option.some.inj hstep
      refine h.congr rfl (fun q => ?_) fun _ _ _ hcopy => nomatch hcopy
      simp [outstanding, hhost]
    · obtain rfl := Option.some.inj hstep
      simp only [EnqueuesDrained, hhost] at hdrained
      exact inv_enqueueCopy h hhost (hdrained.resolve_left hskip)
  · next r outs hhost =>
    obtain rfl := Option.some.inj hstep
    -- the next ring starts with its index, and no ring with a copy or a callback
    have hnext : ∀ q idx outs', afterCallback cw_enabled outs r ≠ .copy q idx outs' ∧
        afterCallback cw_enabled outs r ≠ .callback q outs' := by
      intro q idx outs'
      cases r <;> cases cw_enabled <;> simp [afterCallback]
    refine h.congr rfl (fun q => ?_) fun q idx outs' hcopy => absurd hcopy (hnext q idx outs').1
    rw [outstanding_of_not_callback fun q outs' => (hnext q 0 outs').2]
    rcases eq_or_ne r q with rfl | hne
    · simp [outstanding, hhost]
    · simp [outstanding, hhost, hne]
  · next outs hhost =>
    split_ifs at hstep
    obtain rfl := Option.some.inj hstep
    refine h.congr rfl (fun q => ?_) fun _ _ _ hcopy => nomatch hcopy
    simp [outstanding, hhost]

theorem inv_streamStep (h : Inv s) (hstep : s.streamStep = some s') : Inv s' := by
  rw [streamStep] at hstep
  split at hstep
  · exact nomatch hstep
  · next r slot out queue hqueue =>
    obtain rfl := Option.some.inj hstep
    -- a copy is at the head of the queue, so it is the first one outstanding for its ring
    have hring := h.ring r
    simp only [outstanding, hqueue, StreamOp.ring_copy, List.filter_cons, decide_true, if_true,
      List.cons_append] at hring
    refine h.of_ring rfl (ringInv_copy hring).2 (h.position_le r) le_rfl (fun q hne => ?_)
      fun _ _ _ hcopy => hcopy
    simp [setRing, outstanding, hqueue, hne.symm]
  · next r queue hqueue =>
    obtain rfl := Option.some.inj hstep
    -- a callback is at the head, so its copy has been made
    have hrun : RingInv r (s.rings r) (.callback r :: outstanding { s with queue := queue } r) := by
      simpa [outstanding, hqueue] using h.ring r
    obtain ⟨-, hlt, hring⟩ := ringInv_callback hrun
    refine h.of_ring rfl hring (Nat.succ_le_of_lt hlt) (Nat.le_succ _) (fun q hne => ?_)
      fun _ _ _ hcopy => hcopy
    simp [setRing, outstanding, hqueue, hne.symm]

/-- Every step that enqueues drained keeps the invariant. -/
theorem inv_step (a : Action β) (h : Inv s) (hdrained : EnqueuesDrained s a)
    (hstep : step cw_enabled s a = some s') : Inv s' := by
  cases a with
  | doCopy outs =>
    simp only [step] at hstep
    split at hstep
    · next hhost =>
      obtain rfl := Option.some.inj hstep
      refine h.congr rfl (fun q => ?_) fun _ _ _ hcopy => nomatch hcopy
      simp [outstanding, hhost]
    · exact nomatch hstep
  | host => exact inv_hostStep h hdrained hstep
  | stream => exact inv_streamStep h hstep
  | consume =>
    simp only [step] at hstep
    split_ifs at hstep
    obtain rfl := Option.some.inj hstep
    exact h.congr rfl (fun _ => rfl) h.index_le

theorem Inv.announced (h : Inv s) : s.Announced := by
  intro r queue hqueue
  have hrun : RingInv r (s.rings r) (.callback r :: outstanding { s with queue := queue } r) := by
    simpa [outstanding, hqueue] using h.ring r
  exact (ringInv_callback hrun).1

theorem Inv.kept (h : Inv s) : s.Kept := by
  intro r slot out queue hqueue
  have hrun : RingInv r (s.rings r)
      (.copy r slot out :: outstanding { s with queue := queue } r) := by
    simpa [outstanding, hqueue] using h.ring r
  exact (ringInv_copy hrun).1

instance (s : State β) (a : Action β) : Decidable (s.EnqueuesDrained a) :=
  match a with
  | .doCopy _ | .stream | .consume => isTrue trivial
  | .host =>
    match h : s.host with
    | .copy r idx _ =>
      decidable_of_iff
        (r = .audio ∧ ¬s.AudioFits idx ∨ BUFFERS ∣ (s.rings r).processed.length - idx)
        (by simp only [EnqueuesDrained, h])
    | .idle | .index _ _ | .callback _ _ | .norm _ => isTrue (by simp only [EnqueuesDrained, h])

end State

open State

/-- In every run of `doCopy` calls, callbacks and the audio worker in which copies are enqueued
drained, every announced slot holds the block of its number, and no slot is overwritten before
its block is announced. -/
theorem rings_right (cw_enabled : Bool) (actions : List (Action β)) {s : State β}
    (hdrained : Run.Along (step cw_enabled) EnqueuesDrained init actions)
    (hrun : Run.exec (step cw_enabled) init actions = some s) : s.Announced ∧ s.Kept := by
  have hinv : Inv s :=
    Run.inv_of_exec (fun _ a _ h hP hstep => inv_step a h hP hstep) inv_init hdrained hrun
  exact ⟨hinv.announced, hinv.kept⟩

/-- A `doCopy` call for a block with output `n` on every ring, without CW. -/
def doCopyRun (n : ℕ) : List (Action ℕ) := .doCopy (fun _ => n) :: List.replicate 7 .host

/-- Two calls, each completed by the stream before the next. -/
def drainedRun : List (Action ℕ) :=
  doCopyRun 0 ++ List.replicate 4 .stream ++ doCopyRun 1 ++ List.replicate 4 .stream

theorem rings_right_drainedRun :
    ∃ s, Run.exec (step false) init drainedRun = some s ∧ s.Announced ∧ s.Kept := by
  obtain ⟨s, hs⟩ := Option.isSome_iff_exists.1
    (by decide : (Run.exec (step false) init drainedRun).isSome)
  exact ⟨s, hs, rings_right false drainedRun (by decide) hs⟩

/-- Two calls enqueued before the first callback has run, then completed up to the callback that
announces the second composite block. -/
def catchUpRun : List (Action ℕ) :=
  doCopyRun 0 ++ doCopyRun 1 ++ List.replicate 7 .stream

/-- After catching up over two blocks, position 1 of the composite ring is about to be announced
while slot 1 is empty: the second block went to slot 0. -/
theorem catchUpRun_not_announced :
    ∃ s, Run.exec (step false) init catchUpRun = some s ∧ s.queue = [.callback .composite] ∧
      (s.rings .composite).position = 1 ∧ (s.rings .composite).processed = [0, 1] ∧
      (s.rings .composite).slots 0 = some 1 ∧ (s.rings .composite).slots 1 = none ∧
      ¬s.Announced := by
  obtain ⟨s, hs⟩ := Option.isSome_iff_exists.1
    (by decide : (Run.exec (step false) init catchUpRun).isSome)
  have hview : (Run.exec (step false) init catchUpRun).map (fun s =>
      (s.queue, (s.rings .composite).position, (s.rings .composite).processed,
        (s.rings .composite).slots 0, (s.rings .composite).slots 1)) =
      some ([.callback .composite], 1, [0, 1], some 1, none) := by decide
  rw [hs] at hview
  simp only [Option.map_some, Option.some.injEq, Prod.mk.injEq] at hview
  obtain ⟨hqueue, hpos, hproc, hslot₀, hslot₁⟩ := hview
  refine ⟨s, hs, hqueue, hpos, hproc, hslot₀, hslot₁, fun h => ?_⟩
  obtain ⟨out, -, hslot⟩ := h .composite [] hqueue
  rw [hpos] at hslot
  exact nomatch hslot₁.symm.trans hslot

end GranolaSdr.Channelizer
