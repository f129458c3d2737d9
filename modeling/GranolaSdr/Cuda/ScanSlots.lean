import GranolaSdr.Lib.Run
import GranolaSdr.Lib.RingLog

/-!
# The slots of the continuous scan

The scan thread of a decoder launches scans into a ring of slots, and the worker thread hands their
results to the decode callback. They share two indices and a flag per slot. A launched scan runs on
the GPU; the worker polls the event recorded behind it.

## Main definitions

* `Launch`: what a launched scan leaves in its slot;
* `State`, `step`: the two threads and their steps;
* `Config.handOver`: what of a scan is handed to the decode callback.

## Main results

* `State.slots_sound`: in every state, the indices are in range, no unreleased slot has been
  rewritten, the worker never waits for the flag, and the scans with candidates are handed over one
  by one.
-/

namespace GranolaSdr.Cuda.Scan

def CONTINUOUS_SLOTS : ℕ := 8

instance : NeZero CONTINUOUS_SLOTS := ⟨by decide⟩

/-- The slot of an index. -/
def slotOf (k : ℕ) : Fin CONTINUOUS_SLOTS := Fin.ofNat CONTINUOUS_SLOTS k

/-- A launched scan: the start of its window, and the number of candidates it will have found when
its event succeeds, or none when its event reports an error. -/
structure Launch where
  snap_start : ℕ
  count : Option ℕ
  deriving DecidableEq

/-- What differs between the decoders. -/
structure Config where
  /-- The blocks of a window. -/
  cap_blocks : ℕ
  /-- A scan is launched every so many blocks. -/
  stride : ℕ
  /-- The candidates a slot has room for. -/
  cand_max : ℕ
  /-- A block that finds all slots taken is not tried again. -/
  drop_full : Bool

/-- `FT8Cuda` -/
def Config.ft8 : Config := ⟨106, 6, 100000, true⟩

/-- `JS8Cuda`, whose windows differ between the modes. -/
def Config.js8 (cap_blocks : ℕ) : Config := ⟨cap_blocks, 6, 50000, false⟩

/-- The start of the window and the number of candidates handed to the decode callback, if any. -/
def Config.handOver (cfg : Config) (l : Launch) : Option (ℕ × ℕ) :=
  match l.count with
  | none => none
  | some count =>
    let n := min count cfg.cand_max
    if 0 < n then some (l.snap_start, n) else none

/-- Where the scan thread stands. -/
inductive Producer where
  | idle
  /-- Before the indices are compared, for the block of this number. -/
  | compare (wi : ℕ)
  /-- Before the scan is launched into its slot. -/
  | launch (wi : ℕ)
  /-- Before the flag of the slot is set. -/
  | dispatch
  /-- Before the write index is advanced. -/
  | advance
  deriving DecidableEq

/-- Where the worker stands. -/
inductive Consumer where
  /-- Before the run flag is loaded. -/
  | top
  /-- Before the write index is loaded. -/
  | load
  /-- Waiting for the flag of the slot. -/
  | wait
  /-- Polling the event of the slot. -/
  | query
  /-- Before the decode callback is called with so many candidates. -/
  | decode (n : ℕ)
  /-- Before the flag of the slot is cleared. -/
  | clear
  /-- Before the read index is advanced. -/
  | release
  | exited
  deriving DecidableEq

/-- The shared state of the two threads, the scans launched so far and those handed over. -/
structure State where
  active : Bool
  cont_write_idx : ℕ
  /-- Advanced by the worker only, which keeps a copy. -/
  cont_read_idx : ℕ
  dispatched : Fin CONTINUOUS_SLOTS → Bool
  cont_slots : Fin CONTINUOUS_SLOTS → Launch
  last_triggered : ℕ
  producer : Producer
  consumer : Consumer
  launched : List Launch
  handed : List (ℕ × ℕ)

/-- What can happen next. -/
inductive Action where
  /-- The decoder is stopped. -/
  | stop
  /-- The scan thread looks at the ring, which stands at block `wi`. -/
  | trigger (wi : ℕ)
  | compare
  /-- The scan thread launches a scan that will find so many candidates, or fail. -/
  | launch (count : Option ℕ)
  | dispatch
  | advance
  /-- The worker takes its next step; the event it polls is ready or not. -/
  | worker (ready : Bool)
  deriving DecidableEq

/-- The state at the start. -/
def init : State where
  active := true
  cont_write_idx := 0
  cont_read_idx := 0
  dispatched _ := false
  cont_slots _ := ⟨0, some 0⟩
  last_triggered := 0
  producer := .idle
  consumer := .top
  launched := []
  handed := []

namespace State

variable (cfg : Config)

/-- The next step of `contWorker` or `workerLoop`. -/
def runWorker (s : State) (ready : Bool) : Option State :=
  let slot := slotOf s.cont_read_idx
  match s.consumer with
  | .top => some { s with consumer := if s.active then .load else .exited }
  | .load =>
    some { s with consumer := if s.cont_read_idx = s.cont_write_idx then .top else .wait }
  | .wait => some { s with consumer := if s.dispatched slot then .query else .wait }
  | .query =>
    -- the event is polled until the scan has run
    if !ready then some s
    else
      match cfg.handOver (s.cont_slots slot) with
      -- an error, or a scan that has found no candidate
      | none => some { s with consumer := .clear }
      | some (_, n) => some { s with consumer := .decode n }
  | .decode n =>
    some { s with
      handed := s.handed ++ [((s.cont_slots slot).snap_start, n)]
      consumer := .clear }
  | .clear =>
    some { s with dispatched := Function.update s.dispatched slot false, consumer := .release }
  | .release => some { s with cont_read_idx := s.cont_read_idx + 1, consumer := .top }
  | .exited => none

/-- The steps of the two threads. -/
def step (s : State) : Action → Option State
  | .stop => some { s with active := false }
  | .trigger wi =>
    match s.producer with
    | .idle =>
      -- a whole window is there, and a new stride begins
      if s.active && cfg.cap_blocks ≤ wi && s.last_triggered < wi && wi % cfg.stride = 0 then
        some { s with producer := .compare wi }
      else some s
    | _ => none
  | .compare =>
    match s.producer with
    | .compare wi =>
      -- the worker has fallen behind by the whole ring
      if CONTINUOUS_SLOTS ≤ s.cont_write_idx - s.cont_read_idx then
        some { s with
          producer := .idle
          last_triggered := if cfg.drop_full then wi else s.last_triggered }
      else some { s with producer := .launch wi, last_triggered := wi }
    | _ => none
  | .launch count =>
    match s.producer with
    | .launch wi =>
      let l : Launch := ⟨wi - cfg.cap_blocks, count⟩
      some { s with
        cont_slots := Function.update s.cont_slots (slotOf s.cont_write_idx) l
        launched := s.launched ++ [l]
        producer := .dispatch }
    | _ => none
  | .dispatch =>
    match s.producer with
    | .dispatch =>
      some { s with
        dispatched := Function.update s.dispatched (slotOf s.cont_write_idx) true
        producer := .advance }
    | _ => none
  | .advance =>
    match s.producer with
    | .advance => some { s with cont_write_idx := s.cont_write_idx + 1, producer := .idle }
    | _ => none
  | .worker ready => s.runWorker cfg ready

/-! ## What holds throughout -/

/-- What the ring of slots is for. -/
structure Sound (s : State) : Prop where
  /-- The worker does not overtake the scan thread. -/
  behind : s.cont_read_idx ≤ s.cont_write_idx
  /-- No more slots are taken than there are. -/
  room : s.cont_write_idx ≤ s.cont_read_idx + CONTINUOUS_SLOTS
  /-- A slot holds its scan until the worker has released it. -/
  unreleased : ∀ k, s.cont_read_idx ≤ k → k < s.launched.length →
    s.launched[k]? = some (s.cont_slots (slotOf k))
  /-- A slot the worker waits for has its flag set. -/
  ready : s.cont_read_idx < s.cont_write_idx → s.consumer ≠ .release →
    s.dispatched (slotOf s.cont_read_idx) = true
  /-- The scans are handed over in the order they were launched in, each at most once, and none
  with candidates is skipped. -/
  handed : ∃ m, s.cont_read_idx ≤ m ∧ m ≤ s.cont_read_idx + 1 ∧
    s.handed = (s.launched.take m).filterMap cfg.handOver

end State

/-- A scan has been launched into the slot of the write index. -/
def Producer.Launched : Producer → Prop
  | .dispatch | .advance => True
  | _ => False

/-- The scan thread has found a slot free. -/
def Producer.Claims : Producer → Prop
  | .launch _ | .dispatch | .advance => True
  | _ => False

/-- The worker is at the scan of the read index. -/
def Consumer.Busy : Consumer → Prop
  | .top | .load | .exited => False
  | _ => True

/-- The worker has dealt with the scan of the read index. -/
def Consumer.Handled : Consumer → Prop
  | .clear | .release => True
  | _ => False

instance (p : Producer) : Decidable p.Launched :=
  match p with
  | .dispatch | .advance => isTrue trivial
  | .idle | .compare _ | .launch _ => isFalse id

instance (c : Consumer) : Decidable c.Handled :=
  match c with
  | .clear | .release => isTrue trivial
  | .top | .load | .wait | .query | .decode _ | .exited => isFalse id

namespace State

variable (cfg : Config)

/-- The scans launched: those behind the write index and the one being dispatched. -/
def filled (s : State) : ℕ := s.cont_write_idx + if s.producer.Launched then 1 else 0

/-- The scans dealt with: those behind the read index and the one being released. -/
def handled (s : State) : ℕ := s.cont_read_idx + if s.consumer.Handled then 1 else 0

/-- The invariant. -/
structure Inv (s : State) : Prop where
  length : s.launched.length = s.filled
  behind : s.cont_read_idx ≤ s.cont_write_idx
  room : s.cont_write_idx ≤ s.cont_read_idx + CONTINUOUS_SLOTS
  claims : s.producer.Claims → s.cont_write_idx < s.cont_read_idx + CONTINUOUS_SLOTS
  busy : s.consumer.Busy → s.cont_read_idx < s.cont_write_idx
  slots : RingLog.Represents ⟨0, some 0⟩ s.cont_slots s.launched
  dispatched : ∀ k, s.cont_read_idx ≤ k → (s.consumer = .release → k ≠ s.cont_read_idx) →
    (k < s.cont_write_idx ∨ k = s.cont_write_idx ∧ s.producer = .advance) →
    s.dispatched (slotOf k) = true
  handed : s.handed = (s.launched.take s.handled).filterMap cfg.handOver
  decode : ∀ n, s.consumer = .decode n →
    cfg.handOver (s.cont_slots (slotOf s.cont_read_idx)) =
      some ((s.cont_slots (slotOf s.cont_read_idx)).snap_start, n)

variable {cfg} {s s' : State}

theorem inv_init : (init : State).Inv cfg where
  length := rfl
  behind := le_rfl
  room := Nat.zero_le _
  claims := nofun
  busy := nofun
  slots := RingLog.represents_nil
  dispatched k hk _ hlt := by simp [init] at hlt
  handed := rfl
  decode := nofun

theorem filled_of_producer {p : Producer} (h : s.producer = p) :
    s.filled = s.cont_write_idx + if p.Launched then 1 else 0 := by rw [filled, h]

theorem handled_of_consumer {c : Consumer} (h : s.consumer = c) :
    s.handled = s.cont_read_idx + if c.Handled then 1 else 0 := by rw [handled, h]

theorem le_filled (s : State) : s.cont_write_idx ≤ s.filled := Nat.le_add_right ..

theorem filled_le_add_one (s : State) : s.filled ≤ s.cont_write_idx + 1 := by
  rw [filled]
  split_ifs <;> omega

/-- The scans launched fit into the slots that are not released. -/
theorem Inv.filled_le (h : s.Inv cfg) : s.filled ≤ s.cont_read_idx + CONTINUOUS_SLOTS := by
  by_cases hlaunched : s.producer.Launched
  · have hclaims : s.producer.Claims := by
      cases hp : s.producer <;> simp_all [Producer.Launched, Producer.Claims]
    have hroom := h.claims hclaims
    have hle := s.filled_le_add_one
    omega
  · rw [filled, if_neg hlaunched]
    exact h.room

/-- Between two scans the scan thread changes nothing the worker sees. -/
theorem Inv.of_producer (h : s.Inv cfg) {p : Producer} (hp : s.producer = p)
    (hlaunched : ¬p.Launched) {q : Producer} (hq : ¬q.Launched)
    (hclaims : q.Claims → s.cont_write_idx < s.cont_read_idx + CONTINUOUS_SLOTS) (last : ℕ) :
    ({ s with producer := q, last_triggered := last } : State).Inv cfg where
  length := by
    rw [filled_of_producer rfl, if_neg hq]
    exact h.length.trans (by rw [filled_of_producer hp, if_neg hlaunched])
  behind := h.behind
  room := h.room
  claims := hclaims
  busy := h.busy
  slots := h.slots
  dispatched k hk hrelease hlt := by
    refine h.dispatched k hk hrelease (Or.inl ?_)
    rcases hlt with hlt | ⟨-, hadvance⟩
    · exact hlt
    · refine absurd ?_ hq
      rw [show q = .advance from hadvance]
      trivial
  handed := h.handed
  decode := h.decode

/-- A scan is launched into a slot that has been released. -/
theorem inv_launch (h : s.Inv cfg) {count : Option ℕ}
    (hstep : s.step cfg (.launch count) = some s') : s'.Inv cfg := by
  simp only [step] at hstep
  split at hstep
  · next wi hlaunch =>
    obtain rfl := Option.some.inj hstep
    have hlength : s.launched.length = s.cont_write_idx :=
      h.length.trans (filled_of_producer hlaunch)
    have hroom := h.claims (by rw [hlaunch]; trivial)
    refine ⟨?_, h.behind, h.room, fun _ => hroom, h.busy, ?_, ?_, ?_, ?_⟩
    · rw [filled_of_producer rfl, List.length_append, hlength]
      rfl
    · rw [← hlength]
      exact h.slots.write _
    · -- no flag is set yet
      intro k hk hrelease hlt
      rcases hlt with hlt | ⟨-, hadvance⟩
      · exact h.dispatched k hk hrelease (Or.inl hlt)
      · exact nomatch hadvance
    · -- the scans handed over were launched before this one
      have hle : s.handled ≤ s.launched.length := by
        rw [hlength, handled]
        split_ifs with hhandled
        · have hbusy : s.consumer.Busy := by
            cases hc : s.consumer <;> simp_all [Consumer.Handled, Consumer.Busy]
          exact h.busy hbusy
        · exact h.behind
      change s.handed = ((s.launched ++ [_]).take s.handled).filterMap cfg.handOver
      rw [List.take_append_of_le_length hle]
      exact h.handed
    · -- the slot being decoded is not the one launched into
      intro n hn
      have hlt := h.busy (by rw [show s.consumer = .decode n from hn]; trivial)
      have hslot : slotOf s.cont_read_idx ≠ slotOf s.cont_write_idx := fun heq =>
        absurd (RingLog.ofNat_inj_of_lt hlt.le hroom heq) (Nat.ne_of_lt hlt)
      simpa only [Function.update_of_ne hslot] using h.decode n hn
  · exact nomatch hstep

/-- The flag is set for the scan being dispatched, and the flags of the scans before it stay. -/
theorem inv_dispatch (h : s.Inv cfg) (hstep : s.step cfg .dispatch = some s') : s'.Inv cfg := by
  simp only [step] at hstep
  split at hstep
  · next hdispatch =>
    obtain rfl := Option.some.inj hstep
    have hlength : s.launched.length = s.cont_write_idx + 1 :=
      h.length.trans (filled_of_producer hdispatch)
    refine ⟨hlength, h.behind, h.room, fun _ => h.claims (by rw [hdispatch]; trivial), h.busy,
      h.slots, ?_, h.handed, h.decode⟩
    · intro k hk hrelease hlt
      change Function.update s.dispatched (slotOf s.cont_write_idx) true (slotOf k) = true
      by_cases hslot : slotOf k = slotOf s.cont_write_idx
      · rw [hslot, Function.update_self]
      · rw [Function.update_of_ne hslot]
        refine h.dispatched k hk hrelease (Or.inl ?_)
        rcases hlt with hlt | ⟨rfl, -⟩
        · exact hlt
        · exact absurd rfl hslot
  · exact nomatch hstep

theorem inv_advance (h : s.Inv cfg) (hstep : s.step cfg .advance = some s') : s'.Inv cfg := by
  simp only [step] at hstep
  split at hstep
  · next hadvance =>
    obtain rfl := Option.some.inj hstep
    have hlength : s.launched.length = s.cont_write_idx + 1 :=
      h.length.trans (filled_of_producer hadvance)
    have hroom := h.claims (by rw [hadvance]; trivial)
    refine ⟨hlength, h.behind.trans (Nat.le_succ _), hroom, nofun,
      fun hbusy => Nat.lt_succ_of_lt (h.busy hbusy), h.slots, ?_, h.handed, h.decode⟩
    · intro k hk hrelease hlt
      refine h.dispatched k hk hrelease ?_
      rcases hlt with hlt | ⟨-, hidle⟩
      · rcases Nat.lt_succ_iff_lt_or_eq.1 hlt with hlt | rfl
        · exact Or.inl hlt
        · exact Or.inr ⟨rfl, hadvance⟩
      · exact nomatch hidle
  · exact nomatch hstep

/-- The slot of the read index holds the scan launched under it. -/
theorem Inv.getElem?_read (h : s.Inv cfg) (hbusy : s.consumer.Busy) :
    s.launched[s.cont_read_idx]? = some (s.cont_slots (slotOf s.cont_read_idx)) := by
  have hle := s.le_filled
  have hroom := h.filled_le
  have hlt := h.busy hbusy
  refine h.slots.getElem? ?_ ?_
  · rw [h.length]
    omega
  · rw [h.length]
    exact hroom

theorem handOver_eq_some {l : Launch} {x : ℕ × ℕ} (h : cfg.handOver l = some x) :
    x.1 = l.snap_start := by
  rw [Config.handOver] at h
  split at h
  · exact nomatch h
  · simp only [Option.ite_none_right_eq_some, Option.some.injEq] at h
    rw [← h.2]

/-- The worker moves on without changing what has been handed over. -/
theorem Inv.of_consumer (h : s.Inv cfg) {c : Consumer} (hc : s.consumer = c)
    (hhandled : ¬c.Handled) (hrelease : c ≠ .release) {d : Consumer} (hd : ¬d.Handled)
    (hbusy : d.Busy → s.cont_read_idx < s.cont_write_idx)
    (hdecode : ∀ n, d = .decode n → cfg.handOver (s.cont_slots (slotOf s.cont_read_idx)) =
      some ((s.cont_slots (slotOf s.cont_read_idx)).snap_start, n)) :
    ({ s with consumer := d } : State).Inv cfg where
  length := h.length
  behind := h.behind
  room := h.room
  claims := h.claims
  busy := hbusy
  slots := h.slots
  dispatched k hk _ hlt := h.dispatched k hk (fun heq => absurd (hc.symm.trans heq) hrelease) hlt
  handed := by
    have hhanded := h.handed
    rw [handled_of_consumer hc, if_neg hhandled] at hhanded
    rw [handled_of_consumer rfl, if_neg hd]
    exact hhanded
  decode := hdecode

/-- The scan of the read index is dealt with. -/
theorem Inv.handed_succ (h : s.Inv cfg) (hbusy : s.consumer.Busy)
    (hhandled : ¬s.consumer.Handled) :
    s.handed ++ (cfg.handOver (s.cont_slots (slotOf s.cont_read_idx))).toList =
      (s.launched.take (s.cont_read_idx + 1)).filterMap cfg.handOver := by
  have hhanded := h.handed
  rw [handled, if_neg hhandled, Nat.add_zero] at hhanded
  rw [List.take_add_one, h.getElem?_read hbusy, List.filterMap_append, ← hhanded]
  cases hx : cfg.handOver (s.cont_slots (slotOf s.cont_read_idx)) <;> simp [hx]

/-- The worker has dealt with the scan of the read index: it handed it over or skipped it. -/
theorem Inv.of_dealtWith (h : s.Inv cfg) (hbusy : s.consumer.Busy) (hhandled : ¬s.consumer.Handled)
    {handed : List (ℕ × ℕ)}
    (hhanded : handed =
      s.handed ++ (cfg.handOver (s.cont_slots (slotOf s.cont_read_idx))).toList) :
    ({ s with handed, consumer := .clear } : State).Inv cfg where
  length := h.length
  behind := h.behind
  room := h.room
  claims := h.claims
  busy _ := h.busy hbusy
  slots := h.slots
  dispatched k hk _ hlt :=
    h.dispatched k hk (fun hrelease => absurd (by rw [hrelease]; trivial) hhandled) hlt
  handed := hhanded.trans (h.handed_succ hbusy hhandled)
  decode n hn := by cases hn

/-- The flag is cleared for the slot being released, and the next scans lie in other slots. -/
theorem Inv.of_clear (h : s.Inv cfg) (hc : s.consumer = .clear) :
    ({ s with
      dispatched := Function.update s.dispatched (slotOf s.cont_read_idx) false
      consumer := .release } : State).Inv cfg where
  length := h.length
  behind := h.behind
  room := h.room
  claims := h.claims
  busy _ := h.busy (by rw [hc]; trivial)
  slots := h.slots
  dispatched k hk hrelease hlt := by
    change Function.update s.dispatched (slotOf s.cont_read_idx) false (slotOf k) = true
    -- a scan that waits is less than one round ahead of the one released
    have hroom : k < s.cont_read_idx + CONTINUOUS_SLOTS := by
      rcases hlt with hlt | ⟨rfl, hadvance⟩
      · exact hlt.trans_le h.room
      · exact h.claims (by rw [show s.producer = .advance from hadvance]; trivial)
    have hslot : slotOf k ≠ slotOf s.cont_read_idx := fun heq =>
      hrelease rfl (RingLog.ofNat_inj_of_lt hk hroom heq.symm).symm
    rw [Function.update_of_ne hslot]
    exact h.dispatched k hk (by simp [hc]) hlt
  handed := by
    have hhanded := h.handed
    rw [handled_of_consumer hc] at hhanded
    exact hhanded
  decode n hn := by cases hn

theorem Inv.of_release (h : s.Inv cfg) (hc : s.consumer = .release) :
    ({ s with cont_read_idx := s.cont_read_idx + 1, consumer := .top } : State).Inv cfg := by
  have hlt := h.busy (by rw [hc]; trivial)
  have hnext := Nat.add_le_add_right (Nat.le_succ s.cont_read_idx) CONTINUOUS_SLOTS
  have hhanded := h.handed
  rw [handled_of_consumer hc] at hhanded
  refine ⟨h.length, hlt, h.room.trans hnext, fun hclaims => (h.claims hclaims).trans_le hnext,
    nofun, h.slots, ?_, hhanded, nofun⟩
  intro k hk _ hk_lt
  exact h.dispatched k (Nat.le_of_succ_le hk) (fun _ => Nat.ne_of_gt hk) hk_lt

/-- Every step of the worker keeps the invariant. -/
theorem inv_runWorker (h : s.Inv cfg) {ready : Bool} (hstep : s.runWorker cfg ready = some s') :
    s'.Inv cfg := by
  cases hc : s.consumer with
  | top =>
    simp only [runWorker, hc, Option.some.injEq] at hstep
    subst hstep
    refine h.of_consumer hc id nofun ?_ ?_ ?_ <;> split_ifs <;>
      simp [Consumer.Handled, Consumer.Busy]
  | load =>
    simp only [runWorker, hc, Option.some.injEq] at hstep
    subst hstep
    split_ifs with heq
    · exact h.of_consumer hc id nofun id nofun nofun
    · -- the indices differ, so a scan waits
      exact h.of_consumer hc id nofun id (fun _ => lt_of_le_of_ne h.behind heq) nofun
  | wait =>
    simp only [runWorker, hc, Option.some.injEq] at hstep
    subst hstep
    have hlt := h.busy (by rw [hc]; trivial)
    split_ifs
    · exact h.of_consumer hc id nofun id (fun _ => hlt) nofun
    · exact h.of_consumer hc id nofun id (fun _ => hlt) nofun
  | query =>
    have hlt := h.busy (by rw [hc]; trivial)
    simp only [runWorker, hc] at hstep
    split_ifs at hstep
    · obtain rfl := Option.some.inj hstep
      exact h
    · split at hstep
      · next hnone =>
        -- the event reports an error, or the scan has found no candidate
        obtain rfl := Option.some.inj hstep
        refine h.of_dealtWith (by rw [hc]; trivial) (by rw [hc]; exact id) ?_
        rw [hnone, Option.toList_none, List.append_nil]
      · next a n hsome =>
        obtain rfl := Option.some.inj hstep
        refine h.of_consumer hc id nofun id (fun _ => hlt) fun m hm => ?_
        obtain rfl := Consumer.decode.inj hm
        have ha : a = (s.cont_slots (slotOf s.cont_read_idx)).snap_start := handOver_eq_some hsome
        exact ha ▸ hsome
  | decode n =>
    simp only [runWorker, hc, Option.some.injEq] at hstep
    subst hstep
    refine h.of_dealtWith (by rw [hc]; trivial) (by rw [hc]; exact id) ?_
    rw [h.decode n hc, Option.toList_some]
  | clear =>
    simp only [runWorker, hc, Option.some.injEq] at hstep
    subst hstep
    exact h.of_clear hc
  | release =>
    simp only [runWorker, hc, Option.some.injEq] at hstep
    subst hstep
    exact h.of_release hc
  | exited =>
    simp only [runWorker, hc] at hstep
    cases hstep

/-- Every step keeps the invariant. -/
theorem inv_step (s : State) (a : Action) (s' : State) (h : s.Inv cfg)
    (hstep : s.step cfg a = some s') : s'.Inv cfg := by
  cases a with
  | stop =>
    obtain rfl := Option.some.inj hstep
    exact ⟨h.length, h.behind, h.room, h.claims, h.busy, h.slots, h.dispatched, h.handed, h.decode⟩
  | trigger wi =>
    simp only [step] at hstep
    split at hstep
    · next hidle =>
      split_ifs at hstep
      · obtain rfl := Option.some.inj hstep
        exact h.of_producer hidle id id False.elim _
      · obtain rfl := Option.some.inj hstep
        exact h
    · exact nomatch hstep
  | compare =>
    simp only [step] at hstep
    split at hstep
    · next wi hcompare =>
      by_cases hfull : CONTINUOUS_SLOTS ≤ s.cont_write_idx - s.cont_read_idx
      · rw [if_pos hfull] at hstep
        obtain rfl := Option.some.inj hstep
        exact h.of_producer hcompare id id False.elim _
      · rw [if_neg hfull] at hstep
        obtain rfl := Option.some.inj hstep
        -- the worker only frees more slots from here on
        have hfree := (Nat.sub_lt_iff_lt_add' h.behind).1 (Nat.not_le.1 hfull)
        exact h.of_producer hcompare id id (fun _ => hfree) _
    · exact nomatch hstep
  | launch count => exact inv_launch h hstep
  | dispatch => exact inv_dispatch h hstep
  | advance => exact inv_advance h hstep
  | worker ready => exact inv_runWorker h hstep

theorem Inv.sound (h : s.Inv cfg) : s.Sound cfg where
  behind := h.behind
  room := h.room
  unreleased k hk hlt := by
    have hroom := h.filled_le
    refine h.slots.getElem? hlt ?_
    rw [h.length]
    exact hroom.trans (Nat.add_le_add_right hk _)
  ready hlt hrelease := h.dispatched _ le_rfl (fun heq => absurd heq hrelease) (Or.inl hlt)
  handed := by
    refine ⟨s.handled, Nat.le_add_right .., ?_, h.handed⟩
    rw [handled]
    split_ifs <;> omega

/-- In every state that can be reached, the ring of slots does what it is for. -/
theorem slots_sound (cfg : Config) (actions : List Action) {s : State}
    (hrun : Run.exec (step cfg) init actions = some s) : s.Sound cfg :=
  (Run.inv_of_exec' inv_step inv_init hrun).sound

end State

/-- The FT8 decoder launches scans at blocks 108 and 114 and the worker deals with the first, which
has found 3 candidates, and waits for the event of the second. -/
def twoScansRun : List Action :=
  [.trigger 108, .compare, .launch (some 3), .dispatch, .worker true, .worker true, .advance,
    .worker true, .worker true, .worker true, .trigger 114, .compare, .launch none, .worker true,
    .worker true, .worker true, .dispatch, .worker true, .worker true, .advance, .worker true,
    .worker true, .worker true, .worker true, .worker true, .worker false]

theorem State.slots_sound_twoScansRun :
    ∃ s, Run.exec (State.step .ft8) init twoScansRun = some s ∧ s.handed = [(2, 3)] ∧
      s.Sound .ft8 := by
  obtain ⟨s, hs⟩ := Option.isSome_iff_exists.1
    (by decide : (Run.exec (State.step .ft8) init twoScansRun).isSome)
  have hhanded : (Run.exec (State.step .ft8) init twoScansRun).all
      (fun s => s.handed = [(2, 3)]) := by decide
  rw [hs, Option.all_some, decide_eq_true_eq] at hhanded
  exact ⟨s, hs, hhanded, State.slots_sound .ft8 twoScansRun hs⟩

/-- A scan whose event succeeds has found no candidate. -/
def emptyScanRun : List Action :=
  [.trigger 108, .compare, .launch (some 0), .dispatch, .advance, .worker true, .worker true,
    .worker true, .worker true, .worker true, .worker true]

/-- The scan without candidates is released and not handed over, and before that there is a moment
in which its flag is clear and the read index still behind the write index. -/
theorem State.emptyScanRun_skipped :
    (∃ s, Run.exec (State.step .ft8) init emptyScanRun = some s ∧ s.launched = [⟨2, some 0⟩] ∧
      s.cont_read_idx = 1 ∧ s.handed = []) ∧
    ∃ s, Run.exec (State.step .ft8) init emptyScanRun.dropLast = some s ∧
      s.cont_read_idx < s.cont_write_idx ∧ s.dispatched (slotOf s.cont_read_idx) = false := by
  constructor
  · obtain ⟨s, hs, hall⟩ := (Option.any_eq_true _ _).1
      (by decide : (Run.exec (State.step .ft8) init emptyScanRun).any fun s =>
        s.launched = [⟨2, some 0⟩] ∧ s.cont_read_idx = 1 ∧ s.handed = [])
    exact ⟨s, hs, of_decide_eq_true hall⟩
  · obtain ⟨s, hs, hall⟩ := (Option.any_eq_true _ _).1
      (by decide : (Run.exec (State.step .ft8) init emptyScanRun.dropLast).any fun s =>
        s.cont_read_idx < s.cont_write_idx ∧ s.dispatched (slotOf s.cont_read_idx) = false)
    exact ⟨s, hs, of_decide_eq_true hall⟩

end GranolaSdr.Cuda.Scan
