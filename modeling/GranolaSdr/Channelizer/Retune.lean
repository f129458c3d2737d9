import GranolaSdr.WsServer.TciServer

/-!
# Retunes of the audio sinks

The two ways in which a sink is retuned: `tciVfoWorker` applies the retunes TCI clients ask for, and
`cmdWorker` those a browser sends. Each worker reads and writes the bins of the sinks in steps of
its own, between steps of the other and of the TCI server. The browser's commands are those
`cmdWorker` accepts.

The retunes applied by `tciVfoWorker` are history.

## Main definitions

* `State`, `step`: the TCI server, the two workers and what they share;
* `Drained`, `Quiescent`: all retunes of TCI clients, and all of both kinds, have been processed;
* `QueuesAdvertised`: a retune is queued whose frequency is the advertised one, or the retune to the
  advertised one is still to be queued;
* `Agree`: bin, status and advertised frequency of a sink denote the same bin.

## Main results

* `advertised_applied`: when the frequency advertised is that of the last retune applied;
* `agree_iff_same_bin`: when the three copies of a sink's tuning agree.
-/

namespace GranolaSdr.Retune

open WsServer (Text)
open Tci (Sink NUM_SINKS DEFAULT_VFO_HZ ConnectionId)

/-- Where `cmdWorker` stands. -/
inductive CmdTask where
  /-- At its start, before the bin of a sink is read. -/
  | starting (i : Sink)
  /-- At its start, before the status of a sink is published. -/
  | publishing (i : Sink) (freq_hz : ℕ)
  /-- Before the next command. -/
  | receiving
  /-- After the bin of a sink is stored and before its status is published. -/
  | tuned (sink : Sink) (freq_hz : ℕ)
  deriving DecidableEq

/-- The TCI server, the channelizer's workers and the published status. -/
structure State where
  tci : Tci.State
  /-- The retune `tciVfoWorker` has taken from the queue. -/
  polled : Option (Sink × ℕ)
  /-- The retunes `tciVfoWorker` has applied. -/
  applied : List (Sink × ℕ)
  sink_bins : Sink → ℕ
  cmd : CmdTask
  /-- The frequency under `granolasdr:audio:status:N`. -/
  status : Sink → Option ℕ

/-- What can happen next. -/
inductive Action where
  /-- The TCI server takes a step. -/
  | tci (a : ConnectionId × Tci.Event)
  /-- `tciVfoWorker` takes a retune from the queue. -/
  | poll
  /-- `tciVfoWorker` stores the bin. -/
  | apply
  /-- `cmdWorker` accepts a command and stores the bin. -/
  | retune (sink : Sink) (freq_hz : ℕ)
  /-- `cmdWorker` takes its next step. -/
  | cmd

/-- The bin of a frequency. -/
def bin (freq_hz : ℕ) : ℕ := freq_hz / 100

/-- The state the programs start in. -/
def init : State where
  tci := Tci.init
  polled := none
  applied := []
  sink_bins := ![140740, 70740, 35730, 280740]
  cmd := .starting 0
  status _ := none

section Steps

variable (to_lowercase : Text → Text)

/-- The next step of `cmdWorker`. -/
def cmdStep (s : State) : Option State :=
  match s.cmd with
  | .starting i => some { s with cmd := .publishing i (s.sink_bins i * 100) }
  | .publishing i freq_hz =>
    some { s with
      status := Function.update s.status i (some freq_hz)
      cmd := if h : i.val + 1 < NUM_SINKS then .starting ⟨i.val + 1, h⟩ else .receiving }
  | .receiving => none
  | .tuned sink freq_hz =>
    some { s with status := Function.update s.status sink (some freq_hz), cmd := .receiving }

/-- The steps of the programs. -/
def step (s : State) : Action → Option State
  | .tci a => (Tci.step to_lowercase s.tci a).map fun tci => { s with tci }
  | .poll =>
    match s.polled, s.tci.shared.vfo_queue with
    | none, retune :: vfo_queue =>
      some { s with
        polled := some retune
        tci := { s.tci with shared := { s.tci.shared with vfo_queue } } }
    | _, _ => none
  | .apply =>
    match s.polled with
    | some (trx, freq_hz) =>
      some { s with
        polled := none
        applied := s.applied ++ [(trx, freq_hz)]
        sink_bins := Function.update s.sink_bins trx (bin freq_hz) }
    | none => none
  | .retune sink freq_hz =>
    match s.cmd with
    | .receiving =>
      if freq_hz ≤ 69_952_000 then
        some { s with
          sink_bins := Function.update s.sink_bins sink (bin freq_hz)
          cmd := .tuned sink freq_hz }
      else none
    | _ => none
  | .cmd => cmdStep s

end Steps

/-! ## The last retune of a sink -/

/-- The frequency each sink has after some retunes. -/
def tuned (start : Sink → Option ℕ) (retunes : List (Sink × ℕ)) : Sink → Option ℕ :=
  retunes.foldl (fun freqs r => Function.update freqs r.1 (some r.2)) start

theorem tuned_concat (start : Sink → Option ℕ) (retunes : List (Sink × ℕ)) (r : Sink × ℕ) :
    tuned start (retunes ++ [r]) = Function.update (tuned start retunes) r.1 (some r.2) :=
  List.foldl_append

/-- The frequencies before the first retune. -/
def defaults : Sink → Option ℕ := fun trx => some (DEFAULT_VFO_HZ trx)

namespace State

/-- The frequency of the last retune applied by `tciVfoWorker`. -/
def lastApplied (s : State) : Sink → Option ℕ := tuned defaults s.applied

/-- The frequency of the last retune queued. -/
def lastQueued (s : State) : Sink → Option ℕ :=
  tuned defaults (s.applied ++ s.polled.toList ++ s.tci.shared.vfo_queue)

/-- A connection is still to queue a retune. -/
def Queues (s : State) (trx : Sink) (freq_hz : ℕ) : Prop :=
  ∃ c cmd, (s.tci.conns c).task = .push_back cmd trx freq_hz

/-- The advertised frequency is that of the last retune queued, or of one still to be queued. -/
def Pending (trx : Sink) (s : State) : Prop :=
  s.lastQueued trx = some (s.tci.shared.vfo_freqs trx) ∨
    s.Queues trx (s.tci.shared.vfo_freqs trx)

/-- A retune of the receiver is queued whose frequency is the advertised one, or another connection
is still to queue the advertised one. -/
def QueuesAdvertised (trx : Sink) (s : State) (a : Action) : Prop :=
  ∀ c cmd freq_hz, a = .tci (c, .run) → (s.tci.conns c).task = .push_back cmd trx freq_hz →
    freq_hz = s.tci.shared.vfo_freqs trx ∨
      ∃ c' ≠ c, ∃ cmd', (s.tci.conns c').task = .push_back cmd' trx (s.tci.shared.vfo_freqs trx)

/-- All commands of TCI clients have been processed and their retunes applied. -/
structure Drained (s : State) : Prop where
  handled : ∀ c, (s.tci.conns c).pending = []
  idle : ∀ trx freq_hz, ¬s.Queues trx freq_hz
  queue : s.tci.shared.vfo_queue = []
  polled : s.polled = none

end State

section Runs

variable (to_lowercase : Text → Text)

/-- The retune whose frequency a step of the TCI server stores. -/
def stored (s : State) : Action → Option (Sink × ℕ)
  | .tci (c, e) => (s.tci.conns c).stored to_lowercase e
  | _ => none

variable {to_lowercase}

namespace State

variable {s t : State} {trx : Sink}

/-- What a step of a worker does, with what it requires. -/
inductive WorkerCases (s : State) (a : Action) (t : State) : Prop where
  | poll (r : Sink × ℕ) (vfo_queue : List (Sink × ℕ)) (ha : a = .poll) (hpolled : s.polled = none)
      (hqueue : s.tci.shared.vfo_queue = r :: vfo_queue)
      (hstate : t = { s with
        polled := some r
        tci := { s.tci with shared := { s.tci.shared with vfo_queue } } })
  | apply (trx : Sink) (freq_hz : ℕ) (ha : a = .apply) (hpolled : s.polled = some (trx, freq_hz))
      (hstate : t = { s with
        polled := none
        applied := s.applied ++ [(trx, freq_hz)]
        sink_bins := Function.update s.sink_bins trx (bin freq_hz) })
  | retune (sink : Sink) (freq_hz : ℕ) (ha : a = .retune sink freq_hz) (hcmd : s.cmd = .receiving)
      (hstate : t = { s with
        sink_bins := Function.update s.sink_bins sink (bin freq_hz)
        cmd := .tuned sink freq_hz })
  | starting (i : Sink) (ha : a = .cmd) (hcmd : s.cmd = .starting i)
      (hstate : t = { s with cmd := .publishing i (s.sink_bins i * 100) })
  | publishing (i : Sink) (freq_hz : ℕ) (ha : a = .cmd) (hcmd : s.cmd = .publishing i freq_hz)
      (hstate : t = { s with
        status := Function.update s.status i (some freq_hz)
        cmd := if h : i.val + 1 < NUM_SINKS then .starting ⟨i.val + 1, h⟩ else .receiving })
  | tuned (sink : Sink) (freq_hz : ℕ) (ha : a = .cmd) (hcmd : s.cmd = .tuned sink freq_hz)
      (hstate : t = { s with
        status := Function.update s.status sink (some freq_hz)
        cmd := .receiving })

theorem workerCases {a : Action} (ha : ∀ a', a ≠ .tci a')
    (hstep : step to_lowercase s a = some t) : s.WorkerCases a t := by
  cases a with
  | tci a => exact absurd rfl (ha a)
  | poll =>
    simp only [step] at hstep
    split at hstep
    · next r vfo_queue hpolled hqueue =>
      exact .poll r vfo_queue rfl hpolled hqueue (Option.some.inj hstep).symm
    · cases hstep
  | apply =>
    simp only [step] at hstep
    split at hstep
    · next trx freq_hz hpolled =>
      exact .apply trx freq_hz rfl hpolled (Option.some.inj hstep).symm
    · cases hstep
  | retune sink freq_hz =>
    simp only [step] at hstep
    split at hstep
    · next hcmd =>
      -- the command worker takes a request only while it waits for one
      split_ifs at hstep with hfreq
      exact .retune sink freq_hz rfl hcmd (Option.some.inj hstep).symm
    · cases hstep
  | cmd =>
    simp only [step, cmdStep] at hstep
    split at hstep
    · next i hcmd => exact .starting i rfl hcmd (Option.some.inj hstep).symm
    · next i freq_hz hcmd => exact .publishing i freq_hz rfl hcmd (Option.some.inj hstep).symm
    · cases hstep
    · next sink freq_hz hcmd => exact .tuned sink freq_hz rfl hcmd (Option.some.inj hstep).symm

/-- The steps of the workers leave the TCI server as it is, but for the queue, which
`tciVfoWorker` takes from in order. -/
theorem tci_step_of_worker {a : Action} (ha : ∀ a', a ≠ .tci a')
    (hstep : step to_lowercase s a = some t) :
    t.tci.conns = s.tci.conns ∧ t.tci.shared.vfo_freqs = s.tci.shared.vfo_freqs ∧
      t.lastQueued = s.lastQueued := by
  cases workerCases ha hstep with
  | poll r vfo_queue ha hpolled hqueue hstate =>
    subst hstate
    refine ⟨rfl, rfl, ?_⟩
    -- the retune moves from the queue to the worker
    simp [lastQueued, hpolled, hqueue]
  | apply trx freq_hz ha hpolled hstate =>
    subst hstate
    refine ⟨rfl, rfl, ?_⟩
    simp [lastQueued, hpolled]
  | retune sink freq_hz ha hcmd hstate
  | starting i ha hcmd hstate
  | publishing i freq_hz ha hcmd hstate
  | tuned sink freq_hz ha hcmd hstate =>
    subst hstate
    exact ⟨rfl, rfl, rfl⟩

/-- A step of the TCI server is a step on one connection. -/
theorem tuneStep_of_tci {c : ConnectionId} {e : Tci.Event}
    (hstep : step to_lowercase s (.tci (c, e)) = some t) :
    Tci.Conn.TuneStep to_lowercase s.tci.shared (s.tci.conns c) e t.tci.shared (t.tci.conns c) ∧
      (∀ c', c' ≠ c → t.tci.conns c' = s.tci.conns c') ∧
      t.applied = s.applied ∧ t.polled = s.polled ∧ t.sink_bins = s.sink_bins ∧ t.cmd = s.cmd ∧
      t.status = s.status := by
  obtain ⟨tci, htci, rfl⟩ := Option.map_eq_some_iff.1 hstep
  obtain ⟨hconn, hothers⟩ := Tci.conn_step_of_step htci
  exact ⟨Tci.Conn.tuneStep_of_step hconn, hothers, rfl, rfl, rfl, rfl, rfl⟩

/-- The retune stored last is still to be queued. -/
theorem pending_of_stored {a : Action} {freq_hz : ℕ}
    (hstep : step to_lowercase s a = some t)
    (hstored : stored to_lowercase s a = some (trx, freq_hz)) : t.Pending trx := by
  cases a with
  | tci a =>
    obtain ⟨c, e⟩ := a
    obtain ⟨htune, -⟩ := tuneStep_of_tci hstep
    cases htune with
    | store cmd trx' freq_hz' he hstored' htask hretune hshared htask' =>
      obtain ⟨rfl, rfl⟩ : trx' = trx ∧ freq_hz' = freq_hz := by
        simpa using hstored'.symm.trans hstored
      -- the connection that stored it is the one still to queue it
      right
      rw [hshared]
      refine ⟨c, cmd, ?_⟩
      rw [htask']
      simp [Tci.TciState.store]
    | push_back cmd trx' freq_hz' he htask hshared htask' =>
      subst he
      cases hstored
    | same he hstored' hfreqs hqueue htask => cases hstored'.symm.trans hstored
  | poll => cases hstored
  | apply => cases hstored
  | retune sink freq_hz => cases hstored
  | cmd => cases hstored

theorem pending_congr (hlast : t.lastQueued trx = s.lastQueued trx)
    (hfreq : t.tci.shared.vfo_freqs trx = s.tci.shared.vfo_freqs trx)
    (hqueues : t.Queues trx (s.tci.shared.vfo_freqs trx) ↔
      s.Queues trx (s.tci.shared.vfo_freqs trx)) : t.Pending trx ↔ s.Pending trx := by
  rw [Pending, Pending, hlast, hfreq, hqueues]

/-- After a retune is queued, the connections still to queue one are the others. -/
theorem queues_iff_of_idle {c : ConnectionId} {freq_hz : ℕ} (htask : (t.tci.conns c).task = .idle)
    (hothers : ∀ c', c' ≠ c → t.tci.conns c' = s.tci.conns c') :
    t.Queues trx freq_hz ↔
      ∃ c' ≠ c, ∃ cmd, (s.tci.conns c').task = .push_back cmd trx freq_hz := by
  constructor
  · rintro ⟨c', cmd, hcmd⟩
    have hne : c' ≠ c := by
      rintro rfl
      cases htask.symm.trans hcmd
    exact ⟨c', hne, cmd, hothers c' hne ▸ hcmd⟩
  · rintro ⟨c', hne, cmd, hcmd⟩
    exact ⟨c', cmd, (hothers c' hne).symm ▸ hcmd⟩

/-- When the task of one connection is at no retune of the receiver, the others decide. -/
theorem queues_congr {c : ConnectionId} {freq_hz : ℕ}
    (hothers : ∀ c', c' ≠ c → t.tci.conns c' = s.tci.conns c')
    (htask : ∀ cmd, (t.tci.conns c).task = .push_back cmd trx freq_hz ↔
      (s.tci.conns c).task = .push_back cmd trx freq_hz) :
    t.Queues trx freq_hz ↔ s.Queues trx freq_hz := by
  refine exists_congr fun c' => exists_congr fun cmd => ?_
  by_cases hc : c' = c
  · rw [hc]
    exact htask cmd
  · rw [hothers c' hc]

/-- A retune that is queued keeps the advertised frequency pending exactly if it is to this one or
another to this one is to come. -/
theorem pending_push_back_iff {c : ConnectionId} {cmd : Text} {trx' : Sink} {freq_hz : ℕ}
    (htask : (s.tci.conns c).task = .push_back cmd trx' freq_hz)
    (htask' : (t.tci.conns c).task = .idle)
    (hothers : ∀ c', c' ≠ c → t.tci.conns c' = s.tci.conns c')
    (hlast : t.lastQueued = Function.update s.lastQueued trx' (some freq_hz))
    (hfreqs : t.tci.shared.vfo_freqs = s.tci.shared.vfo_freqs) :
    s.Pending trx ∧ QueuesAdvertised trx s (.tci (c, .run)) ↔ t.Pending trx := by
  by_cases hne : trx = trx'
  · subst hne
    have hiff : t.Pending trx ↔ QueuesAdvertised trx s (.tci (c, .run)) := by
      rw [Pending, hlast, Function.update_self, hfreqs, queues_iff_of_idle htask' hothers,
        Option.some.injEq]
      constructor
      · rintro h c' cmd' freq_hz' hrun hcmd'
        obtain rfl : c = c' := by simpa using hrun
        obtain ⟨-, rfl⟩ : cmd = cmd' ∧ freq_hz = freq_hz' := by simpa using htask.symm.trans hcmd'
        exact h
      · intro h
        exact h c cmd freq_hz rfl htask
    -- before the step the retune itself was still to come
    rw [hiff, and_iff_right_iff_imp]
    intro h
    rcases h c cmd freq_hz rfl htask with hfreq | ⟨c', -, cmd', hcmd'⟩
    · exact .inr ⟨c, cmd, hfreq ▸ htask⟩
    · exact .inr ⟨c', cmd', hcmd'⟩
  · -- a retune of another receiver
    have hadvertised : QueuesAdvertised trx s (.tci (c, .run)) := by
      intro c' cmd' freq_hz' hrun hcmd'
      obtain rfl : c = c' := by simpa using hrun
      obtain ⟨-, htrx, -⟩ : cmd = cmd' ∧ trx' = trx ∧ freq_hz = freq_hz' := by
        simpa using htask.symm.trans hcmd'
      exact absurd htrx.symm hne
    rw [and_iff_left hadvertised]
    refine (pending_congr ?_ (by rw [hfreqs]) (queues_congr hothers fun cmd' => ?_)).symm
    · rw [hlast, Function.update_of_ne hne]
    · rw [htask', htask]
      simp [Ne.symm hne]

/-- A step that stores no frequency of the receiver keeps the advertised frequency pending exactly
if it queues no retune to another frequency after it. -/
theorem pending_step_iff {a : Action} (hstep : step to_lowercase s a = some t)
    (hstored : ∀ freq_hz, stored to_lowercase s a ≠ some (trx, freq_hz)) :
    s.Pending trx ∧ QueuesAdvertised trx s a ↔ t.Pending trx := by
  by_cases ha : ∀ a', a ≠ .tci a'
  · obtain ⟨hconns, hfreqs, hlast⟩ := tci_step_of_worker ha hstep
    have hadvertised : QueuesAdvertised trx s a := fun c _ _ hrun => absurd hrun (ha _)
    rw [and_iff_left hadvertised]
    refine (pending_congr (by rw [hlast]) (by rw [hfreqs]) ?_).symm
    rw [Queues, Queues, hconns]
  · obtain ⟨⟨c, e⟩, rfl⟩ := not_forall_not.1 ha
    obtain ⟨htune, hothers, happlied, hpolled, -⟩ := tuneStep_of_tci hstep
    cases htune with
    | store cmd trx' freq_hz he hstored' htask hretune hshared htask' =>
      -- the frequency stored is that of another receiver
      have hne : trx ≠ trx' := by
        rintro rfl
        exact hstored freq_hz hstored'
      have hadvertised : QueuesAdvertised trx s (.tci (c, e)) := by
        intro c' _ _ hrun
        cases hrun
        exact absurd rfl he
      rw [and_iff_left hadvertised]
      refine (pending_congr ?_ ?_ (queues_congr hothers fun cmd' => ?_)).symm
      · rw [lastQueued, lastQueued, happlied, hpolled, hshared]
        rfl
      · rw [hshared]
        exact Function.update_of_ne hne _ _
      · rw [htask', htask]
        simp [hne.symm]
    | push_back cmd trx' freq_hz he htask hshared htask' =>
      have hlast : t.lastQueued = Function.update s.lastQueued trx' (some freq_hz) := by
        rw [lastQueued, happlied, hpolled, hshared, Tci.TciState.push_back, ← List.append_assoc,
          tuned_concat]
        rfl
      have hfreqs : t.tci.shared.vfo_freqs = s.tci.shared.vfo_freqs := by
        rw [hshared]
        rfl
      rw [he]
      exact pending_push_back_iff htask htask' hothers hlast hfreqs
    | same he hstored' hfreqs hqueue htask =>
      have hadvertised : QueuesAdvertised trx s (.tci (c, e)) := by
        intro c' _ _ hrun
        cases hrun
        exact absurd rfl he
      rw [and_iff_left hadvertised]
      refine (pending_congr ?_ (by rw [hfreqs]) (queues_congr hothers fun cmd' => ?_)).symm
      · rw [lastQueued, lastQueued, happlied, hpolled, hqueue]
      · exact htask cmd' trx _

/-- A step keeps the advertised frequency pending unless it queues a retune to another frequency
after it. -/
theorem pending_step (a : Action) (h : s.Pending trx) (hadvertised : QueuesAdvertised trx s a)
    (hstep : step to_lowercase s a = some t) : t.Pending trx := by
  by_cases hstored : ∃ freq_hz, stored to_lowercase s a = some (trx, freq_hz)
  · obtain ⟨freq_hz, hfreq⟩ := hstored
    exact pending_of_stored hstep hfreq
  · exact (pending_step_iff hstep (not_exists.1 hstored)).1 ⟨h, hadvertised⟩

theorem pending_init : init.Pending trx := .inl rfl

/-- Once all retunes have been processed, the last one queued is the last one applied. -/
theorem Drained.pending_iff (h : t.Drained) :
    t.Pending trx ↔ t.lastApplied trx = some (t.tci.shared.vfo_freqs trx) := by
  have hlast : t.lastQueued = t.lastApplied := by
    rw [lastQueued, h.queue, h.polled, Option.toList_none, List.append_nil, List.append_nil]
    rfl
  rw [Pending, hlast, or_iff_left (h.idle trx _)]

end State

/-- Once all commands have been processed, the frequency advertised for each receiver is that of the
last retune applied to it, if each retune queued was to the advertised frequency or the one to it
was still to come. From a state in which the advertised frequency is pending on, as it is after a
frequency is stored, and up to the next one stored, the condition is exact. -/
theorem advertised_applied {as : List Action} {t : State}
    (hrun : Run.exec (step to_lowercase) init as = some t) (ht : t.Drained) :
    (Run.Along (step to_lowercase) (fun s a => ∀ trx, s.QueuesAdvertised trx a) init as →
      ∀ trx, t.lastApplied trx = some (t.tci.shared.vfo_freqs trx)) ∧
    ∀ trx bs cs s, as = bs ++ cs → Run.exec (step to_lowercase) init bs = some s →
      s.Pending trx →
      Run.Along (step to_lowercase) (fun u a => ∀ freq_hz,
        stored to_lowercase u a ≠ some (trx, freq_hz)) s cs →
      (t.lastApplied trx = some (t.tci.shared.vfo_freqs trx) ↔
        Run.Along (step to_lowercase) (State.QueuesAdvertised trx) s cs) := by
  constructor
  · intro hall trx
    refine ht.pending_iff.1 (Run.inv_of_exec (fun s a s' => State.pending_step a) State.pending_init
      (hall.mono fun s a h => h trx) hrun)
  · rintro trx bs cs s rfl hs hpending hstored
    rw [Run.exec_append, hs, Option.bind_some] at hrun
    -- the run lemma of `pending_step_iff`
    have hiff : s.Pending trx ∧ Run.Along (step to_lowercase) (State.QueuesAdvertised trx) s cs ↔
        t.Pending trx ∧ Run.Along (step to_lowercase) (fun _ _ => True) s cs := by
      refine Run.and_along_iff (fun _ _ _ _ _ _ => trivial) (fun u a u' _ hno hstep => ?_) trivial
        hstored hrun
      rw [State.pending_step_iff hstep hno, and_true]
    rw [← ht.pending_iff]
    constructor
    · intro h
      exact (hiff.2 ⟨h, Run.along_true s cs⟩).2
    · intro h
      exact (hiff.1 ⟨hpending, h⟩).1

end Runs

/-- Two clients tune receiver 0, and both frequencies are stored. -/
def twoTunersRun : List Action :=
  [.tci (0, .message "vfo:0,0,14074000;".toList), .tci (1, .message "vfo:0,0,14075000;".toList),
    .tci (0, .dispatch), .tci (1, .dispatch)]

/-- Both retunes are applied, in the order in which the clients queue them. -/
def drainRun (first second : ConnectionId) : List Action :=
  [.tci (first, .run), .tci (second, .run), .poll, .apply, .poll, .apply]

namespace State

/-- When every connection waits for a message and the queue is empty, the state is drained. -/
theorem drained_of_idle {t : State}
    (hidle : ∀ c, ((t.tci.conns c).pending, (t.tci.conns c).task) = ([], .idle))
    (hqueue : t.tci.shared.vfo_queue = []) (hpolled : t.polled = none) : t.Drained where
  handled c := (Prod.ext_iff.1 (hidle c)).1
  idle trx freq_hz := by
    rintro ⟨c, cmd, hcmd⟩
    cases (Prod.ext_iff.1 (hidle c)).2.symm.trans hcmd
  queue := hqueue
  polled := hpolled

theorem queuesAdvertised_of_not_run {s : State} {a : Action} (ha : ∀ c, a ≠ .tci (c, .run))
    (trx : Sink) : s.QueuesAdvertised trx a := fun c _ _ hrun => absurd hrun (ha c)

end State

/-- Each retune is queued while its frequency is advertised, or before the one that is. -/
theorem queuesAdvertised_drainRun :
    Run.Along (step id) (fun s a => ∀ trx, s.QueuesAdvertised trx a) init
      (twoTunersRun ++ drainRun 0 1) := by
  -- only the two steps that queue a retune matter
  have hquiet : ∀ {s : State} {as : List Action}, (∀ a ∈ as, ∀ c, a ≠ .tci (c, .run)) →
      Run.Along (step id) (fun s a => ∀ trx, s.QueuesAdvertised trx a) s as := fun has =>
    (Run.along_of_forall_mem has).mono fun s a ha trx => State.queuesAdvertised_of_not_run ha trx
  obtain ⟨t, ht⟩ := Option.isSome_iff_exists.1
    (by decide : (Run.exec (step id) init (twoTunersRun ++ [.tci (0, .run)])).isSome)
  have ht' := ht
  rw [Run.exec_append, Option.bind_eq_some_iff] at ht'
  obtain ⟨s, hs, hst⟩ := ht'
  have hfirst : (Run.exec (step id) init twoTunersRun).all fun s =>
      (s.tci.conns 0).task = .push_back "vfo:0,0,14074000".toList 0 14_074_000 ∧
        (s.tci.conns 1).task = .push_back "vfo:0,0,14075000".toList 0 14_075_000 ∧
        s.tci.shared.vfo_freqs 0 = 14_075_000 := by
    decide
  have hsecond : (Run.exec (step id) init (twoTunersRun ++ [.tci (0, .run)])).all fun s =>
      (s.tci.conns 1).task = .push_back "vfo:0,0,14075000".toList 0 14_075_000 ∧
        s.tci.shared.vfo_freqs 0 = 14_075_000 := by
    decide
  rw [hs, Option.all_some, decide_eq_true_eq] at hfirst
  rw [ht, Option.all_some, decide_eq_true_eq] at hsecond
  have hst' : step id s (.tci (0, .run)) = some t := by
    rw [Run.exec_cons, Option.bind_eq_some_iff] at hst
    obtain ⟨u, hu, hut⟩ := hst
    rw [Run.exec_nil, Option.some.injEq] at hut
    rw [hu, hut]
  refine (Run.along_append hs).2 ⟨hquiet (by simp [twoTunersRun]), (Run.along_cons hst').2 ⟨?_, ?_⟩⟩
  · intro trx c cmd freq_hz hrun hcmd
    obtain rfl : 0 = c := by simpa using hrun
    rw [hfirst.1, Tci.Task.push_back.injEq] at hcmd
    obtain ⟨-, rfl, -⟩ := hcmd
    rw [hfirst.2.2]
    -- when the older retune is queued, the one to the advertised frequency is still to come
    exact .inr ⟨1, by decide, _, hfirst.2.1⟩
  · refine ⟨fun trx c cmd freq_hz hrun hcmd => ?_, fun u _ => hquiet (by simp)⟩
    obtain rfl : 1 = c := by simpa using hrun
    rw [hsecond.1, Tci.Task.push_back.injEq] at hcmd
    obtain ⟨-, rfl, rfl⟩ := hcmd
    exact .inl hsecond.2.symm

/-- The client whose frequency was stored last queues its retune last. -/
theorem advertised_applied_drainRun :
    ∃ t, Run.exec (step id) init (twoTunersRun ++ drainRun 0 1) = some t ∧ t.Drained ∧
      t.tci.shared.vfo_freqs 0 = 14_075_000 ∧
      ∀ trx, t.lastApplied trx = some (t.tci.shared.vfo_freqs trx) := by
  obtain ⟨t, ht⟩ := Option.isSome_iff_exists.1
    (by decide : (Run.exec (step id) init (twoTunersRun ++ drainRun 0 1)).isSome)
  have hview : (Run.exec (step id) init (twoTunersRun ++ drainRun 0 1)).all fun t =>
      t.tci.shared.vfo_freqs 0 = 14_075_000 ∧ t.tci.shared.vfo_queue = [] ∧ t.polled = none := by
    decide
  have hidle : ∀ c, (Run.exec (step id) init (twoTunersRun ++ drainRun 0 1)).map
      (fun t => ((t.tci.conns c).pending, (t.tci.conns c).task)) = some ([], .idle)
    | 0 => rfl
    | 1 => rfl
    | _ + 2 => rfl
  rw [ht, Option.all_some, decide_eq_true_eq] at hview
  simp only [ht, Option.map_some, Option.some.injEq] at hidle
  have hdrained := State.drained_of_idle hidle hview.2.1 hview.2.2
  exact ⟨t, ht, hdrained, hview.1, (advertised_applied ht hdrained).1 queuesAdvertised_drainRun⟩

/-- When the client whose frequency was stored first queues its retune last, the server advertises
the one and the sink is tuned to the other. -/
theorem drainRun_not_advertised :
    ∃ t, Run.exec (step id) init (twoTunersRun ++ drainRun 1 0) = some t ∧ t.Drained ∧
      t.tci.shared.vfo_freqs 0 = 14_075_000 ∧ t.lastApplied 0 = some 14_074_000 ∧
      t.sink_bins 0 = 140740 := by
  obtain ⟨t, ht⟩ := Option.isSome_iff_exists.1
    (by decide : (Run.exec (step id) init (twoTunersRun ++ drainRun 1 0)).isSome)
  have hview : (Run.exec (step id) init (twoTunersRun ++ drainRun 1 0)).all fun t =>
      t.tci.shared.vfo_queue = [] ∧ t.polled = none ∧ t.tci.shared.vfo_freqs 0 = 14_075_000 ∧
        t.lastApplied 0 = some 14_074_000 ∧ t.sink_bins 0 = 140740 := by
    decide
  have hidle : ∀ c, (Run.exec (step id) init (twoTunersRun ++ drainRun 1 0)).map
      (fun t => ((t.tci.conns c).pending, (t.tci.conns c).task)) = some ([], .idle)
    | 0 => rfl
    | 1 => rfl
    | _ + 2 => rfl
  -- the newer retune is queued first, so the older one is applied last
  rw [ht, Option.all_some, decide_eq_true_eq] at hview
  simp only [ht, Option.map_some, Option.some.injEq] at hidle
  exact ⟨t, ht, State.drained_of_idle hidle hview.1 hview.2.1, hview.2.2⟩

/-! ## The three copies of a sink's tuning -/

section Copies

variable {to_lowercase : Text → Text}

/-- What a step of `cmdWorker` is to publish: a command of the browser, and at the start the bin it
finds. -/
def browserTunes (s : State) : Action → List (Sink × ℕ)
  | .retune sink freq_hz => [(sink, freq_hz)]
  | .cmd =>
    match s.cmd with
    | .starting i => [(i, s.sink_bins i * 100)]
    | _ => []
  | _ => []

variable (to_lowercase) in
/-- The retune of a TCI client whose frequency a step stores. -/
def tciTunes (s : State) (a : Action) : List (Sink × ℕ) := (stored to_lowercase s a).toList

variable (to_lowercase) in
/-- The last frequency a browser has set, or `cmdWorker` has found at its start, and the last one a
TCI client has set, or the default, lie in the same bin. -/
def SameBin (as : List Action) (trx : Sink) : Prop :=
  (tuned (fun _ => none) (Run.trace (step to_lowercase) browserTunes init as) trx).map bin =
    (tuned defaults (Run.trace (step to_lowercase) (tciTunes to_lowercase) init as) trx).map bin

instance (as : List Action) (trx : Sink) : Decidable (SameBin to_lowercase as trx) :=
  inferInstanceAs (Decidable (_ = _))

namespace State

variable {s t : State}

/-- The status of each sink once the worker has published what it is about to publish. -/
def shown (s : State) : Sink → Option ℕ :=
  match s.cmd with
  | .publishing i freq_hz => Function.update s.status i (some freq_hz)
  | .tuned sink freq_hz => Function.update s.status sink (some freq_hz)
  | _ => s.status

/-- The bin of the sink, the published status and the frequency a new TCI client is greeted with
denote the same bin. -/
def Agree (s : State) (trx : Sink) : Prop :=
  (s.status trx).map bin = some (s.sink_bins trx) ∧
    ∃ freq_hz, (trx.val, freq_hz) ∈ Tci.advertised (Tci.build_init_sequence s.tci.shared) ∧
      bin freq_hz = s.sink_bins trx

/-- All retunes have been processed. -/
structure Quiescent (s : State) : Prop where
  drained : s.Drained
  receiving : s.cmd = .receiving

theorem shown_step (a : Action) (hstep : step to_lowercase s a = some t) :
    t.shown = tuned s.shown (browserTunes s a) := by
  by_cases ha : ∀ a', a ≠ .tci a'
  · cases workerCases ha hstep with
    | poll r vfo_queue ha hpolled hqueue hstate =>
      subst ha hstate
      rfl
    | apply trx freq_hz ha hpolled hstate =>
      subst ha hstate
      rfl
    | retune sink freq_hz ha hcmd hstate =>
      subst ha hstate
      -- the tune is shown as soon as the command is at it
      rw [shown, shown, hcmd]
      rfl
    | publishing i freq_hz ha hcmd hstate =>
      subst ha hstate
      rw [shown, shown, browserTunes, hcmd]
      dsimp only
      -- the status that was shown is published, and the worker goes on to the next sink or receives
      split_ifs <;> rfl
    | starting i ha hcmd hstate
    | tuned sink freq_hz ha hcmd hstate =>
      subst ha hstate
      rw [shown, shown, browserTunes, hcmd]
      rfl
  · obtain ⟨⟨c, e⟩, rfl⟩ := not_forall_not.1 ha
    obtain ⟨-, -, -, -, -, hcmd, hstatus⟩ := tuneStep_of_tci hstep
    rw [shown, shown, hcmd, hstatus]
    rfl

/-- What TCI clients are told, after a step. -/
theorem freqs_step (a : Action) (hstep : step to_lowercase s a = some t) :
    (fun trx => some (t.tci.shared.vfo_freqs trx)) =
      tuned (fun trx => some (s.tci.shared.vfo_freqs trx)) (tciTunes to_lowercase s a) := by
  by_cases ha : ∀ a', a ≠ .tci a'
  · have hnone : tciTunes to_lowercase s a = [] := by
      cases a with
      | tci a => exact absurd rfl (ha a)
      | poll => rfl
      | apply => rfl
      | retune sink freq_hz => rfl
      | cmd => rfl
    rw [(tci_step_of_worker ha hstep).2.1, hnone]
    rfl
  · obtain ⟨⟨c, e⟩, rfl⟩ := not_forall_not.1 ha
    obtain ⟨htune, -⟩ := tuneStep_of_tci hstep
    cases htune with
    | store cmd trx freq_hz he hstored htask hretune hshared htask' =>
      -- the only step that stores a frequency
      rw [hshared, tciTunes, stored, hstored]
      funext trx'
      by_cases htrx : trx' = trx
      · rw [htrx]
        simp [tuned, Tci.TciState.store]
      · simp [tuned, Tci.TciState.store, htrx]
    | push_back cmd trx freq_hz he htask hshared htask' =>
      rw [hshared, he]
      rfl
    | same he hstored hfreqs hqueue htask =>
      rw [hfreqs, tciTunes, stored, hstored]
      rfl

/-- The bin of a sink is that of the retune of a TCI client applied last, or what is published. -/
def BinsInv (s : State) : Prop :=
  ∀ trx, (s.lastApplied trx).map bin = some (s.sink_bins trx) ∨
    (s.shown trx).map bin = some (s.sink_bins trx)

theorem binsInv_init : init.BinsInv := by
  have hbins : ∀ trx, (init.lastApplied trx).map bin = some (init.sink_bins trx) := by decide
  exact fun trx => .inl (hbins trx)

theorem BinsInv.of_eq (h : s.BinsInv) (happlied : t.applied = s.applied)
    (hbins : t.sink_bins = s.sink_bins) (hshown : t.shown = s.shown) : t.BinsInv := by
  intro trx
  rw [lastApplied, happlied, hbins, hshown]
  exact h trx

/-- A sink that is retuned to what is published. -/
theorem BinsInv.of_shown (h : s.BinsInv) {sink : Sink} {freq_hz : ℕ}
    (happlied : t.applied = s.applied)
    (hbins : t.sink_bins = Function.update s.sink_bins sink (bin freq_hz))
    (hshown : t.shown = Function.update s.shown sink (some freq_hz)) : t.BinsInv := by
  intro trx
  rw [lastApplied, happlied, hbins, hshown]
  by_cases htrx : trx = sink
  · rw [htrx]
    exact .inr (by simp)
  · rw [Function.update_of_ne htrx, Function.update_of_ne htrx]
    exact h trx

theorem binsInv_step (s : State) (a : Action) (t : State) (h : s.BinsInv)
    (hstep : step to_lowercase s a = some t) : t.BinsInv := by
  have hshown := shown_step a hstep
  by_cases ha : ∀ a', a ≠ .tci a'
  · cases workerCases ha hstep with
    | poll r vfo_queue ha hpolled hqueue hstate =>
      subst ha hstate
      exact h.of_eq rfl rfl rfl
    | apply trx freq_hz ha hpolled hstate =>
      subst ha hstate
      intro trx'
      rw [lastApplied, tuned_concat, hshown]
      by_cases htrx : trx' = trx
      · rw [htrx]
        exact .inl (by simp)
      · have hbins : Function.update s.sink_bins trx (bin freq_hz) trx' = s.sink_bins trx' :=
          Function.update_of_ne htrx _ _
        rw [Function.update_of_ne htrx]
        change _ = some (Function.update s.sink_bins trx (bin freq_hz) trx') ∨
          _ = some (Function.update s.sink_bins trx (bin freq_hz) trx')
        rw [hbins]
        exact h trx'
    | retune sink freq_hz ha hcmd hstate =>
      subst ha hstate
      exact h.of_shown rfl rfl hshown
    | starting i ha hcmd hstate =>
      subst ha hstate
      have hbin : bin (s.sink_bins i * 100) = s.sink_bins i := Nat.mul_div_cancel _ (by decide)
      rw [browserTunes, hcmd] at hshown
      -- the status is the bin that was found, in Hz
      refine h.of_shown rfl ?_ hshown
      rw [hbin, Function.update_eq_self]
    | publishing i freq_hz ha hcmd hstate
    | tuned sink freq_hz ha hcmd hstate =>
      subst ha hstate
      rw [browserTunes, hcmd] at hshown
      exact h.of_eq rfl rfl hshown
  · obtain ⟨⟨c, e⟩, rfl⟩ := not_forall_not.1 ha
    obtain ⟨-, -, happlied, -, hbins, -⟩ := tuneStep_of_tci hstep
    exact h.of_eq happlied hbins hshown

/-- The advertised frequencies are within the limits. -/
def FreqsInv (s : State) : Prop := ∀ trx, s.tci.shared.vfo_freqs trx ≤ 69_952_000

theorem freqsInv_init : init.FreqsInv := by
  have hfreqs : ∀ trx, DEFAULT_VFO_HZ trx ≤ 69_952_000 := by decide
  exact hfreqs

theorem freqsInv_step (s : State) (a : Action) (t : State) (h : s.FreqsInv)
    (hstep : step to_lowercase s a = some t) : t.FreqsInv := by
  by_cases ha : ∀ a', a ≠ .tci a'
  · intro trx
    rw [(tci_step_of_worker ha hstep).2.1]
    exact h trx
  · obtain ⟨⟨c, e⟩, rfl⟩ := not_forall_not.1 ha
    obtain ⟨htune, -⟩ := tuneStep_of_tci hstep
    intro trx
    cases htune with
    | store cmd trx' freq_hz he hstored htask hretune hshared htask' =>
      -- a stored frequency has been clamped
      obtain ⟨rest, -, htarget⟩ := Option.bind_eq_some_iff.1 hretune
      rw [hshared]
      by_cases htrx : trx = trx'
      · rw [htrx]
        simpa [Tci.TciState.store] using Tci.le_of_vfoTarget htarget
      · simpa [Tci.TciState.store, htrx] using h trx
    | push_back cmd trx' freq_hz he htask hshared htask' =>
      rw [hshared]
      exact h trx
    | same he hstored hfreqs hqueue htask =>
      rw [hfreqs]
      exact h trx

/-- A new client is told the stored frequency of each receiver. -/
theorem FreqsInv.mem_advertised_iff (h : s.FreqsInv) {trx : Sink} {freq_hz : ℕ} :
    (trx.val, freq_hz) ∈ Tci.advertised (Tci.build_init_sequence s.tci.shared) ↔
      freq_hz = s.tci.shared.vfo_freqs trx := by
  have hlt : ∀ trx, s.tci.shared.vfo_freqs trx < 2 ^ 64 := fun trx => (h trx).trans_lt (by decide)
  rw [Tci.advertised_build_init_sequence hlt, List.mem_map]
  constructor
  · rintro ⟨trx', -, heq⟩
    obtain ⟨hval, rfl⟩ := Prod.mk.inj heq
    rw [Fin.ext hval]
  · rintro rfl
    exact ⟨trx, List.mem_finRange trx, rfl⟩

/-- When all retunes have been processed, what is published is published, and the frequency of the
last retune of a TCI client is told to new ones. -/
theorem Quiescent.agree_iff (ht : t.Quiescent) (hfreqs : t.FreqsInv) (trx : Sink) :
    t.Agree trx ↔ (t.shown trx).map bin = some (t.sink_bins trx) ∧
      bin (t.tci.shared.vfo_freqs trx) = t.sink_bins trx := by
  have hshown : t.shown = t.status := by rw [shown, ht.receiving]
  rw [Agree, hshown]
  simp only [hfreqs.mem_advertised_iff, exists_eq_left]

end State

variable {as : List Action} {t : State}

theorem sameBin_iff (hrun : Run.exec (step to_lowercase) init as = some t) (trx : Sink) :
    SameBin to_lowercase as trx ↔
      (t.shown trx).map bin = some (bin (t.tci.shared.vfo_freqs trx)) := by
  have hshown : t.shown = tuned (fun _ => none)
      (Run.trace (step to_lowercase) browserTunes init as) :=
    Run.foldl_trace (fun s a s' => State.shown_step a) hrun
  have hfreqs : (fun trx => some (t.tci.shared.vfo_freqs trx)) = tuned defaults
      (Run.trace (step to_lowercase) (tciTunes to_lowercase) init as) :=
    Run.foldl_trace (fun s a s' => State.freqs_step a) hrun
  rw [SameBin, ← hshown, ← hfreqs]
  rfl

/-- Once all retunes have been processed, the three copies of a sink's tuning can agree only if the
last frequency set from a browser and the last one set by a TCI client lie in the same bin, and they
do agree then, if the retunes of TCI clients were queued in the order they were advertised. -/
theorem agree_iff_same_bin (hrun : Run.exec (step to_lowercase) init as = some t)
    (ht : t.Quiescent) (trx : Sink) :
    (t.Agree trx → SameBin to_lowercase as trx) ∧
    (Run.Along (step to_lowercase) (State.QueuesAdvertised trx) init as →
      (t.Agree trx ↔ SameBin to_lowercase as trx)) := by
  have hfreqs := Run.inv_of_exec' State.freqsInv_step State.freqsInv_init hrun
  have hagree : t.Agree trx → SameBin to_lowercase as trx := by
    rw [ht.agree_iff hfreqs, sameBin_iff hrun]
    rintro ⟨hstatus, hfreq⟩
    rw [hstatus, hfreq]
  refine ⟨hagree, fun hadvertised => ⟨hagree, fun hsame => ?_⟩⟩
  have happlied : t.lastApplied trx = some (t.tci.shared.vfo_freqs trx) :=
    ht.drained.pending_iff.1 (Run.inv_of_exec (fun s a s' => State.pending_step a)
      State.pending_init hadvertised hrun)
  have hbins := Run.inv_of_exec' State.binsInv_step State.binsInv_init hrun trx
  rw [sameBin_iff hrun] at hsame
  rw [ht.agree_iff hfreqs]
  -- the bin is that of the last TCI retune or that of the status, which are the same
  have hbin : bin (t.tci.shared.vfo_freqs trx) = t.sink_bins trx := by
    rw [happlied, hsame, Option.map_some, or_self, Option.some.injEq] at hbins
    exact hbins
  exact ⟨by rw [hsame, hbin], hbin⟩

end Copies

/-- `cmdWorker` publishes the status of the sinks at its start. -/
def startRun : List Action := List.replicate 8 .cmd

/-- A browser tunes sink 0. -/
def browserRun (freq_hz : ℕ) : List Action := [.retune 0 freq_hz, .cmd]

/-- A TCI client tunes receiver 0 to 14.08 MHz. -/
def clientRun : List Action :=
  [.tci (0, .message "vfo:0,0,14080000;".toList), .tci (0, .dispatch), .tci (0, .run), .poll,
    .apply]

namespace State

theorem quiescent_of_idle {t : State}
    (hidle : ∀ c, ((t.tci.conns c).pending, (t.tci.conns c).task) = ([], .idle))
    (hqueue : t.tci.shared.vfo_queue = []) (hpolled : t.polled = none) (hcmd : t.cmd = .receiving) :
    t.Quiescent where
  drained := drained_of_idle hidle hqueue hpolled
  receiving := hcmd

end State

/-- A browser and a TCI client tune sink 0 to the same bin, and the three copies agree. -/
theorem agree_iff_same_bin_clientRun :
    ∃ t, Run.exec (step id) init (startRun ++ browserRun 14_080_050 ++ clientRun) = some t ∧
      t.status 0 = some 14_080_050 ∧ t.tci.shared.vfo_freqs 0 = 14_080_000 ∧
      t.sink_bins 0 = 140800 ∧ t.Agree 0 := by
  have hpre : (Run.exec (step id) init
      (startRun ++ browserRun 14_080_050 ++ clientRun.take 2)).isSome := by decide
  obtain ⟨s, hs⟩ := Option.isSome_iff_exists.1 hpre
  obtain ⟨t, ht⟩ := Option.isSome_iff_exists.1 (by decide :
    (Run.exec (step id) init (startRun ++ browserRun 14_080_050 ++ clientRun)).isSome)
  have hstored : (Run.exec (step id) init
      (startRun ++ browserRun 14_080_050 ++ clientRun.take 2)).all fun s =>
        (s.tci.conns 0).task = .push_back "vfo:0,0,14080000".toList 0 14_080_000 ∧
          s.tci.shared.vfo_freqs 0 = 14_080_000 := by
    decide
  have hview : (Run.exec (step id) init (startRun ++ browserRun 14_080_050 ++ clientRun)).all
      fun t => t.tci.shared.vfo_queue = [] ∧ t.polled = none ∧ t.cmd = .receiving ∧
        t.status 0 = some 14_080_050 ∧ t.tci.shared.vfo_freqs 0 = 14_080_000 ∧
          t.sink_bins 0 = 140800 := by
    decide
  have hidle : ∀ c, (Run.exec (step id) init
      (startRun ++ browserRun 14_080_050 ++ clientRun)).map
        (fun t => ((t.tci.conns c).pending, (t.tci.conns c).task)) = some ([], .idle)
    | 0 => rfl
    | _ + 1 => rfl
  rw [hs, Option.all_some, decide_eq_true_eq] at hstored
  rw [ht, Option.all_some, decide_eq_true_eq] at hview
  simp only [ht, Option.map_some, Option.some.injEq] at hidle
  -- all queues have been emptied, so the theorem on quiet states applies
  have hquiescent := State.quiescent_of_idle hidle hview.1 hview.2.1 hview.2.2.1
  have hquiet : ∀ {s : State} {as : List Action}, (∀ a ∈ as, ∀ c, a ≠ .tci (c, .run)) →
      Run.Along (step id) (State.QueuesAdvertised 0) s as := fun has =>
    (Run.along_of_forall_mem has).mono fun s a ha => State.queuesAdvertised_of_not_run ha 0
  refine ⟨t, ht, hview.2.2.2.1, hview.2.2.2.2.1, hview.2.2.2.2.2,
    ((agree_iff_same_bin ht hquiescent 0).2 ?_).2 (by decide)⟩
  -- the one step that matters is the client's command, which the prefix leads to
  show Run.Along _ _ _ (startRun ++ browserRun 14_080_050 ++ clientRun.take 2 ++ clientRun.drop 2)
  refine (Run.along_append hs).2
    ⟨hquiet (by simp [startRun, browserRun, clientRun]), fun c cmd freq_hz hrun hcmd => ?_,
      fun u _ => hquiet (by simp)⟩
  obtain rfl : 0 = c := by simpa using hrun
  rw [hstored.1, Tci.Task.push_back.injEq] at hcmd
  exact .inl (hcmd.2.2.symm.trans hstored.2.symm)

/-- A browser tunes sink 0, and new TCI clients are still told the old frequency; a TCI client tunes
it, and the old one is still published. -/
theorem browserRun_not_agree :
    (∃ t, Run.exec (step id) init (startRun ++ browserRun 14_080_000) = some t ∧ t.Quiescent ∧
      t.status 0 = some 14_080_000 ∧ t.tci.shared.vfo_freqs 0 = 14_074_000 ∧
      t.sink_bins 0 = 140800 ∧ ¬t.Agree 0) ∧
    ∃ t, Run.exec (step id) init (startRun ++ clientRun) = some t ∧ t.Quiescent ∧
      t.status 0 = some 14_074_000 ∧ t.tci.shared.vfo_freqs 0 = 14_080_000 ∧
      t.sink_bins 0 = 140800 ∧ ¬t.Agree 0 := by
  constructor
  · obtain ⟨t, ht⟩ := Option.isSome_iff_exists.1
      (by decide : (Run.exec (step id) init (startRun ++ browserRun 14_080_000)).isSome)
    have hview : (Run.exec (step id) init (startRun ++ browserRun 14_080_000)).all fun t =>
        t.tci.shared.vfo_queue = [] ∧ t.polled = none ∧ t.cmd = .receiving ∧
          t.status 0 = some 14_080_000 ∧ t.tci.shared.vfo_freqs 0 = 14_074_000 ∧
            t.sink_bins 0 = 140800 := by
      decide
    have hidle : ∀ c, (Run.exec (step id) init (startRun ++ browserRun 14_080_000)).map
        (fun t => ((t.tci.conns c).pending, (t.tci.conns c).task)) = some ([], .idle) :=
      fun _ => rfl
    rw [ht, Option.all_some, decide_eq_true_eq] at hview
    simp only [ht, Option.map_some, Option.some.injEq] at hidle
    obtain ⟨hqueue, hpolled, hcmd, hstatus, hfreq, hbins⟩ := hview
    -- the frequency that TCI clients are told is not the browser's
    have hquiescent := State.quiescent_of_idle hidle hqueue hpolled hcmd
    have hfreqs := Run.inv_of_exec' State.freqsInv_step State.freqsInv_init ht
    refine ⟨t, ht, hquiescent, hstatus, hfreq, hbins, ?_⟩
    rw [hquiescent.agree_iff hfreqs, hfreq, hbins]
    exact fun h => absurd h.2 (by decide)
  · obtain ⟨t, ht⟩ := Option.isSome_iff_exists.1
      (by decide : (Run.exec (step id) init (startRun ++ clientRun)).isSome)
    have hview : (Run.exec (step id) init (startRun ++ clientRun)).all fun t =>
        t.tci.shared.vfo_queue = [] ∧ t.polled = none ∧ t.cmd = .receiving ∧
          t.status 0 = some 14_074_000 ∧ t.tci.shared.vfo_freqs 0 = 14_080_000 ∧
            t.sink_bins 0 = 140800 := by
      decide
    have hidle : ∀ c, (Run.exec (step id) init (startRun ++ clientRun)).map
        (fun t => ((t.tci.conns c).pending, (t.tci.conns c).task)) = some ([], .idle)
      | 0 => rfl
      | _ + 1 => rfl
    rw [ht, Option.all_some, decide_eq_true_eq] at hview
    simp only [ht, Option.map_some, Option.some.injEq] at hidle
    obtain ⟨hqueue, hpolled, hcmd, hstatus, hfreq, hbins⟩ := hview
    refine ⟨t, ht, State.quiescent_of_idle hidle hqueue hpolled hcmd, hstatus, hfreq, hbins, ?_⟩
    rintro ⟨hagree, -⟩
    rw [hstatus, hbins] at hagree
    exact absurd hagree (by decide)

end GranolaSdr.Retune
