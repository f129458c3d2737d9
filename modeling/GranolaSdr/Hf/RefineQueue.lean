import GranolaSdr.Hf.RefineWorker

/-!
# The queue of the refine worker

The scan callback queues jobs and drops the oldest one when the queue is full, and the worker takes
them from the front. Every job leaves the queue at its turn, served or dropped, so the jobs served
are in the order in which all were queued.

## Main definitions

* `Exit`: a job that leaves the queue, served or dropped;
* `queued`, `left`, `served`: the jobs of a run.

## Main results

* `queue_discipline`: what holds of the queue and of the jobs that have left it, after every run.
-/

namespace GranolaSdr.Hf.Refine

/-- A job leaves the queue. -/
inductive Exit (J : Type*) where
  /-- The worker takes it. -/
  | served (job : J)
  /-- It is the oldest one of a full queue. -/
  | dropped (job : J)
  deriving DecidableEq

variable {J : Type*}

namespace Exit

/-- The job that leaves. -/
def job : Exit J → J
  | served job => job
  | dropped job => job

/-- The job, if it is served. -/
def served? : Exit J → Option J
  | served job => some job
  | dropped _ => none

end Exit

/-- The job an action queues. -/
def Action.queues : Action J → List J
  | .enqueue job => [job]
  | _ => []

namespace State

/-- The job that leaves the queue in a step. -/
def exits (s : State J) : Action J → List (Exit J)
  | .worker =>
    match s.worker, s.refine_run, s.refine_q with
    | .check, true, job :: _ => [.served job]
    | _, _, _ => []
  | .enqueue _ =>
    match s.refine_q with
    | job :: _ => if kRefineQueueMax ≤ s.refine_q.length then [.dropped job] else []
    | [] => []
  | _ => []

variable {s s' : State J}

/-- The worker takes a job from the front of the queue, or leaves the queue alone. -/
theorem runWorker_cases (hstep : s.runWorker = some s') :
    (∃ job rest, s.worker = .check ∧ s.refine_run = true ∧ s.refine_q = job :: rest ∧
      s' = { s with refine_q := rest, worker := .process job }) ∨
      s.exits .worker = [] ∧ s'.refine_q = s.refine_q ∧ ∀ job, s'.worker ≠ .process job := by
  cases hworker : s.worker with
  | check =>
    simp only [runWorker, hworker] at hstep
    split_ifs at hstep with hrun
    · split at hstep
      · next job rest hq =>
        obtain rfl := Option.some.inj hstep
        exact Or.inl ⟨job, rest, rfl, hrun, hq, rfl⟩
      · cases hstep
    · -- the thread ends, whatever waits
      obtain rfl := Option.some.inj hstep
      right
      simp [exits, hworker, hrun]
  | blocked | exited => simp [runWorker, hworker] at hstep
  | top | test =>
    simp only [runWorker, hworker, Option.some.injEq] at hstep
    subst hstep
    refine Or.inr ⟨by simp [exits, hworker], rfl, ?_⟩
    intro job
    dsimp only
    split_ifs <;> simp
  | _ =>
    simp only [runWorker, hworker, Option.some.injEq] at hstep
    subst hstep
    simp [exits, hworker]

/-- The worker is handed the job that is served. -/
theorem exits_worker_iff (hstep : s.runWorker = some s') {job : J} :
    s.exits .worker = [.served job] ↔ s.worker = .check ∧ s'.worker = .process job := by
  rcases runWorker_cases hstep with ⟨next, rest, hworker, hrun, hq, rfl⟩ | ⟨hexits, -, hidle⟩
  · simp [exits, hworker, hrun, hq]
  · rw [hexits]
    exact iff_of_false (List.cons_ne_nil _ _).symm fun h => hidle job h.2

theorem exits_worker (hstep : s.runWorker = some s') :
    (s.exits .worker).map Exit.job ++ s'.refine_q = s.refine_q := by
  rcases runWorker_cases hstep with ⟨job, rest, hworker, hrun, hq, rfl⟩ | ⟨hexits, hsame, -⟩
  · simp [exits, hworker, hrun, hq, Exit.job]
  · rw [hexits, hsame]
    rfl

/-- A job is queued behind the others, the oldest of which leaves if there are too many. -/
theorem exits_enqueue (s : State J) (job : J) :
    (s.exits (.enqueue job)).map Exit.job ++ pushJob s.refine_q job = s.refine_q ++ [job] := by
  rcases hq : s.refine_q with _ | ⟨oldest, rest⟩
  · simp [exits, hq, pushJob]
  · by_cases hfull : kRefineQueueMax ≤ rest.length + 1
    · simp [exits, hq, pushJob, hfull, Exit.job]
    · simp [exits, hq, pushJob, hfull]

theorem length_pushJob_le {refine_q : List J} (h : refine_q.length ≤ kRefineQueueMax) (job : J) :
    (pushJob refine_q job).length ≤ kRefineQueueMax := by
  have hpos : 0 < kRefineQueueMax := by decide
  rw [pushJob, List.length_append, List.length_singleton]
  split_ifs with hfull
  · rw [List.length_tail]
    omega
  · omega

theorem refine_q_runDestructor (hstep : s.runDestructor = some s') : s'.refine_q = s.refine_q := by
  cases hdestructor : s.destructor with
  | alive | notify =>
    simp only [runDestructor, hdestructor, Option.some.injEq] at hstep
    subst hstep
    rfl
  | join =>
    simp only [runDestructor, hdestructor] at hstep
    split at hstep
    · rw [← Option.some.inj hstep]
    · cases hstep
  | joined => simp [runDestructor, hdestructor] at hstep

/-- In a step jobs leave at the front of the queue and come in at its end. -/
theorem exits_step {a : Action J} (hstep : s.step a = some s') :
    (s.exits a).map Exit.job ++ s'.refine_q = s.refine_q ++ a.queues := by
  cases a with
  | worker => exact (exits_worker hstep).trans (List.append_nil _).symm
  | destructor => exact (refine_q_runDestructor hstep).trans (List.append_nil _).symm
  | enqueue job =>
    rw [step, Option.ite_none_left_eq_some, Option.some.injEq] at hstep
    rw [← hstep.2]
    exact exits_enqueue s job
  | spurious =>
    simp only [step] at hstep
    split at hstep
    · rw [← Option.some.inj hstep]
      exact (List.append_nil _).symm
    · cases hstep

theorem length_refine_q_step {a : Action J} (h : s.refine_q.length ≤ kRefineQueueMax)
    (hstep : s.step a = some s') : s'.refine_q.length ≤ kRefineQueueMax := by
  by_cases hqueues : a.queues = []
  · -- nothing comes in
    have hlen := congrArg List.length (exits_step hstep)
    rw [hqueues, List.append_nil, List.length_append] at hlen
    omega
  · cases a with
    | enqueue job =>
      rw [step, Option.ite_none_left_eq_some, Option.some.injEq] at hstep
      rw [← hstep.2]
      exact length_pushJob_le h job
    | _ => exact absurd rfl hqueues

/-- A job is dropped only when another one is queued, with a full queue before it. -/
theorem exits_eq_dropped {a : Action J} {job : J} (h : s.exits a = [.dropped job]) :
    ∃ new rest, a = .enqueue new ∧ s.refine_q = job :: rest ∧
      kRefineQueueMax ≤ s.refine_q.length := by
  cases a with
  | enqueue new =>
    rcases hq : s.refine_q with _ | ⟨oldest, rest⟩
    · simp [exits, hq] at h
    · simp only [exits, hq] at h
      split_ifs at h with hfull
      · obtain rfl : oldest = job := by simpa using h
        exact ⟨new, rest, rfl, rfl, hfull⟩
  | worker =>
    simp only [exits] at h
    split at h <;> simp at h
  | destructor | spurious => simp [exits] at h

end State

/-! ## Runs -/

/-- The jobs some actions queue. -/
def queued (actions : List (Action J)) : List J := actions.flatMap Action.queues

/-- The jobs that leave the queue in a run, in order. -/
def left (actions : List (Action J)) : List (Exit J) :=
  Run.trace State.step State.exits init actions

/-- The jobs that are served in a run, in order. -/
def served (actions : List (Action J)) : List J := (left actions).filterMap Exit.served?

variable {s : State J}

/-- The jobs that have left the queue and those that wait in it are all the jobs queued, in
order. -/
theorem left_append_refine_q {actions : List (Action J)}
    (hrun : Run.exec State.step init actions = some s) :
    (left actions).map Exit.job ++ s.refine_q = queued actions := by
  have hwaiting : Run.trace State.step (fun s a => (s.exits a).map Exit.job) init actions ++
      s.refine_q = [] ++ Run.trace State.step (fun _ a => a.queues) init actions :=
    Run.trace_append_waiting (fun _ _ _ (_ : True) _ => trivial)
      (fun _ _ _ _ hstep => State.exits_step hstep) trivial hrun
  rw [left, Run.map_trace, hwaiting, Run.trace_const hrun]
  exact List.nil_append _

theorem length_refine_q_le {actions : List (Action J)}
    (hrun : Run.exec State.step init actions = some s) : s.refine_q.length ≤ kRefineQueueMax :=
  Run.inv_of_exec' (fun _ _ _ => State.length_refine_q_step) (Nat.zero_le _) hrun

theorem served_sublist (actions : List (Action J)) :
    (served actions).Sublist ((left actions).map Exit.job) := by
  rw [served]
  generalize left actions = l
  induction l with
  | nil => exact List.Sublist.refl []
  | cons e l ih =>
    cases e with
    | served job => exact ih.cons_cons job
    | dropped job => exact ih.cons job

/-- In every run the queue is never too long, jobs leave it in the order in which they are queued,
each at most once, so that those served are some of those queued in the same order, and a job is
dropped only by the step that queues another one, at which at least `kRefineQueueMax` jobs have been
queued behind it. -/
theorem queue_discipline (actions : List (Action J))
    (hrun : Run.exec State.step init actions = some s) :
    s.refine_q.length ≤ kRefineQueueMax ∧
      (left actions).map Exit.job ++ s.refine_q = queued actions ∧
      (served actions).Sublist (queued actions) ∧
      ∀ done a job, done ++ [a] <+: actions → left (done ++ [a]) = left done ++ [.dropped job] →
        (∃ new, a = .enqueue new) ∧ ∃ newer,
          queued (done ++ [a]) = (left done).map Exit.job ++ job :: newer ∧
            kRefineQueueMax ≤ newer.length := by
  refine ⟨length_refine_q_le hrun, left_append_refine_q hrun, ?_, fun done a job hpre hdrop => ?_⟩
  · rw [← left_append_refine_q hrun]
    exact (served_sublist actions).trans (List.sublist_append_left _ _)
  · obtain ⟨rest, rfl⟩ := hpre
    rw [List.append_assoc, Run.exec_append, Option.bind_eq_some_iff] at hrun
    obtain ⟨t, ht, hrun⟩ := hrun
    rw [List.singleton_append, Run.exec_cons, Option.bind_eq_some_iff] at hrun
    obtain ⟨t', ht', -⟩ := hrun
    -- the job leaves in the step `a`, from the state `t` before it
    have hleft : left (done ++ [a]) = left done ++ t.exits a := by
      rw [left, Run.trace_append ht, Run.trace_cons ht', Run.trace, List.append_nil]
      rfl
    rw [hleft, List.append_cancel_left_eq] at hdrop
    obtain ⟨new, waiting, rfl, hq, hfull⟩ := State.exits_eq_dropped hdrop
    refine ⟨⟨new, rfl⟩, waiting ++ [new], ?_, ?_⟩
    · rw [queued, List.flatMap_append, ← queued, ← left_append_refine_q ht, hq]
      simp [Action.queues]
    · rw [hq, List.length_cons] at hfull
      simpa using hfull

/-- One job more than the queue holds is queued, and the worker takes the oldest one left. -/
def overflowRun : List (Action ℕ) :=
  (List.range 33).map .enqueue ++ [.worker, .worker, .worker, .worker]

theorem queue_discipline_overflowRun :
    ∃ s, Run.exec State.step init overflowRun = some s ∧ served overflowRun = [1] ∧
      s.refine_q.length ≤ kRefineQueueMax ∧
      (left overflowRun).map Exit.job ++ s.refine_q = queued overflowRun ∧
      (served overflowRun).Sublist (queued overflowRun) ∧
      ∀ done a job, done ++ [a] <+: overflowRun →
        left (done ++ [a]) = left done ++ [.dropped job] →
        (∃ new, a = .enqueue new) ∧ ∃ newer,
          queued (done ++ [a]) = (left done).map Exit.job ++ job :: newer ∧
            kRefineQueueMax ≤ newer.length := by
  obtain ⟨s, hs⟩ := Option.isSome_iff_exists.1
    (by decide +kernel : (Run.exec State.step init overflowRun).isSome)
  exact ⟨s, hs, by decide +kernel, queue_discipline overflowRun hs⟩

end GranolaSdr.Hf.Refine
