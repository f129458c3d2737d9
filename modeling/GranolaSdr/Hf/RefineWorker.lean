import GranolaSdr.Lib.Run

/-!
# The refine worker and its shutdown

`refineWorker` of the JS8 and FT8 decoders takes jobs from a queue that the scan callback fills. It
waits for them on a condition variable, with a predicate that it tests while it holds the mutex of
the queue. The destructor clears the run flag, notifies all waiters and joins the thread. It does
not take the mutex, so both of its steps can fall between a test of the predicate and the wait that
follows it.

## Main definitions

* `State`, `step`: the worker and the destructor, and their steps;
* `State.Hung`: the destructor waits for a worker that nothing will wake;
* `NotifySeen`: the destructor does not notify between a test and its wait.

## Main results

* `not_hung`: no run that notifies outside of these moments reaches a hung state.
-/

namespace GranolaSdr.Hf.Refine

/-- The number of jobs the queue holds before the oldest is dropped. -/
def kRefineQueueMax : ℕ := 32

/-- Enqueue a job, dropping the oldest one if the queue is full. -/
def pushJob {J : Type*} (refine_q : List J) (job : J) : List J :=
  (if kRefineQueueMax ≤ refine_q.length then refine_q.tail else refine_q) ++ [job]

theorem mem_pushJob {J : Type*} {refine_q : List J} {job j : J} (h : j ∈ pushJob refine_q job) :
    j ∈ refine_q ∨ j = job := by
  rw [pushJob, List.mem_append, List.mem_singleton] at h
  rcases h with h | rfl
  · split_ifs at h
    · exact Or.inl (List.mem_of_mem_tail h)
    · exact Or.inl h
  · exact Or.inr rfl

/-- Where the worker stands. -/
inductive Worker (J : Type*) where
  /-- Before the run flag is loaded at the head of the loop. -/
  | top
  /-- Before the mutex is taken. -/
  | lock
  /-- In the wait, before the predicate is tested. -/
  | test
  /-- In the wait, after the predicate was false, before the mutex is released and the thread
  blocks. -/
  | block
  /-- Blocked on the condition variable. -/
  | blocked
  /-- Notified, before the mutex is taken again. -/
  | woken
  /-- After the wait, before the run flag is loaded again. -/
  | check
  /-- Before a job is processed. -/
  | process (job : J)
  /-- The thread has ended. -/
  | exited
  deriving DecidableEq

/-- The worker holds the mutex. -/
def Worker.Locks {J : Type*} : Worker J → Prop
  | .test | .block | .check => True
  | _ => False

instance {J : Type*} (w : Worker J) : Decidable w.Locks := by
  cases w <;> unfold Worker.Locks <;> infer_instance

/-- A notification wakes a blocked worker and is lost on any other. -/
def Worker.notified {J : Type*} : Worker J → Worker J
  | .blocked => .woken
  | w => w

/-- The worker is in the wait and does not test the predicate again before it blocks. -/
def Worker.Waits {J : Type*} (w : Worker J) : Prop := w = .block ∨ w = .blocked

theorem Worker.waits_notified {J : Type*} {w : Worker J} (h : w.notified.Waits) : w = .block := by
  cases w <;> simp_all [Waits, notified]

/-- Where the destructor stands. -/
inductive Destructor where
  /-- It has not been called. -/
  | alive
  /-- Before all waiters are notified. -/
  | notify
  /-- Waiting for the thread to end. -/
  | join
  | joined
  deriving DecidableEq

/-- The run flag, the queue and the two threads. -/
structure State (J : Type*) where
  refine_run : Bool
  refine_q : List J
  worker : Worker J
  destructor : Destructor
  deriving DecidableEq

/-- What can happen next. -/
inductive Action (J : Type*) where
  /-- The worker takes its next step. -/
  | worker
  /-- The destructor takes its next step. -/
  | destructor
  /-- The scan callback enqueues a job and notifies the worker, under the mutex. -/
  | enqueue (job : J)
  /-- The condition variable wakes the worker without a notification. -/
  | spurious

variable {J : Type*}

/-- The state `setRefineEnabled` leaves. -/
def init : State J where
  refine_run := true
  refine_q := []
  worker := .top
  destructor := .alive

namespace State

/-- `notify_one` and `notify_all`, with one thread that may wait. -/
def notify (s : State J) : State J := { s with worker := s.worker.notified }

/-- The next step of `refineWorker`. -/
def runWorker (s : State J) : Option (State J) :=
  match s.worker with
  | .top => some { s with worker := if s.refine_run then .lock else .exited }
  | .lock | .woken => some { s with worker := .test }
  | .test =>
    some { s with worker := if !s.refine_run || !s.refine_q.isEmpty then .check else .block }
  | .block => some { s with worker := .blocked }
  | .blocked | .exited => none
  | .check =>
    if s.refine_run then
      match s.refine_q with
      | job :: refine_q => some { s with refine_q := refine_q, worker := .process job }
      | [] => none
    else some { s with worker := .exited }
  | .process _ => some { s with worker := .top }

/-- The next step of the destructor. -/
def runDestructor (s : State J) : Option (State J) :=
  match s.destructor with
  | .alive => some { s with refine_run := false, destructor := .notify }
  | .notify => some { s.notify with destructor := .join }
  | .join =>
    match s.worker with
    | .exited => some { s with destructor := .joined }
    | _ => none
  | .joined => none

/-- The steps of the two threads and of the scan callback. -/
def step (s : State J) : Action J → Option (State J)
  | .worker => s.runWorker
  | .destructor => s.runDestructor
  | .enqueue job =>
    if s.worker.Locks then none
    else some { s with refine_q := pushJob s.refine_q job }.notify
  | .spurious =>
    match s.worker with
    | .blocked => some { s with worker := .woken }
    | _ => none

/-- The destructor has notified and waits for the thread to end, which is blocked. -/
def Hung (s : State J) : Prop := s.destructor = .join ∧ s.worker = .blocked

/-- The destructor does not notify while the worker has found the predicate false but is not
blocked yet. -/
def NotifySeen (s : State J) : Action J → Prop
  | .destructor => s.destructor = .notify → s.worker ≠ .block
  | _ => True

/-- The invariant: the destructor has cleared the flag, and once it has notified, the worker
neither waits nor is about to. -/
structure Inv (s : State J) : Prop where
  flag : s.refine_run = true → s.destructor = .alive
  notified : s.destructor = .join ∨ s.destructor = .joined → ¬s.worker.Waits

variable {s s' : State J}

theorem inv_init : Inv (init : State J) where
  flag _ := rfl
  notified h := by simp [init] at h

/-- While the worker is elsewhere, only the flag matters. -/
theorem Inv.of_worker (h : s.Inv) (hrun : s'.refine_run = s.refine_run)
    (hdestructor : s'.destructor = s.destructor) (hworker : ¬s'.worker.Waits) : s'.Inv where
  flag hflag := hdestructor.trans (h.flag (hrun ▸ hflag))
  notified _ := hworker

/-- The worker starts to wait only while the flag is set. -/
theorem inv_runWorker (h : s.Inv) (hstep : s.runWorker = some s') : s'.Inv := by
  cases hworker : s.worker with
  | top =>
    simp only [runWorker, hworker, Option.some.injEq] at hstep
    subst hstep
    refine h.of_worker rfl rfl ?_
    split_ifs <;> simp [Worker.Waits]
  | lock | woken | process =>
    simp only [runWorker, hworker, Option.some.injEq] at hstep
    subst hstep
    exact h.of_worker rfl rfl (by simp [Worker.Waits])
  | test =>
    simp only [runWorker, hworker, Option.some.injEq] at hstep
    subst hstep
    refine ⟨h.flag, fun hjoin => ?_⟩
    -- once the destructor has cleared the flag the predicate is true
    have hcleared : s.refine_run = false := by
      rw [Bool.eq_false_iff]
      intro hrun
      have halive := h.flag hrun
      simp [halive] at hjoin
    simp [Worker.Waits, hcleared]
  | block =>
    simp only [runWorker, hworker, Option.some.injEq] at hstep
    subst hstep
    exact ⟨h.flag, fun hjoin => absurd (Or.inl hworker) (h.notified hjoin)⟩
  | blocked | exited =>
    simp only [runWorker, hworker] at hstep
    exact nomatch hstep
  | check =>
    simp only [runWorker, hworker] at hstep
    split_ifs at hstep
    · split at hstep
      · obtain rfl := Option.some.inj hstep
        exact h.of_worker rfl rfl (by simp [Worker.Waits])
      · exact nomatch hstep
    · obtain rfl := Option.some.inj hstep
      exact h.of_worker rfl rfl (by simp [Worker.Waits])

theorem inv_runDestructor (h : s.Inv) (hseen : s.NotifySeen .destructor)
    (hstep : s.runDestructor = some s') : s'.Inv := by
  cases hdestructor : s.destructor with
  | alive =>
    simp only [runDestructor, hdestructor, Option.some.injEq] at hstep
    subst hstep
    exact ⟨fun hrun => (nomatch hrun), fun hjoin => by simp at hjoin⟩
  | notify =>
    simp only [runDestructor, hdestructor, Option.some.injEq] at hstep
    subst hstep
    refine ⟨fun hrun => (nomatch hdestructor.symm.trans (h.flag hrun)), fun _ hwaits => ?_⟩
    -- a worker that still waits after the notification missed it, which the step rules out
    exact hseen hdestructor (Worker.waits_notified hwaits)
  | join =>
    simp only [runDestructor, hdestructor] at hstep
    split at hstep
    · next hexited =>
      obtain rfl := Option.some.inj hstep
      exact ⟨fun hrun => (nomatch hdestructor.symm.trans (h.flag hrun)),
        fun _ => by simp [Worker.Waits, hexited]⟩
    · exact nomatch hstep
  | joined =>
    simp only [runDestructor, hdestructor] at hstep
    exact nomatch hstep

/-- Every step keeps the invariant, if the destructor does not notify between a test of the
predicate and its wait. -/
theorem inv_step (s : State J) (a : Action J) (s' : State J) (h : s.Inv) (hseen : s.NotifySeen a)
    (hstep : s.step a = some s') : s'.Inv := by
  cases a with
  | worker => exact inv_runWorker h hstep
  | destructor => exact inv_runDestructor h hseen hstep
  | enqueue job =>
    rw [step, Option.ite_none_left_eq_some, Option.some.injEq] at hstep
    obtain ⟨-, rfl⟩ := hstep
    exact ⟨h.flag, fun hjoin hwaits =>
      h.notified hjoin (Or.inl (Worker.waits_notified hwaits))⟩
  | spurious =>
    simp only [step] at hstep
    split at hstep
    · obtain rfl := Option.some.inj hstep
      exact h.of_worker rfl rfl (by simp [Worker.Waits])
    · exact nomatch hstep

/-- No run in which the destructor notifies outside of the moments between a test of the predicate
and its wait leaves the destructor waiting for a blocked worker. -/
theorem not_hung (actions : List (Action J)) {s : State J}
    (hseen : Run.Along step NotifySeen init actions)
    (hrun : Run.exec step init actions = some s) : ¬s.Hung := fun hhung =>
  (Run.inv_of_exec inv_step inv_init hseen hrun).notified (Or.inl hhung.1) (Or.inr hhung.2)

instance (s : State J) (a : Action J) : Decidable (s.NotifySeen a) :=
  match a with
  | .destructor =>
    match h : s.worker with
    | .block => decidable_of_iff (s.destructor ≠ .notify) (by simp [NotifySeen, h])
    | .top | .lock | .test | .blocked | .woken | .check | .process _ | .exited =>
      isTrue (by simp [NotifySeen, h])
  | .worker | .enqueue _ | .spurious => isTrue trivial

/-- The worker is blocked when the destructor notifies. -/
def notifiedRun : List (Action Unit) :=
  [.worker, .worker, .worker, .worker, .destructor, .destructor, .worker, .worker, .worker,
    .destructor]

theorem not_hung_notifiedRun :
    ∃ s, Run.exec step init notifiedRun = some s ∧ s.destructor = .joined ∧ ¬s.Hung := by
  obtain ⟨s, hs⟩ := Option.isSome_iff_exists.1
    (by decide : (Run.exec step init notifiedRun).isSome)
  have hjoined : (Run.exec step init notifiedRun).all (fun s => s.destructor = .joined) := by
    decide
  rw [hs, Option.all_some, decide_eq_true_eq] at hjoined
  exact ⟨s, hs, hjoined, not_hung notifiedRun (by decide) hs⟩

/-- The destructor clears the flag and notifies after the worker has found the predicate false and
before it blocks. -/
def lostWakeupRun : List (Action Unit) :=
  [.worker, .worker, .worker, .destructor, .destructor, .worker]

/-- The notification is lost: the destructor waits for the worker, the worker is blocked, and
neither can take another step. -/
theorem lostWakeupRun_hung :
    ∃ s, Run.exec step init lostWakeupRun = some s ∧ s.Hung ∧
      s.step .worker = none ∧ s.step .destructor = none := by
  refine ⟨⟨false, [], .blocked, .join⟩, ?_, ⟨rfl, rfl⟩, rfl, rfl⟩
  decide

end State

end GranolaSdr.Hf.Refine
