import GranolaSdr.Lib.Run
import Mathlib.Data.Fintype.Basic
import Mathlib.Logic.Function.Basic

/-!
# The shared dictionary client

`publishDecoded` of the JS8 and FT8 decoders writes to the dictionary through a client that the scan
thread and the refine worker share. A failed write discards the client. The JS8 version tests the
client before it takes the mutex and does not test it again; the FT8 version tests it under the
mutex.

## Main definitions

* `State`: the client, the mutex and where each thread stands;
* `js8Step`, `ft8Step`: the steps of the two versions;
* `State.NullUse`: a thread is about to use a client that is gone;
* `State.ResetUntested`: no client is discarded that another thread has tested and not yet used.

## Main results

* `js8_not_nullUse`: the JS8 version uses no missing client in runs in which that never happens;
* `ft8_not_nullUse`: the FT8 version never does.
-/

namespace GranolaSdr.Hf.Publish

/-- Where a thread stands in `publishDecoded`. -/
inductive Pc where
  /-- Outside of the part that uses the client. -/
  | idle
  /-- Before the client is tested. -/
  | test
  /-- Before the mutex is taken. -/
  | lock
  /-- Before `set_with_ttl` is called on the client. -/
  | use
  /-- In the handler of its exception, before the client is discarded. -/
  | reset
  deriving DecidableEq

/-- Whether there is a client, who holds the mutex and where each thread stands. -/
structure State (T : Type*) where
  ws_client : Bool
  mutex : Option T
  pc : T → Pc

/-- What can happen next. -/
inductive Action (T : Type*) where
  /-- A thread calls `publishDecoded`, with a callsign or without. -/
  | call (t : T) (from_call : Bool)
  /-- A thread takes its next step, and if that is a write, it succeeds. -/
  | run (t : T)
  /-- The write of a thread fails. -/
  | fail (t : T)

variable {T : Type*} [DecidableEq T]

/-- The state after construction, with a client if the connection could be made. -/
def init (connected : Bool) : State T where
  ws_client := connected
  mutex := none
  pc _ := .idle

namespace State

/-- A thread goes on. -/
def goto (s : State T) (t : T) (pc : Pc) : State T := { s with pc := Function.update s.pc t pc }

/-- A thread takes the mutex, for which it waits while another one holds it, and goes on. -/
def take (s : State T) (t : T) (pc : Pc) : Option (State T) :=
  match s.mutex with
  | none => some { s.goto t pc with mutex := some t }
  | some _ => none

/-- A thread releases the mutex and is done. -/
def release (s : State T) (t : T) : State T := { s.goto t .idle with mutex := none }

/-- The next step of a thread in `JS8::publishDecoded`. -/
def js8Run (s : State T) (t : T) : Option (State T) :=
  match s.pc t with
  | .idle => none
  | .test => some (s.goto t (if s.ws_client then .lock else .idle))
  | .lock => s.take t .use
  | .use => if s.ws_client then some (s.release t) else none
  | .reset => some { s.release t with ws_client := false }

/-- The next step of a thread in `FT8::publishDecoded`. -/
def ft8Run (s : State T) (t : T) : Option (State T) :=
  match s.pc t with
  | .idle => none
  | .lock => s.take t .test
  | .test => some (if s.ws_client then s.goto t .use else s.release t)
  | .use => if s.ws_client then some (s.release t) else none
  | .reset => some { s.release t with ws_client := false }

/-- The steps of all threads, for a version of `publishDecoded` and the place a call starts at. -/
def step (run : State T → T → Option (State T)) (entry : Bool → Pc) (s : State T) :
    Action T → Option (State T)
  | .call t from_call =>
    match s.pc t with
    | .idle => some (s.goto t (entry from_call))
    | _ => none
  | .run t => run s t
  | .fail t =>
    match s.pc t with
    | .use => if s.ws_client then some (s.goto t .reset) else none
    | _ => none

/-- The steps of the JS8 version, which writes decodes with a callsign only. -/
def js8Step : State T → Action T → Option (State T) :=
  step js8Run fun from_call => if from_call then .test else .idle

/-- The steps of the FT8 version. -/
def ft8Step : State T → Action T → Option (State T) := step ft8Run fun _ => .lock

/-- A thread is about to use the client, and there is none. -/
def NullUse (s : State T) (t : T) : Prop := s.pc t = .use ∧ s.ws_client = false

/-- No client is discarded that another thread has tested and not yet used. -/
def ResetUntested (s : State T) : Action T → Prop
  | .run t => s.pc t = .reset → ∀ u ≠ t, s.pc u ≠ .lock
  | _ => True

/-- The invariant, for the places at which a thread holds the mutex and those at which it relies on
the client. -/
structure Inv (locks relies : Pc → Prop) (s : State T) : Prop where
  mutex : ∀ t, locks (s.pc t) → s.mutex = some t
  client : ∀ t, relies (s.pc t) → s.ws_client = true

variable {s s' : State T} {t u : T} {pc : Pc} {locks relies : Pc → Prop}

@[simp]
theorem pc_goto_self : (s.goto t pc).pc t = pc := Function.update_self ..

theorem pc_goto_of_ne (h : u ≠ t) : (s.goto t pc).pc u = s.pc u := Function.update_of_ne h _ _

namespace Inv

/-- A thread that goes on without the mutex, or keeps it. -/
theorem goto (h : Inv locks relies s) (hlocks : locks pc → locks (s.pc t))
    (hrelies : relies pc → s.ws_client = true) : Inv locks relies (s.goto t pc) where
  mutex u hu := by
    rcases eq_or_ne u t with rfl | hne
    · rw [pc_goto_self] at hu
      exact h.mutex u (hlocks hu)
    · rw [pc_goto_of_ne hne] at hu
      exact h.mutex u hu
  client u hu := by
    rcases eq_or_ne u t with rfl | hne
    · rw [pc_goto_self] at hu
      exact hrelies hu
    · rw [pc_goto_of_ne hne] at hu
      exact h.client u hu

/-- A thread that takes the mutex, which nobody holds. -/
theorem take (h : Inv locks relies s) (hrelies : relies pc → s.ws_client = true)
    (hstep : s.take t pc = some s') : Inv locks relies s' := by
  rw [State.take] at hstep
  split at hstep
  · next hfree =>
    obtain rfl := Option.some.inj hstep
    refine ⟨fun u hu => ?_, fun u hu => ?_⟩
    · rcases eq_or_ne u t with rfl | hne
      · rfl
      · exact nomatch hfree.symm.trans (h.mutex u (pc_goto_of_ne hne ▸ hu))
    · rcases eq_or_ne u t with rfl | hne
      · exact hrelies (by simpa using hu)
      · exact h.client u (pc_goto_of_ne hne ▸ hu)
  · exact nomatch hstep

/-- A thread that releases the mutex, and keeps or discards a client that no other thread relies
on. -/
theorem release (h : Inv locks relies s) (ht : locks (s.pc t))
    (hidle : ¬locks .idle ∧ ¬relies .idle)
    {client : Bool} (hkeep : client = s.ws_client ∨ ∀ u ≠ t, ¬relies (s.pc u)) :
    Inv locks relies { s.release t with ws_client := client } where
  mutex u hu := by
    rcases eq_or_ne u t with rfl | hne
    · exact absurd (by simpa [State.release] using hu) hidle.1
    · -- nobody else can hold it
      have hother := h.mutex u (pc_goto_of_ne hne ▸ hu)
      exact absurd (Option.some.inj (hother.symm.trans (h.mutex t ht))) hne
  client u hu := by
    rcases eq_or_ne u t with rfl | hne
    · exact absurd (by simpa [State.release] using hu) hidle.2
    · have hrelies : relies (s.pc u) := pc_goto_of_ne hne ▸ hu
      rcases hkeep with rfl | hnone
      · exact h.client u hrelies
      · exact absurd hrelies (hnone u hne)

end Inv

/-! ## JS8 -/

/-- Where a thread of the JS8 version holds the mutex. -/
def Js8Locks (pc : Pc) : Prop := pc = .use ∨ pc = .reset

/-- Where a thread of the JS8 version relies on the client. -/
def Js8Relies (pc : Pc) : Prop := pc = .lock ∨ pc = .use ∨ pc = .reset

omit [DecidableEq T] in
theorem js8_inv_init (connected : Bool) : Inv Js8Locks Js8Relies (init connected : State T) where
  mutex _ h := by simp [init, Js8Locks] at h
  client _ h := by simp [init, Js8Relies] at h

theorem js8_inv_run (h : Inv Js8Locks Js8Relies s) (hreset : s.ResetUntested (.run t))
    (hstep : s.js8Run t = some s') : Inv Js8Locks Js8Relies s' := by
  have hidle : ¬Js8Locks .idle ∧ ¬Js8Relies .idle := by simp [Js8Locks, Js8Relies]
  cases hpc : s.pc t with
  | idle =>
    simp only [js8Run, hpc] at hstep
    exact nomatch hstep
  | test =>
    simp only [js8Run, hpc, Option.some.injEq] at hstep
    subst hstep
    split_ifs with hclient
    · exact h.goto (by simp [Js8Locks]) fun _ => hclient
    · exact h.goto (by simp [Js8Locks]) (by simp [Js8Relies])
  | lock =>
    simp only [js8Run, hpc] at hstep
    exact h.take (fun _ => h.client t (by simp [Js8Relies, hpc])) hstep
  | use =>
    simp only [js8Run, hpc] at hstep
    split_ifs at hstep
    obtain rfl := Option.some.inj hstep
    exact h.release (Or.inl hpc) hidle (Or.inl rfl)
  | reset =>
    simp only [js8Run, hpc, Option.some.injEq] at hstep
    subst hstep
    -- the reset takes the client away, and no other thread has just tested it
    have hlocks : Js8Locks (s.pc t) := Or.inr hpc
    refine h.release hlocks hidle (Or.inr fun u hne hrelies => ?_)
    rcases hrelies with hlock | huse
    · exact hreset hpc u hne hlock
    · exact hne (Option.some.inj ((h.mutex u huse).symm.trans (h.mutex t hlocks)))

theorem js8_inv_step (s : State T) (a : Action T) (s' : State T) (h : Inv Js8Locks Js8Relies s)
    (hreset : s.ResetUntested a) (hstep : s.js8Step a = some s') :
    Inv Js8Locks Js8Relies s' := by
  cases a with
  | call t from_call =>
    simp only [js8Step, step] at hstep
    split at hstep
    · obtain rfl := Option.some.inj hstep
      split_ifs
      · exact h.goto (by simp [Js8Locks]) (by simp [Js8Relies])
      · exact h.goto (by simp [Js8Locks]) (by simp [Js8Relies])
    · exact nomatch hstep
  | run t => exact js8_inv_run h hreset hstep
  | fail t =>
    simp only [js8Step, step] at hstep
    split at hstep
    · next hpc =>
      split_ifs at hstep with hclient
      obtain rfl := Option.some.inj hstep
      exact h.goto (fun _ => Or.inl hpc) fun _ => hclient
    · exact nomatch hstep

/-- No thread of the JS8 version uses a missing client in runs that discard no client that another
thread has tested and not yet used. -/
theorem js8_not_nullUse (connected : Bool) (actions : List (Action T)) {s : State T}
    (hreset : Run.Along js8Step ResetUntested (init connected) actions)
    (hrun : Run.exec js8Step (init connected) actions = some s) (t : T) : ¬s.NullUse t := by
  rintro ⟨huse, hnull⟩
  have hinv := Run.inv_of_exec js8_inv_step (js8_inv_init connected) hreset hrun
  have hclient := hinv.client t (Or.inr (Or.inl huse))
  exact nomatch hclient.symm.trans hnull

instance [Fintype T] (s : State T) (a : Action T) : Decidable (s.ResetUntested a) :=
  match a with
  | .run t => inferInstanceAs (Decidable (s.pc t = .reset → ∀ u ≠ t, s.pc u ≠ .lock))
  | .call _ _ | .fail _ => isTrue trivial

/-- A write fails and discards the client, and a later call does not use it. -/
def lateCallRun : List (Action Bool) :=
  [.call true true, .run true, .run true, .fail true, .run true, .call false true, .run false]

theorem js8_not_nullUse_lateCallRun :
    ∃ s, Run.exec js8Step (init true) lateCallRun = some s ∧ s.ws_client = false ∧
      ∀ t, ¬s.NullUse t := by
  obtain ⟨s, hs⟩ := Option.isSome_iff_exists.1
    (by decide : (Run.exec js8Step (init true) lateCallRun).isSome)
  have hclient : (Run.exec js8Step (init true) lateCallRun).all (fun s => s.ws_client = false) := by
    decide
  rw [hs, Option.all_some, decide_eq_true_eq] at hclient
  exact ⟨s, hs, hclient, js8_not_nullUse true lateCallRun (by decide) hs⟩

/-- Both threads test the client; the write of the first fails. -/
def failedWriteRun : List (Action Bool) :=
  [.call true true, .call false true, .run true, .run false, .run true, .fail true, .run true,
    .run false]

/-- The second thread is about to use the client that the first one has discarded, and has no other
step to take. -/
theorem failedWriteRun_nullUse :
    ∃ s, Run.exec js8Step (init true) failedWriteRun = some s ∧ s.NullUse false ∧
      s.js8Step (.run false) = none := by
  obtain ⟨s, hs⟩ := Option.isSome_iff_exists.1
    (by decide : (Run.exec js8Step (init true) failedWriteRun).isSome)
  have huse : (Run.exec js8Step (init true) failedWriteRun).all (fun s =>
      s.pc false = .use ∧ s.ws_client = false ∧ (s.js8Step (.run false)).isNone) := by
    decide
  simp only [hs, Option.all_some, decide_eq_true_eq, Option.isNone_iff_eq_none] at huse
  exact ⟨s, hs, ⟨huse.1, huse.2.1⟩, huse.2.2⟩

/-! ## FT8 -/

/-- Where a thread of the FT8 version holds the mutex. -/
def Ft8Locks (pc : Pc) : Prop := pc = .test ∨ pc = .use ∨ pc = .reset

/-- Where a thread of the FT8 version relies on the client. -/
def Ft8Relies (pc : Pc) : Prop := pc = .use ∨ pc = .reset

omit [DecidableEq T] in
theorem ft8_inv_init (connected : Bool) : Inv Ft8Locks Ft8Relies (init connected : State T) where
  mutex _ h := by simp [init, Ft8Locks] at h
  client _ h := by simp [init, Ft8Relies] at h

theorem ft8_inv_run (h : Inv Ft8Locks Ft8Relies s) (hstep : s.ft8Run t = some s') :
    Inv Ft8Locks Ft8Relies s' := by
  have hidle : ¬Ft8Locks .idle ∧ ¬Ft8Relies .idle := by simp [Ft8Locks, Ft8Relies]
  cases hpc : s.pc t with
  | idle =>
    simp only [ft8Run, hpc] at hstep
    exact nomatch hstep
  | lock =>
    simp only [ft8Run, hpc] at hstep
    exact h.take (by simp [Ft8Relies]) hstep
  | test =>
    simp only [ft8Run, hpc, Option.some.injEq] at hstep
    subst hstep
    split_ifs with hclient
    · exact h.goto (fun _ => Or.inl hpc) fun _ => hclient
    · exact h.release (Or.inl hpc) hidle (Or.inl rfl)
  | use =>
    simp only [ft8Run, hpc] at hstep
    split_ifs at hstep
    obtain rfl := Option.some.inj hstep
    exact h.release (Or.inr (Or.inl hpc)) hidle (Or.inl rfl)
  | reset =>
    simp only [ft8Run, hpc, Option.some.injEq] at hstep
    subst hstep
    have hlocks : Ft8Locks (s.pc t) := Or.inr (Or.inr hpc)
    -- only the thread that holds the mutex relies on the client
    refine h.release hlocks hidle (Or.inr fun u hne hrelies => hne ?_)
    exact Option.some.inj ((h.mutex u (Or.inr hrelies)).symm.trans (h.mutex t hlocks))

theorem ft8_inv_step (s : State T) (a : Action T) (s' : State T) (h : Inv Ft8Locks Ft8Relies s)
    (hstep : s.ft8Step a = some s') : Inv Ft8Locks Ft8Relies s' := by
  cases a with
  | call t from_call =>
    simp only [ft8Step, step] at hstep
    split at hstep
    · obtain rfl := Option.some.inj hstep
      exact h.goto (by simp [Ft8Locks]) (by simp [Ft8Relies])
    · exact nomatch hstep
  | run t => exact ft8_inv_run h hstep
  | fail t =>
    simp only [ft8Step, step] at hstep
    split at hstep
    · next hpc =>
      split_ifs at hstep with hclient
      obtain rfl := Option.some.inj hstep
      exact h.goto (fun _ => Or.inr (Or.inl hpc)) fun _ => hclient
    · exact nomatch hstep

/-- No thread of the FT8 version uses a missing client. -/
theorem ft8_not_nullUse (connected : Bool) (actions : List (Action T)) {s : State T}
    (hrun : Run.exec ft8Step (init connected) actions = some s) (t : T) : ¬s.NullUse t := by
  rintro ⟨huse, hnull⟩
  have hinv := Run.inv_of_exec' ft8_inv_step (ft8_inv_init connected) hrun
  exact nomatch (hinv.client t (Or.inl huse)).symm.trans hnull

end State

end GranolaSdr.Hf.Publish
