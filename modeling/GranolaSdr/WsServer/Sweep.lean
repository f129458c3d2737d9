import GranolaSdr.Lib.Run
import GranolaSdr.WsServer.Invariant

/-!
# The expiry sweep

`sweep_expired` collects the expired keys under a read lock and removes them one by one under write
locks, and `run_ttl_sweep` then broadcasts the removed keys. By the time a key is removed the list
is stale: the key may have been stored again, with another expiry or with none, or deleted.

## Main definitions

* `State.removal`, `State.expiryBroadcast`: the key a step removes in a sweep or reports expired,
  with the number of the operation;
* `State.SweepsExpired`: a step of the sweep removes expired entries only.

## Main results

* `sweep_safe`: a sweep removes only what is expired when it is removed, reports exactly its
  removals, in order and once each, and comes to its end.
-/

namespace GranolaSdr.WsServer

variable {V : Type*}

namespace State

/-- The key that a step of the sweep removes, with the number of the operation on the key. -/
def removal (s : State V) : Action V → List (Text × ℕ)
  | .sweep =>
    match s.sweep with
    | .check (key :: _) _ =>
      if (s.dict.removeExpired s.now key).isSome then [(key, s.ops key + 1)] else []
    | _ => []
  | _ => []

/-- The key that a step reports expired to all subscribers, with the number of the operation. -/
def expiryBroadcast (s : State V) (a : Action V) : List (Text × ℕ) :=
  match s.fansOut a with
  | some (_, ⟨.key_expired key, stamp⟩) => [(key, stamp)]
  | _ => []

/-- The step is one of the sweep. -/
def Sweeps : Action V → Prop
  | .sweep | .candidates _ => True
  | _ => False

/-- If the step is one of the sweep, it removes the entries that it records as removed, which are
expired, and leaves all others as they are. -/
def SweepsExpired (s : State V) (a : Action V) : Prop :=
  ∀ t ∈ s.step a, Sweeps a → ∀ k,
    if k ∈ (s.removal a).map Prod.fst then
      (∃ e, s.dict.lookup k = some e ∧ e.Expired s.now) ∧ t.dict.lookup k = none
    else t.dict.lookup k = s.dict.lookup k

variable {s t : State V} {a : Action V}

/-- The check under the write lock: a candidate is removed exactly if its entry is expired then. -/
theorem removeExpired_eq_some_iff {d d' : Dict V} {now : ℕ} {key : Text} :
    d.removeExpired now key = some d' ↔
      (∃ e, d.lookup key = some e ∧ e.Expired now) ∧ d.erase key = d' := by
  simp only [Dict.removeExpired, Option.bind_eq_some_iff, Option.ite_none_right_eq_some,
    Option.some.injEq]
  constructor
  · rintro ⟨e, he, hexp, rfl⟩
    exact ⟨⟨e, he, hexp⟩, rfl⟩
  · rintro ⟨⟨e, he, hexp⟩, rfl⟩
    exact ⟨e, he, hexp, rfl⟩

/-- What a step of the sweep does: it removes the next candidate, which is expired, or leaves the
dictionary alone. -/
theorem sweepStep_dict (hstep : s.sweepStep = some t) :
    (∃ key, s.removal .sweep = [(key, s.ops key + 1)] ∧
      (∃ e, s.dict.lookup key = some e ∧ e.Expired s.now) ∧ t.dict = s.dict.erase key) ∨
    s.removal .sweep = [] ∧ t.dict = s.dict := by
  simp only [sweepStep] at hstep
  split at hstep
  · obtain rfl := Option.some.inj hstep
    simp [removal, *]
  · cases hstep
  · obtain rfl := Option.some.inj hstep
    simp [removal, *]
  · next key candidates removed hsweep =>
    split at hstep
    · next dict hdict =>
      obtain rfl := Option.some.inj hstep
      obtain ⟨hexp, rfl⟩ := removeExpired_eq_some_iff.1 hdict
      -- the key is still expired at the moment it is looked at
      exact .inl ⟨key, by simp [removal, hsweep, hdict], hexp, rfl⟩
    · next hdict =>
      obtain rfl := Option.some.inj hstep
      exact .inr ⟨by simp [removal, hsweep, hdict], rfl⟩
  · obtain rfl := Option.some.inj hstep
    simp [removal, *]
  · obtain rfl := Option.some.inj hstep
    refine .inr ⟨?_, rfl⟩
    simp [removal, *]

theorem sweepsExpired (s : State V) (a : Action V) : s.SweepsExpired a := by
  intro t ht hsweeps k
  cases a with
  | sweep =>
    rcases sweepStep_dict ht with ⟨key, hremoval, hexp, hdict⟩ | ⟨hremoval, hdict⟩
    · rw [hremoval, hdict]
      rcases eq_or_ne k key with rfl | hne
      · rw [if_pos (by simp)]
        -- the key removed is the one that was looked at
        exact ⟨hexp, AList.lookup_erase _ _⟩
      · rw [if_neg (by simpa using hne)]
        exact Dict.lookup_erase_of_ne hne
    · rw [hremoval, hdict, if_neg (by simp)]
  | candidates order =>
    simp only [step] at ht
    split at ht
    · split_ifs at ht
      · obtain rfl := Option.some.inj ht
        simp [removal]
      · cases ht
    · cases ht
  | _ => exact hsweeps.elim

/-! ## Removals and reports -/

/-- A step of a handler reports no expiry. -/
theorem expiryBroadcast_run (h : s.HandlersReport) (c : ConnectionId) :
    s.expiryBroadcast (.run c) = [] := by
  rw [expiryBroadcast, fansOut]
  split
  · next key stamp hfans =>
    split at hfans
    · next key msg stamp htask =>
      obtain ⟨rfl, rfl, rfl⟩ : _ ∧ _ ∧ _ := by simpa using hfans
      have hmsg := h c (key, stamp, .key_expired _) (by rw [htask]; rfl)
      simp at hmsg
    · cases hfans
  · rfl

/-- The steps of the connections leave the sweep where it is. -/
theorem sweep_of_not_sweeps (hsweeps : ¬Sweeps a) (hstep : s.step a = some t) :
    t.sweep = s.sweep := by
  cases a with
  | sweep | candidates => exact absurd trivial hsweeps
  | tick d =>
    obtain rfl := Option.some.inj hstep
    rfl
  | run c =>
    rcases run_cases hstep with ⟨-, conn, -, -, rfl⟩ | ⟨-, key, dict, msg, -, rfl⟩ |
      ⟨key, msg, stamp, -, rfl⟩
    · rfl
    · rfl
    · rfl
  -- a listing is a handler's step and leaves the sweeper as it is
  | listing c order =>
    simp only [step, listing] at hstep
    split at hstep
    · split_ifs at hstep
      obtain rfl := Option.some.inj hstep
      rfl
    · split_ifs at hstep
      obtain rfl := Option.some.inj hstep
      rfl
    · cases hstep
  | request c | malformed c | deliver c | close c =>
    simp only [step] at hstep
    split at hstep <;> cases hstep
    rfl

/-- The next report of a sweep is its first removal that has not been reported. -/
theorem expiryBroadcast_sweepStep (hstep : s.sweepStep = some t) :
    s.expiryBroadcast .sweep ++ t.sweep.removed = s.sweep.removed ++ s.removal .sweep := by
  simp only [sweepStep] at hstep
  -- one case for each place of the sweep; only the last one reports
  split at hstep
  · next hsweep =>
    obtain rfl := Option.some.inj hstep
    simp [expiryBroadcast, fansOut, removal, Sweep.removed, hsweep]
  · cases hstep
  · next removed hsweep =>
    obtain rfl := Option.some.inj hstep
    simp [expiryBroadcast, fansOut, removal, Sweep.removed, hsweep]
  · next key candidates removed hsweep =>
    split at hstep
    · next dict hdict =>
      obtain rfl := Option.some.inj hstep
      simp [expiryBroadcast, fansOut, removal, Sweep.removed, hsweep, hdict]
    · next hdict =>
      obtain rfl := Option.some.inj hstep
      simp [expiryBroadcast, fansOut, removal, Sweep.removed, hsweep, hdict]
  · next hsweep =>
    obtain rfl := Option.some.inj hstep
    simp [expiryBroadcast, fansOut, removal, Sweep.removed, hsweep]
  · next key stamp removed hsweep =>
    obtain rfl := Option.some.inj hstep
    simp [expiryBroadcast, fansOut, removal, Sweep.removed, hsweep]

/-- A step reports expired what comes first among the removals to be reported, and its own removal
comes last. -/
theorem expiryBroadcast_append_removed (s : State V) (a : Action V) (t : State V)
    (h : s.HandlersReport) (hstep : s.step a = some t) :
    s.expiryBroadcast a ++ t.sweep.removed = s.sweep.removed ++ s.removal a := by
  by_cases hsweeps : Sweeps a
  · cases a with
    | sweep => exact expiryBroadcast_sweepStep hstep
    | candidates order =>
      simp only [step] at hstep
      split at hstep
      · next now hsweep =>
        split_ifs at hstep
        obtain rfl := Option.some.inj hstep
        simp [expiryBroadcast, fansOut, removal, Sweep.removed, hsweep]
      · cases hstep
    | _ => exact hsweeps.elim
  · rw [sweep_of_not_sweeps hsweeps hstep]
    cases a with
    | sweep | candidates => exact absurd trivial hsweeps
    -- a handler fans out no expiry, and nothing else broadcasts
    | run c => simp [expiryBroadcast_run h, removal]
    | _ => simp [expiryBroadcast, fansOut, removal]

/-! ## The end of a sweep -/

/-- A sweep that is reporting its removals comes to its end. -/
theorem exists_exec_of_notify {removed : List (Text × ℕ)} (hsweep : s.sweep = .notify removed) :
    ∃ as t, (∀ a ∈ as, Sweeps a) ∧ Run.exec step s as = some t ∧ t.sweep = .idle := by
  induction removed generalizing s with
  | nil =>
    refine ⟨[.sweep], { s with sweep := .idle }, by simp [Sweeps], ?_, rfl⟩
    simp [step, sweepStep, hsweep]
  | cons removal removed ih =>
    obtain ⟨key, stamp⟩ := removal
    obtain ⟨as, t, has, hrun, hidle⟩ := ih
      (s := { s.fan_out key (.key_expired key) stamp with sweep := .notify removed }) rfl
    refine ⟨.sweep :: as, t, by simpa [Sweeps] using has, ?_, hidle⟩
    simpa [step, sweepStep, hsweep] using hrun

/-- A sweep that has collected its candidates comes to its end. -/
theorem exists_exec_of_check {candidates : List Text} {removed : List (Text × ℕ)}
    (hsweep : s.sweep = .check candidates removed) :
    ∃ as t, (∀ a ∈ as, Sweeps a) ∧ Run.exec step s as = some t ∧ t.sweep = .idle := by
  induction candidates generalizing s removed with
  | nil =>
    obtain ⟨as, t, has, hrun, hidle⟩ :=
      exists_exec_of_notify (s := { s with sweep := .notify removed }) rfl
    refine ⟨.sweep :: as, t, by simpa [Sweeps] using has, ?_, hidle⟩
    simpa [step, sweepStep, hsweep] using hrun
  | cons key candidates ih =>
    -- one step looks at the first candidate; the rest of the run is that of the others
    cases hdict : s.dict.removeExpired s.now key with
    | none =>
      obtain ⟨as, t, has, hrun, hidle⟩ :=
        ih (s := { s with sweep := .check candidates removed }) rfl
      refine ⟨.sweep :: as, t, by simpa [Sweeps] using has, ?_, hidle⟩
      simpa [step, sweepStep, hsweep, hdict] using hrun
    | some dict =>
      obtain ⟨as, t, has, hrun, hidle⟩ := ih (s := { s.change key dict with
        sweep := .check candidates (removed ++ [(key, s.ops key + 1)]) }) rfl
      refine ⟨.sweep :: as, t, by simpa [Sweeps] using has, ?_, hidle⟩
      simpa [step, sweepStep, hsweep, hdict] using hrun

/-- Wherever a sweep stands, its own steps bring it to its end. -/
theorem exists_exec_idle (s : State V) :
    ∃ as t, (∀ a ∈ as, Sweeps a) ∧ Run.exec step s as = some t ∧ t.sweep = .idle := by
  cases hsweep : s.sweep with
  | idle => exact ⟨[], s, by simp, rfl, hsweep⟩
  | collect now =>
    obtain ⟨as, t, has, hrun, hidle⟩ :=
      exists_exec_of_check (s := { s with sweep := .check (s.dict.expired now) [] }) rfl
    refine ⟨.candidates (s.dict.expired now) :: as, t, by simpa [Sweeps] using has, ?_, hidle⟩
    simpa [step, hsweep] using hrun
  | check candidates removed => exact exists_exec_of_check hsweep
  | notify removed => exact exists_exec_of_notify hsweep

end State

/-- In every run a sweep removes only entries that are expired when they are removed, and the
expiries reported to the subscribers are the removals of the sweeps, in order and once each, but for
those that the sweep under way has still to report. That sweep can always come to its end by
itself. -/
theorem sweep_safe {as : List (Action V)} {s : State V}
    (hrun : Run.exec State.step init as = some s) :
    Run.Along State.step State.SweepsExpired init as ∧
      Run.trace State.step State.expiryBroadcast init as ++ s.sweep.removed =
        Run.trace State.step State.removal init as ∧
      ∃ bs t, (∀ b ∈ bs, State.Sweeps b) ∧ Run.exec State.step s bs = some t ∧
        t.sweep = .idle := by
  refine ⟨?_, ?_, s.exists_exec_idle⟩
  · rw [Run.along_iff]
    intro bs a _ t _
    exact t.sweepsExpired a
  · have htrace := Run.trace_append_waiting State.handlersReport_step
      State.expiryBroadcast_append_removed State.handlersReport_init hrun
    simpa [init, Sweep.removed] using htrace

/-- A value of `k` has expired and been collected when it is stored again. -/
def refreshedRun : List (Action ℕ) :=
  [.request 0 (.set ['k'] 1 (some 5)), .run 0, .run 0, .request 0 (.set ['l'] 1 (some 5)), .run 0,
    .run 0, .tick 5, .sweep, .candidates [['k'], ['l']], .request 1 (.set ['k'] 2 none), .run 1,
    .sweep, .sweep, .sweep, .sweep]

/-- The value stored again stays, and only the other key is reported expired. -/
theorem sweep_safe_refreshedRun :
    ∃ s, Run.exec State.step init refreshedRun = some s ∧
      Run.Along State.step State.SweepsExpired init refreshedRun ∧
      Run.trace State.step State.expiryBroadcast init refreshedRun ++ s.sweep.removed =
        Run.trace State.step State.removal init refreshedRun ∧
      s.dict.get s.now ['k'] = some 2 ∧
      Run.trace State.step State.removal init refreshedRun = [(['l'], 2)] := by
  obtain ⟨s, hs⟩ := Option.isSome_iff_exists.1
    (by decide : (Run.exec State.step init refreshedRun).isSome)
  have hget : (Run.exec State.step init refreshedRun).all (fun s =>
      s.dict.get s.now ['k'] = some 2) := by
    decide
  rw [hs, Option.all_some, decide_eq_true_eq] at hget
  obtain ⟨halong, htrace, -⟩ := sweep_safe hs
  exact ⟨s, hs, halong, htrace, hget, by decide⟩

end GranolaSdr.WsServer
