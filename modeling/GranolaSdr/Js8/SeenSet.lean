import GranolaSdr.Lib.Run
import GranolaSdr.Js8.Crc12
import GranolaSdr.Js8.Directed
import GranolaSdr.Hf.RefineWorker
import Mathlib.Data.Rat.Floor

/-!
# Which JS8 messages are published

The scan callback and the refine worker publish through `publishCandidateCore`. A message that has
been seen at its frequency bin is suppressed; the set of those seen is shared by both threads and
is emptied by the first scan of each decode epoch. A refine job carries the time of the scan that
queued it, and may be served after a scan of a later epoch. The clock never goes back here: that the
system's clock may be set back while the program runs is left out.

## Main definitions

* `publishCandidateCore`: the checks, the seen set and the publication of one candidate;
* `State`, `step`: the two threads, the queue between them and the clock;
* `State.Timely`: no refinement is published after the seen set has moved on to another epoch.

## Main results

* `State.published_nodup`: in a run with timely refinements only, no two publications share text,
  bin and epoch.
-/

namespace GranolaSdr.Js8

/-- What a candidate carries besides its bits: frequency bin, time block and sub-block, score. -/
structure Candidate where
  fo : ℤ
  to_ : ℤ
  ts : ℤ
  score : ℤ
  deriving DecidableEq

/-- A candidate queued for the refine worker, with the time of the scan that queued it. -/
structure RefineJob extends Candidate where
  snap_start : ℕ
  unix_now : ℚ
  deriving DecidableEq

/-- A call of `publishDecoded`. -/
structure Publication extends Candidate where
  text : List Char
  from_call : List Char
  unix_time : ℚ
  deriving DecidableEq

/-- The key under which a message at a frequency bin is remembered. -/
def dedupKey (text : List Char) (fo : ℤ) : List Char := text ++ '|' :: (toString fo).toList

/-- The result of `publishCandidateCore`: whether the frame was good, the set of messages seen, and
the publication that follows. -/
structure Core where
  decoded : Bool
  seen_this_epoch : List (List Char)
  publication : Option Publication
  deriving DecidableEq

/-- Check, decode and publish one candidate, unless its message has been seen. -/
def publishCandidateCore (jsc_map : Fin Jsc.kJscSize → List Char)
    (seen_this_epoch : List (List Char))
    (info : List Bool) (cand : Candidate) (unix_now : ℚ) : Core :=
  -- a bad frame is not decoded
  if !checkCRC12 info then ⟨false, seen_this_epoch, none⟩
  else if (extractMessage12 info).isEmpty then ⟨false, seen_this_epoch, none⟩
  else
    let message := decodeJs8Message jsc_map info
    let dedup_key := dedupKey message.text cand.fo
    -- counted as decoded, but not published again
    if dedup_key ∈ seen_this_epoch then ⟨true, seen_this_epoch, none⟩
    else
      ⟨true, dedup_key :: seen_this_epoch,
        some ⟨cand, message.text, message.from_call.getD [], unix_now⟩⟩

/-- A candidate either leaves the seen set alone, or it is published and its message, not seen so
far, is added. -/
theorem publishCandidateCore_cases (jsc_map : Fin Jsc.kJscSize → List Char)
    (seen : List (List Char)) (info : List Bool) (cand : Candidate) (unix_now : ℚ) :
    let core := publishCandidateCore jsc_map seen info cand unix_now
    (core.publication = none ∧ core.seen_this_epoch = seen) ∨
    ∃ p, core.publication = some p ∧ p.unix_time = unix_now ∧ dedupKey p.text p.fo ∉ seen ∧
      core.seen_this_epoch = dedupKey p.text p.fo :: seen := by
  dsimp only [publishCandidateCore]
  split_ifs with hcrc hempty hseen
  · exact Or.inl ⟨rfl, rfl⟩
  · exact Or.inl ⟨rfl, rfl⟩
  · exact Or.inl ⟨rfl, rfl⟩
  · exact Or.inr ⟨_, rfl, rfl, hseen, rfl⟩

/-- The cycle length of a mode, in seconds. -/
structure Mode where
  cycle_secs : ℚ
  pos : 0 < cycle_secs

/-- The decode epoch of a time. -/
def Mode.epoch (mode : Mode) (unix_now : ℚ) : ℕ := ⌊unix_now / mode.cycle_secs⌋₊

theorem Mode.epoch_mono (mode : Mode) {t t' : ℚ} (h : t ≤ t') : mode.epoch t ≤ mode.epoch t' :=
  Nat.floor_mono (div_le_div_of_nonneg_right h mode.pos.le)

/-- What tells publications apart: text, frequency bin and epoch. -/
def Mode.key (mode : Mode) (p : Publication) : List Char × ℤ × ℕ :=
  (p.text, p.fo, mode.epoch p.unix_time)

/-! ## The two threads -/

/-- Where the scan callback stands. -/
inductive Scan where
  | idle
  /-- The clock has been read, the epoch not yet compared. -/
  | clock (unix_now : ℚ)
  /-- Between two candidates. -/
  | candidates (unix_now : ℚ)
  /-- Before `publishDecoded` is called for a candidate that has passed. -/
  | publish (unix_now : ℚ) (p : Publication)
  deriving DecidableEq

/-- Where the refine worker stands. -/
inductive Worker where
  | idle
  /-- Refining the candidate of a job. -/
  | refine (job : RefineJob)
  /-- Before `publishDecoded` is called for a candidate that has passed. -/
  | publish (p : Publication)
  deriving DecidableEq

/-- The publication the scan callback is about to make. -/
def Scan.pending : Scan → List Publication
  | .publish _ p => [p]
  | _ => []

/-- The publication the refine worker is about to make. -/
def Worker.pending : Worker → List Publication
  | .publish p => [p]
  | _ => []

/-- The shared state of a JS8 decoder, its two threads, the clock, and the publications so far. -/
structure State where
  now : ℚ
  seen_this_epoch : List (List Char)
  last_epoch : ℕ
  refine_q : List RefineJob
  scan : Scan
  worker : Worker
  published : List Publication
  deriving DecidableEq

/-- What can happen next. -/
inductive Action where
  /-- The clock moves on. -/
  | tick (t : ℚ)
  /-- A scan with candidates calls back, which reads the clock. -/
  | scanClock
  /-- The scan callback empties the seen set if the epoch is a new one. -/
  | scanEpoch
  /-- The scan callback handles a candidate whose bits have been decoded. -/
  | scanCandidate (info : List Bool) (cand : Candidate)
  | scanPublish
  /-- The scan callback queues a candidate that could not be decoded. -/
  | scanEnqueue (cand : Candidate) (snap_start : ℕ)
  | scanReturn
  /-- The worker takes the oldest job. -/
  | workerTake
  /-- The refined candidate cannot be decoded. -/
  | workerFail
  /-- The refined candidate has been decoded to these bits. -/
  | workerCandidate (info : List Bool)
  | workerPublish
  deriving DecidableEq

/-- The state at the start. -/
def init (t : ℚ) : State where
  now := t
  seen_this_epoch := []
  last_epoch := 0
  refine_q := []
  scan := .idle
  worker := .idle
  published := []

namespace State

/-- The publications made and those decided on. -/
def decided (s : State) : List Publication :=
  s.worker.pending ++ (s.scan.pending ++ s.published)

variable (jsc_map : Fin Jsc.kJscSize → List Char) (mode : Mode)

/-- The steps of the clock, which never goes back, and of the two threads. -/
def step (s : State) : Action → Option State
  | .tick t => if s.now ≤ t then some { s with now := t } else none
  | .scanClock =>
    match s.scan with
    | .idle => some { s with scan := .clock s.now }
    | _ => none
  | .scanEpoch =>
    match s.scan with
    | .clock unix_now =>
      let epoch := mode.epoch unix_now
      -- the first scan of an epoch empties the set
      if epoch ≠ s.last_epoch then
        some { s with seen_this_epoch := [], last_epoch := epoch, scan := .candidates unix_now }
      else some { s with scan := .candidates unix_now }
    | _ => none
  | .scanCandidate info cand =>
    match s.scan with
    | .candidates unix_now =>
      let core := publishCandidateCore jsc_map s.seen_this_epoch info cand unix_now
      some { s with
        seen_this_epoch := core.seen_this_epoch
        scan := core.publication.elim (.candidates unix_now) (.publish unix_now) }
    | _ => none
  | .scanPublish =>
    match s.scan with
    | .publish unix_now p =>
      some { s with scan := .candidates unix_now, published := p :: s.published }
    | _ => none
  | .scanEnqueue cand snap_start =>
    match s.scan with
    | .candidates unix_now =>
      some { s with refine_q := Hf.Refine.pushJob s.refine_q ⟨cand, snap_start, unix_now⟩ }
    | _ => none
  | .scanReturn =>
    match s.scan with
    | .candidates _ => some { s with scan := .idle }
    | _ => none
  | .workerTake =>
    match s.worker, s.refine_q with
    | .idle, job :: refine_q => some { s with refine_q := refine_q, worker := .refine job }
    | _, _ => none
  | .workerFail =>
    match s.worker with
    | .refine _ => some { s with worker := .idle }
    | _ => none
  | .workerCandidate info =>
    match s.worker with
    | .refine job =>
      let core :=
        publishCandidateCore jsc_map s.seen_this_epoch info job.toCandidate job.unix_now
      some { s with
        seen_this_epoch := core.seen_this_epoch
        worker := core.publication.elim .idle .publish }
    | _ => none
  | .workerPublish =>
    match s.worker with
    | .publish p => some { s with worker := .idle, published := p :: s.published }
    | _ => none

/-- A refined candidate that has not been seen belongs to the epoch of the seen set. -/
def Timely (s : State) : Action → Prop
  | .workerCandidate info =>
    ∀ job, s.worker = .refine job →
      (publishCandidateCore jsc_map s.seen_this_epoch info job.toCandidate
        job.unix_now).publication.isSome →
      mode.epoch job.unix_now = s.last_epoch
  | _ => True

/-- The invariant: the publications differ, those of the seen set's epoch are in it, and no epoch
is ahead of the seen set's but that of a scan about to compare it. -/
structure Inv (s : State) : Prop where
  nodup : (s.decided.map mode.key).Nodup
  seen : ∀ p ∈ s.decided, mode.epoch p.unix_time = s.last_epoch →
    dedupKey p.text p.fo ∈ s.seen_this_epoch
  past : ∀ p ∈ s.decided, mode.epoch p.unix_time ≤ s.last_epoch
  clock : ∀ u, s.scan = .clock u → s.last_epoch ≤ mode.epoch u ∧ u ≤ s.now
  candidates : ∀ u, (s.scan = .candidates u ∨ ∃ p, s.scan = .publish u p) →
    mode.epoch u = s.last_epoch
  now : s.last_epoch ≤ mode.epoch s.now

variable {jsc_map mode} {s s' : State}

theorem inv_init (t : ℚ) : (init t).Inv mode where
  nodup := List.nodup_nil
  seen := nofun
  past := nofun
  clock := nofun
  candidates := nofun
  now := Nat.zero_le _

/-- A step that leaves the publications, the seen set and its epoch alone. -/
theorem Inv.of_decided (h : s.Inv mode) (hdecided : s'.decided.Perm s.decided)
    (hseen : s'.seen_this_epoch = s.seen_this_epoch) (hepoch : s'.last_epoch = s.last_epoch)
    (hclock : ∀ u, s'.scan = .clock u → s.last_epoch ≤ mode.epoch u ∧ u ≤ s'.now)
    (hcandidates : ∀ u, (s'.scan = .candidates u ∨ ∃ p, s'.scan = .publish u p) →
      mode.epoch u = s.last_epoch)
    (hnow : s.last_epoch ≤ mode.epoch s'.now) : s'.Inv mode where
  nodup := (hdecided.map mode.key).nodup_iff.2 h.nodup
  seen p hp hlast := hseen ▸ h.seen p (hdecided.mem_iff.1 hp) (hepoch ▸ hlast)
  past p hp := hepoch ▸ h.past p (hdecided.mem_iff.1 hp)
  clock u hu := hepoch ▸ hclock u hu
  candidates u hu := hepoch ▸ hcandidates u hu
  now := hepoch ▸ hnow

/-- A step that leaves the clock and the scan callback alone as well. -/
theorem Inv.of_worker (h : s.Inv mode) (hdecided : s'.decided.Perm s.decided)
    (hseen : s'.seen_this_epoch = s.seen_this_epoch) (hepoch : s'.last_epoch = s.last_epoch)
    (hscan : s'.scan = s.scan) (hnow : s'.now = s.now) : s'.Inv mode := by
  refine h.of_decided hdecided hseen hepoch ?_ ?_ ?_
  · rw [hscan, hnow]
    exact h.clock
  · rw [hscan]
    exact h.candidates
  · rw [hnow]
    exact h.now

/-- Between two candidates the epoch to match is that of the clock read at the start. -/
theorem epoch_of_candidates {u : ℚ} {n : ℕ} (hu : mode.epoch u = n) (v : ℚ)
    (hv : Scan.candidates u = .candidates v ∨ ∃ p, Scan.candidates u = .publish v p) :
    mode.epoch v = n := by
  rcases hv with hv | ⟨p, hp⟩
  · obtain rfl := Scan.candidates.inj hv
    exact hu
  · cases hp

/-- A step that decides on a publication of the seen set's epoch whose key is new. -/
theorem Inv.of_publish (h : s.Inv mode) {p : Publication}
    (hepoch : mode.epoch p.unix_time = s.last_epoch)
    (hnew : dedupKey p.text p.fo ∉ s.seen_this_epoch) (hdecided : s'.decided.Perm (p :: s.decided))
    (hseen : s'.seen_this_epoch = dedupKey p.text p.fo :: s.seen_this_epoch)
    (hlast : s'.last_epoch = s.last_epoch)
    (hclock : ∀ u, s'.scan = .clock u → s.last_epoch ≤ mode.epoch u ∧ u ≤ s'.now)
    (hcandidates : ∀ u, (s'.scan = .candidates u ∨ ∃ p, s'.scan = .publish u p) →
      mode.epoch u = s.last_epoch)
    (hnow : s.last_epoch ≤ mode.epoch s'.now) : s'.Inv mode where
  nodup := by
    rw [(hdecided.map mode.key).nodup_iff, List.map_cons, List.nodup_cons]
    refine ⟨fun hmem => ?_, h.nodup⟩
    obtain ⟨q, hq, hkey⟩ := List.mem_map.1 hmem
    simp only [Mode.key, Prod.mk.injEq] at hkey
    obtain ⟨htext, hfo, hsame⟩ := hkey
    -- an equal publication is of this epoch too, so its key has been seen
    have hold := h.seen q hq (hsame.trans hepoch)
    rw [htext, hfo] at hold
    exact hnew hold
  seen q hq hq_last := by
    rw [hseen]
    rcases List.mem_cons.1 (hdecided.mem_iff.1 hq) with rfl | hq
    · exact List.mem_cons_self
    · exact List.mem_cons_of_mem _ (h.seen q hq (hlast ▸ hq_last))
  past q hq := by
    rw [hlast]
    rcases List.mem_cons.1 (hdecided.mem_iff.1 hq) with rfl | hq
    · exact hepoch.le
    · exact h.past q hq
  clock u hu := hlast ▸ hclock u hu
  candidates u hu := hlast ▸ hcandidates u hu
  now := hlast ▸ hnow

theorem inv_scanEpoch (h : s.Inv mode) (hstep : s.step jsc_map mode .scanEpoch = some s') :
    s'.Inv mode := by
  cases hscan : s.scan with
  | clock u =>
    obtain ⟨hlast, hu⟩ := h.clock u hscan
    simp only [step, hscan] at hstep
    have hpending : ∀ p ∈ s.worker.pending ++ ([] ++ s.published), p ∈ s.decided := by
      intro p hp
      simpa [decided, Scan.pending, hscan] using hp
    split_ifs at hstep with hne
    · obtain rfl := Option.some.inj hstep
      have hlt : s.last_epoch < mode.epoch u := lt_of_le_of_ne hlast (Ne.symm hne)
      refine ⟨?_, fun p hp heq => ?_, fun p hp => ?_, by simp, ?_, mode.epoch_mono hu⟩
      · simpa [decided, Scan.pending, hscan] using h.nodup
      · -- the set is emptied, and nothing has been published in the new epoch
        exact absurd (h.past p (hpending p hp)) (by rw [heq]; exact Nat.not_le.2 hlt)
      · exact (h.past p (hpending p hp)).trans hlast
      · exact epoch_of_candidates rfl
    · obtain rfl := Option.some.inj hstep
      exact h.of_decided (by simp [decided, Scan.pending, hscan]) rfl rfl (by simp)
        (epoch_of_candidates (not_not.1 hne)) h.now
  | idle | candidates | publish =>
    simp only [step, hscan] at hstep
    cases hstep

theorem inv_scanCandidate (h : s.Inv mode) {info : List Bool} {cand : Candidate}
    (hstep : s.step jsc_map mode (.scanCandidate info cand) = some s') : s'.Inv mode := by
  cases hscan : s.scan with
  | candidates u =>
    have hu := h.candidates u (Or.inl hscan)
    simp only [step, hscan, Option.some.injEq] at hstep
    subst hstep
    rcases publishCandidateCore_cases jsc_map s.seen_this_epoch info cand u with
      ⟨hnone, hseen⟩ | ⟨p, hsome, hunix, hnew, hseen⟩
    · -- nothing is published, and the set stays
      rw [hnone, hseen]
      exact h.of_decided (by simp [decided, Scan.pending, hscan]) rfl rfl (by simp)
        (epoch_of_candidates hu) h.now
    · rw [hsome, hseen]
      -- the scan's clock is of the epoch of the set
      refine h.of_publish (hunix ▸ hu) hnew ?_ rfl rfl (by simp) ?_ h.now
      · simp [decided, Scan.pending, hscan]
      · rintro v (hv | ⟨q, hq⟩)
        · cases hv
        · obtain ⟨rfl, -⟩ := Scan.publish.inj hq
          exact hu
  | idle | clock | publish =>
    simp only [step, hscan] at hstep
    cases hstep

theorem inv_workerCandidate (h : s.Inv mode) {info : List Bool}
    (htimely : s.Timely jsc_map mode (.workerCandidate info))
    (hstep : s.step jsc_map mode (.workerCandidate info) = some s') : s'.Inv mode := by
  cases hworker : s.worker with
  | refine job =>
    have htimely := htimely job hworker
    simp only [step, hworker, Option.some.injEq] at hstep
    subst hstep
    rcases publishCandidateCore_cases jsc_map s.seen_this_epoch info job.toCandidate job.unix_now
      with ⟨hnone, hseen⟩ | ⟨p, hsome, hunix, hnew, hseen⟩
    · rw [hnone, hseen]
      exact h.of_worker (by simp [decided, Worker.pending, hworker]) rfl rfl rfl rfl
    · rw [hsome] at htimely
      rw [hsome, hseen]
      -- a timely refinement is of the epoch of the set too
      refine h.of_publish (hunix ▸ htimely rfl) hnew ?_ rfl rfl h.clock h.candidates h.now
      simp [decided, Worker.pending, hworker]
  | idle | publish =>
    simp only [step, hworker] at hstep
    cases hstep

/-- Every step keeps the invariant, if the refinements are timely. -/
theorem inv_step (s : State) (a : Action) (s' : State) (h : s.Inv mode)
    (htimely : s.Timely jsc_map mode a) (hstep : s.step jsc_map mode a = some s') :
    s'.Inv mode := by
  cases a with
  | tick t =>
    simp only [step, Option.ite_none_right_eq_some, Option.some.injEq] at hstep
    obtain ⟨hle, rfl⟩ := hstep
    -- time passes: what has been decided stays
    exact h.of_decided (List.Perm.refl _) rfl rfl
      (fun u hu => ⟨(h.clock u hu).1, (h.clock u hu).2.trans hle⟩) h.candidates
      (h.now.trans (mode.epoch_mono hle))
  | scanClock =>
    simp only [step] at hstep
    split at hstep
    · next hidle =>
      obtain rfl := Option.some.inj hstep
      -- the scan reads the clock, so its time is not after the present
      refine h.of_decided (by simp [decided, Scan.pending, hidle]) rfl rfl ?_ (by simp) h.now
      intro u hu
      obtain rfl := Scan.clock.inj hu
      exact ⟨h.now, le_rfl⟩
    · cases hstep
  | scanEpoch => exact inv_scanEpoch h hstep
  | scanCandidate info cand => exact inv_scanCandidate h hstep
  | scanPublish =>
    simp only [step] at hstep
    split at hstep
    · next u p hpublish =>
      obtain rfl := Option.some.inj hstep
      -- the decision of the scan becomes a publication
      exact h.of_decided (by simp [decided, Scan.pending, hpublish]) rfl rfl (by simp)
        (epoch_of_candidates (h.candidates u (Or.inr ⟨p, hpublish⟩))) h.now
    · cases hstep
  | scanEnqueue cand snap_start =>
    simp only [step] at hstep
    split at hstep
    · obtain rfl := Option.some.inj hstep
      -- a job for the worker is no decision yet
      exact h.of_worker (List.Perm.refl _) rfl rfl rfl rfl
    · cases hstep
  | scanReturn =>
    simp only [step] at hstep
    split at hstep
    · next u hcandidates =>
      obtain rfl := Option.some.inj hstep
      exact h.of_decided (by simp [decided, Scan.pending, hcandidates]) rfl rfl (by simp) (by simp)
        h.now
    · cases hstep
  | workerTake =>
    simp only [step] at hstep
    split at hstep
    · next hidle _ =>
      obtain rfl := Option.some.inj hstep
      exact h.of_worker (by simp [decided, Worker.pending, hidle]) rfl rfl rfl rfl
    · cases hstep
  | workerFail =>
    simp only [step] at hstep
    split at hstep
    · next job hjob =>
      obtain rfl := Option.some.inj hstep
      exact h.of_worker (by simp [decided, Worker.pending, hjob]) rfl rfl rfl rfl
    · cases hstep
  | workerCandidate info => exact inv_workerCandidate h htimely hstep
  | workerPublish =>
    simp only [step] at hstep
    split at hstep
    · next p hpublish =>
      obtain rfl := Option.some.inj hstep
      -- the decision of the worker becomes a publication
      refine h.of_worker ?_ rfl rfl rfl rfl
      simp [decided, Worker.pending, hpublish]
    · cases hstep

/-- In a run with timely refinements only, no two publications share text, bin and epoch. -/
theorem published_nodup (jsc_map : Fin Jsc.kJscSize → List Char) (mode : Mode) (t : ℚ)
    (actions : List Action)
    (htimely : Run.Along (step jsc_map mode) (Timely jsc_map mode) (init t) actions) {s : State}
    (hrun : Run.exec (step jsc_map mode) (init t) actions = some s) :
    (s.published.map mode.key).Nodup := by
  have hnodup := (Run.inv_of_exec inv_step (inv_init t) htimely hrun).nodup
  rw [decided, List.map_append, List.map_append] at hnodup
  exact hnodup.of_append_right.of_append_right

instance (jsc_map : Fin Jsc.kJscSize → List Char) (mode : Mode) (s : State) (a : Action) :
    Decidable (s.Timely jsc_map mode a) :=
  match a with
  | .workerCandidate info =>
    match h : s.worker with
    | .refine job =>
      decidable_of_iff
        ((publishCandidateCore jsc_map s.seen_this_epoch info job.toCandidate
          job.unix_now).publication.isSome → mode.epoch job.unix_now = s.last_epoch)
        (by simp [Timely, h])
    | .idle | .publish _ => isTrue (by simp [Timely, h])
  | .tick _ | .scanClock | .scanEpoch | .scanCandidate _ _ | .scanPublish | .scanEnqueue _ _
  | .scanReturn | .workerTake | .workerFail | .workerPublish => isTrue trivial

end State

/-- The mode with cycles of 15 seconds. -/
def normal : Mode := ⟨15, by norm_num⟩

/-- A directed frame with its checksum. -/
def snrQuery : List Bool :=
  let payload := BitField.encode [(3, 3), (28, kd0abc.pack), (28, w1aw.pack), (16, 0)]
  payload ++ crcTail payload

/-- A candidate at frequency bin 1200. -/
def candidate1200 : Candidate := ⟨1200, 3, 1, 31⟩

/-- The refinement is served in its own epoch, a later scan finds the message again, and so does
one of the next epoch. -/
def timelyRun : List Action :=
  [.scanClock, .scanEpoch, .scanEnqueue candidate1200 400, .scanReturn, .workerTake,
    .workerCandidate snrQuery, .workerPublish, .tick 80, .scanClock, .scanEpoch,
    .scanCandidate snrQuery candidate1200, .scanReturn, .tick 90, .scanClock, .scanEpoch,
    .scanCandidate snrQuery candidate1200, .scanPublish, .scanReturn]

theorem State.published_nodup_timelyRun :
    ∃ s, Run.exec (State.step (fun _ => []) normal) (init 75) timelyRun = some s ∧
      s.published.length = 2 ∧ (s.published.map normal.key).Nodup := by
  obtain ⟨s, hs⟩ := Option.isSome_iff_exists.1
    (by decide +kernel :
      (Run.exec (State.step (fun _ => []) normal) (init 75) timelyRun).isSome)
  have hlength : (Run.exec (State.step (fun _ => []) normal) (init 75) timelyRun).all
      (fun s => s.published.length = 2) := by decide +kernel
  rw [hs, Option.all_some, decide_eq_true_eq] at hlength
  exact ⟨s, hs, hlength,
    State.published_nodup (fun _ => []) normal 75 timelyRun (by decide +kernel) hs⟩

/-- A candidate is queued, the next scan decodes and publishes its message, a scan of the next
epoch empties the seen set, and only then the queued candidate is refined. -/
def lateRun : List Action :=
  [.scanClock, .scanEpoch, .scanEnqueue candidate1200 400, .scanReturn, .tick 80, .scanClock,
    .scanEpoch, .scanCandidate snrQuery candidate1200, .scanPublish, .scanReturn, .tick 90,
    .scanClock, .scanEpoch, .workerTake, .workerCandidate snrQuery, .workerPublish]

/-- The late refinement is published although its message has been published in its epoch. -/
theorem State.lateRun_published_twice :
    ∃ s, Run.exec (State.step (fun _ => []) normal) (init 75) lateRun = some s ∧
      ¬(s.published.map normal.key).Nodup := by
  obtain ⟨s, hs⟩ := Option.isSome_iff_exists.1
    (by decide +kernel : (Run.exec (State.step (fun _ => []) normal) (init 75) lateRun).isSome)
  have htwice : (Run.exec (State.step (fun _ => []) normal) (init 75) lateRun).all
      (fun s => ¬(s.published.map normal.key).Nodup) := by decide +kernel
  rw [hs, Option.all_some, decide_eq_true_eq] at htwice
  exact ⟨s, hs, htwice⟩

end GranolaSdr.Js8
