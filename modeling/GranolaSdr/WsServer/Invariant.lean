import GranolaSdr.WsServer.Server
import Mathlib.Data.List.Induction
import Mathlib.Order.Basic

/-!
# What the server tells its subscribers

The invariant of the dictionary server: every operation that changes a key has one notification,
which waits or has been fanned out; what a client has been sent about the last operation on a key
is what the dictionary stores; and a subscriber has been sent it, or will be.

Since an operation and the fan-out of its notification are separate steps, two operations on one
key can be notified in the other order, and a value read for a snapshot can be sent after the
notification of a later operation. What the invariant says of the last message about a key
supposes that no step so far has done that.

## Main definitions

* `State.Pending`: a notification waits to be fanned out;
* `State.InOrder`: a step sends nothing that a later operation's notification has overtaken;
* `State.Drained`: nothing is left to fan out, to push and to deliver;
* `Inv`: the invariant.

## Main results

* `inv_init`, `inv_step`: the invariant holds initially and is kept by every step that finds no
  subscriber's channel full.
-/

namespace GranolaSdr.WsServer

variable {V : Type*}

/-! ## Messages about a key -/

/-- The key a message is about and the value it leaves there. -/
def ServerMessage.effect : ServerMessage V → Option (Text × Option V)
  | .update key v => some (key, some v)
  | .key_deleted key => some (key, none)
  | .key_expired key => some (key, none)
  | _ => none

/-- The message is an update, a deletion or an expiry of the key. -/
def Frame.About (frame : Frame V) (k : Text) : Prop := frame.msg.effect.map Prod.fst = some k

instance (frame : Frame V) (k : Text) : Decidable (frame.About k) :=
  inferInstanceAs (Decidable (_ = _))

/-- The last message about a key. -/
def lastAbout (k : Text) (frames : List (Frame V)) : Option (Frame V) :=
  frames.foldl (fun last frame => if frame.About k then some frame else last) none

theorem lastAbout_append (k : Text) (frames : List (Frame V)) (frame : Frame V) :
    lastAbout k (frames ++ [frame]) =
      if frame.About k then some frame else lastAbout k frames := by
  rw [lastAbout, List.foldl_append]
  rfl

theorem Frame.about_iff {frame : Frame V} {k : Text} :
    frame.About k ↔ ∃ x, frame.msg.effect = some (k, x) := by
  simp [Frame.About]

theorem mem_of_lastAbout {k : Text} {frames : List (Frame V)} {frame : Frame V}
    (h : lastAbout k frames = some frame) : frame ∈ frames ∧ frame.About k := by
  induction frames using List.reverseRecOn with
  | nil => cases h
  | append_singleton frames f ih =>
    rw [lastAbout_append] at h
    split_ifs at h with habout
    · obtain rfl := Option.some.inj h
      exact ⟨by simp, habout⟩
    · exact (ih h).imp_left (List.mem_append_left _)

/-! ## Order -/

/-- The notification a handler is about to fan out. -/
def Task.notice : Task V → Option (Text × ℕ × ServerMessage V)
  | .notify key msg stamp => some (key, stamp, msg)
  | _ => none

/-- The patterns a handler is pushing a snapshot for. -/
def Task.patterns : Task V → Option (List Text)
  | .ack _ _ patterns | .snapshotStart patterns | .snapshotKeys _ patterns
  | .snapshot _ patterns | .push _ _ _ _ patterns => some patterns
  | _ => none

/-- The keys a sweep has removed but not fanned out. -/
def Sweep.removed : Sweep → List (Text × ℕ)
  | .check _ removed | .notify removed => removed
  | _ => []

namespace State

/-- The notification of an operation on a key waits to be fanned out. -/
def Pending (s : State V) (key : Text) (stamp : ℕ) (msg : ServerMessage V) : Prop :=
  (∃ c, (s.conns c).task.notice = some (key, stamp, msg)) ∨
    msg = .key_expired key ∧ (key, stamp) ∈ s.sweep.removed

/-- The step does not send a notification or a snapshot value after the notification of a later
operation on the same key has been fanned out. -/
def InOrder (s : State V) : Action V → Prop
  | .run c =>
    match (s.conns c).task with
    | .notify key _ stamp => s.notified key ≤ stamp
    | .push key _ stamp _ _ => s.notified key ≤ stamp
    | _ => True
  | .sweep =>
    match s.sweep with
    | .notify ((key, stamp) :: _) => s.notified key ≤ stamp
    | _ => True
  | _ => True

/-- No subscriber's channel is full. -/
def NoneFull (s : State V) : Prop := ∀ c, (s.conns c).subscription.isSome → ¬(s.conns c).Full

/-- No notification waits to be fanned out, no snapshot is being pushed to the client and its
channel is empty. -/
structure Drained (s : State V) (c : ConnectionId) : Prop where
  notified : ∀ key stamp msg, ¬s.Pending key stamp msg
  pushed : (s.conns c).task.patterns = none
  delivered : (s.conns c).queue = []

end State

/-! ## What handlers notify -/

theorem Task.Quiet.notice_eq_none {task : Task V} (h : task.Quiet) : task.notice = none := by
  cases task with
  | notify => exact h.elim
  | _ => rfl

namespace State

variable {s s' : State V} {P : Text → ServerMessage V → Prop}

/-- A handler leaves a notification only after an operation on a key, a deletion or an update. -/
theorem forall_notice_run {c : ConnectionId} (hdelete : ∀ key, P key (.key_deleted key))
    (hupdate : ∀ key value, P key (.update key value)) (hrun : s.run c = some s') :
    ∀ notice ∈ (s'.conns c).task.notice, P notice.1 notice.2.2 := by
  rcases run_cases hrun with ⟨-, conn, -, hquiet, rfl⟩ | ⟨-, key, dict, msg, hmsg, rfl⟩ |
    ⟨key, msg, stamp, -, rfl⟩ <;> intro notice hmem <;> rw [conns_setConn_self] at hmem
  · rw [hquiet.notice_eq_none] at hmem
    cases hmem
  · obtain rfl := Option.some.inj hmem
    rcases hmsg with rfl | ⟨value, rfl⟩
    · exact hdelete key
    · exact hupdate key value
  · cases hmem

/-- What holds of deletions and of updates keeps holding of all notifications that handlers are
about to fan out. -/
theorem forall_notice_step {a : Action V} (hdelete : ∀ key, P key (.key_deleted key))
    (hupdate : ∀ key value, P key (.update key value))
    (h : ∀ c, ∀ notice ∈ (s.conns c).task.notice, P notice.1 notice.2.2)
    (hstep : s.step a = some s') :
    ∀ c, ∀ notice ∈ (s'.conns c).task.notice, P notice.1 notice.2.2 := by
  intro c
  by_cases hactor : a.conn = some c
  · -- the acting connection runs, or comes to be without a notification, or keeps its task
    rcases step_cases hstep with ⟨c', rfl, hrun⟩ | ⟨rfl, -⟩ | ⟨-, ⟨hnone, -⟩ |
      ⟨c', conn, hactor', -, hquiet, rfl⟩⟩
    · obtain rfl := Option.some.inj hactor
      exact forall_notice_run hdelete hupdate hrun
    · cases hactor
    · cases hnone.symm.trans hactor
    · obtain rfl := Option.some.inj (hactor'.symm.trans hactor)
      rw [conns_setConn_self]
      rcases hquiet with hquiet | hsame
      · rw [hquiet.notice_eq_none]
        intro notice hmem
        cases hmem
      · rw [hsame]
        exact h c'
  · -- what is heard changes the channel and not the task
    rw [(conns_step hstep c).2 hactor, Conn.task_hear]
    exact h c

/-- What holds of the notifications that handlers are about to fan out, and of expiries, holds of
what a step fans out. -/
theorem forall_fansOut {a : Action V} (hexpired : ∀ key, P key (.key_expired key))
    (h : ∀ c, ∀ notice ∈ (s.conns c).task.notice, P notice.1 notice.2.2) :
    ∀ notification ∈ s.fansOut a, P notification.1 notification.2.msg := by
  intro notification hfans
  simp only [fansOut] at hfans
  split at hfans
  · next c =>
    split at hfans
    · next key msg stamp htask =>
      obtain rfl := Option.some.inj hfans
      exact h c (key, stamp, msg) (by rw [htask]; rfl)
    · cases hfans
  · split at hfans
    · next key stamp _ _ =>
      obtain rfl := Option.some.inj hfans
      exact hexpired key
    · cases hfans
  · cases hfans

/-- Handlers are about to report deletions and updates only. -/
def HandlersReport (s : State V) : Prop :=
  ∀ c, ∀ notice ∈ (s.conns c).task.notice,
    notice.2.2 = .key_deleted notice.1 ∨ ∃ value, notice.2.2 = .update notice.1 value

theorem handlersReport_step (s : State V) (a : Action V) (t : State V) (h : s.HandlersReport)
    (hstep : s.step a = some t) : t.HandlersReport :=
  forall_notice_step (P := fun key msg => msg = .key_deleted key ∨ ∃ value, msg = .update key value)
    (fun _ => .inl rfl) (fun _ value => .inr ⟨value, rfl⟩) h hstep

theorem handlersReport_init : (init : State V).HandlersReport := by
  intro c notice hmem
  cases hmem

end State

/-! ## The invariant -/

/-- The snapshot being pushed will send the value of the last operation on the key, of which
`latest` is the number, unless the key is gone by then. -/
def Task.WillPush (k : Text) (latest : ℕ) : Task V → Prop
  | .ack _ _ patterns | .snapshotStart patterns | .snapshotKeys _ patterns =>
    key_matches_any k patterns
  | .snapshot rest patterns => k ∈ rest ∧ key_matches_any k patterns
  | .push key _ stamp rest patterns =>
    k = key ∧ stamp = latest ∨ k ∈ rest ∧ key_matches_any k patterns
  | _ => False

/-- What a handler remembers is right: a reply is about no key, the time a snapshot has read is
past, and the value it has read is the stored one unless the key has changed since. -/
def Task.Current (s : State V) : Task V → Prop
  | .reply msg => msg.effect = none
  | .snapshotKeys now _ => now ≤ s.now
  | .push key value stamp _ patterns =>
    key_matches_any key patterns ∧ stamp ≤ s.ops key ∧
      (stamp = s.ops key → s.dict.stored key = some value)
  | _ => True

/-- A message about the last operation on the key has been sent. -/
def Conn.Reported (conn : Conn V) (k : Text) (latest : ℕ) : Prop :=
  ∃ frame ∈ conn.log, frame.About k ∧ frame.stamp = latest

/-- The invariant of a connection, where `ordered` says that all steps were in order. -/
structure ConnInv (ordered : Prop) (s : State V) (conn : Conn V) : Prop where
  /-- A message about the last operation on its key says what is stored. -/
  logged : ∀ frame ∈ conn.log, ∀ k x, frame.msg.effect = some (k, x) →
    frame.stamp ≤ s.ops k ∧ (frame.stamp = s.ops k → x = s.dict.stored k)
  /-- Messages are about subscribed keys. -/
  matching : conn.task ≠ .closed → ∀ frame ∈ conn.log, ∀ k, frame.About k →
    ∃ patterns ∈ conn.subscription, key_matches_any k patterns
  /-- Snapshots are for subscribed patterns. -/
  snapshot : ∀ patterns ∈ conn.task.patterns, ∃ all ∈ conn.subscription, patterns ⊆ all
  current : conn.task.Current s
  /-- A connection that has ended has no subscription. -/
  ended : conn.task = .closed → conn.subscription = none
  /-- Once the last operation on a subscribed key has been fanned out, there is a message about it,
  or there will be one, or the key is gone. -/
  covered : ∀ patterns ∈ conn.subscription, ∀ k, key_matches_any k patterns →
    s.notified k = s.ops k →
      conn.Reported k (s.ops k) ∨ conn.task.WillPush k (s.ops k) ∨ s.dict.get s.now k = none
  /-- Once the last operation on a key has been fanned out, the last message about the key is about
  it. -/
  last : ordered → conn.task ≠ .closed → ∀ k, s.notified k = s.ops k →
    ∀ frame ∈ lastAbout k conn.log, frame.stamp = s.ops k

/-- The invariant of the notifications. -/
structure NoticeInv (s : State V) : Prop where
  notified_le : ∀ k, s.notified k ≤ s.ops k
  /-- The last operation on a key has been fanned out or waits to be. -/
  latest : ∀ k, s.notified k = s.ops k ∨ ∃ msg, s.Pending k (s.ops k) msg
  /-- The notification of the last operation on a key says what is stored. -/
  pending : ∀ k stamp msg, s.Pending k stamp msg → stamp ≤ s.ops k ∧
    ∃ x, msg.effect = some (k, x) ∧ (stamp = s.ops k → x = s.dict.stored k)

/-- The invariant of the server. -/
structure Inv (ordered : Prop) (s : State V) : Prop where
  notice : NoticeInv s
  conn : ∀ c, ConnInv ordered s (s.conns c)

variable {ordered : Prop} {s s' : State V} {conn conn' : Conn V} {c : ConnectionId}

/-- With nothing left to fan out, the last operation on every key has been notified. -/
theorem NoticeInv.notified_of_drained (h : NoticeInv s) (hdrained : s.Drained c) (k : Text) :
    s.notified k = s.ops k := by
  rcases h.latest k with hnotified | ⟨msg, hpending⟩
  · exact hnotified
  · exact absurd hpending (hdrained.notified _ _ _)

theorem Task.not_willPush {task : Task V} (h : task.patterns = none) (k : Text) (latest : ℕ) :
    ¬task.WillPush k latest := by
  cases task <;> simp_all [Task.patterns, Task.WillPush]

theorem inv_init : Inv ordered (init : State V) where
  notice :=
    { notified_le := fun _ => le_rfl
      latest := fun _ => Or.inl rfl
      pending := by
        rintro k stamp msg (⟨c, h⟩ | ⟨-, h⟩)
        · cases h
        · cases h }
  conn _ :=
    { logged := fun _ h => nomatch h
      matching := fun _ _ h => nomatch h
      snapshot := fun _ h => nomatch h
      current := trivial
      ended := fun _ => rfl
      covered := fun _ h => nomatch h
      last := fun _ _ _ _ _ h => nomatch h }

theorem Conn.Reported.enqueue {k : Text} {latest : ℕ} (h : conn.Reported k latest)
    (frame : Frame V) : (conn.enqueue frame).Reported k latest := by
  obtain ⟨f, hf, hk⟩ := h
  refine ⟨f, ?_, hk⟩
  rw [conn.log_enqueue]
  exact List.mem_append_left _ hf

/-- What a handler remembers stays right when a key changes. -/
theorem Task.Current.change {task : Task V} (h : task.Current s) {key : Text} {dict : Dict V}
    (hdict : ∀ k ≠ key, dict.lookup k = s.dict.lookup k) : task.Current (s.change key dict) := by
  cases task with
  | reply | snapshotKeys => exact h
  | push k value stamp rest patterns =>
    obtain ⟨hk, hstamp, hval⟩ := h
    rcases eq_or_ne k key with rfl | hne
    · -- the value read is out of date now
      have hlt : stamp < (s.change k dict).ops k := by
        rw [State.ops_change_self]
        exact Nat.lt_succ_of_le hstamp
      exact ⟨hk, hlt.le, fun heq => absurd heq hlt.ne⟩
    · refine ⟨hk, (State.ops_change_of_ne hne s dict).symm ▸ hstamp, fun heq => ?_⟩
      rw [State.ops_change_of_ne hne] at heq
      exact (Dict.stored_congr (hdict k hne)).trans (hval heq)
  | _ => trivial

theorem Task.Current.tick {task : Task V} (h : task.Current s) (d : ℕ) :
    task.Current { s with now := s.now + d } := by
  cases task with
  | reply | push => exact h
  | snapshotKeys => exact Nat.le_add_right_of_le h
  | _ => trivial

/-! ## What keeps the invariant of a connection -/

namespace ConnInv

/-- Only the clock, the dictionary and the counts matter. -/
theorem of_state (h : ConnInv ordered s conn) (hnow : s'.now = s.now) (hdict : s'.dict = s.dict)
    (hops : s'.ops = s.ops) (hnotified : s'.notified = s.notified) : ConnInv ordered s' conn := by
  obtain ⟨now, dict, conns, sweep, ops, notified⟩ := s
  obtain ⟨now', dict', conns', sweep', ops', notified'⟩ := s'
  dsimp only at hnow hdict hops hnotified
  subst hnow hdict hops hnotified
  exact ⟨h.logged, h.matching, h.snapshot, h.current, h.ended, h.covered, h.last⟩

/-- A handler that goes on without sending. -/
theorem goto (h : ConnInv ordered s conn) {old task : Task V} (htask : conn.task = old)
    (hpatterns : ∀ patterns ∈ task.patterns, patterns ∈ old.patterns) (hcurrent : task.Current s)
    (hpush : ∀ k, old.WillPush k (s.ops k) →
      task.WillPush k (s.ops k) ∨ s.dict.get s.now k = none)
    (hopen : old ≠ .closed := by rintro ⟨⟩) (hne : task ≠ .closed := by rintro ⟨⟩) :
    ConnInv ordered s (conn.goto task) := by
  subst htask
  exact
    { logged := h.logged
      matching := fun _ => h.matching hopen
      snapshot := fun patterns hmem => h.snapshot patterns (hpatterns patterns hmem)
      current := hcurrent
      ended := fun h' => absurd h' hne
      covered := fun patterns hmem k hmatch hnotified =>
        (h.covered patterns hmem k hmatch hnotified).imp_right fun h' => h'.elim (hpush k) Or.inr
      last := fun ho _ => h.last ho hopen }

/-- A handler that goes on outside of snapshots. -/
theorem goto_of_patterns_eq_none (h : ConnInv ordered s conn) {old task : Task V}
    (htask : conn.task = old) (hold : old.patterns = none) (hnew : task.patterns = none)
    (hcurrent : task.Current s) (hopen : old ≠ .closed := by rintro ⟨⟩)
    (hne : task ≠ .closed := by rintro ⟨⟩) : ConnInv ordered s (conn.goto task) :=
  h.goto htask (by simp [hnew]) hcurrent (fun k hk => absurd hk (Task.not_willPush hold k _)) hopen
    hne

/-- The delivery of a message. -/
theorem deliver (h : ConnInv ordered s conn) {frame : Frame V} {queue : List (Frame V)}
    (hqueue : conn.queue = frame :: queue) :
    ConnInv ordered s { conn with queue := queue, received := conn.received ++ [frame] } := by
  have hlog : conn.received ++ [frame] ++ queue = conn.log := by simp [Conn.log, hqueue]
  refine ⟨fun f hf => h.logged f (hlog ▸ hf), fun hopen f hf => h.matching hopen f (hlog ▸ hf),
    h.snapshot, h.current, h.ended, fun patterns hmem k hmatch hn => ?_,
    fun ho hopen k hn f hf => h.last ho hopen k hn f (hlog ▸ hf)⟩
  -- the message has only moved from the channel to the client
  apply (h.covered patterns hmem k hmatch hn).imp_left
  rintro ⟨f, hf, hk⟩
  refine ⟨f, ?_, hk⟩
  rwa [Conn.log, hlog]

/-- The end of a connection. -/
theorem close (h : ConnInv ordered s conn) :
    ConnInv ordered s { conn with subscription := none, task := .closed } where
  logged := h.logged
  matching hopen := absurd rfl hopen
  snapshot _ hmem := nomatch hmem
  current := trivial
  ended _ := rfl
  covered _ hmem := nomatch hmem
  last _ hopen := absurd rfl hopen

/-- The first subscription: the acknowledgement and then a snapshot for all patterns follow. -/
theorem subscribe_first (h : ConnInv ordered s conn) (hopen : conn.task ≠ .closed)
    (hnone : conn.subscription = none) (keys : List Text) (id : Option V) :
    ConnInv ordered s { conn with subscription := some keys, task := .ack keys id keys } where
  logged := h.logged
  matching _ frame hf k hk := by
    obtain ⟨patterns, hmem, -⟩ := h.matching hopen frame hf k hk
    cases (Option.mem_def.1 hmem).symm.trans hnone
  snapshot patterns hmem := ⟨keys, rfl, (Option.some.inj hmem) ▸ List.Subset.refl keys⟩
  current := trivial
  ended h' := nomatch h'
  covered patterns hmem k hmatch _ := by
    obtain rfl := Option.some.inj hmem
    exact Or.inr (Or.inl hmatch)
  last ho _ := h.last ho hopen

theorem mem_mergeKeys {keys new_keys : List Text} {k : Text} :
    k ∈ mergeKeys keys new_keys ↔ k ∈ keys ∨ k ∈ new_keys := by
  induction new_keys generalizing keys with
  | nil => simp [mergeKeys]
  | cons key new_keys ih =>
    have hstep : mergeKeys keys (key :: new_keys) =
        mergeKeys (if key ∈ keys then keys else keys ++ [key]) new_keys := rfl
    rw [hstep, ih]
    split_ifs with hmem
    · rw [List.mem_cons]
      constructor
      · exact Or.imp_right Or.inr
      · rintro (hk | rfl | hk)
        exacts [Or.inl hk, Or.inl hmem, Or.inr hk]
    · simp [or_assoc]

/-- A further subscription: a snapshot for the new patterns follows. -/
theorem subscribe_again (h : ConnInv ordered s conn) (hopen : conn.task ≠ .closed)
    (hpatterns : conn.task.patterns = none) {existing : List Text}
    (hsome : conn.subscription = some existing) (keys : List Text) (id : Option V) :
    ConnInv ordered s { conn with
      subscription := some (mergeKeys existing keys)
      task := .ack (mergeKeys existing keys) id (keys.filter (· ∉ existing)) } where
  logged := h.logged
  matching _ frame hf k hk := by
    obtain ⟨patterns, hmem, hmatch⟩ := h.matching hopen frame hf k hk
    obtain rfl := Option.some.inj (hsome.symm.trans hmem)
    exact ⟨_, rfl, key_matches_any_mono (fun _ hp => mem_mergeKeys.2 (Or.inl hp)) hmatch⟩
  snapshot patterns hmem := by
    obtain rfl := Option.some.inj hmem
    exact ⟨_, rfl, fun _ hp => mem_mergeKeys.2 (Or.inr (List.mem_of_mem_filter hp))⟩
  current := trivial
  ended h' := nomatch h'
  last ho _ := h.last ho hopen
  covered patterns hmem k hmatch hn := by
    obtain rfl := Option.some.inj hmem
    obtain ⟨pattern, hp, hkey⟩ := List.any_eq_true.1 hmatch
    by_cases hold : pattern ∈ existing
    · have hmatch' : key_matches_any k existing := List.any_eq_true.2 ⟨pattern, hold, hkey⟩
      rcases h.covered existing hsome k hmatch' hn with hlog | hpush | hget
      · exact Or.inl hlog
      · exact absurd hpush (Task.not_willPush hpatterns k _)
      · exact Or.inr (Or.inr hget)
    · -- only the patterns that are new have their values pushed, and this key matches one of them
      have hnew : pattern ∈ keys.filter (· ∉ existing) := by
        simpa [hold] using mem_mergeKeys.1 hp
      exact Or.inr (Or.inl (List.any_eq_true.2 ⟨pattern, hnew, hkey⟩))

/-- Sending a message that is about no key. -/
theorem enqueue_other (h : ConnInv ordered s conn) (frame : Frame V)
    (hother : frame.msg.effect = none) : ConnInv ordered s (conn.enqueue frame) := by
  have habout : ∀ k, ¬frame.About k := by simp [Frame.About, hother]
  refine ⟨fun f hf k x heff => ?_, fun hopen f hf k hk => ?_, h.snapshot, h.current, h.ended,
    fun patterns hmem k hmatch hn => ?_, fun ho hopen k hn f hf => ?_⟩
  · rw [conn.log_enqueue, List.mem_append, List.mem_singleton] at hf
    rcases hf with hf | rfl
    · exact h.logged f hf k x heff
    · cases hother.symm.trans heff
  · rw [conn.log_enqueue, List.mem_append, List.mem_singleton] at hf
    rcases hf with hf | rfl
    · exact h.matching hopen f hf k hk
    · exact absurd hk (habout k)
  · exact (h.covered patterns hmem k hmatch hn).imp_left fun hr => hr.enqueue frame
  · rw [conn.log_enqueue, lastAbout_append, if_neg (habout k)] at hf
    exact h.last ho hopen k hn f hf

/-- Sending a message about a subscribed key that is not out of order. -/
theorem enqueue_about (h : ConnInv ordered s conn) {frame : Frame V} {key : Text} {x : Option V}
    (heff : frame.msg.effect = some (key, x)) (hle : frame.stamp ≤ s.ops key)
    (hval : frame.stamp = s.ops key → x = s.dict.stored key)
    (hmatch : ∃ patterns ∈ conn.subscription, key_matches_any key patterns)
    (horder : ordered → s.notified key ≤ frame.stamp) :
    ConnInv ordered s (conn.enqueue frame) := by
  have habout : ∀ k, frame.About k ↔ key = k := by simp [Frame.About, heff]
  refine ⟨fun f hf k y hy => ?_, fun hopen f hf k hk => ?_, h.snapshot, h.current, h.ended,
    fun patterns hmem k hk hn => ?_, fun ho hopen k hn f hf => ?_⟩
  · rw [conn.log_enqueue, List.mem_append, List.mem_singleton] at hf
    rcases hf with hf | rfl
    · exact h.logged f hf k y hy
    · obtain ⟨rfl, rfl⟩ := Prod.mk.inj (Option.some.inj (heff.symm.trans hy))
      exact ⟨hle, hval⟩
  · rw [conn.log_enqueue, List.mem_append, List.mem_singleton] at hf
    rcases hf with hf | rfl
    · exact h.matching hopen f hf k hk
    · obtain rfl := (habout k).1 hk
      exact hmatch
  · exact (h.covered patterns hmem k hk hn).imp_left fun hr => hr.enqueue frame
  · rw [conn.log_enqueue, lastAbout_append] at hf
    split_ifs at hf with hk
    · obtain rfl := (habout k).1 hk
      obtain rfl := Option.some.inj hf
      -- the message is the newest about its key if messages are handed out in order
      exact le_antisymm hle (hn ▸ horder ho)
    · exact h.last ho hopen k hn f hf

/-- An operation on a key. -/
theorem change (h : ConnInv ordered s conn) {key : Text} {dict : Dict V}
    (hle : s.notified key ≤ s.ops key) (hdict : ∀ k ≠ key, dict.lookup k = s.dict.lookup k) :
    ConnInv ordered (s.change key dict) conn := by
  have hops : ∀ k ≠ key, (s.change key dict).ops k = s.ops k := fun k hne =>
    State.ops_change_of_ne hne s dict
  have hself : (s.change key dict).ops key = s.ops key + 1 := s.ops_change_self key dict
  -- the operation has not been fanned out
  have hwaits : s.notified key ≠ (s.change key dict).ops key := by omega
  refine ⟨fun f hf k x heff => ?_, h.matching, h.snapshot, h.current.change hdict, h.ended,
    fun patterns hmem k hmatch hn => ?_, fun ho hopen k hn f hf => ?_⟩
  · obtain ⟨hstamp, hval⟩ := h.logged f hf k x heff
    rcases eq_or_ne k key with rfl | hne
    · -- the message is about an operation before this one
      exact ⟨hself ▸ hstamp.trans (Nat.le_succ _), fun heq => by omega⟩
    · rw [hops k hne]
      exact ⟨hstamp, fun heq => (hval heq).trans (Dict.stored_congr (hdict k hne)).symm⟩
  · rcases eq_or_ne k key with rfl | hne
    · exact absurd hn hwaits
    · rw [hops k hne] at hn ⊢
      have hget : (s.change key dict).dict.get s.now k = s.dict.get s.now k :=
        Dict.get_congr (hdict k hne)
      exact hget.symm ▸ h.covered patterns hmem k hmatch hn
  · rcases eq_or_ne k key with rfl | hne
    · exact absurd hn hwaits
    · rw [hops k hne] at hn ⊢
      exact h.last ho hopen k hn f hf

/-- Time passes. -/
theorem tick (h : ConnInv ordered s conn) (d : ℕ) :
    ConnInv ordered { s with now := s.now + d } conn where
  logged := h.logged
  matching := h.matching
  snapshot := h.snapshot
  current := h.current.tick d
  ended := h.ended
  covered patterns hmem k hmatch hn := (h.covered patterns hmem k hmatch hn).imp_right
    (Or.imp_right (Dict.get_eq_none_mono (Nat.le_add_right _ d)))
  last := h.last

/-- A notification is offered to all subscribers, none of whose channels is full. -/
theorem offer (h : ConnInv ordered s conn) (hfull : conn.subscription.isSome → ¬conn.Full)
    {key : Text}
    {msg : ServerMessage V} {stamp : ℕ} {x : Option V} (heff : msg.effect = some (key, x))
    (hle : stamp ≤ s.ops key) (hval : stamp = s.ops key → x = s.dict.stored key)
    (horder : ordered → s.notified key ≤ stamp) :
    ConnInv ordered (s.fan_out key msg stamp) (conn.offer key ⟨msg, stamp⟩) := by
  -- a key whose last operation was not fanned out before is the one that is fanned out now
  have hcases : ∀ k, (s.fan_out key msg stamp).notified k = s.ops k →
      s.notified k = s.ops k ∨ key = k ∧ stamp = s.ops k := by
    intro k hn
    rcases eq_or_ne k key with rfl | hne
    · rw [State.notified_fan_out_self] at hn
      rcases Nat.le_total stamp (s.notified k) |>.imp max_eq_left max_eq_right with h' | h'
      · exact Or.inl (h' ▸ hn)
      · exact Or.inr ⟨rfl, h' ▸ hn⟩
    · exact Or.inl (State.notified_fan_out_of_ne hne s msg stamp ▸ hn)
  by_cases hmatch : ∃ patterns ∈ conn.subscription, key_matches_any key patterns
  · have hoffer : conn.offer key ⟨msg, stamp⟩ = conn.enqueue ⟨msg, stamp⟩ := by
      obtain ⟨patterns, hsub, hkey⟩ := hmatch
      have hroom : ¬conn.Full := hfull (Option.isSome_of_mem hsub)
      simp only [Conn.offer, Option.mem_def.1 hsub, if_pos hkey, if_neg hroom]
    have henq : ConnInv ordered s (conn.enqueue ⟨msg, stamp⟩) :=
      h.enqueue_about heff hle hval hmatch horder
    have habout : Frame.About ⟨msg, stamp⟩ key := by simp [Frame.About, heff]
    rw [hoffer]
    refine ⟨henq.logged, henq.matching, henq.snapshot, h.current, h.ended,
      fun patterns hmem k hk hn => ?_, fun ho hopen k hn f hf => ?_⟩
    · rcases hcases k hn with hn' | ⟨rfl, hstamp⟩
      · exact henq.covered patterns hmem k hk hn'
      · exact Or.inl ⟨⟨msg, stamp⟩, by simp [conn.log_enqueue], habout, hstamp⟩
    · rcases hcases k hn with hn' | ⟨rfl, hstamp⟩
      · exact henq.last ho hopen k hn' f hf
      · rw [conn.log_enqueue, lastAbout_append, if_pos habout] at hf
        exact (Option.some.inj hf) ▸ hstamp
  · have hoffer : conn.offer key ⟨msg, stamp⟩ = conn := by
      rw [Conn.offer]
      split
      · rfl
      · next patterns hsub => exact if_neg fun hkey => hmatch ⟨patterns, hsub, hkey⟩
    rw [hoffer]
    refine ⟨h.logged, h.matching, h.snapshot, h.current, h.ended,
      fun patterns hmem k hk hn => ?_, fun ho hopen k hn f hf => ?_⟩
    · rcases hcases k hn with hn' | ⟨rfl, -⟩
      · exact h.covered patterns hmem k hk hn'
      · exact absurd ⟨patterns, hmem, hk⟩ hmatch
    · rcases hcases k hn with hn' | ⟨rfl, -⟩
      · exact h.last ho hopen k hn' f hf
      · obtain ⟨hmem, habout⟩ := mem_of_lastAbout hf
        exact absurd (h.matching hopen f hmem key habout) hmatch

end ConnInv

/-! ## What keeps the invariant of the notifications -/

namespace State

/-- The notifications that wait after one connection has changed. -/
theorem pending_setConn {key : Text} {stamp : ℕ} {msg : ServerMessage V} :
    (s.setConn c conn).Pending key stamp msg ↔
      conn.task.notice = some (key, stamp, msg) ∨
        (∃ c' ≠ c, (s.conns c').task.notice = some (key, stamp, msg)) ∨
        msg = .key_expired key ∧ (key, stamp) ∈ s.sweep.removed := by
  have hself : (s.setConn c conn).conns c = conn := s.conns_setConn_self c conn
  have hne : ∀ c' ≠ c, (s.setConn c conn).conns c' = s.conns c' := fun c' h =>
    conns_setConn_of_ne h s conn
  rw [← or_assoc]
  refine or_congr ⟨?_, ?_⟩ Iff.rfl
  · rintro ⟨c', h⟩
    rcases eq_or_ne c' c with rfl | hc
    · exact Or.inl (hself ▸ h)
    · exact Or.inr ⟨c', hc, hne c' hc ▸ h⟩
  · rintro (h | ⟨c', hc, h⟩)
    · exact ⟨c, hself.symm ▸ h⟩
    · exact ⟨c', (hne c' hc).symm ▸ h⟩

theorem pending_iff (c : ConnectionId) {key : Text} {stamp : ℕ} {msg : ServerMessage V} :
    s.Pending key stamp msg ↔
      (s.conns c).task.notice = some (key, stamp, msg) ∨
        (∃ c' ≠ c, (s.conns c').task.notice = some (key, stamp, msg)) ∨
        msg = .key_expired key ∧ (key, stamp) ∈ s.sweep.removed := by
  have hsame : s.setConn c (s.conns c) = s := by rw [setConn, Function.update_eq_self]
  rw [← pending_setConn, hsame]

/-- The steps of handlers that neither have nor get a notification. -/
theorem pending_setConn_of_notice (hnotice : conn.task.notice = (s.conns c).task.notice)
    (key : Text) (stamp : ℕ) (msg : ServerMessage V) :
    (s.setConn c conn).Pending key stamp msg ↔ s.Pending key stamp msg := by
  rw [pending_setConn, pending_iff c, hnotice]

end State

namespace NoticeInv

theorem congr (h : NoticeInv s) (hops : s'.ops = s.ops) (hnotified : s'.notified = s.notified)
    (hdict : s'.dict = s.dict)
    (hpending : ∀ key stamp msg, s'.Pending key stamp msg ↔ s.Pending key stamp msg) :
    NoticeInv s' where
  notified_le k := by
    rw [hops, hnotified]
    exact h.notified_le k
  latest k := by
    simp only [hops, hnotified, hpending]
    exact h.latest k
  pending k stamp msg hp := by
    rw [hops, hdict]
    exact h.pending k stamp msg ((hpending k stamp msg).1 hp)

/-- An operation on a key adds its notification to those that wait. -/
theorem change (h : NoticeInv s) {key : Text} {dict : Dict V} {msg : ServerMessage V}
    (hops : s'.ops = (s.change key dict).ops) (hnotified : s'.notified = s.notified)
    (hdict : s'.dict = dict) (hother : ∀ k ≠ key, dict.lookup k = s.dict.lookup k)
    (heff : msg.effect = some (key, dict.stored key))
    (hpending : ∀ k stamp m, s'.Pending k stamp m ↔
      s.Pending k stamp m ∨ k = key ∧ stamp = s.ops key + 1 ∧ m = msg) : NoticeInv s' := by
  have hself : s'.ops key = s.ops key + 1 := by
    rw [hops, State.ops_change_self]
  have hne : ∀ k ≠ key, s'.ops k = s.ops k := by
    intro k hne
    rw [hops, State.ops_change_of_ne hne]
  refine ⟨fun k => ?_, fun k => ?_, fun k stamp m hp => ?_⟩
  · rw [hnotified]
    rcases eq_or_ne k key with rfl | hk
    · exact hself ▸ (h.notified_le k).trans (Nat.le_succ _)
    · exact hne k hk ▸ h.notified_le k
  · rcases eq_or_ne k key with rfl | hk
    · exact Or.inr ⟨msg, (hpending _ _ _).2 (Or.inr ⟨rfl, hself, rfl⟩)⟩
    · rw [hne k hk, hnotified]
      exact (h.latest k).imp_right fun ⟨m, hm⟩ => ⟨m, (hpending _ _ _).2 (Or.inl hm)⟩
  · -- those of earlier operations on the key are out of date now
    rcases (hpending k stamp m).1 hp with hold | ⟨rfl, rfl, rfl⟩
    · obtain ⟨hle, x, hx, hval⟩ := h.pending k stamp m hold
      rcases eq_or_ne k key with rfl | hk
      · exact ⟨hself ▸ hle.trans (Nat.le_succ _), x, hx, fun heq => by omega⟩
      · rw [hne k hk, hdict]
        exact ⟨hle, x, hx, fun heq => (hval heq).trans (Dict.stored_congr (hother k hk)).symm⟩
    · exact ⟨hself.ge, _, heff, fun _ => by rw [hdict]⟩

/-- The fan-out of a notification takes it from those that wait. -/
theorem fan_out (h : NoticeInv s) {key : Text} {stamp : ℕ} (msg : ServerMessage V)
    (hops : s'.ops = s.ops) (hnotified : s'.notified = (s.fan_out key msg stamp).notified)
    (hdict : s'.dict = s.dict) (hle : stamp ≤ s.ops key)
    (hsub : ∀ k n m, s'.Pending k n m → s.Pending k n m)
    (hkeep : ∀ k n m, s.Pending k n m → (k, n) ≠ (key, stamp) → s'.Pending k n m) :
    NoticeInv s' := by
  have hself : s'.notified key = max (s.notified key) stamp := by
    rw [hnotified, State.notified_fan_out_self]
  have hne : ∀ k ≠ key, s'.notified k = s.notified k := by
    intro k hne
    rw [hnotified, State.notified_fan_out_of_ne hne]
  refine ⟨fun k => ?_, fun k => ?_, fun k n m hp => ?_⟩
  · rw [hops]
    rcases eq_or_ne k key with rfl | hk
    · rw [hself]
      exact max_le (h.notified_le k) hle
    · exact hne k hk ▸ h.notified_le k
  · rw [hops]
    rcases eq_or_ne k key with rfl | hk
    · rw [hself]
      -- if this was not the last operation on the key, that one still waits
      rcases Nat.lt_or_eq_of_le hle with hlt | heq
      · rcases h.latest k with hfanned | ⟨m, hm⟩
        · exact Or.inl (by rw [hfanned, max_eq_left hle])
        · exact Or.inr ⟨m, hkeep _ _ _ hm fun h' => by simp at h'; omega⟩
      · exact Or.inl (by rw [heq, max_eq_right (h.notified_le k)])
    · rw [hne k hk]
      exact (h.latest k).imp_right fun ⟨m, hm⟩ =>
        ⟨m, hkeep _ _ _ hm fun h' => hk (Prod.mk.inj h').1⟩
  · rw [hops, hdict]
    exact h.pending k n m (hsub k n m hp)

end NoticeInv

/-! ## Steps -/

namespace Inv

/-- A step of one connection that touches no notification. -/
theorem setConn (h : Inv ordered s) {old : Task V} (htask : (s.conns c).task = old)
    (hnotice : conn.task.notice = old.notice) (hconn : ConnInv ordered s conn) :
    Inv ordered (s.setConn c conn) where
  notice := h.notice.congr rfl rfl rfl (State.pending_setConn_of_notice (htask ▸ hnotice))
  conn c' := by
    rcases eq_or_ne c' c with rfl | hne
    · rw [State.conns_setConn_self]
      exact hconn.of_state rfl rfl rfl rfl
    · rw [State.conns_setConn_of_ne hne]
      exact (h.conn c').of_state rfl rfl rfl rfl

/-- A handler that goes on, without a notification, outside of snapshots. -/
theorem goto (h : Inv ordered s) {old task : Task V} (htask : (s.conns c).task = old)
    (hold : old.patterns = none ∧ old.notice = none)
    (hnew : task.patterns = none ∧ task.notice = none) (hcurrent : task.Current s)
    (hopen : old ≠ .closed := by rintro ⟨⟩) (hne : task ≠ .closed := by rintro ⟨⟩) :
    Inv ordered (s.setConn c ((s.conns c).goto task)) :=
  h.setConn htask (hnew.2.trans hold.2.symm)
    ((h.conn c).goto_of_patterns_eq_none htask hold.1 hnew.1 hcurrent hopen hne)

/-- A handler that changes a key and goes on to fan out the notification. -/
theorem change (h : Inv ordered s) {old : Task V} (htask : (s.conns c).task = old)
    (hold : old.patterns = none ∧ old.notice = none) {key : Text} {dict : Dict V}
    {msg : ServerMessage V} (hother : ∀ k ≠ key, dict.lookup k = s.dict.lookup k)
    (heff : msg.effect = some (key, dict.stored key)) (hopen : old ≠ .closed := by rintro ⟨⟩) :
    Inv ordered ((s.change key dict).setConn c
      ((s.conns c).goto (.notify key msg (s.ops key + 1)))) where
  notice := by
    refine h.notice.change rfl rfl rfl hother heff fun k stamp m => ?_
    rw [State.pending_setConn, State.pending_iff c, htask, hold.2]
    simp only [Conn.goto, Task.notice, State.change, Option.some.injEq, Prod.mk.injEq, reduceCtorEq,
      false_or, eq_comm (a := key), eq_comm (b := stamp), eq_comm (a := msg)]
    exact or_comm
  conn c' := by
    have hchange := (h.conn c').change (h.notice.notified_le key) hother
    rcases eq_or_ne c' c with rfl | hne
    · rw [State.conns_setConn_self]
      -- the handler that changed the key now owes the notice, and every other one is as it was
      have hgoto : ConnInv ordered (s.change key dict)
          ((s.conns c').goto (.notify key msg (s.ops key + 1))) :=
        hchange.goto_of_patterns_eq_none htask hold.1 rfl trivial hopen
      exact hgoto.of_state rfl rfl rfl rfl
    · rw [State.conns_setConn_of_ne hne]
      exact hchange.of_state rfl rfl rfl rfl

theorem send_reply (h : Inv ordered s) {msg : ServerMessage V}
    (htask : (s.conns c).task = .reply msg)
    (hconn : (s.conns c).send { msg, stamp := 0 } .idle = some conn) :
    Inv ordered (s.setConn c conn) := by
  rw [Conn.send] at hconn
  split_ifs at hconn
  obtain rfl := Option.some.inj hconn
  have hother : msg.effect = none := by
    have := (h.conn c).current
    rwa [htask] at this
  refine h.setConn htask rfl ?_
  exact ((h.conn c).enqueue_other ⟨msg, 0⟩ hother).goto_of_patterns_eq_none htask rfl rfl trivial

theorem send_ack (h : Inv ordered s) {keys patterns : List Text} {id : Option V}
    (htask : (s.conns c).task = .ack keys id patterns)
    (hconn : (s.conns c).send { msg := .subscribed keys id, stamp := 0 }
      (.snapshotStart patterns) = some conn) : Inv ordered (s.setConn c conn) := by
  rw [Conn.send] at hconn
  split_ifs at hconn
  obtain rfl := Option.some.inj hconn
  refine h.setConn htask rfl ?_
  exact ((h.conn c).enqueue_other ⟨.subscribed keys id, 0⟩ rfl).goto htask (fun _ hp => hp) trivial
    fun _ hk => Or.inl hk

theorem send_push (h : Inv ordered s) {key : Text} {value : V} {stamp : ℕ}
    {rest patterns : List Text}
    (htask : (s.conns c).task = .push key value stamp rest patterns)
    (horder : ordered → s.notified key ≤ stamp)
    (hconn : (s.conns c).send { msg := .update key value, stamp } (.snapshot rest patterns) =
      some conn) : Inv ordered (s.setConn c conn) := by
  rw [Conn.send] at hconn
  split_ifs at hconn
  obtain rfl := Option.some.inj hconn
  have hc := h.conn c
  have hcurrent := hc.current
  rw [htask] at hcurrent
  obtain ⟨hmatch, hle, hval⟩ := hcurrent
  obtain ⟨all, hall, hsub⟩ := hc.snapshot patterns (by simp [htask, Task.patterns])
  have henq : ConnInv ordered s ((s.conns c).enqueue ⟨.update key value, stamp⟩) :=
    hc.enqueue_about (x := some value) rfl hle (fun heq => (hval heq).symm)
      ⟨all, hall, key_matches_any_mono hsub hmatch⟩ horder
  refine h.setConn htask rfl ⟨henq.logged, fun _ => henq.matching ?_, ?_, trivial,
    fun hclosed => absurd hclosed (by simp [Conn.goto]),
    fun pats hmem k hk hn => ?_, fun ho _ => henq.last ho ?_⟩
  · simp [Conn.enqueue, htask]
  · intro pats hpats
    obtain rfl := Option.some.inj hpats
    exact ⟨all, hall, hsub⟩
  · -- the key just pushed has a message now
    rcases henq.covered pats hmem k hk hn with hreported | hpush | hget
    · exact Or.inl hreported
    · rcases (by simpa [Conn.enqueue, htask, Task.WillPush] using hpush :
        k = key ∧ stamp = s.ops k ∨ k ∈ rest ∧ key_matches_any k patterns) with ⟨rfl, hs⟩ | hrest
      · exact Or.inl ⟨⟨.update k value, stamp⟩, by
          change _ ∈ ((s.conns c).enqueue _).log
          simp [Conn.log_enqueue], rfl, hs⟩
      · exact Or.inr (Or.inl hrest)
    · exact Or.inr (Or.inr hget)
  · simp [Conn.enqueue, htask]

theorem subscribe (h : Inv ordered s) {keys : List Text} {id : Option V}
    (htask : (s.conns c).task = .subscribe keys id) : Inv ordered (s.subscribe c keys id) := by
  have hopen : (s.conns c).task ≠ .closed := by simp [htask]
  have hold : (s.conns c).task.patterns = none := by rw [htask]; rfl
  rw [State.subscribe]
  split
  · next hnone =>
    exact h.setConn htask rfl ((h.conn c).subscribe_first hopen hnone keys id)
  · next existing hsome =>
    exact h.setConn htask rfl ((h.conn c).subscribe_again hopen hold hsome keys id)

/-- The next read of a snapshot. -/
theorem snapshot_read (h : Inv ordered s) {key : Text} {rest patterns : List Text}
    (htask : (s.conns c).task = .snapshot (key :: rest) patterns)
    (hrun : s.run c = some s') : Inv ordered s' := by
  simp only [State.run, htask] at hrun
  split_ifs at hrun with hmatch
  · split at hrun
    · next value hget =>
      obtain rfl := Option.some.inj hrun
      refine h.setConn htask rfl ((h.conn c).goto htask (fun _ hp => hp)
        ⟨hmatch, le_rfl, fun _ => Dict.stored_of_get hget⟩ fun k hk => Or.inl ?_)
      obtain ⟨hmem, hm⟩ := hk
      exact (List.mem_cons.1 hmem).imp (fun hkey => ⟨hkey, hkey ▸ rfl⟩) fun hrest => ⟨hrest, hm⟩
    · -- a key that has gone since the listing is passed over
      next hget =>
      obtain rfl := Option.some.inj hrun
      refine h.setConn htask rfl ((h.conn c).goto htask (fun _ hp => hp) trivial fun k hk => ?_)
      obtain ⟨hmem, hm⟩ := hk
      rcases List.mem_cons.1 hmem with rfl | hrest
      · exact Or.inr hget
      · exact Or.inl ⟨hrest, hm⟩
  · obtain rfl := Option.some.inj hrun
    refine h.setConn htask rfl
      ((h.conn c).goto htask (fun _ hp => hp) trivial fun k hk => Or.inl ?_)
    obtain ⟨hmem, hm⟩ := hk
    rcases List.mem_cons.1 hmem with rfl | hrest
    · exact absurd hm hmatch
    · exact ⟨hrest, hm⟩

/-- The listing of the keys, for a reply or for a snapshot. -/
theorem listing (h : Inv ordered s) {order : List Text} (hstep : s.listing c order = some s') :
    Inv ordered s' := by
  rw [State.listing] at hstep
  split at hstep
  · next now htask =>
    split_ifs at hstep
    obtain rfl := Option.some.inj hstep
    exact h.goto htask ⟨rfl, rfl⟩ ⟨rfl, rfl⟩ rfl
  · next now patterns htask =>
    split_ifs at hstep with hperm
    obtain rfl := Option.some.inj hstep
    have hpast : now ≤ s.now := by
      have := (h.conn c).current
      rwa [htask] at this
    refine h.setConn htask rfl ((h.conn c).goto htask (fun _ hp => hp) trivial fun k hk => ?_)
    by_cases hlisted : k ∈ s.dict.keys now
    · exact Or.inl ⟨hperm.mem_iff.2 hlisted, hk⟩
    · -- a key that is not listed is gone for good
      exact Or.inr (Dict.get_eq_none_mono hpast (Dict.get_eq_none_of_notMem_keys hlisted))
  · cases hstep

/-- A handler that fans out its notification in order. -/
theorem notify (h : Inv ordered s) (hfull : s.NoneFull) {key : Text} {msg : ServerMessage V}
    {stamp : ℕ}
    (htask : (s.conns c).task = .notify key msg stamp)
    (horder : ordered → s.notified key ≤ stamp) :
    Inv ordered ((s.fan_out key msg stamp).setConn c
      (((s.fan_out key msg stamp).conns c).goto .idle)) := by
  -- the notice was owed by this handler, so its stamp and value are the ledger's
  have hwaits : s.Pending key stamp msg := Or.inl ⟨c, by rw [htask]; rfl⟩
  obtain ⟨hle, x, heff, hval⟩ := h.notice.pending key stamp msg hwaits
  have htask' : ∀ c', ((s.fan_out key msg stamp).conns c').task = (s.conns c').task := fun c' =>
    Conn.task_offer ..
  have hoffer := fun c' => (h.conn c').offer (hfull c') heff hle hval horder
  refine ⟨h.notice.fan_out msg rfl rfl rfl hle (fun k n m hp => ?_)
    fun k n m hp hne => ?_, fun c' => ?_⟩
  · rw [State.pending_setConn] at hp
    simp only [htask', Conn.goto, Task.notice, reduceCtorEq, false_or] at hp
    exact (State.pending_iff c).2 (Or.inr hp)
  · rw [State.pending_setConn]
    simp only [htask', Conn.goto, Task.notice, reduceCtorEq, false_or]
    refine ((State.pending_iff c).1 hp).resolve_left fun hc => hne ?_
    rw [htask, Task.notice, Option.some.injEq, Prod.mk.injEq, Prod.mk.injEq] at hc
    rw [hc.1, hc.2.1]
  · rcases eq_or_ne c' c with rfl | hne
    · rw [State.conns_setConn_self]
      have hgoto : ConnInv ordered (s.fan_out key msg stamp)
          (((s.conns c').offer key ⟨msg, stamp⟩).goto .idle) :=
        (hoffer c').goto_of_patterns_eq_none ((htask' c').trans htask) rfl rfl trivial
      exact hgoto.of_state rfl rfl rfl rfl
    · rw [State.conns_setConn_of_ne hne]
      exact (hoffer c').of_state rfl rfl rfl rfl

/-- A step of the sweep that changes no key. -/
theorem sweep_goto (h : Inv ordered s) {sweep : Sweep}
    (hremoved : sweep.removed = s.sweep.removed) :
    Inv ordered { s with sweep := sweep } where
  notice := h.notice.congr rfl rfl rfl fun _ _ _ => by simp only [State.Pending, hremoved]
  conn c := (h.conn c).of_state rfl rfl rfl rfl

/-- The sweep removes an expired key. -/
theorem sweep_remove (h : Inv ordered s) {key : Text} {dict : Dict V} {sweep : Sweep}
    (hdict : s.dict.removeExpired s.now key = some dict)
    (hremoved : sweep.removed = s.sweep.removed ++ [(key, s.ops key + 1)]) :
    Inv ordered { s.change key dict with sweep := sweep } := by
  obtain ⟨e, -, he⟩ := Option.bind_eq_some_iff.1 hdict
  rw [Option.ite_none_right_eq_some] at he
  obtain rfl := Option.some.inj he.2
  have hother : ∀ k ≠ key, (s.dict.erase key).lookup k = s.dict.lookup k := fun k hne =>
    Dict.lookup_erase_of_ne hne
  have heff : (ServerMessage.key_expired key : ServerMessage V).effect =
      some (key, Dict.stored (s.dict.erase key) key) := by
    rw [Dict.stored_erase_self]
    rfl
  -- the stamp of the removal is the one after all earlier changes of the key
  refine ⟨h.notice.change rfl rfl rfl hother heff
    fun k stamp m => ?_, fun c => ?_⟩
  · simp only [State.Pending, hremoved, List.mem_append, List.mem_singleton, Prod.mk.injEq]
    constructor
    · rintro (hc | ⟨rfl, hold | ⟨rfl, rfl⟩⟩)
      exacts [Or.inl (Or.inl hc), Or.inl (Or.inr ⟨rfl, hold⟩), Or.inr ⟨rfl, rfl, rfl⟩]
    · rintro ((hc | ⟨rfl, hold⟩) | ⟨rfl, rfl, rfl⟩)
      exacts [Or.inl hc, Or.inr ⟨rfl, Or.inl hold⟩, Or.inr ⟨rfl, Or.inr ⟨rfl, rfl⟩⟩]
  · exact ((h.conn c).change (h.notice.notified_le key) hother).of_state rfl rfl rfl rfl

/-- The sweep fans out an expiry in order. -/
theorem sweep_notify (h : Inv ordered s) (hfull : s.NoneFull) {key : Text} {stamp : ℕ}
    {removed : List (Text × ℕ)} (hsweep : s.sweep = .notify ((key, stamp) :: removed))
    (horder : ordered → s.notified key ≤ stamp) :
    Inv ordered { s.fan_out key (.key_expired key) stamp with sweep := .notify removed } := by
  have hwaits : s.Pending key stamp (.key_expired key) :=
    Or.inr ⟨rfl, by simp [hsweep, Sweep.removed]⟩
  -- the expiry was pending, so its stamp and its effect are known
  obtain ⟨hle, x, heff, hval⟩ := h.notice.pending key stamp _ hwaits
  have htask' : ∀ c', ((s.fan_out key (.key_expired key) stamp).conns c').task =
      (s.conns c').task := fun c' => Conn.task_offer ..
  refine ⟨h.notice.fan_out (.key_expired key) rfl rfl rfl hle (fun k n m hp => ?_)
    fun k n m hp hne => ?_, fun c => ?_⟩
  · simp only [State.Pending, htask', Sweep.removed] at hp
    rw [State.Pending, hsweep]
    exact hp.imp_right fun ⟨hm, hmem⟩ => ⟨hm, List.mem_cons_of_mem _ hmem⟩
  · simp only [State.Pending, htask', Sweep.removed]
    rw [State.Pending, hsweep] at hp
    exact hp.imp_right fun ⟨hm, hmem⟩ => ⟨hm, (List.mem_cons.1 hmem).resolve_left hne⟩
  · exact ((h.conn c).offer (hfull c) heff hle hval horder).of_state rfl rfl rfl rfl

end Inv

/-- A request starts outside of snapshots, without a notification, and its first reply, if any, is
an error. -/
theorem dispatch_spec (now : ℕ) (msg : ClientMessage V) :
    ((dispatch now msg).patterns = none ∧ (dispatch now msg).notice = none) ∧
      (dispatch now msg).Current s ∧ dispatch now msg ≠ .closed := by
  cases msg with
  | list => exact ⟨⟨rfl, rfl⟩, trivial, fun h => by cases h⟩
  | set key value ttl_ms =>
    simp only [dispatch]
    split
    · exact ⟨⟨rfl, rfl⟩, rfl, fun h => by cases h⟩
    · split
      · exact ⟨⟨rfl, rfl⟩, rfl, fun h => by cases h⟩
      · exact ⟨⟨rfl, rfl⟩, trivial, fun h => by cases h⟩
      · exact ⟨⟨rfl, rfl⟩, trivial, fun h => by cases h⟩
  | _ =>
    simp only [dispatch]
    split
    · exact ⟨⟨rfl, rfl⟩, rfl, fun h => by cases h⟩
    · exact ⟨⟨rfl, rfl⟩, trivial, fun h => by cases h⟩

theorem inv_run (h : Inv ordered s) (hfull : s.NoneFull) (horder : ordered → s.InOrder (.run c))
    (hrun : s.run c = some s') : Inv ordered s' := by
  cases htask : (s.conns c).task with
  | idle | closed | listKeys | snapshotKeys =>
    simp only [State.run, htask] at hrun
    cases hrun
  | reply msg =>
    simp only [State.run, htask, Option.map_eq_some_iff] at hrun
    obtain ⟨conn, hconn, rfl⟩ := hrun
    exact h.send_reply htask hconn
  | store key value expires_at =>
    simp only [State.run, htask, Option.some.injEq] at hrun
    subst hrun
    exact h.change htask ⟨rfl, rfl⟩ (fun k hne => Dict.lookup_set_of_ne hne value expires_at)
      (by rw [Dict.stored_set_self]; rfl)
  | delete key id =>
    simp only [State.run, htask, Dict.delete] at hrun
    split at hrun
    · next heq =>
      obtain rfl := Option.some.inj hrun
      obtain ⟨rfl, -⟩ := Prod.mk.inj heq
      exact h.change htask ⟨rfl, rfl⟩ (fun k hne => Dict.lookup_erase_of_ne hne)
        (by rw [Dict.stored_erase_self]; rfl)
    · obtain rfl := Option.some.inj hrun
      exact h.goto htask ⟨rfl, rfl⟩ ⟨rfl, rfl⟩ rfl
  | notify key msg stamp =>
    simp only [State.InOrder, htask] at horder
    simp only [State.run, htask, Option.some.injEq] at hrun
    subst hrun
    exact h.notify hfull htask horder
  | get key id =>
    simp only [State.run, htask] at hrun
    split at hrun <;> obtain rfl := Option.some.inj hrun <;>
      exact h.goto htask ⟨rfl, rfl⟩ ⟨rfl, rfl⟩ rfl
  | list =>
    simp only [State.run, htask, Option.some.injEq] at hrun
    subst hrun
    exact h.goto htask ⟨rfl, rfl⟩ ⟨rfl, rfl⟩ trivial
  | subscribe keys id =>
    simp only [State.run, htask, Option.some.injEq] at hrun
    subst hrun
    exact h.subscribe htask
  | ack keys id patterns =>
    simp only [State.run, htask, Option.map_eq_some_iff] at hrun
    obtain ⟨conn, hconn, rfl⟩ := hrun
    exact h.send_ack htask hconn
  | snapshotStart patterns =>
    simp only [State.run, htask, Option.some.injEq] at hrun
    subst hrun
    exact h.setConn htask rfl
      ((h.conn c).goto htask (fun _ hp => hp) le_rfl fun k hk => Or.inl hk)
  | snapshot rest patterns =>
    cases rest with
    | nil =>
      simp only [State.run, htask, Option.some.injEq] at hrun
      subst hrun
      -- nothing is left to push
      refine h.setConn htask rfl ((h.conn c).goto htask (fun _ hp => by cases hp) trivial
        fun k hk => ?_)
      cases hk.1
    | cons key rest => exact h.snapshot_read htask hrun
  | push key value stamp rest patterns =>
    simp only [State.InOrder, htask] at horder
    simp only [State.run, htask, Option.map_eq_some_iff] at hrun
    obtain ⟨conn, hconn, rfl⟩ := hrun
    exact h.send_push htask horder hconn

theorem inv_sweepStep (h : Inv ordered s) (hfull : s.NoneFull) (horder : ordered → s.InOrder .sweep)
    (hstep : s.sweepStep = some s') : Inv ordered s' := by
  rw [State.sweepStep] at hstep
  split at hstep
  · next hsweep =>
    obtain rfl := Option.some.inj hstep
    exact h.sweep_goto (by rw [hsweep]; rfl)
  · cases hstep
  · next hsweep =>
    obtain rfl := Option.some.inj hstep
    exact h.sweep_goto (by rw [hsweep]; rfl)
  · next hsweep =>
    split at hstep
    · next dict hdict =>
      obtain rfl := Option.some.inj hstep
      -- the key is gone, and its expiry is pending
      exact h.sweep_remove hdict (by rw [hsweep]; rfl)
    · obtain rfl := Option.some.inj hstep
      exact h.sweep_goto (by rw [hsweep]; rfl)
  · next hsweep =>
    obtain rfl := Option.some.inj hstep
    exact h.sweep_goto (by rw [hsweep]; rfl)
  · next hsweep =>
    obtain rfl := Option.some.inj hstep
    -- the pending expiry is fanned out
    simp only [State.InOrder, hsweep] at horder
    exact h.sweep_notify hfull hsweep horder

/-- Every step that finds no subscriber's channel full keeps the invariant, if it is in order where
the steps before were. -/
theorem inv_step (a : Action V) (h : Inv ordered s) (hfull : s.NoneFull)
    (horder : ordered → s.InOrder a)
    (hstep : s.step a = some s') : Inv ordered s' := by
  cases a with
  | tick d =>
    obtain rfl := Option.some.inj hstep
    -- only the clock moves, and nothing is said about entries that expire
    exact ⟨h.notice.congr rfl rfl rfl fun _ _ _ => Iff.rfl, fun c => (h.conn c).tick d⟩
  | request c msg =>
    simp only [State.step] at hstep
    split at hstep
    · next htask =>
      obtain rfl := Option.some.inj hstep
      -- what a request leads to begins with no notification and outside of a snapshot
      obtain ⟨hnew, hcurrent, hne⟩ := dispatch_spec (s := s) s.now msg
      exact h.goto htask ⟨rfl, rfl⟩ hnew hcurrent (by rintro ⟨⟩) hne
    · cases hstep
  | malformed c binary =>
    simp only [State.step] at hstep
    split at hstep
    · next htask =>
      obtain rfl := Option.some.inj hstep
      exact h.goto htask ⟨rfl, rfl⟩ ⟨rfl, rfl⟩ rfl
    · cases hstep
  | run c => exact inv_run h hfull horder hstep
  | listing c order => exact h.listing hstep
  | deliver c =>
    simp only [State.step] at hstep
    split at hstep
    · cases hstep
    · next frame queue hqueue =>
      obtain rfl := Option.some.inj hstep
      -- delivery moves a message from the channel to the log
      exact h.setConn rfl rfl ((h.conn c).deliver hqueue)
  | close c =>
    simp only [State.step] at hstep
    split at hstep
    · next htask =>
      obtain rfl := Option.some.inj hstep
      exact h.setConn htask rfl (h.conn c).close
    · cases hstep
  | sweep => exact inv_sweepStep h hfull horder hstep
  | candidates order =>
    simp only [State.step] at hstep
    split at hstep
    · next now hsweep =>
      split_ifs at hstep
      obtain rfl := Option.some.inj hstep
      exact h.sweep_goto (by rw [hsweep]; rfl)
    · cases hstep

end GranolaSdr.WsServer
