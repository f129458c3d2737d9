import GranolaSdr.WsServer.Dict
import Mathlib.Logic.Function.Basic

/-!
# The dictionary server

The connection tasks of `server.rs` with the subscriptions of `subs.rs` and the expiry sweep, as
steps on one state. A handler runs through several steps, and those of other connections and of
the sweep come between them: an operation on the dictionary, the fan-out of its notification, each
message sent, the listing of a snapshot and each of its reads are steps of their own.

Every operation that changes a key is counted. The counts are history: no step depends on them.

## Main definitions

* `Task`, `Conn`, `Sweep`, `State`: where the tasks stand and what they share;
* `State.fan_out`: sending a notification to all matching subscribers;
* `step`: the steps of the server.
-/

namespace GranolaSdr.WsServer

/-- The number of messages a subscriber's channel can hold. -/
def CHANNEL_CAPACITY : ℕ := 2048

/-- The number of a connection. -/
abbrev ConnectionId := ℕ

/-- A message on its way to a client, with the number of the operation on its key that it
reports. -/
structure Frame (V : Type*) where
  msg : ServerMessage V
  stamp : ℕ

/-- Where the handler of a connection stands. -/
inductive Task (V : Type*) where
  /-- No request is being handled. -/
  | idle
  /-- The connection has ended. -/
  | closed
  /-- Before the only or last message of a request is sent. -/
  | reply (msg : ServerMessage V)
  /-- `handle_set`, before the value is stored. -/
  | store (key : Text) (value : V) (expires_at : Option ℕ)
  /-- `handle_delete`, before the key is removed. -/
  | delete (key : Text) (id : Option V)
  /-- `handle_set` and `handle_delete`, before the notification of an operation is fanned out. -/
  | notify (key : Text) (msg : ServerMessage V) (stamp : ℕ)
  /-- `handle_get`, before the key is read. -/
  | get (key : Text) (id : Option V)
  /-- `handle_list`, before the clock is read. -/
  | list
  /-- `handle_list`, before the keys are listed. -/
  | listKeys (now : ℕ)
  /-- `handle_subscribe`, before the subscription is entered. -/
  | subscribe (keys : List Text) (id : Option V)
  /-- `handle_subscribe`, before the acknowledgement is sent. -/
  | ack (keys : List Text) (id : Option V) (patterns : List Text)
  /-- `push_current_values`, before the clock is read. -/
  | snapshotStart (patterns : List Text)
  /-- `push_current_values`, before the keys are listed. -/
  | snapshotKeys (now : ℕ) (patterns : List Text)
  /-- `push_current_values`, before the next listed key is read. -/
  | snapshot (rest : List Text) (patterns : List Text)
  /-- `push_current_values`, before the value read is sent. -/
  | push (key : Text) (value : V) (stamp : ℕ) (rest : List Text) (patterns : List Text)

/-- A connection: its patterns once it has subscribed, its handler, the channel and what the
client has received. -/
structure Conn (V : Type*) where
  subscription : Option (List Text)
  task : Task V
  queue : List (Frame V)
  received : List (Frame V)

/-- Where the sweep stands. -/
inductive Sweep where
  /-- Between two sweeps. -/
  | idle
  /-- Before the candidates are collected. -/
  | collect (now : ℕ)
  /-- Before the next candidate is checked, with the keys removed so far. -/
  | check (candidates : List Text) (removed : List (Text × ℕ))
  /-- Before the next removed key is fanned out. -/
  | notify (removed : List (Text × ℕ))

/-- The server. -/
structure State (V : Type*) where
  now : ℕ
  dict : Dict V
  conns : ConnectionId → Conn V
  sweep : Sweep
  /-- How many operations have changed the key. -/
  ops : Text → ℕ
  /-- The last of these whose notification has been fanned out. -/
  notified : Text → ℕ

/-- What can happen next. -/
inductive Action (V : Type*) where
  /-- Time passes. -/
  | tick (d : ℕ)
  /-- A request arrives on an idle connection. -/
  | request (c : ConnectionId) (msg : ClientMessage V)
  /-- An unparsable frame arrives. -/
  | malformed (c : ConnectionId) (binary : Bool)
  /-- The handler of a connection takes its next step. -/
  | run (c : ConnectionId)
  /-- The handler of a connection lists the keys, in some order. -/
  | listing (c : ConnectionId) (order : List Text)
  /-- The client receives its next message. -/
  | deliver (c : ConnectionId)
  /-- The connection ends. -/
  | close (c : ConnectionId)
  /-- The sweep takes its next step. -/
  | sweep
  /-- The sweep collects its candidates, in some order. -/
  | candidates (order : List Text)

variable {V : Type*}

/-- A connection without a request. -/
def Conn.init : Conn V := { subscription := none, task := .idle, queue := [], received := [] }

/-- The empty server. -/
def init : State V where
  now := 0
  dict := ∅
  conns _ := Conn.init
  sweep := .idle
  ops _ := 0
  notified _ := 0

/-! ## Channels -/

namespace Conn

/-- The channel holds as many messages as it can. -/
def Full (conn : Conn V) : Prop := CHANNEL_CAPACITY ≤ conn.queue.length

instance (conn : Conn V) : Decidable conn.Full := inferInstanceAs (Decidable (_ ≤ _))

/-- The messages sent to a client, received or still in its channel. -/
def log (conn : Conn V) : List (Frame V) := conn.received ++ conn.queue

/-- Put a message into the channel. -/
def enqueue (conn : Conn V) (frame : Frame V) : Conn V :=
  { conn with queue := conn.queue ++ [frame] }

/-- The handler goes on. -/
def goto (conn : Conn V) (task : Task V) : Conn V := { conn with task := task }

/-- `tx.send`, which waits while the channel is full. -/
def send (conn : Conn V) (frame : Frame V) (next : Task V) : Option (Conn V) :=
  if conn.Full then none else some ((conn.enqueue frame).goto next)

/-- `try_send` of a notification to a subscriber, which drops it when the channel is full. -/
def offer (conn : Conn V) (key : Text) (frame : Frame V) : Conn V :=
  match conn.subscription with
  | none => conn
  | some patterns =>
    if key_matches_any key patterns then
      -- a slow subscriber misses the notification
      if conn.Full then conn else conn.enqueue frame
    else conn

/-- The connection after a notification, if there is one, has been offered to it. -/
def hear (conn : Conn V) : Option (Text × Frame V) → Conn V
  | none => conn
  | some (key, frame) => conn.offer key frame

end Conn

/-! ## Requests -/

/-- The handler of a request, up to its first step on shared state. -/
def dispatch (now : ℕ) : ClientMessage V → Task V
  | .subscribe keys id =>
    match validate_keys keys with
    | .error e => .reply (.error "invalid key".toList e id)
    | .ok () => .subscribe keys id
  | .set key value ttl_ms =>
    match validate_key key with
    | .error e => .reply (.error "invalid key".toList e none)
    | .ok () =>
      match ttl_ms with
      -- checked before the value is touched
      | some 0 => .reply (.error "ttl_ms must be > 0".toList key none)
      | some ttl => .store key value (some (now + ttl))
      | none => .store key value none
  | .get key id =>
    match validate_key key with
    | .error e => .reply (.error "invalid key".toList e id)
    | .ok () => .get key id
  | .delete key id =>
    match validate_key key with
    | .error e => .reply (.error "invalid key".toList e none)
    | .ok () => .delete key id
  | .list => .list

/-- `merge_keys` -/
def mergeKeys (keys new_keys : List Text) : List Text :=
  new_keys.foldl (fun keys k => if k ∈ keys then keys else keys ++ [k]) keys

namespace State

/-- Change one connection. -/
def setConn (s : State V) (c : ConnectionId) (conn : Conn V) : State V :=
  { s with conns := Function.update s.conns c conn }

/-- An operation has changed a key. -/
def change (s : State V) (key : Text) (dict : Dict V) : State V :=
  { s with dict := dict, ops := Function.update s.ops key (s.ops key + 1) }

/-- Offer the notification of an operation to all subscribers. -/
def fan_out (s : State V) (key : Text) (msg : ServerMessage V) (stamp : ℕ) : State V :=
  { s with
    conns := fun c => (s.conns c).offer key { msg, stamp }
    notified := Function.update s.notified key (max (s.notified key) stamp) }

/-- Enter or extend the subscription of a connection. -/
def subscribe (s : State V) (c : ConnectionId) (keys : List Text) (id : Option V) : State V :=
  match (s.conns c).subscription with
  | none =>
    s.setConn c { s.conns c with subscription := some keys, task := .ack keys id keys }
  | some existing =>
    -- the snapshot is for the patterns added, the reply lists all of them
    let new_keys := keys.filter (· ∉ existing)
    let all_keys := mergeKeys existing keys
    s.setConn c
      { s.conns c with subscription := some all_keys, task := .ack all_keys id new_keys }

/-- The next step of the handler of a connection. -/
def run (s : State V) (c : ConnectionId) : Option (State V) :=
  let conn := s.conns c
  match conn.task with
  | .idle | .closed | .listKeys _ | .snapshotKeys _ _ => none
  | .reply msg => (conn.send { msg, stamp := 0 } .idle).map (s.setConn c)
  | .store key value expires_at =>
    some ((s.change key (s.dict.set key value expires_at)).setConn c
      (conn.goto (.notify key (.update key value) (s.ops key + 1))))
  | .delete key id =>
    match s.dict.delete key with
    | (dict, true) =>
      some ((s.change key dict).setConn c
        (conn.goto (.notify key (.key_deleted key) (s.ops key + 1))))
    | (_, false) => some (s.setConn c (conn.goto (.reply (.error "key not found".toList key id))))
  | .notify key msg stamp =>
    -- the connection may be a subscriber of the key itself
    let t := s.fan_out key msg stamp
    some (t.setConn c ((t.conns c).goto .idle))
  | .get key id =>
    match s.dict.get s.now key with
    | some value => some (s.setConn c (conn.goto (.reply (.value key value id))))
    | none => some (s.setConn c (conn.goto (.reply (.error "key not found".toList key id))))
  | .list => some (s.setConn c (conn.goto (.listKeys s.now)))
  | .subscribe keys id => some (s.subscribe c keys id)
  | .ack keys id patterns =>
    (conn.send { msg := .subscribed keys id, stamp := 0 } (.snapshotStart patterns)).map
      (s.setConn c)
  | .snapshotStart patterns => some (s.setConn c (conn.goto (.snapshotKeys s.now patterns)))
  | .snapshot [] _ => some (s.setConn c (conn.goto .idle))
  -- each listed key is read by itself, as it is by then
  | .snapshot (key :: rest) patterns =>
    if key_matches_any key patterns then
      match s.dict.get s.now key with
      | some value => some (s.setConn c (conn.goto (.push key value (s.ops key) rest patterns)))
      | none => some (s.setConn c (conn.goto (.snapshot rest patterns)))
    else some (s.setConn c (conn.goto (.snapshot rest patterns)))
  | .push key value stamp rest patterns =>
    (conn.send { msg := .update key value, stamp } (.snapshot rest patterns)).map (s.setConn c)

/-- The handler of a connection lists the keys that had not expired when it read the clock. -/
def listing (s : State V) (c : ConnectionId) (order : List Text) : Option (State V) :=
  match (s.conns c).task with
  | .listKeys now =>
    if order.Perm (s.dict.keys now) then
      some (s.setConn c ((s.conns c).goto (.reply (.keys order))))
    else none
  | .snapshotKeys now patterns =>
    if order.Perm (s.dict.keys now) then
      some (s.setConn c ((s.conns c).goto (.snapshot order patterns)))
    else none
  | _ => none

/-- The next step of the sweep. -/
def sweepStep (s : State V) : Option (State V) :=
  match s.sweep with
  | .idle => some { s with sweep := .collect s.now }
  | .collect _ => none
  | .check [] removed => some { s with sweep := .notify removed }
  | .check (key :: candidates) removed =>
    match s.dict.removeExpired s.now key with
    -- the expiry is checked again under the write lock
    | some dict =>
      some { s.change key dict with
        sweep := .check candidates (removed ++ [(key, s.ops key + 1)]) }
    | none => some { s with sweep := .check candidates removed }
  | .notify [] => some { s with sweep := .idle }
  | .notify ((key, stamp) :: removed) =>
    some { s.fan_out key (.key_expired key) stamp with sweep := .notify removed }

/-- The steps of the server. -/
def step (s : State V) : Action V → Option (State V)
  | .tick d => some { s with now := s.now + d }
  | .request c msg =>
    match (s.conns c).task with
    | .idle => some (s.setConn c ((s.conns c).goto (dispatch s.now msg)))
    | _ => none
  | .malformed c binary =>
    match (s.conns c).task with
    | .idle =>
      let message := if binary then "invalid msgpack".toList else "invalid JSON".toList
      some (s.setConn c ((s.conns c).goto (.reply (.error message [] none))))
    | _ => none
  | .run c => s.run c
  | .listing c order => s.listing c order
  | .deliver c =>
    match (s.conns c).queue with
    | [] => none
    | frame :: queue =>
      some (s.setConn c
        { s.conns c with queue := queue, received := (s.conns c).received ++ [frame] })
  | .close c =>
    match (s.conns c).task with
    -- `unsubscribe`, after the last request has been handled
    | .idle => some (s.setConn c { s.conns c with subscription := none, task := .closed })
    | _ => none
  | .sweep => s.sweepStep
  | .candidates order =>
    match s.sweep with
    | .collect now =>
      if order.Perm (s.dict.expired now) then some { s with sweep := .check order [] } else none
    | _ => none

/-- The notification a step offers to all subscribers. -/
def fansOut (s : State V) : Action V → Option (Text × Frame V)
  | .run c =>
    match (s.conns c).task with
    | .notify key msg stamp => some (key, { msg, stamp })
    | _ => none
  | .sweep =>
    match s.sweep with
    | .notify ((key, stamp) :: _) => some (key, { msg := .key_expired key, stamp })
    | _ => none
  | _ => none

/-! ## Frame conditions -/

@[simp]
theorem conns_setConn_self (s : State V) (c : ConnectionId) (conn : Conn V) :
    (s.setConn c conn).conns c = conn := Function.update_self ..

theorem conns_setConn_of_ne {c c' : ConnectionId} (h : c' ≠ c) (s : State V) (conn : Conn V) :
    (s.setConn c conn).conns c' = s.conns c' := Function.update_of_ne h _ _

@[simp]
theorem ops_change_self (s : State V) (key : Text) (dict : Dict V) :
    (s.change key dict).ops key = s.ops key + 1 := Function.update_self ..

theorem ops_change_of_ne {k key : Text} (h : k ≠ key) (s : State V) (dict : Dict V) :
    (s.change key dict).ops k = s.ops k := Function.update_of_ne h _ _

@[simp]
theorem notified_fan_out_self (s : State V) (key : Text) (msg : ServerMessage V) (stamp : ℕ) :
    (s.fan_out key msg stamp).notified key = max (s.notified key) stamp := Function.update_self ..

theorem notified_fan_out_of_ne {k key : Text} (h : k ≠ key) (s : State V) (msg : ServerMessage V)
    (stamp : ℕ) : (s.fan_out key msg stamp).notified k = s.notified k := Function.update_of_ne h _ _

end State

/-- The handler has no notification to fan out. -/
def Task.Quiet : Task V → Prop
  | .notify _ _ _ => False
  | _ => True

/-- The connection whose handler, channel or client acts. -/
def Action.conn : Action V → Option ConnectionId
  | .request c _ | .malformed c _ | .run c | .listing c _ | .deliver c | .close c => some c
  | _ => none

namespace Conn

theorem log_enqueue (conn : Conn V) (frame : Frame V) :
    (conn.enqueue frame).log = conn.log ++ [frame] := (List.append_assoc ..).symm

@[simp]
theorem task_offer (conn : Conn V) (key : Text) (frame : Frame V) :
    (conn.offer key frame).task = conn.task := by
  rw [offer]
  split
  · rfl
  · split_ifs <;> rfl

@[simp]
theorem task_hear (conn : Conn V) (notification : Option (Text × Frame V)) :
    (conn.hear notification).task = conn.task := by
  cases notification with
  | none => rfl
  | some notification => exact conn.task_offer _ _

/-- What a step can do to the messages of a connection: it adds to them, at most one to those in
the channel. -/
structure Grows (conn conn' : Conn V) : Prop where
  log : conn.log <+: conn'.log
  queue : conn'.queue.length ≤ conn.queue.length + 1

theorem Grows.of_eq {conn conn' : Conn V} (hreceived : conn'.received = conn.received)
    (hqueue : conn'.queue = conn.queue) : conn.Grows conn' where
  log := by
    have hlog : conn.log = conn'.log := by rw [Conn.log, Conn.log, hreceived, hqueue]
    exact hlog ▸ List.prefix_rfl
  queue := by
    rw [hqueue]
    exact Nat.le_succ _

theorem grows_enqueue (conn : Conn V) (frame : Frame V) : conn.Grows (conn.enqueue frame) where
  log := ⟨[frame], (conn.log_enqueue frame).symm⟩
  queue := by simp [enqueue]

theorem grows_offer (conn : Conn V) (key : Text) (frame : Frame V) :
    conn.Grows (conn.offer key frame) := by
  rw [offer]
  split
  · exact .of_eq rfl rfl
  · split_ifs
    · exact .of_eq rfl rfl
    · exact conn.grows_enqueue frame
    · exact .of_eq rfl rfl

theorem grows_hear (conn : Conn V) (notification : Option (Text × Frame V)) :
    conn.Grows (conn.hear notification) := by
  cases notification with
  | none => exact .of_eq rfl rfl
  | some notification => exact conn.grows_offer _ _

theorem send_eq_some_iff {conn conn' : Conn V} {frame : Frame V} {next : Task V} :
    conn.send frame next = some conn' ↔ ¬conn.Full ∧ (conn.enqueue frame).goto next = conn' := by
  rw [send, Option.ite_none_left_eq_some, Option.some.injEq]

end Conn

namespace State

variable {s s' : State V} {c : ConnectionId}

theorem dispatch_quiet (now : ℕ) (msg : ClientMessage V) : (dispatch now msg).Quiet := by
  cases msg with
  | list => trivial
  | set key value ttl_ms =>
    simp only [dispatch]
    split
    · trivial
    · split <;> trivial
  | _ =>
    simp only [dispatch]
    split <;> trivial

/-- What the handler of a connection can do. It changes its own connection, to whose messages it may
add, or changes a key, whose notification it then has to fan out, or fans out a notification. -/
theorem run_cases (hrun : s.run c = some s') :
    (s.fansOut (.run c) = none ∧
      ∃ conn, (s.conns c).Grows conn ∧ conn.task.Quiet ∧ s' = s.setConn c conn) ∨
    (s.fansOut (.run c) = none ∧
      ∃ key dict msg, (msg = .key_deleted key ∨ ∃ value, msg = .update key value) ∧
        s' = (s.change key dict).setConn c
          ((s.conns c).goto (.notify key msg (s.ops key + 1)))) ∨
    ∃ key msg stamp, s.fansOut (.run c) = some (key, ⟨msg, stamp⟩) ∧
      s' = (s.fan_out key msg stamp).setConn c
        (((s.fan_out key msg stamp).conns c).goto .idle) := by
  -- the handler goes on without a message
  have hgoto : ∀ conn : Conn V, s.fansOut (.run c) = none → conn.received = (s.conns c).received →
      conn.queue = (s.conns c).queue → conn.task.Quiet →
      s.fansOut (.run c) = none ∧
        ∃ conn', (s.conns c).Grows conn' ∧ conn'.task.Quiet ∧
          s.setConn c conn = s.setConn c conn' :=
    fun conn hnone hreceived hqueue hquiet =>
      ⟨hnone, conn, .of_eq hreceived hqueue, hquiet, rfl⟩
  -- the handler sends a message and goes on
  have hsend : ∀ (frame : Frame V) (next : Task V), s.fansOut (.run c) = none →
      ((s.conns c).send frame next).map (s.setConn c) = some s' → next.Quiet →
      s.fansOut (.run c) = none ∧
        ∃ conn, (s.conns c).Grows conn ∧ conn.task.Quiet ∧ s' = s.setConn c conn := by
    intro frame next hnone h hquiet
    obtain ⟨conn, hconn, rfl⟩ := Option.map_eq_some_iff.1 h
    obtain ⟨-, rfl⟩ := Conn.send_eq_some_iff.1 hconn
    obtain ⟨hlog, hqueue⟩ := (s.conns c).grows_enqueue frame
    exact ⟨hnone, ((s.conns c).enqueue frame).goto next, ⟨hlog, hqueue⟩, hquiet, rfl⟩
  cases htask : (s.conns c).task with
  | idle | closed | listKeys | snapshotKeys =>
    simp only [run, htask] at hrun
    cases hrun
  | reply | ack | push =>
    simp only [run, htask] at hrun
    exact Or.inl (hsend _ _ (by simp only [fansOut, htask]) hrun trivial)
  | store key value expires_at =>
    simp only [run, htask, Option.some.injEq] at hrun
    subst hrun
    exact Or.inr (Or.inl ⟨by simp only [fansOut, htask], key, _, _, Or.inr ⟨value, rfl⟩, rfl⟩)
  | delete key id =>
    simp only [run, htask] at hrun
    split at hrun
    · obtain rfl := Option.some.inj hrun
      exact Or.inr (Or.inl ⟨by simp only [fansOut, htask], key, _, _, Or.inl rfl, rfl⟩)
    · obtain rfl := Option.some.inj hrun
      exact Or.inl (hgoto _ (by simp only [fansOut, htask]) rfl rfl trivial)
  | notify key msg stamp =>
    simp only [run, htask, Option.some.injEq] at hrun
    exact Or.inr (Or.inr ⟨key, msg, stamp, by simp only [fansOut, htask], hrun.symm⟩)
  | get =>
    simp only [run, htask] at hrun
    split at hrun <;> obtain rfl := Option.some.inj hrun <;>
      exact Or.inl (hgoto _ (by simp only [fansOut, htask]) rfl rfl trivial)
  | list | snapshotStart =>
    simp only [run, htask, Option.some.injEq] at hrun
    subst hrun
    exact Or.inl (hgoto _ (by simp only [fansOut, htask]) rfl rfl trivial)
  | subscribe keys id =>
    simp only [run, htask, Option.some.injEq, subscribe] at hrun
    split at hrun <;> subst hrun <;>
      exact Or.inl (hgoto _ (by simp only [fansOut, htask]) rfl rfl trivial)
  | snapshot rest patterns =>
    have hnone : s.fansOut (.run c) = none := by simp only [fansOut, htask]
    cases rest with
    | nil =>
      simp only [run, htask, Option.some.injEq] at hrun
      subst hrun
      exact Or.inl (hgoto _ hnone rfl rfl trivial)
    | cons key rest =>
      simp only [run, htask] at hrun
      split_ifs at hrun
      · split at hrun <;> obtain rfl := Option.some.inj hrun <;>
          exact Or.inl (hgoto _ hnone rfl rfl trivial)
      · obtain rfl := Option.some.inj hrun
        exact Or.inl (hgoto _ hnone rfl rfl trivial)

/-- What the handler of a connection does to the connections: it changes its own, to whose messages
it adds, and the others hear the notification it fans out. -/
theorem conns_run (hrun : s.run c = some s') :
    (s.conns c).Grows (s'.conns c) ∧
      ∀ c' ≠ c, s'.conns c' = (s.conns c').hear (s.fansOut (.run c)) := by
  rcases run_cases hrun with ⟨hnone, conn, hgrows, -, rfl⟩ | ⟨hnone, key, dict, msg, -, rfl⟩ |
    ⟨key, msg, stamp, hfans, rfl⟩
  · rw [conns_setConn_self, hnone]
    exact ⟨hgrows, fun c' hne => conns_setConn_of_ne hne _ _⟩
  · rw [conns_setConn_self, hnone]
    exact ⟨.of_eq rfl rfl, fun c' hne => conns_setConn_of_ne hne _ _⟩
  · rw [conns_setConn_self, hfans]
    obtain ⟨hlog, hqueue⟩ := (s.conns c).grows_offer key ⟨msg, stamp⟩
    exact ⟨⟨hlog, hqueue⟩, fun c' hne => conns_setConn_of_ne hne _ _⟩

/-- What the sweep does to the connections: they hear the notification it fans out. -/
theorem conns_sweepStep (hstep : s.sweepStep = some s') (c' : ConnectionId) :
    s'.conns c' = (s.conns c').hear (s.fansOut .sweep) := by
  cases hsweep : s.sweep with
  | idle =>
    simp only [sweepStep, hsweep, Option.some.injEq] at hstep
    subst hstep
    simp only [fansOut, hsweep, Conn.hear]
  | collect now =>
    simp only [sweepStep, hsweep] at hstep
    cases hstep
  | check candidates removed =>
    -- checking a candidate fans nothing out, whether the key is removed or not
    have hnone : s.fansOut .sweep = none := by simp only [fansOut, hsweep]
    rw [hnone]
    cases candidates with
    | nil =>
      simp only [sweepStep, hsweep, Option.some.injEq] at hstep
      subst hstep
      rfl
    | cons key candidates =>
      simp only [sweepStep, hsweep] at hstep
      split at hstep <;> obtain rfl := Option.some.inj hstep <;> rfl
  | notify removed =>
    cases removed with
    | nil =>
      simp only [sweepStep, hsweep, Option.some.injEq] at hstep
      subst hstep
      simp only [fansOut, hsweep, Conn.hear]
    | cons removed rest =>
      simp only [sweepStep, hsweep, Option.some.injEq] at hstep
      subst hstep
      simp only [fansOut, hsweep]
      rfl

/-- What a step other than those of a handler and of the sweep can do: it changes the connection
that acts, to whose messages it may add and which it leaves without a new notification, or leaves
the connections alone. -/
theorem step_cases {a : Action V} (hstep : s.step a = some s') :
    (∃ c, a = .run c ∧ s.run c = some s') ∨ (a = .sweep ∧ s.sweepStep = some s') ∨
    (s.fansOut a = none ∧
      ((a.conn = none ∧ s'.conns = s.conns) ∨
        ∃ c conn, a.conn = some c ∧ (s.conns c).Grows conn ∧
          (conn.task.Quiet ∨ conn.task = (s.conns c).task) ∧ s' = s.setConn c conn)) := by
  -- the step changes only the connection that acts
  have hown : ∀ (c : ConnectionId) (conn : Conn V), some (s.setConn c conn) = some s' →
      a.conn = some c → s.fansOut a = none → (s.conns c).Grows conn →
      (conn.task.Quiet ∨ conn.task = (s.conns c).task) →
      s.fansOut a = none ∧
        ((a.conn = none ∧ s'.conns = s.conns) ∨
          ∃ c conn, a.conn = some c ∧ (s.conns c).Grows conn ∧
            (conn.task.Quiet ∨ conn.task = (s.conns c).task) ∧ s' = s.setConn c conn) :=
    fun c conn hs' hactor hnone hgrows hquiet =>
      ⟨hnone, Or.inr ⟨c, conn, hactor, hgrows, hquiet, (Option.some.inj hs').symm⟩⟩
  cases a with
  | run c => exact Or.inl ⟨c, rfl, hstep⟩
  | sweep => exact Or.inr (Or.inl ⟨rfl, hstep⟩)
  | tick d =>
    obtain rfl := Option.some.inj hstep
    exact Or.inr (Or.inr ⟨rfl, Or.inl ⟨rfl, rfl⟩⟩)
  | candidates order =>
    simp only [step] at hstep
    split at hstep
    · split_ifs at hstep
      obtain rfl := Option.some.inj hstep
      exact Or.inr (Or.inr ⟨rfl, Or.inl ⟨rfl, rfl⟩⟩)
    · cases hstep
  | request c msg =>
    simp only [step] at hstep
    split at hstep
    · exact Or.inr (Or.inr (hown c _ hstep rfl rfl (.of_eq rfl rfl)
        (Or.inl (dispatch_quiet s.now msg))))
    · cases hstep
  | malformed c binary =>
    simp only [step] at hstep
    split at hstep
    · exact Or.inr (Or.inr (hown c _ hstep rfl rfl (.of_eq rfl rfl)
        (Or.inl trivial)))
    · cases hstep
  | listing c order =>
    simp only [step, listing] at hstep
    split at hstep
    · split_ifs at hstep
      exact Or.inr (Or.inr (hown c _ hstep rfl rfl (.of_eq rfl rfl)
        (Or.inl trivial)))
    · split_ifs at hstep
      exact Or.inr (Or.inr (hown c _ hstep rfl rfl (.of_eq rfl rfl)
        (Or.inl trivial)))
    · cases hstep
  | deliver c =>
    simp only [step] at hstep
    split at hstep
    · cases hstep
    · next frame queue hqueue =>
      refine Or.inr (Or.inr (hown c _ hstep rfl rfl ⟨?_, ?_⟩ (Or.inr rfl)))
      · simp [Conn.log, hqueue]
      · simp only [hqueue, List.length_cons]
        omega
  | close c =>
    simp only [step] at hstep
    split at hstep
    · exact Or.inr (Or.inr (hown c _ hstep rfl rfl (.of_eq rfl rfl)
        (Or.inl trivial)))
    · cases hstep

/-- What a step does to the connections: it changes the one that acts, to whose messages it adds,
and the others hear the notification it fans out. -/
theorem conns_step {a : Action V} (hstep : s.step a = some s') (c' : ConnectionId) :
    (s.conns c').Grows (s'.conns c') ∧
      (a.conn ≠ some c' → s'.conns c' = (s.conns c').hear (s.fansOut a)) := by
  have hhear : s'.conns c' = (s.conns c').hear (s.fansOut a) →
      (s.conns c').Grows (s'.conns c') := fun h => h ▸ Conn.grows_hear _ _
  rcases step_cases hstep with ⟨c, rfl, hrun⟩ | ⟨rfl, hsweep⟩ | ⟨hnone, ⟨-, hconns⟩ |
    ⟨c, conn, hactor, hgrows, -, rfl⟩⟩
  · obtain ⟨hgrows, hother⟩ := conns_run hrun
    rcases eq_or_ne c' c with rfl | hne
    · exact ⟨hgrows, fun h => absurd rfl h⟩
    · exact ⟨hhear (hother c' hne), fun _ => hother c' hne⟩
  · exact ⟨hhear (conns_sweepStep hsweep c'), fun _ => conns_sweepStep hsweep c'⟩
  · rw [hconns, hnone]
    exact ⟨.of_eq rfl rfl, fun _ => rfl⟩
  · rcases eq_or_ne c' c with rfl | hne
    · exact ⟨by rwa [conns_setConn_self], fun h => absurd hactor h⟩
    · rw [conns_setConn_of_ne hne, hnone]
      exact ⟨.of_eq rfl rfl, fun _ => rfl⟩

end State

end GranolaSdr.WsServer
