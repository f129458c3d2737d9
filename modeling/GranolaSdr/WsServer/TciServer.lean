import GranolaSdr.WsServer.Tci
import Mathlib.Data.List.Perm.Basic

/-!
# The TCI server

The connection tasks of `tci.rs` as steps on one state. The frequency a vfo command asks for is
stored and queued in two steps, and the steps of other connections come between them. An echo is
handed to a task of its own, which waits for room in the channel of its connection; any of the tasks
that wait can be the next to find room.

The commands a connection has handled are history, and so are the numbers of the echoes. No step
depends on them.

## Main definitions

* `Task`, `Conn`, `State`: where the tasks stand and what they share;
* `Conn.step`, `step`: the steps of the server;
* `Conn.InOrder`: the echoes enqueued are those of the first commands handled.

## Main results

* `exec_dispatch_cmd`: a command handled without interruption does what `dispatch_cmd` does;
* `inOrder_iff_oldestFirst`: when the echoes of every connection are enqueued in order.
-/

namespace GranolaSdr.Tci

open WsServer (Text stripPrefix)

/-- The number of messages the channel of a connection can hold. -/
def CHAN_DEPTH : ℕ := 64

/-- The messages the server sends. -/
inductive WsMsg where
  | binary (data : List UInt8)
  | text (text : Text)

/-- A message in a channel: an echo, with the number of its command, or an audio frame or
S-meter text. -/
inductive Frame where
  | echo (number : ℕ) (text : Text)
  | other (msg : WsMsg)

/-- Where the handler of a connection stands. -/
inductive Task where
  /-- Between two commands. -/
  | idle
  /-- `parse_vfo_cmd`, after the frequency is stored and before the retune is queued. -/
  | push_back (cmd : Text) (trx : Sink) (freq_hz : ℕ)
  /-- The connection has ended. -/
  | closed
  deriving DecidableEq

/-- A connection. -/
structure Conn where
  /-- The commands of the message being handled that have not been dispatched. -/
  pending : List Text
  task : Task
  /-- The write task runs, so the channel is open. -/
  writes : Bool
  /-- The echoes that wait for room in the channel, with the numbers of their commands, in the order
  their tasks were spawned. -/
  waiting : List (ℕ × Text)
  queue : List Frame
  received : List Frame
  /-- The commands handled so far. -/
  handled : List Text

/-- The server. -/
structure State where
  shared : TciState
  conns : ConnectionId → Conn

/-- What can happen on a connection. -/
inductive Event where
  /-- A message arrives. -/
  | message (text : Text)
  /-- The next command is dispatched, up to the second step of a retune. -/
  | dispatch
  /-- The retune is queued. -/
  | run
  /-- One of the tasks that wait finds room in the channel. -/
  | enqueue (i : ℕ)
  /-- An audio frame or S-meter text is offered. -/
  | broadcast (msg : WsMsg)
  /-- The client receives its next message. -/
  | deliver
  /-- The write task ends. -/
  | hangUp
  /-- The connection ends. -/
  | close

/-- A connection that has been greeted. -/
def Conn.init : Conn where
  pending := []
  task := .idle
  writes := true
  waiting := []
  queue := []
  received := []
  handled := []

/-- The server before the first message. -/
def init : State where
  shared := .new
  conns _ := .init

section Steps

variable (to_lowercase : Text → Text)

/-- The retune a command asks for. -/
def retune (cmd : Text) : Option (Sink × ℕ) :=
  (stripPrefix "vfo:".toList (to_lowercase cmd)).bind vfoTarget

/-- The message a command hands to `reliable_send`. -/
def echo (cmd : Text) : Option Text := (dispatch_cmd to_lowercase cmd .new 0).2

namespace Conn

/-- `reliable_send` at the end of `dispatch_cmd`. -/
def finish (conn : Conn) (cmd : Text) : Conn :=
  { conn with
    waiting := conn.waiting ++ ((echo to_lowercase cmd).map (conn.handled.length, ·)).toList
    handled := conn.handled ++ [cmd] }

/-- `cleanup_conn` -/
def cleanup (shared : TciState) (c : ConnectionId) : TciState :=
  { shared with audio_subs := fun trx => (shared.audio_subs trx).filter (· ≠ c) }

/-- The steps on a connection, with the shared state. -/
def step (c : ConnectionId) (shared : TciState) (conn : Conn) : Event → Option (TciState × Conn)
  | .message text =>
    match conn.task, conn.pending with
    | .idle, [] => some (shared, { conn with pending := commands text })
    | _, _ => none
  | .dispatch =>
    match conn.task, conn.pending with
    | .idle, cmd :: pending =>
      match retune to_lowercase cmd with
      | some (trx, freq_hz) =>
        some (shared.store trx freq_hz,
          { conn with pending, task := .push_back cmd trx freq_hz })
      | none =>
        some ((dispatch_cmd to_lowercase cmd shared c).1,
          ({ conn with pending }).finish to_lowercase cmd)
    | _, _ => none
  | .run =>
    match conn.task with
    | .push_back cmd trx freq_hz =>
      some (shared.push_back trx freq_hz, ({ conn with task := .idle }).finish to_lowercase cmd)
    | _ => none
  | .enqueue i =>
    match conn.waiting[i]? with
    | some (number, text) =>
      if conn.writes ∧ conn.queue.length < CHAN_DEPTH then
        some (shared, { conn with
          waiting := conn.waiting.eraseIdx i
          queue := conn.queue ++ [.echo number text] })
      else none
    | none => none
  | .broadcast msg =>
    -- `try_send` drops the message when the channel is full
    if conn.writes ∧ conn.queue.length < CHAN_DEPTH then
      some (shared, { conn with queue := conn.queue ++ [.other msg] })
    else some (shared, conn)
  | .deliver =>
    match conn.queue with
    | [] => none
    | frame :: queue =>
      if conn.writes then
        some (shared, { conn with queue, received := conn.received ++ [frame] })
      else none
  | .hangUp => some (shared, { conn with writes := false })
  | .close =>
    match conn.task, conn.pending with
    | .idle, [] => some (cleanup shared c, { conn with task := .closed, writes := false })
    | _, _ => none

end Conn

/-- The steps of the server. -/
def step (s : State) (a : ConnectionId × Event) : Option State :=
  ((s.conns a.1).step to_lowercase a.1 s.shared a.2).map fun r =>
    { shared := r.1, conns := Function.update s.conns a.1 r.2 }

/-! ## What a step does -/

namespace Conn

/-- What a step on a connection does, with what it requires. -/
inductive StepCases (c : ConnectionId) (shared : TciState) (conn : Conn) (e : Event)
    (shared' : TciState) (conn' : Conn) : Prop where
  | message (text : Text) (he : e = .message text) (htask : conn.task = .idle)
      (hshared : shared' = shared) (hconn : conn' = { conn with pending := commands text })
  | store (cmd : Text) (pending : List Text) (trx : Sink) (freq_hz : ℕ) (he : e = .dispatch)
      (htask : conn.task = .idle) (hpending : conn.pending = cmd :: pending)
      (hretune : retune to_lowercase cmd = some (trx, freq_hz))
      (hshared : shared' = shared.store trx freq_hz)
      (hconn : conn' = { conn with pending, task := .push_back cmd trx freq_hz })
  | command (cmd : Text) (pending : List Text) (he : e = .dispatch) (htask : conn.task = .idle)
      (hpending : conn.pending = cmd :: pending) (hretune : retune to_lowercase cmd = none)
      (hshared : shared' = (dispatch_cmd to_lowercase cmd shared c).1)
      (hconn : conn' = ({ conn with pending }).finish to_lowercase cmd)
  | push_back (cmd : Text) (trx : Sink) (freq_hz : ℕ) (he : e = .run)
      (htask : conn.task = .push_back cmd trx freq_hz)
      (hshared : shared' = shared.push_back trx freq_hz)
      (hconn : conn' = ({ conn with task := .idle }).finish to_lowercase cmd)
  | enqueue (i : ℕ) (number : ℕ) (text : Text) (he : e = .enqueue i)
      (hi : conn.waiting[i]? = some (number, text)) (hshared : shared' = shared)
      (hconn : conn' = { conn with
        waiting := conn.waiting.eraseIdx i
        queue := conn.queue ++ [.echo number text] })
  | broadcast (msg : WsMsg) (he : e = .broadcast msg) (hshared : shared' = shared)
      (hconn : conn' = { conn with queue := conn.queue ++ [.other msg] } ∨ conn' = conn)
  | deliver (frame : Frame) (queue : List Frame) (he : e = .deliver)
      (hqueue : conn.queue = frame :: queue) (hshared : shared' = shared)
      (hconn : conn' = { conn with queue, received := conn.received ++ [frame] })
  | hangUp (he : e = .hangUp) (hshared : shared' = shared)
      (hconn : conn' = { conn with writes := false })
  | close (he : e = .close) (htask : conn.task = .idle) (hshared : shared' = cleanup shared c)
      (hconn : conn' = { conn with task := .closed, writes := false })

variable {to_lowercase} in
theorem stepCases_of_step {c : ConnectionId} {shared shared' : TciState} {conn conn' : Conn}
    {e : Event} (hstep : conn.step to_lowercase c shared e = some (shared', conn')) :
    StepCases to_lowercase c shared conn e shared' conn' := by
  cases e with
  | message text =>
    simp only [step] at hstep
    split at hstep
    · next htask hpending =>
      obtain ⟨rfl, rfl⟩ := by simpa using hstep
      exact .message text rfl htask rfl rfl
    · cases hstep
  | dispatch =>
    simp only [step] at hstep
    split at hstep
    · next cmd pending htask hpending =>
      split at hstep
      · next trx freq_hz hretune =>
        obtain ⟨rfl, rfl⟩ := by simpa using hstep
        exact .store cmd pending trx freq_hz rfl htask hpending hretune rfl rfl
      · next hretune =>
        obtain ⟨rfl, rfl⟩ := by simpa using hstep
        exact .command cmd pending rfl htask hpending hretune rfl rfl
    · cases hstep
  | run =>
    simp only [step] at hstep
    split at hstep
    · next cmd trx freq_hz htask =>
      obtain ⟨rfl, rfl⟩ := by simpa using hstep
      exact .push_back cmd trx freq_hz rfl htask rfl rfl
    · cases hstep
  | enqueue i =>
    simp only [step] at hstep
    split at hstep
    · next number text hi =>
      -- a message waits while the channel of the client is full
      split_ifs at hstep with hroom
      obtain ⟨rfl, rfl⟩ := by simpa using hstep
      exact .enqueue i number text rfl hi rfl rfl
    · cases hstep
  | broadcast msg =>
    simp only [step] at hstep
    split_ifs at hstep with hroom
    · -- there is room for the broadcast
      obtain ⟨rfl, rfl⟩ := by simpa using hstep
      exact .broadcast msg rfl rfl (.inl rfl)
    · obtain ⟨rfl, rfl⟩ := by simpa using hstep
      exact .broadcast msg rfl rfl (.inr rfl)
  | deliver =>
    simp only [step] at hstep
    split at hstep
    · cases hstep
    · next frame queue hqueue =>
      split_ifs at hstep with hwrites
      obtain ⟨rfl, rfl⟩ := by simpa using hstep
      exact .deliver frame queue rfl hqueue rfl rfl
  | hangUp =>
    obtain ⟨rfl, rfl⟩ := by simpa [step] using hstep
    exact .hangUp rfl rfl rfl
  | close =>
    simp only [step] at hstep
    split at hstep
    · next htask hpending =>
      obtain ⟨rfl, rfl⟩ := by simpa using hstep
      exact .close rfl htask rfl rfl
    · cases hstep

end Conn

/-! ## Commands without interruption -/

theorem dispatch_cmd_of_retune {cmd : Text} {trx : Sink} {freq_hz : ℕ}
    (h : retune to_lowercase cmd = some (trx, freq_hz)) (shared : TciState) (c : ConnectionId) :
    (dispatch_cmd to_lowercase cmd shared c).1 =
      (shared.store trx freq_hz).push_back trx freq_hz := by
  obtain ⟨rest, hrest, htarget⟩ := Option.bind_eq_some_iff.1 h
  rw [dispatch_cmd_vfo to_lowercase (WsServer.stripPrefix_eq_some_iff.1 hrest), parse_vfo_cmd,
    htarget]

/-- A command that asks for no retune leaves the frequencies and the queue as they are. -/
theorem dispatch_cmd_of_retune_none {cmd : Text} (h : retune to_lowercase cmd = none)
    (shared : TciState) (c : ConnectionId) :
    (dispatch_cmd to_lowercase cmd shared c).1.vfo_freqs = shared.vfo_freqs ∧
      (dispatch_cmd to_lowercase cmd shared c).1.vfo_queue = shared.vfo_queue := by
  by_cases hvfo : ∃ rest, to_lowercase cmd = "vfo:".toList ++ rest
  · obtain ⟨rest, hrest⟩ := hvfo
    have htarget : vfoTarget rest = none := by
      rw [retune, hrest, WsServer.stripPrefix_eq_some_iff.2 rfl, Option.bind_some] at h
      exact h
    rw [dispatch_cmd_vfo to_lowercase hrest, parse_vfo_cmd, htarget]
    exact ⟨rfl, rfl⟩
  · have hnot := dispatch_cmd_of_not_vfo to_lowercase (not_exists.1 hvfo) shared c
    exact ⟨hnot.1, hnot.2.1⟩

/-- What a command echoes does not depend on the state. -/
theorem dispatch_cmd_snd (cmd : Text) (shared : TciState) (c : ConnectionId) :
    (dispatch_cmd to_lowercase cmd shared c).2 = echo to_lowercase cmd := by
  unfold echo dispatch_cmd
  dsimp only
  split
  · split <;> rfl
  · split
    · split <;> rfl
    · split
      · rfl
      · split_ifs <;> rfl

/-- When no step comes between, a command does what `dispatch_cmd` says. -/
theorem exec_dispatch_cmd {s : State} {c : ConnectionId} {cmd : Text} {pending : List Text}
    (htask : (s.conns c).task = .idle) (hpending : (s.conns c).pending = cmd :: pending) :
    ∃ as, (as = [(c, .dispatch)] ∨ as = [(c, .dispatch), (c, .run)]) ∧
      Run.exec (step to_lowercase) s as = some
        { shared := (dispatch_cmd to_lowercase cmd s.shared c).1
          conns := Function.update s.conns c
            (({ s.conns c with pending }).finish to_lowercase cmd) } := by
  cases hretune : retune to_lowercase cmd with
  | none =>
    refine ⟨[(c, .dispatch)], .inl rfl, ?_⟩
    simp [step, Conn.step, htask, hpending, hretune]
  | some target =>
    obtain ⟨trx, freq_hz⟩ := target
    refine ⟨[(c, .dispatch), (c, .run)], .inr rfl, ?_⟩
    simp [step, Conn.step, htask, hpending, hretune, dispatch_cmd_of_retune to_lowercase hretune,
      Conn.finish]

/-! ## The order of the echoes -/

/-- The echo a frame carries. -/
def Frame.echo? : Frame → Option (ℕ × Text)
  | .echo number text => some (number, text)
  | .other _ => none

/-- The echoes enqueued so far. -/
def Conn.enqueued (conn : Conn) : List (ℕ × Text) :=
  (conn.received ++ conn.queue).filterMap Frame.echo?

/-- The echoes of commands, in the order of the commands. -/
def echoes (cmds : List Text) : List (ℕ × Text) :=
  cmds.zipIdx.filterMap fun (cmd, number) => (echo to_lowercase cmd).map (number, ·)

/-- The echoes enqueued are those of the first commands handled. -/
def Conn.InOrder (conn : Conn) : Prop := conn.enqueued <+: echoes to_lowercase conn.handled

theorem echoes_concat (cmds : List Text) (cmd : Text) :
    echoes to_lowercase (cmds ++ [cmd]) =
      echoes to_lowercase cmds ++ ((echo to_lowercase cmd).map (cmds.length, ·)).toList := by
  unfold echoes
  rw [List.zipIdx_append, List.filterMap_append]
  cases h : echo to_lowercase cmd with
  | none => simp [h]
  | some text => simp [h]

theorem lt_length_of_mem_echoes {cmds : List Text} {e : ℕ × Text}
    (h : e ∈ echoes to_lowercase cmds) : e.1 < cmds.length := by
  obtain ⟨⟨cmd, number⟩, hmem, hecho⟩ := List.mem_filterMap.1 h
  obtain ⟨text, -, rfl⟩ := Option.map_eq_some_iff.1 hecho
  simpa using List.snd_lt_of_mem_zipIdx hmem

theorem echoes_pairwise (cmds : List Text) :
    (echoes to_lowercase cmds).Pairwise (·.1 < ·.1) := by
  induction cmds using List.reverseRecOn with
  | nil => exact List.Pairwise.nil
  | append_singleton cmds cmd ih =>
    rw [echoes_concat, List.pairwise_append]
    refine ⟨ih, ?_, ?_⟩
    · cases echo to_lowercase cmd with
      | none => simp
      | some text => simp
    · intro e he e' he'
      obtain ⟨text, -, rfl⟩ := Option.map_eq_some_iff.1 (Option.mem_toList.1 he')
      exact lt_length_of_mem_echoes to_lowercase he

/-- Every echo of a command handled is enqueued or waits, and those that wait are in order. -/
structure Conn.EchoInv (conn : Conn) : Prop where
  perm : (conn.enqueued ++ conn.waiting).Perm (echoes to_lowercase conn.handled)
  sorted : conn.waiting.Pairwise (·.1 < ·.1)

variable {to_lowercase}

namespace Conn.EchoInv

variable {conn conn' : Conn}

theorem inOrder_iff (h : conn.EchoInv to_lowercase) :
    conn.InOrder to_lowercase ↔
      conn.enqueued ++ conn.waiting = echoes to_lowercase conn.handled := by
  constructor
  · rintro ⟨rest, hrest⟩
    have hperm : conn.waiting.Perm rest := by
      refine (List.perm_append_left_iff conn.enqueued).1 ?_
      rw [hrest]
      exact h.perm
    -- the echoes not enqueued yet are the waiting ones, and both lists are in order
    have hsorted : rest.Pairwise (·.1 < ·.1) := by
      have hall := echoes_pairwise to_lowercase conn.handled
      rw [← hrest] at hall
      exact (List.pairwise_append.1 hall).2.1
    have heq : conn.waiting = rest := by
      refine hperm.eq_of_pairwise (fun a b _ _ hab hba => ?_) h.sorted hsorted
      exact absurd (hab.trans hba) (lt_irrefl _)
    rw [heq, hrest]
  · intro heq
    exact ⟨conn.waiting, heq⟩

/-- Once no echo waits and the client has received all messages, the echoes in order are those of
all commands handled. -/
theorem received_eq (h : conn.EchoInv to_lowercase) (horder : conn.InOrder to_lowercase)
    (hwaiting : conn.waiting = []) (hqueue : conn.queue = []) :
    conn.received.filterMap Frame.echo? = echoes to_lowercase conn.handled := by
  have heq := h.inOrder_iff.1 horder
  rw [hwaiting, List.append_nil, enqueued, hqueue, List.append_nil] at heq
  exact heq

/-- Messages that are no echoes, and messages received, change nothing. -/
theorem of_eq (h : conn.EchoInv to_lowercase) (henqueued : conn'.enqueued = conn.enqueued)
    (hwaiting : conn'.waiting = conn.waiting) (hhandled : conn'.handled = conn.handled) :
    conn'.EchoInv to_lowercase where
  perm := by
    rw [henqueued, hwaiting, hhandled]
    exact h.perm
  sorted := hwaiting ▸ h.sorted

theorem finish (h : conn.EchoInv to_lowercase) (cmd : Text) :
    (conn.finish to_lowercase cmd).EchoInv to_lowercase where
  perm := by
    have hperm := h.perm.append_right ((echo to_lowercase cmd).map (conn.handled.length, ·)).toList
    rw [List.append_assoc] at hperm
    change (conn.enqueued ++ (conn.waiting ++ _)).Perm (echoes to_lowercase (conn.handled ++ [cmd]))
    rw [echoes_concat]
    exact hperm
  sorted := by
    change (conn.waiting ++ _).Pairwise _
    rw [List.pairwise_append]
    refine ⟨h.sorted, ?_, fun e he e' he' => ?_⟩
    · cases echo to_lowercase cmd with
      | none => simp
      | some text => simp
    · obtain ⟨text, -, rfl⟩ := Option.map_eq_some_iff.1 (Option.mem_toList.1 he')
      -- the new echo has the largest number
      have hmem : e ∈ conn.enqueued ++ conn.waiting := List.mem_append_right _ he
      exact lt_length_of_mem_echoes to_lowercase (h.perm.subset hmem)

/-- One of the tasks that wait finds room. -/
theorem enqueue (h : conn.EchoInv to_lowercase) {i : ℕ} {e : ℕ × Text}
    (hi : conn.waiting[i]? = some e) (henqueued : conn'.enqueued = conn.enqueued ++ [e])
    (hwaiting : conn'.waiting = conn.waiting.eraseIdx i) (hhandled : conn'.handled = conn.handled) :
    conn'.EchoInv to_lowercase where
  perm := by
    obtain ⟨hlt, rfl⟩ := List.getElem?_eq_some_iff.1 hi
    rw [henqueued, hwaiting, hhandled, List.append_assoc, List.singleton_append]
    exact ((List.getElem_cons_eraseIdx_perm hlt).append_left _).trans h.perm
  sorted := by
    rw [hwaiting]
    exact h.sorted.sublist (List.eraseIdx_sublist ..)

/-- The echoes stay in order exactly if it is the task spawned first. -/
theorem inOrder_enqueue_iff (h : conn.EchoInv to_lowercase) (horder : conn.InOrder to_lowercase)
    {i : ℕ} {e : ℕ × Text} (hi : conn.waiting[i]? = some e)
    (henqueued : conn'.enqueued = conn.enqueued ++ [e])
    (hwaiting : conn'.waiting = conn.waiting.eraseIdx i) (hhandled : conn'.handled = conn.handled) :
    conn'.InOrder to_lowercase ↔ i = 0 := by
  have h' := h.enqueue hi henqueued hwaiting hhandled
  rw [h'.inOrder_iff, henqueued, hwaiting, hhandled, ← h.inOrder_iff.1 horder, List.append_assoc,
    List.append_cancel_left_eq]
  cases hcases : conn.waiting with
  | nil => simp [hcases] at hi
  | cons first rest =>
    rw [hcases] at hi
    cases i with
    | zero => simpa using (Option.some.inj hi).symm
    | succ i =>
      have hsorted := h.sorted
      rw [hcases, List.pairwise_cons] at hsorted
      -- a later echo overtakes the first one
      have hlt : first.1 < e.1 := hsorted.1 e (List.mem_of_getElem? hi)
      refine iff_of_false (fun heq => ?_) (Nat.succ_ne_zero i)
      have hfirst : e = first := (List.cons.inj heq).1
      exact absurd (hfirst ▸ hlt) (lt_irrefl _)

end Conn.EchoInv

namespace Conn

variable {c : ConnectionId} {shared shared' : TciState} {conn conn' : Conn} {e : Event}

variable (to_lowercase) in
/-- What a step does to the echoes of a connection. -/
inductive EchoStep (conn : Conn) (e : Event) (conn' : Conn) : Prop where
  | same (henqueued : conn'.enqueued = conn.enqueued) (hwaiting : conn'.waiting = conn.waiting)
      (hhandled : conn'.handled = conn.handled) (he : ∀ i, e ≠ .enqueue i)
  | finish (conn₀ : Conn) (cmd : Text) (hfinish : conn' = conn₀.finish to_lowercase cmd)
      (henqueued : conn₀.enqueued = conn.enqueued) (hwaiting : conn₀.waiting = conn.waiting)
      (hhandled : conn₀.handled = conn.handled) (he : ∀ i, e ≠ .enqueue i)
  | enqueue (i : ℕ) (echo : ℕ × Text) (he : e = .enqueue i) (hi : conn.waiting[i]? = some echo)
      (henqueued : conn'.enqueued = conn.enqueued ++ [echo])
      (hwaiting : conn'.waiting = conn.waiting.eraseIdx i) (hhandled : conn'.handled = conn.handled)

theorem echoStep_of_step (hstep : conn.step to_lowercase c shared e = some (shared', conn')) :
    conn.EchoStep to_lowercase e conn' := by
  cases stepCases_of_step hstep with
  | message text he htask hshared hconn =>
    subst hconn
    exact .same rfl rfl rfl (by simp [he])
  | store cmd pending trx freq_hz he htask hpending hretune hshared hconn =>
    -- a retune is finished when it has been queued
    subst hconn
    exact .same rfl rfl rfl (by simp [he])
  | command cmd pending he htask hpending hretune hshared hconn =>
    exact .finish _ cmd hconn rfl rfl rfl (by simp [he])
  | push_back cmd trx freq_hz he htask hshared hconn =>
    exact .finish _ cmd hconn rfl rfl rfl (by simp [he])
  | enqueue i number text he hi hshared hconn =>
    -- any of the waiting tasks may be the next to get the lock
    subst hconn
    refine .enqueue i (number, text) he hi ?_ rfl rfl
    simp [enqueued, Frame.echo?]
  | broadcast msg he hshared hconn =>
    rcases hconn with rfl | rfl
    · exact .same (by simp [enqueued, Frame.echo?]) rfl rfl (by simp [he])
    · exact .same rfl rfl rfl (by simp [he])
  | deliver frame queue he hqueue hshared hconn =>
    subst hconn
    exact .same (by simp [enqueued, hqueue]) rfl rfl (by simp [he])
  | hangUp he hshared hconn | close he htask hshared hconn =>
    subst hconn
    exact .same rfl rfl rfl (by simp [he])

theorem EchoStep.echoInv (hstep : conn.EchoStep to_lowercase e conn')
    (h : conn.EchoInv to_lowercase) : conn'.EchoInv to_lowercase := by
  cases hstep with
  | same henqueued hwaiting hhandled he => exact h.of_eq henqueued hwaiting hhandled
  | finish conn₀ cmd hfinish henqueued hwaiting hhandled he =>
    rw [hfinish]
    exact (h.of_eq henqueued hwaiting hhandled).finish cmd
  | enqueue i echo he hi henqueued hwaiting hhandled =>
    exact h.enqueue hi henqueued hwaiting hhandled

/-- The echoes stay in order unless a task overtakes one spawned before it. -/
theorem EchoStep.inOrder_iff (hstep : conn.EchoStep to_lowercase e conn')
    (h : conn.EchoInv to_lowercase) (horder : conn.InOrder to_lowercase) :
    conn'.InOrder to_lowercase ↔ ∀ i, e = .enqueue i → i = 0 := by
  cases hstep with
  | same henqueued hwaiting hhandled he =>
    refine iff_of_true ?_ fun i hi => absurd hi (he i)
    rw [InOrder, henqueued, hhandled]
    exact horder
  | finish conn₀ cmd hfinish henqueued hwaiting hhandled he =>
    refine iff_of_true ?_ fun i hi => absurd hi (he i)
    have hnext : conn'.handled = conn.handled ++ [cmd] := by
      rw [hfinish, ← hhandled]
      rfl
    have hsame : conn'.enqueued = conn.enqueued := by
      rw [hfinish, ← henqueued]
      rfl
    -- a finished command adds an echo at the end of what is due
    rw [InOrder, hsame, hnext, echoes_concat]
    exact horder.trans (List.prefix_append _ _)
  | enqueue i echo he hi henqueued hwaiting hhandled =>
    rw [h.inOrder_enqueue_iff horder hi henqueued hwaiting hhandled, he]
    simp

end Conn

/-- A step of the server is a step on its connection. -/
theorem conn_step_of_step {s t : State} {a : ConnectionId × Event}
    (hstep : step to_lowercase s a = some t) :
    (s.conns a.1).step to_lowercase a.1 s.shared a.2 = some (t.shared, t.conns a.1) ∧
      ∀ c, c ≠ a.1 → t.conns c = s.conns c := by
  obtain ⟨⟨shared, conn⟩, hconn, rfl⟩ := Option.map_eq_some_iff.1 hstep
  refine ⟨?_, fun c hc => Function.update_of_ne hc _ _⟩
  have hself : Function.update s.conns a.1 conn a.1 = conn := Function.update_self ..
  rw [hconn]
  exact congrArg (fun conn => some (shared, conn)) hself.symm

namespace State

variable (to_lowercase) in
/-- The invariant of the echoes, on every connection. -/
def EchoInv (s : State) : Prop := ∀ c, (s.conns c).EchoInv to_lowercase

variable (to_lowercase) in
/-- On every connection the echoes enqueued are those of the first commands handled. -/
def InOrder (s : State) : Prop := ∀ c, (s.conns c).InOrder to_lowercase

end State

/-- When a task finds room in a channel, it is the one spawned first of those that wait there. -/
def OldestFirst (a : ConnectionId × Event) : Prop := ∀ i, a.2 = .enqueue i → i = 0

theorem echoInv_init : init.EchoInv to_lowercase :=
  fun _ => { perm := List.Perm.nil, sorted := List.Pairwise.nil }

theorem inOrder_init : init.InOrder to_lowercase := fun _ => List.nil_prefix

theorem echoInv_step (s : State) (a : ConnectionId × Event) (t : State)
    (h : s.EchoInv to_lowercase) (hstep : step to_lowercase s a = some t) :
    t.EchoInv to_lowercase := by
  obtain ⟨hconn, hothers⟩ := conn_step_of_step hstep
  intro c
  by_cases hc : c = a.1
  · rw [hc]
    exact (Conn.echoStep_of_step hconn).echoInv (h a.1)
  · rw [hothers c hc]
    exact h c

theorem inOrder_step (s : State) (a : ConnectionId × Event) (t : State)
    (h : s.EchoInv to_lowercase) (horder : s.InOrder to_lowercase)
    (hstep : step to_lowercase s a = some t) : t.InOrder to_lowercase ↔ OldestFirst a := by
  obtain ⟨hconn, hothers⟩ := conn_step_of_step hstep
  have hiff := (Conn.echoStep_of_step hconn).inOrder_iff (h a.1) (horder a.1)
  constructor
  · intro ht
    exact hiff.1 (ht a.1)
  · intro holdest c
    by_cases hc : c = a.1
    · rw [hc]
      exact hiff.2 holdest
    · rw [hothers c hc]
      exact horder c

/-- Throughout a run the echoes of every connection are enqueued in the order of the commands
exactly if it is always the task spawned first that finds room. -/
theorem inOrder_iff_oldestFirst {as : List (ConnectionId × Event)} {t : State}
    (hrun : Run.exec (step to_lowercase) init as = some t) :
    (∀ bs, bs <+: as → ∀ u ∈ Run.exec (step to_lowercase) init bs, u.InOrder to_lowercase) ↔
      Run.Along (step to_lowercase) (fun _ a => OldestFirst a) init as :=
  Run.forall_prefix_iff_along_of_inv echoInv_step inOrder_step echoInv_init inOrder_init hrun

/-! ## Retunes -/

variable (to_lowercase) in
/-- The retune whose frequency a step stores. -/
def Conn.stored (conn : Conn) : Event → Option (Sink × ℕ)
  | .dispatch => conn.pending.head?.bind (retune to_lowercase)
  | _ => none

variable (to_lowercase) in
/-- What a step on a connection does to the retunes. -/
inductive Conn.TuneStep (shared : TciState) (conn : Conn) (e : Event) (shared' : TciState)
    (conn' : Conn) : Prop where
  | store (cmd : Text) (trx : Sink) (freq_hz : ℕ) (he : e ≠ .run)
      (hstored : conn.stored to_lowercase e = some (trx, freq_hz)) (htask : conn.task = .idle)
      (hretune : retune to_lowercase cmd = some (trx, freq_hz))
      (hshared : shared' = shared.store trx freq_hz)
      (htask' : conn'.task = .push_back cmd trx freq_hz)
  | push_back (cmd : Text) (trx : Sink) (freq_hz : ℕ) (he : e = .run)
      (htask : conn.task = .push_back cmd trx freq_hz)
      (hshared : shared' = shared.push_back trx freq_hz) (htask' : conn'.task = .idle)
  | same (he : e ≠ .run) (hstored : conn.stored to_lowercase e = none)
      (hfreqs : shared'.vfo_freqs = shared.vfo_freqs)
      (hqueue : shared'.vfo_queue = shared.vfo_queue)
      (htask : ∀ cmd trx freq_hz,
        conn'.task = .push_back cmd trx freq_hz ↔ conn.task = .push_back cmd trx freq_hz)

theorem Conn.tuneStep_of_step {c : ConnectionId} {shared shared' : TciState} {conn conn' : Conn}
    {e : Event} (hstep : conn.step to_lowercase c shared e = some (shared', conn')) :
    TuneStep to_lowercase shared conn e shared' conn' := by
  cases stepCases_of_step hstep with
  | store cmd pending trx freq_hz he htask hpending hretune hshared hconn =>
    -- the frequency is stored now and the retune queued by the next step
    have hstored : conn.stored to_lowercase e = some (trx, freq_hz) := by
      rw [he, stored, hpending, ← hretune]
      rfl
    subst hconn
    exact .store cmd trx freq_hz (by simp [he]) hstored htask hretune hshared rfl
  | command cmd pending he htask hpending hretune hshared hconn =>
    have hstored : conn.stored to_lowercase e = none := by
      rw [he, stored, hpending, ← hretune]
      rfl
    have hsame := dispatch_cmd_of_retune_none to_lowercase hretune shared c
    subst hshared hconn
    exact .same (by simp [he]) hstored hsame.1 hsame.2 fun _ _ _ => Iff.rfl
  | push_back cmd trx freq_hz he htask hshared hconn =>
    subst hconn
    exact .push_back cmd trx freq_hz he htask hshared rfl
  | broadcast msg he hshared hconn =>
    subst he hshared
    rcases hconn with rfl | rfl
    · exact .same (by simp) rfl rfl rfl fun _ _ _ => Iff.rfl
    · exact .same (by simp) rfl rfl rfl fun _ _ _ => Iff.rfl
  | close he htask hshared hconn =>
    subst he hshared hconn
    exact .same (by simp) rfl rfl rfl fun _ _ _ => by simp [htask]
  | message text he htask hshared hconn
  | enqueue i number text he hi hshared hconn
  | deliver frame queue he hqueue hshared hconn
  | hangUp he hshared hconn =>
    subst he hshared hconn
    exact .same (by simp) rfl rfl rfl fun _ _ _ => Iff.rfl

end Steps

/-- A client turns the knob of receiver 0 through two frequencies. -/
def twoTunesRun : List (ConnectionId × Event) :=
  [(0, .message "vfo:0,0,14074000;vfo:0,0,14075000;".toList), (0, .dispatch), (0, .run),
    (0, .dispatch), (0, .run)]

/-- The echoes are enqueued in the order of the commands when their tasks run in this order. -/
theorem inOrder_iff_oldestFirst_twoTunesRun :
    ∃ t, Run.exec (step id) init (twoTunesRun ++ [(0, .enqueue 0), (0, .enqueue 0)]) = some t ∧
      t.InOrder id ∧ (t.conns 0).enqueued =
        [(0, "vfo:0,0,14074000;".toList), (1, "vfo:0,0,14075000;".toList)] := by
  obtain ⟨t, ht⟩ := Option.isSome_iff_exists.1 (by decide : (Run.exec (step id) init
    (twoTunesRun ++ [(0, .enqueue 0), (0, .enqueue 0)])).isSome)
  have hview : (Run.exec (step id) init
      (twoTunesRun ++ [(0, .enqueue 0), (0, .enqueue 0)])).all fun t =>
        (t.conns 0).enqueued =
          [(0, "vfo:0,0,14074000;".toList), (1, "vfo:0,0,14075000;".toList)] := by
    decide
  rw [ht, Option.all_some, decide_eq_true_eq] at hview
  have holdest : ∀ a ∈ twoTunesRun ++ [(0, .enqueue 0), (0, .enqueue 0)], OldestFirst a := by
    simp [twoTunesRun, OldestFirst]
  refine ⟨t, ht, ?_, hview⟩
  exact (inOrder_iff_oldestFirst ht).2 (Run.along_of_forall_mem holdest) _ List.prefix_rfl t ht

/-- When the second task finds room first, the client is left with the echo of the first frequency,
and the server with the second one. -/
theorem twoTunesRun_not_inOrder :
    ∃ t, Run.exec (step id) init (twoTunesRun ++
        [(0, .enqueue 1), (0, .enqueue 0), (0, .deliver), (0, .deliver)]) = some t ∧
      t.shared.vfo_freqs 0 = 14_075_000 ∧
      (t.conns 0).received.filterMap Frame.echo? =
        [(1, "vfo:0,0,14075000;".toList), (0, "vfo:0,0,14074000;".toList)] ∧
      ¬t.InOrder id := by
  obtain ⟨t, ht⟩ := Option.isSome_iff_exists.1 (by decide : (Run.exec (step id) init
    (twoTunesRun ++ [(0, .enqueue 1), (0, .enqueue 0), (0, .deliver), (0, .deliver)])).isSome)
  have hview : (Run.exec (step id) init
      (twoTunesRun ++ [(0, .enqueue 1), (0, .enqueue 0), (0, .deliver), (0, .deliver)])).all
        fun t => t.shared.vfo_freqs 0 = 14_075_000 ∧
          (t.conns 0).received.filterMap Frame.echo? =
            [(1, "vfo:0,0,14075000;".toList), (0, "vfo:0,0,14074000;".toList)] ∧
          ¬(t.conns 0).enqueued <+: echoes id (t.conns 0).handled := by
    decide
  -- both tunes are handled before either echo is enqueued
  rw [ht, Option.all_some, decide_eq_true_eq] at hview
  exact ⟨t, ht, hview.1, hview.2.1, fun h => hview.2.2 (h 0)⟩

end GranolaSdr.Tci
