import GranolaSdr.WsServer.Invariant
import GranolaSdr.Lib.Run

/-!
# Convergence of a subscriber's view

A subscriber rebuilds the dictionary from the updates, deletions and expiries it receives. In runs
in which no notification or snapshot value is overtaken by the notification of a later operation
on the same key, its view converges to the dictionary.

## Main definitions

* `view`: the map a client obtains from the messages it has received;
* `State.Settled`: nothing is left to fan out, to push, to deliver or to sweep.

## Main results

* `view_converges`: in every run whose steps are in order and find no subscriber's channel full, a
  settled subscriber's view is the dictionary restricted to the keys that match its patterns.
-/

namespace GranolaSdr.WsServer

variable {V : Type*}

/-- The view after a message. -/
def applyMessage (view : Text → Option V) (msg : ServerMessage V) : Text → Option V :=
  match msg.effect with
  | some (key, value) => Function.update view key value
  | none => view

/-- The map obtained by replaying the messages in the order received. -/
def view (frames : List (Frame V)) : Text → Option V :=
  frames.foldl (fun view frame => applyMessage view frame.msg) fun _ => none

/-- The view of a key is what the last message about it says. -/
theorem view_eq (frames : List (Frame V)) (k : Text) :
    view frames k = (lastAbout k frames).bind fun frame => frame.msg.effect.bind Prod.snd := by
  induction frames using List.reverseRecOn with
  | nil => rfl
  | append_singleton frames frame ih =>
    have happly : view (frames ++ [frame]) = applyMessage (view frames) frame.msg := by
      rw [view, List.foldl_append]
      rfl
    rw [happly, lastAbout_append, applyMessage]
    cases heff : frame.msg.effect with
    | none => simp [Frame.About, heff, ih]
    | some e =>
      obtain ⟨key, x⟩ := e
      rcases eq_or_ne key k with rfl | hne
      · simp [Frame.About, heff]
      · simp [Frame.About, heff, hne, Function.update_of_ne hne.symm, ih]

/-- A message about a key is not missed by the search for the last one. -/
theorem lastAbout_ne_none {k : Text} {frames : List (Frame V)} {frame : Frame V}
    (hmem : frame ∈ frames) (habout : frame.About k) : lastAbout k frames ≠ none := by
  induction frames using List.reverseRecOn with
  | nil => cases hmem
  | append_singleton frames f ih =>
    rw [lastAbout_append]
    split_ifs with hf
    · simp
    · rcases List.mem_append.1 hmem with h | h
      · exact ih h
      · exact absurd (List.mem_singleton.1 h ▸ habout) hf

/-- Nothing is left to do for the client, and no expired key waits to be swept. -/
structure State.Settled (s : State V) (c : ConnectionId) : Prop where
  drained : s.Drained c
  swept : ∀ key e, s.dict.lookup key = some e → ¬e.Expired s.now

/-- In every run whose steps are in order and find no subscriber's channel full, the view of a
settled subscriber is the dictionary restricted to the keys that match its patterns. -/
theorem view_converges (actions : List (Action V)) {s : State V}
    (horder : Run.Along State.step (fun s a => s.NoneFull ∧ s.InOrder a) init actions)
    (hrun : Run.exec State.step init actions = some s) {c : ConnectionId} {patterns : List Text}
    (hsub : (s.conns c).subscription = some patterns) (hsettled : s.Settled c) (k : Text) :
    view (s.conns c).received k =
      if key_matches_any k patterns then s.dict.get s.now k else none := by
  have hinv : Inv True s :=
    Run.inv_of_exec (fun _ a _ h hP => inv_step a h hP.1 fun _ => hP.2) inv_init horder hrun
  have hc := hinv.conn c
  have hopen : (s.conns c).task ≠ .closed := by
    intro hclosed
    cases hsub.symm.trans (hc.ended hclosed)
  -- nothing is in flight, so what was sent is what was received and every key's notice is out
  have hlog : (s.conns c).log = (s.conns c).received := by
    rw [Conn.log, hsettled.drained.delivered, List.append_nil]
  have hnotified : s.notified k = s.ops k := hinv.notice.notified_of_drained hsettled.drained k
  rw [view_eq, ← hlog]
  cases hlast : lastAbout k (s.conns c).log with
  | none =>
    split_ifs with hmatch
    · -- no message about the key was sent, and none is owed, so the key is absent
      rcases hc.covered patterns hsub k hmatch hnotified with ⟨f, hf, habout, -⟩ | hpush | hget
      · exact absurd hlast (lastAbout_ne_none hf habout)
      · exact absurd hpush (Task.not_willPush hsettled.drained.pushed k _)
      · exact hget.symm
    · rfl
  | some frame =>
    obtain ⟨hmem, habout⟩ := mem_of_lastAbout hlast
    obtain ⟨x, heff⟩ := Frame.about_iff.1 habout
    obtain ⟨pats, hpats, hmatch⟩ := hc.matching hopen frame hmem k habout
    obtain rfl := Option.some.inj (hsub.symm.trans hpats)
    -- the last message about the key carries its last stamp, and so the stored value
    have hstored : x = s.dict.stored k :=
      (hc.logged frame hmem k x heff).2 (hc.last trivial hopen k hnotified frame hlast)
    rw [if_pos hmatch, Dict.get_eq_stored (hsettled.swept k), ← hstored, Option.bind_some, heff]
    rfl

/-! ## Concrete runs -/

instance (s : State V) (a : Action V) : Decidable (s.InOrder a) :=
  match a with
  | .run c =>
    match h : (s.conns c).task with
    | .notify key _ stamp => decidable_of_iff (s.notified key ≤ stamp) (by simp [State.InOrder, h])
    | .push key _ stamp _ _ =>
      decidable_of_iff (s.notified key ≤ stamp) (by simp [State.InOrder, h])
    | .idle | .closed | .reply _ | .store _ _ _ | .delete _ _ | .get _ _ | .list | .listKeys _
    | .subscribe _ _ | .ack _ _ _ | .snapshotStart _ | .snapshotKeys _ _ | .snapshot _ _ =>
      isTrue (by simp [State.InOrder, h])
  | .sweep =>
    match h : s.sweep with
    | .notify ((key, stamp) :: _) =>
      decidable_of_iff (s.notified key ≤ stamp) (by simp [State.InOrder, h])
    | .notify [] | .idle | .collect _ | .check _ _ => isTrue (by simp [State.InOrder, h])
  | .tick _ | .request _ _ | .malformed _ _ | .listing _ _ | .deliver _ | .close _
  | .candidates _ => isTrue trivial

/-- A run of no more steps than a channel can hold messages finds none full. -/
theorem along_noneFull {P : State V → Action V → Prop} {actions : List (Action V)} {s : State V}
    (hlen : ∀ c, (s.conns c).queue.length + actions.length ≤ CHANNEL_CAPACITY)
    (hP : Run.Along State.step P s actions) :
    Run.Along State.step (fun s a => s.NoneFull ∧ P s a) s actions := by
  induction actions generalizing s with
  | nil => trivial
  | cons a actions ih =>
    refine ⟨⟨fun c _ hfull => ?_, hP.1⟩, fun s' hs' => ih (fun c => ?_) (hP.2 s' hs')⟩
    · have := hlen c
      rw [List.length_cons] at this
      rw [Conn.Full] at hfull
      omega
    · have := hlen c
      have := (State.conns_step hs' c).1.queue
      rw [List.length_cons] at *
      omega

theorem along_noneFull_init (actions : List (Action V))
    (hlen : actions.length ≤ CHANNEL_CAPACITY) :
    Run.Along State.step (fun s _ => s.NoneFull) init actions := by
  have hall := along_noneFull (P := fun _ _ => True) (s := (init : State V))
    (fun _ => (Nat.zero_add _).trans_le hlen) ((Run.along_iff).2 fun _ _ _ _ _ => trivial)
  simpa only [and_true] using hall

/-- A connection on which nothing happens stays where its handler is. -/
theorem task_of_exec {actions : List (Action V)} {s s' : State V} {c : ConnectionId}
    (hconn : ∀ a ∈ actions, a.conn ≠ some c) (hrun : Run.exec State.step s actions = some s') :
    (s'.conns c).task = (s.conns c).task := by
  induction actions generalizing s with
  | nil =>
    obtain rfl := Option.some.inj hrun
    rfl
  | cons a actions ih =>
    rw [Run.exec_cons, Option.bind_eq_some_iff] at hrun
    obtain ⟨t, ht, hrun⟩ := hrun
    rw [ih (fun b hb => hconn b (List.mem_cons_of_mem a hb)) hrun]
    rw [(State.conns_step ht c).2 (hconn a List.mem_cons_self), Conn.task_hear]

/-- A state reached by actions on the first three connections is settled for the first if these
three and the sweep are at rest. -/
theorem settled_of_exec {actions : List (Action V)} {s : State V}
    (hconn : ∀ a ∈ actions, ∃ c ∈ a.conn, c < 3)
    (hrun : Run.exec State.step init actions = some s)
    (hnotice : ∀ c < 3, (s.conns c).task.notice = none) (hsweep : s.sweep.removed = [])
    (hpushed : (s.conns 0).task.patterns = none) (hqueue : (s.conns 0).queue = [])
    (hswept : s.dict.expired s.now = []) : s.Settled 0 where
  drained := by
    refine ⟨fun key stamp msg => ?_, hpushed, hqueue⟩
    rintro (⟨c, hc⟩ | ⟨-, hmem⟩)
    · rcases Nat.lt_or_ge c 3 with hlt | hge
      · rw [hnotice c hlt] at hc
        cases hc
      · -- a connection that no step is about is still as it was at the start
        have hother : ∀ a ∈ actions, a.conn ≠ some c := by
          intro a ha heq
          obtain ⟨c', hc', hlt⟩ := hconn a ha
          obtain rfl : c = c' := Option.some.inj (heq.symm.trans hc')
          exact absurd hlt (Nat.not_lt.2 hge)
        rw [task_of_exec hother hrun] at hc
        cases hc
    · simp [hsweep] at hmem
  swept key e he hexp := by
    have hmem : key ∈ s.dict.expired s.now := Dict.mem_expired.2 ⟨e, he, hexp⟩
    simp [hswept] at hmem

/-- A subscription to `k` on the empty server, up to the end of its snapshot. -/
def subscribeRun : List (Action ℕ) :=
  [.request 0 (.subscribe [['k']] none), .run 0, .run 0, .run 0, .listing 0 [], .run 0]

/-- A value is set and notified, and all messages are delivered. -/
def orderedRun : List (Action ℕ) :=
  subscribeRun ++
    [.request 1 (.set ['k'] 1 none), .run 1, .run 1, .deliver 0, .deliver 0]

theorem view_converges_orderedRun :
    ∃ s, Run.exec State.step init orderedRun = some s ∧ ∀ k,
      view (s.conns 0).received k =
        if key_matches_any k [['k']] then s.dict.get s.now k else none := by
  obtain ⟨s, hs⟩ := Option.isSome_iff_exists.1
    (by decide : (Run.exec State.step init orderedRun).isSome)
  have hview : (Run.exec State.step init orderedRun).all (fun s =>
      (∀ c < 3, (s.conns c).task.notice.isNone) ∧ s.sweep.removed.isEmpty ∧
        (s.conns 0).task.patterns.isNone ∧ (s.conns 0).queue.isEmpty ∧
        (s.dict.expired s.now).isEmpty ∧ (s.conns 0).subscription = some [['k']]) := by
    decide
  simp only [hs, Option.all_some, decide_eq_true_eq, Option.isNone_iff_eq_none,
    List.isEmpty_iff] at hview
  obtain ⟨hnotice, hsweep, hpushed, hqueue, hswept, hsub⟩ := hview
  have hsettled := settled_of_exec (by decide) hs hnotice hsweep hpushed hqueue hswept
  have horder : Run.Along State.step (fun s a => s.NoneFull ∧ s.InOrder a) init orderedRun :=
    along_noneFull (fun _ => (by decide : 0 + orderedRun.length ≤ CHANNEL_CAPACITY)) (by decide)
  exact ⟨s, hs, view_converges orderedRun horder hs hsub hsettled⟩

/-- Two connections set `k`; the later value is notified before the earlier one. -/
def overtakenRun : List (Action ℕ) :=
  subscribeRun ++
    [.request 1 (.set ['k'] 1 none), .run 1, .request 2 (.set ['k'] 2 none), .run 2, .run 2,
      .run 1, .deliver 0, .deliver 0, .deliver 0]

/-- After a notification has been overtaken, the settled subscriber's view keeps the earlier value
for good, though no channel was ever full. -/
theorem overtakenRun_diverges :
    ∃ s, Run.exec State.step init overtakenRun = some s ∧
      Run.Along State.step (fun s _ => s.NoneFull) init overtakenRun ∧ s.Settled 0 ∧
      (s.conns 0).subscription = some [['k']] ∧ s.dict.get s.now ['k'] = some 2 ∧
      view (s.conns 0).received ['k'] = some 1 := by
  obtain ⟨s, hs⟩ := Option.isSome_iff_exists.1
    (by decide : (Run.exec State.step init overtakenRun).isSome)
  have hview : (Run.exec State.step init overtakenRun).all (fun s =>
      (∀ c < 3, (s.conns c).task.notice.isNone) ∧ s.sweep.removed.isEmpty ∧
        (s.conns 0).task.patterns.isNone ∧ (s.conns 0).queue.isEmpty ∧
        (s.dict.expired s.now).isEmpty ∧ (s.conns 0).subscription = some [['k']] ∧
        s.dict.get s.now ['k'] = some 2 ∧ view (s.conns 0).received ['k'] = some 1) := by
    decide
  simp only [hs, Option.all_some, decide_eq_true_eq, Option.isNone_iff_eq_none,
    List.isEmpty_iff] at hview
  obtain ⟨hnotice, hsweep, hpushed, hqueue, hswept, hsub, hget, hlast⟩ := hview
  have hsettled := settled_of_exec (by decide) hs hnotice hsweep hpushed hqueue hswept
  exact ⟨s, hs, along_noneFull_init overtakenRun (by decide), hsettled, hsub, hget, hlast⟩

end GranolaSdr.WsServer
