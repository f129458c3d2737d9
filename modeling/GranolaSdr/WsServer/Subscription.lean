import GranolaSdr.WsServer.Convergence

/-!
# What a subscriber is sent

A subscription is answered by an acknowledgement and by the current values of the keys that match
its patterns. The client takes the first frame after its request for the acknowledgement. Since the
patterns are entered before the acknowledgement is sent, a notification can come in between.

## Main definitions

* `State.Overtakes`: a step puts a notification into the channel before anything else has been sent
  after the request;
* `AckFirst`: the first message after the request is the acknowledgement.

## Main results

* `current_value_reported`: no current value is missed;
* `ackFirst_iff`: the acknowledgement comes first exactly if no notification overtakes it.
-/

namespace GranolaSdr.WsServer

variable {V : Type*}

/-! ## No current value is missed -/

theorem ServerMessage.eq_update_of_effect {msg : ServerMessage V} {k : Text} {v : V}
    (h : msg.effect = some (k, some v)) : msg = .update k v := by
  cases msg <;> simp_all [ServerMessage.effect]

/-- In every run that finds no subscriber's channel full, once nothing is left to fan out, to push
and to deliver, a subscriber has received the value of every key that matches its patterns and
holds one, in a message that reports the last operation on the key. -/
theorem current_value_reported (actions : List (Action V)) {s : State V}
    (hfull : Run.Along State.step (fun s _ => s.NoneFull) init actions)
    (hrun : Run.exec State.step init actions = some s) {c : ConnectionId} {patterns : List Text}
    (hsub : (s.conns c).subscription = some patterns) (hdrained : s.Drained c) {k : Text} {v : V}
    (hmatch : key_matches_any k patterns) (hget : s.dict.get s.now k = some v) :
    ∃ frame ∈ (s.conns c).received, frame.msg = .update k v ∧ frame.stamp = s.ops k := by
  have hinv : Inv False s :=
    Run.inv_of_exec (fun _ a _ h hP => inv_step a h hP (fun hf => hf.elim)) inv_init hfull hrun
  have hc := hinv.conn c
  have hlog : (s.conns c).log = (s.conns c).received := by
    rw [Conn.log, hdrained.delivered, List.append_nil]
  have hnotified : s.notified k = s.ops k := hinv.notice.notified_of_drained hdrained k
  rcases hc.covered patterns hsub k hmatch hnotified with ⟨frame, hmem, habout, hstamp⟩ | hpush | h
  · obtain ⟨x, heff⟩ := Frame.about_iff.1 habout
    have hx : x = some v :=
      ((hc.logged frame hmem k x heff).2 hstamp).trans (Dict.stored_of_get hget)
    exact ⟨frame, hlog ▸ hmem, ServerMessage.eq_update_of_effect (hx ▸ heff), hstamp⟩
  · exact absurd hpush (Task.not_willPush hdrained.pushed k _)
  · cases h.symm.trans hget

/-- A value is stored before the subscription and notified after the snapshot has been read. -/
def lateNotifyRun : List (Action ℕ) :=
  [.request 1 (.set ['k'] 1 none), .run 1, .request 0 (.subscribe [['k']] none), .run 0, .run 0,
    .run 0, .listing 0 [['k']], .run 0, .run 0, .run 0, .run 1, .deliver 0, .deliver 0, .deliver 0]

theorem current_value_reported_lateNotifyRun :
    ∃ s, Run.exec State.step init lateNotifyRun = some s ∧
      ∃ frame ∈ (s.conns 0).received, frame.msg = .update ['k'] 1 ∧ frame.stamp = s.ops ['k'] := by
  obtain ⟨s, hs⟩ := Option.isSome_iff_exists.1
    (by decide : (Run.exec State.step init lateNotifyRun).isSome)
  have hview : (Run.exec State.step init lateNotifyRun).all (fun s =>
      (∀ c < 3, (s.conns c).task.notice.isNone) ∧ s.sweep.removed.isEmpty ∧
        (s.conns 0).task.patterns.isNone ∧ (s.conns 0).queue.isEmpty ∧
        (s.dict.expired s.now).isEmpty ∧ (s.conns 0).subscription = some [['k']] ∧
        s.dict.get s.now ['k'] = some 1) := by
    decide
  simp only [hs, Option.all_some, decide_eq_true_eq, Option.isNone_iff_eq_none,
    List.isEmpty_iff] at hview
  obtain ⟨hnotice, hsweep, hpushed, hqueue, hswept, hsub, hget⟩ := hview
  have hsettled := settled_of_exec (by decide) hs hnotice hsweep hpushed hqueue hswept
  have hnone := along_noneFull_init lateNotifyRun (by decide)
  exact ⟨s, hs, current_value_reported lateNotifyRun hnone hs hsub hsettled.drained
    (by decide) hget⟩

/-! ## The acknowledgement -/

/-- The first message after the first `sent` is the acknowledgement of the subscription. -/
def AckFirst (c : ConnectionId) (sent : ℕ) (keys : List Text) (id : Option V) (s : State V) :
    Prop :=
  ∀ frame ∈ (s.conns c).log[sent]?, frame.msg = .subscribed keys id

/-- The step puts a notification into the client's channel while no message after the first `sent`
has been sent. -/
def State.Overtakes (c : ConnectionId) (sent : ℕ) (s : State V) (a : Action V) : Prop :=
  (s.conns c).log.length = sent ∧ ¬(s.conns c).Full ∧
    ∃ notification ∈ s.fansOut a, ∃ patterns ∈ (s.conns c).subscription,
      key_matches_any notification.1 patterns

/-- Every waiting notification reports a change of a key. -/
def NotifiesChanges (s : State V) : Prop :=
  ∀ c, ∀ notice ∈ (s.conns c).task.notice, notice.2.2.effect ≠ none

/-- Where the handler of the subscription stands: nothing has been sent yet, and the patterns have
been entered or not, or something has been sent. -/
inductive Subscribing (sent : ℕ) (keys : List Text) (id : Option V) (conn : Conn V) : Prop where
  | enter (hsent : conn.log.length = sent) (htask : conn.task = .subscribe keys id)
      (hsub : conn.subscription = none)
  | ack (hsent : conn.log.length = sent) (htask : conn.task = .ack keys id keys)
      (hsub : conn.subscription = some keys)
  | answered (hsent : sent < conn.log.length)

variable {s s' : State V} {c : ConnectionId} {sent : ℕ} {keys : List Text} {id : Option V}

theorem notifiesChanges_step {a : Action V} (h : NotifiesChanges s) (hstep : s.step a = some s') :
    NotifiesChanges s' :=
  State.forall_notice_step (P := fun _ msg => msg.effect ≠ none) (by simp [ServerMessage.effect])
    (by simp [ServerMessage.effect]) h hstep

/-- What is fanned out reports a change of a key. -/
theorem effect_of_fansOut {a : Action V} (h : NotifiesChanges s) :
    ∀ notification ∈ s.fansOut a, notification.2.msg.effect ≠ none :=
  State.forall_fansOut (P := fun _ msg => msg.effect ≠ none) (by simp [ServerMessage.effect]) h

/-- A handler that waits for neither a request nor a listing only runs, while its client may receive
a message. -/
theorem run_or_deliver {a : Action V} (hactor : a.conn = some c) (hidle : (s.conns c).task ≠ .idle)
    (hlist : ∀ now, (s.conns c).task ≠ .listKeys now)
    (hsnapshot : ∀ now patterns, (s.conns c).task ≠ .snapshotKeys now patterns)
    (hstep : s.step a = some s') : a = .run c ∨ a = .deliver c := by
  cases a with
  | tick | sweep | candidates => cases hactor
  | run c' => exact Or.inl (congrArg _ (Option.some.inj hactor))
  | deliver c' => exact Or.inr (congrArg _ (Option.some.inj hactor))
  | request c' _ | malformed c' _ | close c' =>
    obtain rfl := Option.some.inj hactor
    simp only [State.step] at hstep
    cases hstep
  | listing c' order =>
    obtain rfl := Option.some.inj hactor
    simp only [State.step, State.listing] at hstep
    cases hstep

/-- A delivery changes neither what has been sent nor the handler. -/
theorem conn_deliver (hstep : s.step (.deliver c) = some s') :
    (s'.conns c).log = (s.conns c).log ∧ (s'.conns c).task = (s.conns c).task ∧
      (s'.conns c).subscription = (s.conns c).subscription := by
  simp only [State.step] at hstep
  split at hstep
  · cases hstep
  · next frame queue hqueue =>
    obtain rfl := Option.some.inj hstep
    rw [State.conns_setConn_self]
    exact ⟨by simp [Conn.log, hqueue], rfl, rfl⟩

theorem ackFirst_of_length (h : (s.conns c).log.length = sent) : AckFirst c sent keys id s := by
  intro frame hframe
  rw [← h, List.getElem?_length] at hframe
  cases hframe

/-- The first message sent decides. -/
theorem ackFirst_append_iff {frame : Frame V} (hsent : (s.conns c).log.length = sent)
    (hlog : (s'.conns c).log = (s.conns c).log ++ [frame]) :
    AckFirst c sent keys id s' ↔ frame.msg = .subscribed keys id := by
  rw [AckFirst, hlog, ← hsent, List.getElem?_concat_length]
  simp

theorem subscribing_append {frame : Frame V} (hsent : (s.conns c).log.length = sent)
    (hlog : (s'.conns c).log = (s.conns c).log ++ [frame]) :
    Subscribing sent keys id (s'.conns c) :=
  .answered (by simp [hlog, hsent])

/-- Before the patterns have been entered nothing is sent. -/
theorem subscribing_step_enter {a : Action V} (hsent : (s.conns c).log.length = sent)
    (htask : (s.conns c).task = .subscribe keys id) (hsub : (s.conns c).subscription = none)
    (hstep : s.step a = some s') :
    Subscribing sent keys id (s'.conns c) ∧ (s'.conns c).log.length = sent := by
  by_cases hactor : a.conn = some c
  · rcases run_or_deliver hactor (by simp [htask]) (by simp [htask]) (by simp [htask]) hstep with
      rfl | rfl
    · simp only [State.step, State.run, htask, Option.some.injEq, State.subscribe, hsub] at hstep
      subst hstep
      rw [State.conns_setConn_self]
      exact ⟨.ack hsent rfl rfl, hsent⟩
    · obtain ⟨hlog, htask', hsub'⟩ := conn_deliver hstep
      have hsent' : (s'.conns c).log.length = sent := by rw [hlog, hsent]
      exact ⟨.enter hsent' (htask'.trans htask) (hsub'.trans hsub), hsent'⟩
  · -- a connection without subscriptions hears nothing of what the others do
    have hsame : s'.conns c = s.conns c := by
      rw [(State.conns_step hstep c).2 hactor]
      cases s.fansOut a with
      | none => rfl
      | some notification => simp only [Conn.hear, Conn.offer, hsub]
    rw [hsame]
    exact ⟨.enter hsent htask hsub, hsent⟩

/-- The handler that is about to acknowledge does so next, while its client may receive a
message. -/
theorem subscribing_step_ack_self {a : Action V} (hsent : (s.conns c).log.length = sent)
    (htask : (s.conns c).task = .ack keys id keys) (hsub : (s.conns c).subscription = some keys)
    (hactor : a.conn = some c) (hstep : s.step a = some s') :
    Subscribing sent keys id (s'.conns c) ∧
      (AckFirst c sent keys id s' ↔ ¬s.Overtakes c sent a) := by
  rcases run_or_deliver hactor (by simp [htask]) (by simp [htask]) (by simp [htask]) hstep with
    rfl | rfl
  · have hquiet : ¬s.Overtakes c sent (.run c) := by
      rintro ⟨-, -, notification, hfans, -⟩
      simp only [State.fansOut, htask] at hfans
      cases hfans
    simp only [State.step, State.run, htask, Option.map_eq_some_iff] at hstep
    obtain ⟨conn, hconn, rfl⟩ := hstep
    obtain ⟨-, rfl⟩ := Conn.send_eq_some_iff.1 hconn
    have hlog : ((s.setConn c (((s.conns c).enqueue ⟨.subscribed keys id, 0⟩).goto
        (.snapshotStart keys))).conns c).log = (s.conns c).log ++ [⟨.subscribed keys id, 0⟩] := by
      rw [State.conns_setConn_self]
      exact (s.conns c).log_enqueue _
    -- the acknowledgement is the first message behind what was sent before
    exact ⟨subscribing_append hsent hlog,
      iff_of_true ((ackFirst_append_iff hsent hlog).2 rfl) hquiet⟩
  · have hquiet : ¬s.Overtakes c sent (.deliver c) := by
      rintro ⟨-, -, notification, hfans, -⟩
      cases hfans
    obtain ⟨hlog, htask', hsub'⟩ := conn_deliver hstep
    have hsent' : (s'.conns c).log.length = sent := by rw [hlog, hsent]
    exact ⟨.ack hsent' (htask'.trans htask) (hsub'.trans hsub),
      iff_of_true (ackFirst_of_length hsent') hquiet⟩

/-- A step of another party before the acknowledgement puts nothing into the channel, unless it is
a notification that overtakes the acknowledgement. -/
theorem subscribing_step_ack_of_ne {a : Action V} (hnotice : NotifiesChanges s)
    (hsent : (s.conns c).log.length = sent) (htask : (s.conns c).task = .ack keys id keys)
    (hsub : (s.conns c).subscription = some keys) (hactor : a.conn ≠ some c)
    (hstep : s.step a = some s') :
    Subscribing sent keys id (s'.conns c) ∧
      (AckFirst c sent keys id s' ↔ ¬s.Overtakes c sent a) := by
  have hhear := (State.conns_step hstep c).2 hactor
  by_cases hover : s.Overtakes c sent a
  · have hovertakes := hover
    obtain ⟨-, hroom, ⟨key, frame⟩, hfans, patterns, hpatterns, hmatch⟩ := hovertakes
    have hlog : (s'.conns c).log = (s.conns c).log ++ [frame] := by
      rw [hhear, Option.mem_def.1 hfans]
      simp only [Conn.hear, Conn.offer, Option.mem_def.1 hpatterns, if_pos hmatch, if_neg hroom]
      exact (s.conns c).log_enqueue frame
    -- a notification reports a change, which the acknowledgement does not
    have hother : frame.msg ≠ .subscribed keys id := fun hmsg =>
      effect_of_fansOut hnotice (key, frame) hfans (by rw [hmsg]; rfl)
    exact ⟨subscribing_append hsent hlog,
      iff_of_false (fun hfirst => hother ((ackFirst_append_iff hsent hlog).1 hfirst)) (by simpa)⟩
  · have hsame : s'.conns c = s.conns c := by
      rw [hhear]
      cases hfans : s.fansOut a with
      | none => rfl
      | some notification =>
        simp only [Conn.hear, Conn.offer, hsub]
        split_ifs with hmatch hfull
        · rfl
        · exact absurd ⟨hsent, hfull, notification, hfans, keys, hsub, hmatch⟩ hover
        · rfl
    have hsent' : (s'.conns c).log.length = sent := by rw [hsame, hsent]
    rw [hsame]
    exact ⟨.ack hsent htask hsub, iff_of_true (ackFirst_of_length hsent') hover⟩

/-- Once something has been sent, the first message stays. -/
theorem ackFirst_step_answered {a : Action V} (keys : List Text) (id : Option V)
    (hsent : sent < (s.conns c).log.length)
    (hstep : s.step a = some s') :
    sent < (s'.conns c).log.length ∧ (AckFirst c sent keys id s' ↔ AckFirst c sent keys id s) := by
  obtain ⟨frames, hlog⟩ := (State.conns_step hstep c).1.log
  rw [AckFirst, AckFirst, ← hlog, List.getElem?_append_left hsent, List.length_append]
  exact ⟨Nat.lt_add_right _ hsent, Iff.rfl⟩

/-- What is known of the state of a subscription that is being entered. -/
structure SubscribeInv (c : ConnectionId) (sent : ℕ) (keys : List Text) (id : Option V)
    (s : State V) : Prop where
  notifies : NotifiesChanges s
  handler : Subscribing sent keys id (s.conns c)

theorem subscribeInv_step {a : Action V} (h : SubscribeInv c sent keys id s)
    (hstep : s.step a = some s') :
    SubscribeInv c sent keys id s' ∧ (AckFirst c sent keys id s →
      (AckFirst c sent keys id s' ↔ ¬s.Overtakes c sent a)) := by
  have hnotifies := notifiesChanges_step h.notifies hstep
  cases h.handler with
  | enter hsent htask hsub =>
    obtain ⟨hhandler, hsent'⟩ := subscribing_step_enter hsent htask hsub hstep
    -- not subscribed yet: no fan-out reaches the connection
    have hquiet : ¬s.Overtakes c sent a := by
      rintro ⟨-, -, -, -, patterns, hpatterns, -⟩
      cases (Option.mem_def.1 hpatterns).symm.trans hsub
    exact ⟨⟨hnotifies, hhandler⟩, fun _ => iff_of_true (ackFirst_of_length hsent') hquiet⟩
  | ack hsent htask hsub =>
    obtain ⟨hhandler, hiff⟩ : Subscribing sent keys id (s'.conns c) ∧
        (AckFirst c sent keys id s' ↔ ¬s.Overtakes c sent a) := by
      by_cases hactor : a.conn = some c
      · exact subscribing_step_ack_self hsent htask hsub hactor hstep
      · exact subscribing_step_ack_of_ne h.notifies hsent htask hsub hactor hstep
    exact ⟨⟨hnotifies, hhandler⟩, fun _ => hiff⟩
  | answered hsent =>
    obtain ⟨hsent', hiff⟩ := ackFirst_step_answered keys id hsent hstep
    -- the acknowledgement is in the log already, and the log only grows
    have hquiet : ¬s.Overtakes c sent a := fun hover => absurd hover.1 hsent.ne'
    exact ⟨⟨hnotifies, .answered hsent'⟩, fun hfirst => iff_of_true (hiff.2 hfirst) hquiet⟩

/-- From a valid subscribe request on a connection without subscriptions on, the first message sent
is the acknowledgement, throughout a run, exactly if no step of the run puts a notification into the
channel before anything has been sent. -/
theorem ackFirst_iff {before actions : List (Action V)} {s s₁ t : State V} {c : ConnectionId}
    {keys : List Text} {id : Option V} (hbefore : Run.exec State.step init before = some s)
    (hsub : (s.conns c).subscription = none) (hvalid : validate_keys keys = .ok ())
    (hrequest : s.step (.request c (.subscribe keys id)) = some s₁)
    (hrun : Run.exec State.step s₁ actions = some t) :
    (∀ as, as <+: actions → ∀ u ∈ Run.exec State.step s₁ as,
      AckFirst c (s.conns c).log.length keys id u) ↔
      Run.Along State.step (fun u a => ¬u.Overtakes c (s.conns c).log.length a) s₁ actions := by
  have hnotifies : NotifiesChanges s₁ := by
    have hinit : NotifiesChanges (init : State V) := fun _ _ hmem => nomatch hmem
    exact notifiesChanges_step
      (Run.inv_of_exec' (fun _ _ _ => notifiesChanges_step) hinit hbefore) hrequest
  have hconn : s₁.conns c = (s.conns c).goto (.subscribe keys id) := by
    simp only [State.step] at hrequest
    split at hrequest
    · obtain rfl := Option.some.inj hrequest
      rw [State.conns_setConn_self, dispatch, hvalid]
    · cases hrequest
  -- the request leaves the connection as the invariant wants it
  have hstart : SubscribeInv c (s.conns c).log.length keys id s₁ :=
    ⟨hnotifies, by rw [hconn]; exact .enter rfl rfl hsub⟩
  have hfirst : AckFirst c (s.conns c).log.length keys id s₁ :=
    ackFirst_of_length (by rw [hconn]; rfl)
  exact Run.forall_prefix_iff_along_of_inv (fun _ _ _ h hstep => (subscribeInv_step h hstep).1)
    (fun _ _ _ h hfirst hstep => (subscribeInv_step h hstep).2 hfirst) hstart hfirst hrun

instance (c : ConnectionId) (sent : ℕ) (s : State V) (a : Action V) :
    Decidable (s.Overtakes c sent a) :=
  inferInstanceAs (Decidable (_ ∧ _ ∧ ∃ _ ∈ _, ∃ _ ∈ _, _))

/-- Another connection sets `k`, and the notification comes after the acknowledgement. -/
def acknowledgedRun : List (Action ℕ) :=
  [.request 1 (.set ['k'] 1 none), .run 1, .run 0, .run 0, .run 1]

theorem ackFirst_iff_acknowledgedRun :
    ∃ s₁, (init : State ℕ).step (.request 0 (.subscribe [['k']] none)) = some s₁ ∧
      ∀ as, as <+: acknowledgedRun → ∀ u ∈ Run.exec State.step s₁ as,
        AckFirst 0 0 [['k']] none u := by
  obtain ⟨s₁, hs₁⟩ := Option.isSome_iff_exists.1
    (by decide : ((init : State ℕ).step (.request 0 (.subscribe [['k']] none))).isSome)
  have hrun : ((init : State ℕ).step (.request 0 (.subscribe [['k']] none))).all (fun s₁ =>
      (Run.exec State.step s₁ acknowledgedRun).isSome ∧
        Run.Along State.step (fun u a => ¬u.Overtakes 0 0 a) s₁ acknowledgedRun) := by
    decide
  rw [hs₁, Option.all_some, decide_eq_true_eq] at hrun
  obtain ⟨t, ht⟩ := Option.isSome_iff_exists.1 hrun.1
  have hbefore : Run.exec State.step (init : State ℕ) [] = some init := rfl
  exact ⟨s₁, hs₁, (ackFirst_iff hbefore rfl rfl hs₁ ht).2 hrun.2⟩

/-- Another connection sets `k` and fans the notification out between the entry of the patterns
and the acknowledgement. -/
def overtakenAckRun : List (Action ℕ) :=
  [.request 0 (.subscribe [['k']] none), .run 0, .request 1 (.set ['k'] 1 none), .run 1, .run 1,
    .run 0]

/-- The client that takes the first frame for the acknowledgement loses the value, and takes the
acknowledgement for data. -/
theorem overtakenAckRun_not_first :
    (Run.exec State.step init overtakenAckRun).map (fun s => (s.conns 0).log.map Frame.msg) =
      some [.update ['k'] 1, .subscribed [['k']] none] := by
  decide

end GranolaSdr.WsServer
