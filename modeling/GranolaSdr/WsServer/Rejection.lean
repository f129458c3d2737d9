import GranolaSdr.WsServer.Expiry
import GranolaSdr.WsServer.Invariant

/-!
# Rejected requests

A frame is refused when it does not parse, when one of its keys or its time to live is invalid, or
when the key it looks up has no live entry. The first kinds are refused before the handler touches
anything; the last by the look-up itself. `delete` looks up without testing the expiry: on a stale
key it succeeds, where a refusal is due.

The handler of a frame is followed from the arrival of the frame to its end, through whatever the
other connections, the sweep and the clock do in between.

## Main definitions

* `ClientFrame.Invalid`, `Refused`: the frames that are to be refused;
* `Answered`: the handler has sent an error;
* `Harmless`: a step of the handler leaves the live entries, the subscriptions and the other
  connections as they are.

## Main results

* `refused_answered_iff`: a frame is answered with an error exactly if it is refused, and a refused
  one is harmless, unless it deletes a stale key.
-/

namespace GranolaSdr.WsServer

variable {V : Type*}

/-! ## Frames -/

/-- What a client sends: a message, or a frame that does not parse. -/
inductive ClientFrame (V : Type*) where
  | message (msg : ClientMessage V)
  | malformed (binary : Bool)

/-- The arrival of a frame on a connection. -/
def ClientFrame.arrival (c : ConnectionId) : ClientFrame V → Action V
  | .message msg => .request c msg
  | .malformed binary => .malformed c binary

/-- The key does not pass the check. -/
def InvalidKey (key : Text) : Prop := validate_key key ≠ .ok ()

/-- The frame does not parse, has an invalid key or an invalid time to live. -/
def ClientFrame.Invalid : ClientFrame V → Prop
  | .malformed _ => True
  | .message (.subscribe keys _) => ∃ key ∈ keys, InvalidKey key
  | .message (.set key _ ttl_ms) => InvalidKey key ∨ ttl_ms = some 0
  | .message (.get key _) | .message (.delete key _) => InvalidKey key
  | .message .list => False

/-- Another frame arrives on the connection, or it ends. -/
def Action.Arrives (c : ConnectionId) : Action V → Prop
  | .request c' _ | .malformed c' _ | .close c' => c' = c
  | _ => False

/-! ## Errors -/

/-- The message is an error. -/
def ServerMessage.IsError : ServerMessage V → Bool
  | .error _ _ _ => true
  | _ => false

namespace Conn

/-- The errors a client has been sent. -/
def errors (conn : Conn V) : List (ServerMessage V) :=
  (conn.log.map Frame.msg).filter ServerMessage.IsError

variable {conn : Conn V} {frame : Frame V}

theorem errors_enqueue (conn : Conn V) (frame : Frame V) :
    (conn.enqueue frame).errors = conn.errors ++ [frame.msg].filter ServerMessage.IsError := by
  simp [errors, log_enqueue]

@[simp]
theorem errors_goto (conn : Conn V) (task : Task V) : (conn.goto task).errors = conn.errors := rfl

theorem errors_offer (key : Text) (hmsg : frame.msg.IsError = false) :
    (conn.offer key frame).errors = conn.errors := by
  rw [offer]
  split
  · rfl
  · split_ifs
    · rfl
    · simp [errors_enqueue, hmsg]
    · rfl

theorem errors_hear {notification : Option (Text × Frame V)}
    (hmsg : ∀ n ∈ notification, n.2.msg.IsError = false) :
    (conn.hear notification).errors = conn.errors := by
  cases notification with
  | none => rfl
  | some n => exact errors_offer n.1 (hmsg n rfl)

end Conn

/-! ## Steps -/

namespace State

variable (c : ConnectionId) (s : State V) (a : Action V)

/-- The handler looks up a key without a live entry. -/
def MissesKey : Prop :=
  a = .run c ∧ ∃ key id, ((s.conns c).task = .get key id ∨ (s.conns c).task = .delete key id) ∧
    ¬s.dict.Live s.now key

/-- The handler deletes a key whose entry has expired and has not been swept. -/
def DeletesStale : Prop :=
  a = .run c ∧ ∃ key id, (s.conns c).task = .delete key id ∧ s.dict.Stale s.now key

/-- If the step is one of the connection, it leaves the live entries, the subscriptions and the
other connections as they are. -/
def Harmless : Prop :=
  a.conn = some c → ∀ t ∈ s.step a, (∀ key, t.dict.get t.now key = s.dict.get s.now key) ∧
    ∀ c', (t.conns c').subscription = (s.conns c').subscription ∧
      (c' ≠ c → t.conns c' = s.conns c')

end State

/-- The frame is to be refused: it is invalid, or the handler finds no live entry under its key. -/
def Refused (c : ConnectionId) (f : ClientFrame V) (s : State V) (as : List (Action V)) : Prop :=
  f.Invalid ∨ Run.Sometime State.step (State.MissesKey c) s (f.arrival c :: as)

/-- The frame looks up a key that has no live entry, and is not the deletion of a stale one. -/
def ClientFrame.Misses (s : State V) : ClientFrame V → Prop
  | .message (.get key _) => ¬s.dict.Live s.now key
  | .message (.delete key _) => ¬s.dict.Live s.now key ∧ ¬s.dict.Stale s.now key
  | _ => False

/-- Between two states one error has been sent to the client. -/
def Answered (c : ConnectionId) (s t : State V) : Prop :=
  ∃ message key id, (t.conns c).errors = (s.conns c).errors ++ [.error message key id]

namespace State

variable {c : ConnectionId} {s t : State V} {a : Action V}

theorem DeletesStale.missesKey (h : s.DeletesStale c a) : s.MissesKey c a := by
  obtain ⟨ha, key, id, htask, e, he, hexp⟩ := h
  refine ⟨ha, key, id, .inr htask, ?_⟩
  rintro ⟨e', he', hlive⟩
  obtain rfl := Option.some.inj (he.symm.trans he')
  exact hlive hexp

theorem not_isError_of_fansOut (h : s.HandlersReport) :
    ∀ notification ∈ s.fansOut a, notification.2.msg.IsError = false := by
  refine forall_fansOut (P := fun _ msg => msg.IsError = false) (fun _ => rfl) ?_
  intro c notice hmem
  rcases h c notice hmem with hmsg | ⟨value, hmsg⟩ <;> rw [hmsg] <;> rfl

/-- A step that changes its own connection only, and no subscription, is harmless. -/
theorem harmless_of_setConn {conn : Conn V} (hstep : s.step a = some (s.setConn c conn))
    (hsub : conn.subscription = (s.conns c).subscription) : s.Harmless c a := by
  intro _ t ht
  obtain rfl := Option.some.inj (hstep.symm.trans ht)
  refine ⟨fun _ => rfl, fun c' => ?_⟩
  rcases eq_or_ne c' c with rfl | hne
  · rw [conns_setConn_self]
    exact ⟨hsub, fun h => absurd rfl h⟩
  · rw [conns_setConn_of_ne hne]
    exact ⟨rfl, fun _ => rfl⟩

/-- A step of anything but the handler leaves it where it is, sends it no error, and is harmless if
it is one of its connection. -/
theorem step_of_not_handler (h : s.HandlersReport) (harrives : ¬a.Arrives c)
    (hrun : a ≠ .run c) (hlisting : ∀ order, a ≠ .listing c order) (hstep : s.step a = some t) :
    (t.conns c).task = (s.conns c).task ∧ (t.conns c).errors = (s.conns c).errors ∧
      s.Harmless c a := by
  by_cases hactor : a.conn = some c
  · cases a with
    | run => exact absurd (by rw [Option.some.inj hactor]) hrun
    | listing c' order => exact absurd (by rw [Option.some.inj hactor]) (hlisting order)
    | request | malformed | close => exact absurd (Option.some.inj hactor) harrives
    -- a delivery moves a frame from the queue to the client, and the log stays
    | deliver c' =>
      obtain rfl := Option.some.inj hactor
      have hstep' := hstep
      simp only [step] at hstep
      split at hstep
      · cases hstep
      · next frame queue hqueue =>
        obtain rfl := Option.some.inj hstep
        refine ⟨?_, ?_, harmless_of_setConn hstep' rfl⟩
        · rw [conns_setConn_self]
        · simp [Conn.errors, Conn.log, hqueue]
    | tick | sweep | candidates => cases hactor
  · -- the step of another actor is heard only as a broadcast, which is no error
    have hhear := (conns_step hstep c).2 hactor
    rw [hhear, Conn.task_hear, Conn.errors_hear (not_isError_of_fansOut h)]
    exact ⟨rfl, rfl, fun h => absurd h hactor⟩

end State

/-! ## The course of a request -/

/-- The request is not going to be answered with an error. -/
def Task.Settled : Task V → Prop
  | .get _ _ | .delete _ _ => False
  | .reply msg => msg.IsError = false
  | _ => True

namespace State

variable {c : ConnectionId} {s t : State V} {a : Action V}

theorem not_missesKey_of_settled (h : (s.conns c).task.Settled) : ¬s.MissesKey c a := by
  rintro ⟨-, key, id, htask | htask, -⟩
  · rw [htask] at h
    exact h
  · rw [htask] at h
    exact h

/-- A handler that sends a message other than an error sends no error. -/
theorem errors_of_send {frame : Frame V} {next : Task V} (hmsg : frame.msg.IsError = false)
    (hnext : next.Settled)
    (hsend : ((s.conns c).send frame next).map (s.setConn c) = some t) :
    (t.conns c).task.Settled ∧ (t.conns c).errors = (s.conns c).errors := by
  obtain ⟨conn, hconn, rfl⟩ := Option.map_eq_some_iff.1 hsend
  obtain ⟨-, rfl⟩ := Conn.send_eq_some_iff.1 hconn
  rw [conns_setConn_self]
  refine ⟨hnext, ?_⟩
  rw [Conn.errors_goto, Conn.errors_enqueue]
  simp [hmsg]

/-- A settled handler stays settled and sends no error. -/
theorem settled_run (h : s.HandlersReport) (hsettled : (s.conns c).task.Settled)
    (hrun : s.run c = some t) :
    (t.conns c).task.Settled ∧ (t.conns c).errors = (s.conns c).errors := by
  -- the handler goes on without a message
  have hgoto : ∀ (s' : State V) (conn : Conn V), some (s'.setConn c conn) = some t →
      conn.task.Settled → conn.errors = (s.conns c).errors →
      (t.conns c).task.Settled ∧ (t.conns c).errors = (s.conns c).errors := by
    intro s' conn hs' hconn herrors
    obtain rfl := Option.some.inj hs'
    rw [conns_setConn_self]
    exact ⟨hconn, herrors⟩
  cases htask : (s.conns c).task with
  | idle | closed | listKeys | snapshotKeys =>
    simp only [run, htask] at hrun
    cases hrun
  | get | delete =>
    rw [htask] at hsettled
    exact hsettled.elim
  | reply msg =>
    rw [htask] at hsettled
    simp only [run, htask] at hrun
    refine errors_of_send ?_ ?_ hrun
    · exact hsettled
    · trivial
  | ack | push =>
    simp only [run, htask] at hrun
    refine errors_of_send ?_ ?_ hrun
    · rfl
    · trivial
  | store =>
    simp only [run, htask] at hrun
    exact hgoto _ _ hrun trivial rfl
  | notify key msg stamp =>
    simp only [run, htask] at hrun
    refine hgoto _ _ hrun trivial (Conn.errors_offer key ?_)
    rcases h c (key, stamp, msg) (by rw [htask]; rfl) with hmsg | ⟨value, hmsg⟩
    · exact congrArg ServerMessage.IsError hmsg
    · exact congrArg ServerMessage.IsError hmsg
  | list | snapshotStart =>
    simp only [run, htask] at hrun
    exact hgoto _ _ hrun trivial rfl
  | subscribe keys id =>
    simp only [run, htask, State.subscribe] at hrun
    split at hrun
    · exact hgoto _ _ hrun trivial rfl
    · exact hgoto _ _ hrun trivial rfl
  | snapshot rest patterns =>
    cases rest with
    | nil =>
      simp only [run, htask] at hrun
      exact hgoto _ _ hrun trivial rfl
    | cons key rest =>
      simp only [run, htask] at hrun
      split_ifs at hrun
      · split at hrun
        · exact hgoto _ _ hrun trivial rfl
        · exact hgoto _ _ hrun trivial rfl
      · exact hgoto _ _ hrun trivial rfl

theorem settled_listing {order : List Text} (hlisting : s.listing c order = some t) :
    (t.conns c).task.Settled ∧ (t.conns c).errors = (s.conns c).errors := by
  simp only [listing] at hlisting
  split at hlisting
  · split_ifs at hlisting
    obtain rfl := Option.some.inj hlisting
    rw [conns_setConn_self]
    exact ⟨rfl, rfl⟩
  · split_ifs at hlisting
    obtain rfl := Option.some.inj hlisting
    rw [conns_setConn_self]
    exact ⟨trivial, rfl⟩
  · cases hlisting

/-- A settled request is not answered with an error, and looks up no key. -/
theorem settled_exec {as : List (Action V)} (h : s.HandlersReport)
    (hsettled : (s.conns c).task.Settled) (has : ∀ a ∈ as, ¬a.Arrives c)
    (hrun : Run.exec step s as = some t) :
    (t.conns c).errors = (s.conns c).errors ∧ ¬Run.Sometime step (MissesKey c) s as := by
  have hinv := Run.along_of_inv
    (I := fun u : State V => u.HandlersReport ∧ (u.conns c).task.Settled ∧
      (u.conns c).errors = (s.conns c).errors)
    (L := fun a => ¬a.Arrives c) (P := fun u a => ¬u.MissesKey c a) ?_ ⟨h, hsettled, rfl⟩ has hrun
  · exact ⟨hinv.2.2.2, Run.not_sometime_iff.2 hinv.1⟩
  · rintro u a u' ⟨hu, htask, herrors⟩ harrives hstep
    refine ⟨not_missesKey_of_settled htask, handlersReport_step u a u' hu hstep, ?_⟩
    rw [← herrors]
    -- the steps of the handler itself, and then all others
    by_cases hhandler : a = .run c
    · rw [hhandler] at hstep
      exact settled_run hu htask hstep
    · by_cases hlists : ∃ order, a = .listing c order
      · obtain ⟨order, rfl⟩ := hlists
        exact settled_listing hstep
      · have hsame := step_of_not_handler hu harrives hhandler
          (fun order ha => hlists ⟨order, ha⟩) hstep
        rw [hsame.1]
        exact ⟨htask, hsame.2.1⟩

/-- The handler is about to send an error, or has just sent it. -/
inductive Rejecting (errors : List (ServerMessage V)) (msg : ServerMessage V) (conn : Conn V) :
    Prop where
  | before (htask : conn.task = .reply msg) (herrors : conn.errors = errors)
  | after (htask : conn.task = .idle) (herrors : conn.errors = errors ++ [msg])

variable {errors : List (ServerMessage V)} {msg : ServerMessage V}

theorem not_missesKey_of_rejecting (h : Rejecting errors msg (s.conns c)) : ¬s.MissesKey c a := by
  rintro ⟨-, key, id, hget | hdelete, -⟩
  · cases h with
    | before htask => cases htask.symm.trans hget
    | after htask => cases htask.symm.trans hget
  · cases h with
    | before htask => cases htask.symm.trans hdelete
    | after htask => cases htask.symm.trans hdelete

theorem rejecting_run (herror : msg.IsError) (h : Rejecting errors msg (s.conns c))
    (hrun : s.run c = some t) : s.Harmless c (.run c) ∧ Rejecting errors msg (t.conns c) := by
  cases h with
  | before htask herrors =>
    have hsend := hrun
    simp only [run, htask] at hsend
    obtain ⟨conn, hconn, rfl⟩ := Option.map_eq_some_iff.1 hsend
    obtain ⟨-, rfl⟩ := Conn.send_eq_some_iff.1 hconn
    refine ⟨harmless_of_setConn (a := .run c) hrun rfl, ?_⟩
    rw [conns_setConn_self]
    refine .after rfl ?_
    rw [Conn.errors_goto, Conn.errors_enqueue, herrors]
    simp [herror]
  | after htask =>
    simp only [run, htask] at hrun
    cases hrun

theorem rejecting_step (hreport : s.HandlersReport) (herror : msg.IsError)
    (h : Rejecting errors msg (s.conns c)) (harrives : ¬a.Arrives c) (hstep : s.step a = some t) :
    s.Harmless c a ∧ Rejecting errors msg (t.conns c) := by
  by_cases hhandler : a = .run c
  · subst hhandler
    exact rejecting_run herror h hstep
  · by_cases hlists : ∃ order, a = .listing c order
    · obtain ⟨order, rfl⟩ := hlists
      cases h with
      -- a handler that replies is at no listing
      | before htask | after htask =>
        simp only [step, listing, htask] at hstep
        cases hstep
    · obtain ⟨htask, herrors, hharmless⟩ := step_of_not_handler hreport harrives hhandler
        (fun order ha => hlists ⟨order, ha⟩) hstep
      refine ⟨hharmless, ?_⟩
      cases h with
      | before hreply hbefore => exact .before (htask.trans hreply) (herrors.trans hbefore)
      | after hidle hafter => exact .after (htask.trans hidle) (herrors.trans hafter)

/-- A handler that is about to send an error does so, and does nothing else. -/
theorem rejected_exec {as : List (Action V)} (h : s.HandlersReport) (herror : msg.IsError)
    (htask : (s.conns c).task = .reply msg) (has : ∀ a ∈ as, ¬a.Arrives c)
    (hrun : Run.exec step s as = some t) (hdone : (t.conns c).task = .idle) :
    (t.conns c).errors = (s.conns c).errors ++ [msg] ∧
      Run.Along step (fun u a => ¬u.MissesKey c a ∧ u.Harmless c a) s as := by
  obtain ⟨halong, -, hrejecting⟩ := Run.along_of_inv
    (I := fun u : State V => u.HandlersReport ∧
      Rejecting (s.conns c).errors msg (u.conns c))
    (L := fun a => ¬a.Arrives c) (P := fun u a => ¬u.MissesKey c a ∧ u.Harmless c a)
    (fun u a u' hu harrives hstep => by
      obtain ⟨hharmless, hrejecting⟩ := rejecting_step hu.1 herror hu.2 harrives hstep
      exact ⟨⟨not_missesKey_of_rejecting hu.2, hharmless⟩,
        handlersReport_step u a u' hu.1 hstep, hrejecting⟩)
    ⟨h, .before htask rfl⟩ has hrun
  cases hrejecting with
  | before hreply => cases hreply.symm.trans hdone
  | after _ herrors => exact ⟨herrors, halong⟩

/-- How a request ends that is not invalid: it is refused for want of a live entry, or not refused,
or it deletes a stale key, which is to be refused and is not. -/
inductive Outcome (c : ConnectionId) (s : State V) (as : List (Action V)) (t : State V) : Prop where
  | refused (msg : ServerMessage V) (herror : msg.IsError)
      (herrors : (t.conns c).errors = (s.conns c).errors ++ [msg])
      (hmiss : Run.Sometime step (MissesKey c) s as) (hharmless : Run.Along step (Harmless c) s as)
      (hstale : ¬Run.Sometime step (DeletesStale c) s as)
  | accepted (herrors : (t.conns c).errors = (s.conns c).errors)
      (hmiss : ¬Run.Sometime step (MissesKey c) s as)
  | stale (herrors : (t.conns c).errors = (s.conns c).errors)
      (hstale : Run.Sometime step (DeletesStale c) s as)

variable {u : State V} {as : List (Action V)}

/-- A request whose handler waits, or has been rejected without harm, ends as it does from there. -/
theorem Outcome.cons (hstep : s.step a = some u) (hmiss : ¬s.MissesKey c a)
    (hharmless : s.Harmless c a) (herrors : (u.conns c).errors = (s.conns c).errors)
    (h : Outcome c u as t) : Outcome c s (a :: as) t := by
  have hstale : ¬s.DeletesStale c a := fun hstale => hmiss hstale.missesKey
  cases h with
  | refused msg herror herrors' hmiss' hharmless' hstale' =>
    refine .refused msg herror (herrors ▸ herrors') ?_ ?_ ?_
    · exact (Run.sometime_cons hstep).2 (.inr hmiss')
    · exact (Run.along_cons hstep).2 ⟨hharmless, hharmless'⟩
    · rw [Run.sometime_cons hstep]
      exact not_or.2 ⟨hstale, hstale'⟩
  | accepted herrors' hmiss' =>
    refine .accepted (herrors'.trans herrors) ?_
    rw [Run.sometime_cons hstep]
    exact not_or.2 ⟨hmiss, hmiss'⟩
  | stale herrors' hstale' =>
    exact .stale (herrors'.trans herrors) ((Run.sometime_cons hstep).2 (.inr hstale'))

/-- The handler is before the look-up of a key. -/
def LooksUp (c : ConnectionId) (key : Text) (id : Option V) (s : State V) : Prop :=
  (s.conns c).task = .get key id ∨ (s.conns c).task = .delete key id

/-- The look-up of a key: without a live entry the handler is about to send an error, and has done
nothing else, unless it deletes a stale key; with one the request is settled. -/
theorem lookup_run {key : Text} {id : Option V} (h : LooksUp c key id s) (hrun : s.run c = some u) :
    (u.conns c).errors = (s.conns c).errors ∧
      (¬s.dict.Live s.now key ∧ s.Harmless c (.run c) ∧
          u.conns c = (s.conns c).goto (.reply (.error "key not found".toList key id)) ∧
          ¬s.DeletesStale c (.run c) ∨
        (u.conns c).task.Settled ∧ (s.dict.Live s.now key ∨ s.DeletesStale c (.run c))) := by
  have hstep := hrun
  rcases h with htask | htask
  · -- a get answers with an error exactly if the entry is absent or expired
    have hstale : ¬s.DeletesStale c (.run c) := by
      rintro ⟨-, key', id', hdelete, -⟩
      cases htask.symm.trans hdelete
    simp only [run, htask] at hrun
    cases hget : s.dict.get s.now key with
    | some value =>
      rw [hget] at hrun
      obtain rfl := Option.some.inj hrun
      rw [conns_setConn_self]
      exact ⟨rfl, .inr ⟨rfl, .inl (Dict.get_isSome_iff_live.1 (by rw [hget]; rfl))⟩⟩
    | none =>
      rw [hget] at hrun
      obtain rfl := Option.some.inj hrun
      have hlive : ¬s.dict.Live s.now key := by
        rw [← Dict.get_isSome_iff_live, hget]
        exact Bool.false_ne_true
      refine ⟨by rw [conns_setConn_self]; rfl, .inl ⟨hlive, ?_, ?_, hstale⟩⟩
      · exact harmless_of_setConn (a := .run c) hstep rfl
      · rw [conns_setConn_self]
  · -- a delete answers with an error only if there is no entry, expired or not
    have hlookup : (s.dict.delete key).2 = (s.dict.lookup key).isSome := rfl
    simp only [run, htask] at hrun
    split at hrun
    · next dict hdelete =>
      obtain rfl := Option.some.inj hrun
      rw [conns_setConn_self]
      refine ⟨rfl, .inr ⟨trivial, ?_⟩⟩
      rw [hdelete] at hlookup
      obtain ⟨e, he⟩ := Option.isSome_iff_exists.1 hlookup.symm
      by_cases hexp : e.Expired s.now
      · exact .inr ⟨rfl, key, id, htask, e, he, hexp⟩
      · exact .inl ⟨e, he, hexp⟩
    · next dict hdelete =>
      obtain rfl := Option.some.inj hrun
      rw [hdelete] at hlookup
      have hnone : s.dict.lookup key = none := by simpa using hlookup.symm
      refine ⟨by rw [conns_setConn_self]; rfl, .inl ⟨?_, ?_, ?_, ?_⟩⟩
      · rintro ⟨e, he, -⟩
        cases hnone.symm.trans he
      · exact harmless_of_setConn (a := .run c) hstep rfl
      · rw [conns_setConn_self]
      · rintro ⟨-, key', id', htask', e, he, -⟩
        obtain ⟨rfl, -⟩ : key = key' ∧ id = id' := by simpa using htask.symm.trans htask'
        cases hnone.symm.trans he

theorem LooksUp.missesKey_iff {key : Text} {id : Option V} (h : LooksUp c key id s) :
    s.MissesKey c (.run c) ↔ ¬s.dict.Live s.now key := by
  constructor
  · rintro ⟨-, key', id', htask, hlive⟩
    obtain rfl : key = key' := by
      rcases h with h | h <;> rcases htask with htask | htask <;> simp_all
    exact hlive
  · exact fun hlive => ⟨rfl, key, id, h, hlive⟩

/-- A request that looks up a key ends in one of these ways. -/
theorem outcome_of_looksUp {key : Text} {id : Option V} (hreport : s.HandlersReport)
    (h : LooksUp c key id s) (has : ∀ a ∈ as, ¬a.Arrives c) (hrun : Run.exec step s as = some t)
    (hdone : (t.conns c).task = .idle) : Outcome c s as t := by
  induction as generalizing s with
  | nil =>
    obtain rfl := Option.some.inj hrun
    rcases h with hget | hdelete
    · cases hget.symm.trans hdone
    · cases hdelete.symm.trans hdone
  | cons a as ih =>
    rw [Run.exec_cons, Option.bind_eq_some_iff] at hrun
    obtain ⟨u, hu, hrun⟩ := hrun
    obtain ⟨harrives, hrest⟩ := List.forall_mem_cons.1 has
    have hreport' := handlersReport_step s a u hreport hu
    -- the first step of the handler decides; the steps before it change nothing
    by_cases hhandler : a = .run c
    · subst hhandler
      obtain ⟨herrors, ⟨hlive, hharmless, hconn, hstale⟩ | ⟨hsettled, hfound⟩⟩ := lookup_run h hu
      · obtain ⟨herrors', halong⟩ :=
          rejected_exec hreport' rfl (congrArg Conn.task hconn) hrest hrun hdone
        refine .refused _ rfl (herrors ▸ herrors') ?_ ?_ ?_
        · exact (Run.sometime_cons hu).2 (.inl (h.missesKey_iff.2 hlive))
        · exact (Run.along_cons hu).2 ⟨hharmless, halong.mono fun _ _ hcalm => hcalm.2⟩
        · rw [Run.sometime_cons hu]
          refine not_or.2 ⟨hstale, fun hlater => ?_⟩
          refine Run.not_sometime_iff.2 (halong.mono fun _ _ hcalm => hcalm.1) ?_
          exact hlater.mono fun _ _ => DeletesStale.missesKey
      · -- the entry was found: no error is sent, though it may have been stale
        obtain ⟨herrors', hmiss⟩ := settled_exec hreport' hsettled hrest hrun
        rcases hfound with hlive | hstale
        · refine .accepted (herrors'.trans herrors) ?_
          rw [Run.sometime_cons hu, h.missesKey_iff]
          exact not_or.2 ⟨not_not.2 hlive, hmiss⟩
        · exact .stale (herrors'.trans herrors) ((Run.sometime_cons hu).2 (.inl hstale))
    · have hlists : ∀ order, a ≠ .listing c order := by
        rintro order rfl
        rcases h with htask | htask
        · simp only [step, listing, htask] at hu
          cases hu
        · simp only [step, listing, htask] at hu
          cases hu
      obtain ⟨htask, herrors, hharmless⟩ :=
        step_of_not_handler hreport harrives hhandler hlists hu
      refine .cons hu (fun hmiss => hhandler hmiss.1) hharmless herrors ?_
      exact ih hreport' (by rwa [LooksUp, htask]) hrest hrun

end State

/-! ## Arrival -/

theorem validate_keys_eq_ok_iff {keys : List Text} :
    validate_keys keys = .ok () ↔ ∀ key ∈ keys, validate_key key = .ok () := by
  induction keys with
  | nil => simp [validate_keys, pure, Except.pure]
  | cons key keys ih =>
    change (validate_key key >>= fun _ => validate_keys keys) = _ ↔ _
    rw [List.forall_mem_cons, ← ih]
    cases validate_key key with
    | error e => simp [bind, Except.bind]
    | ok => simp [bind, Except.bind]

/-- Where the handler of a frame starts. -/
def ClientFrame.task (now : ℕ) : ClientFrame V → Task V
  | .message msg => dispatch now msg
  | .malformed binary =>
    .reply (.error (if binary then "invalid msgpack".toList else "invalid JSON".toList) [] none)

theorem invalidKey_of_error {key e : Text} (h : validate_key key = .error e) : InvalidKey key := by
  rw [InvalidKey, h]
  intro hok
  cases hok

theorem not_invalidKey {key : Text} (h : validate_key key = .ok ()) : ¬InvalidKey key :=
  not_not.2 h

/-- An invalid frame is rejected at once, and only an invalid one: the others look up a key or are
settled. -/
theorem ClientFrame.task_spec (now : ℕ) (f : ClientFrame V) :
    (f.Invalid ∧ ∃ msg, msg.IsError ∧ f.task now = .reply msg) ∨
    (¬f.Invalid ∧ ∃ key id, (f = .message (.get key id) ∧ f.task now = .get key id) ∨
      (f = .message (.delete key id) ∧ f.task now = .delete key id)) ∨
    ¬f.Invalid ∧ (f.task now).Settled := by
  cases f with
  | malformed binary => exact .inl ⟨trivial, _, rfl, rfl⟩
  | message msg =>
    cases msg with
    | list => exact .inr (.inr ⟨id, trivial⟩)
    | subscribe keys id =>
      simp only [ClientFrame.task, dispatch]
      split
      · next e he =>
        refine .inl ⟨?_, _, rfl, rfl⟩
        by_contra hvalid
        have hok : validate_keys keys = .ok () := by
          refine validate_keys_eq_ok_iff.2 fun key hkey => ?_
          by_contra hinvalid
          exact hvalid ⟨key, hkey, hinvalid⟩
        cases he.symm.trans hok
      · next hok =>
        refine .inr (.inr ⟨?_, trivial⟩)
        rintro ⟨key, hkey, hinvalid⟩
        exact hinvalid (validate_keys_eq_ok_iff.1 hok key hkey)
    -- besides its key, a time to live of zero is refused
    | set key value ttl_ms =>
      simp only [ClientFrame.task, dispatch]
      split
      · next e he => exact .inl ⟨.inl (invalidKey_of_error he), _, rfl, rfl⟩
      · next hok =>
        split
        · exact .inl ⟨.inr rfl, _, rfl, rfl⟩
        · next ttl httl =>
          refine .inr (.inr ⟨?_, trivial⟩)
          rintro (hinvalid | hzero)
          · exact not_invalidKey hok hinvalid
          · exact httl (Option.some.inj hzero)
        · refine .inr (.inr ⟨?_, trivial⟩)
          rintro (hinvalid | hzero)
          · exact not_invalidKey hok hinvalid
          · cases hzero
    | get key id =>
      simp only [ClientFrame.task, dispatch]
      split
      · next e he => exact .inl ⟨invalidKey_of_error he, _, rfl, rfl⟩
      · next hok => exact .inr (.inl ⟨not_invalidKey hok, key, id, .inl ⟨rfl, rfl⟩⟩)
    | delete key id =>
      simp only [ClientFrame.task, dispatch]
      split
      · next e he => exact .inl ⟨invalidKey_of_error he, _, rfl, rfl⟩
      · next hok => exact .inr (.inl ⟨not_invalidKey hok, key, id, .inr ⟨rfl, rfl⟩⟩)

namespace State

variable {c : ConnectionId} {f : ClientFrame V} {s t u : State V} {as : List (Action V)}

/-- A frame arrives while the handler is idle. -/
theorem step_arrival_iff (f : ClientFrame V) :
    s.step (f.arrival c) = some u ↔
      (s.conns c).task = .idle ∧ s.setConn c ((s.conns c).goto (f.task s.now)) = u := by
  constructor
  · intro hstep
    cases f with
    | message msg | malformed binary =>
      simp only [ClientFrame.arrival, step] at hstep
      split at hstep
      · next hidle => exact ⟨hidle, Option.some.inj hstep⟩
      · cases hstep
  · rintro ⟨hidle, rfl⟩
    cases f with
    | message msg | malformed binary =>
      simp only [ClientFrame.arrival, step, hidle, ClientFrame.task]

/-- The arrival of a frame touches nothing but the handler. -/
theorem arrival_cases (hstep : s.step (f.arrival c) = some u) :
    (u.conns c).task = f.task s.now ∧ (u.conns c).errors = (s.conns c).errors ∧
      s.Harmless c (f.arrival c) ∧ ¬s.MissesKey c (f.arrival c) := by
  have hmiss : ¬s.MissesKey c (f.arrival c) := by
    rintro ⟨ha, -⟩
    cases f <;> cases ha
  have harrival := hstep
  obtain ⟨-, rfl⟩ := (step_arrival_iff f).1 hstep
  rw [conns_setConn_self]
  exact ⟨rfl, rfl, harmless_of_setConn harrival rfl, hmiss⟩

/-- What is to happen to a frame: it is answered with an error exactly if it is refused, and the
steps of a refused one are harmless. -/
def RefusesRightly (c : ConnectionId) (f : ClientFrame V) (s : State V) (as : List (Action V))
    (t : State V) : Prop :=
  (Answered c s t ↔ Refused c f s as) ∧
    (Refused c f s as → Run.Along step (Harmless c) s (f.arrival c :: as))

theorem not_answered_of_errors_eq (h : (t.conns c).errors = (s.conns c).errors) :
    ¬Answered c s t := by
  rintro ⟨message, key, id, herrors⟩
  simpa using h.symm.trans herrors

theorem answered_of_errors_append {msg : ServerMessage V} (herror : msg.IsError)
    (h : (t.conns c).errors = (s.conns c).errors ++ [msg]) : Answered c s t := by
  cases msg with
  | error message key id => exact ⟨message, key, id, h⟩
  | _ => cases herror

theorem Outcome.refusesRightly_iff (h : Outcome c s (f.arrival c :: as) t)
    (hvalid : ¬f.Invalid) :
    RefusesRightly c f s as t ↔
      ¬Run.Sometime step (DeletesStale c) s (f.arrival c :: as) := by
  cases h with
  | refused msg herror herrors hmiss hharmless hstale =>
    have hanswered := answered_of_errors_append herror herrors
    exact iff_of_true ⟨iff_of_true hanswered (.inr hmiss), fun _ => hharmless⟩ hstale
  | accepted herrors hmiss =>
    have hrefused : ¬Refused c f s as := not_or.2 ⟨hvalid, hmiss⟩
    refine iff_of_true ⟨?_, fun h => absurd h hrefused⟩ fun hstale =>
      hmiss (hstale.mono fun _ _ => DeletesStale.missesKey)
    exact iff_of_false (not_answered_of_errors_eq herrors) hrefused
  | stale herrors hstale =>
    have hrefused : Refused c f s as := .inr (hstale.mono fun _ _ => DeletesStale.missesKey)
    refine iff_of_false (fun h => ?_) (not_not.2 hstale)
    exact not_answered_of_errors_eq herrors (h.1.2 hrefused)

/-- A frame is dealt with as it should be exactly if its handler deletes no stale key. -/
theorem refusesRightly_iff (hreport : s.HandlersReport) (has : ∀ a ∈ as, ¬a.Arrives c)
    (hrun : Run.exec step s (f.arrival c :: as) = some t) (hdone : (t.conns c).task = .idle) :
    RefusesRightly c f s as t ↔
      ¬Run.Sometime step (DeletesStale c) s (f.arrival c :: as) := by
  rw [Run.exec_cons, Option.bind_eq_some_iff] at hrun
  obtain ⟨u, hu, hrun⟩ := hrun
  obtain ⟨htask, herrors, hharmless, hmiss⟩ := arrival_cases hu
  have hreport' := handlersReport_step s _ u hreport hu
  rcases f.task_spec s.now with ⟨hinvalid, msg, herror, hreply⟩ | ⟨hvalid, key, id, hlookup⟩ |
    ⟨hvalid, hsettled⟩
  · obtain ⟨herrors', halong⟩ :=
      rejected_exec hreport' herror (htask.trans hreply) has hrun hdone
    have hanswered := answered_of_errors_append herror (herrors ▸ herrors')
    -- an invalid message: the error is sent, and no step touches the dictionary
    have hcalm := (Run.along_cons hu).2 ⟨⟨hmiss, hharmless⟩, halong⟩
    refine iff_of_true ⟨iff_of_true hanswered (.inl hinvalid), fun _ => ?_⟩ fun hstale => ?_
    · exact hcalm.mono fun _ _ h => h.2
    · refine Run.not_sometime_iff.2 (hcalm.mono fun _ _ h => h.1) ?_
      exact hstale.mono fun _ _ => DeletesStale.missesKey
  · have hlooks : LooksUp c key id u := by
      rcases hlookup with ⟨-, hget⟩ | ⟨-, hdelete⟩
      · exact .inl (htask.trans hget)
      · exact .inr (htask.trans hdelete)
    -- a lookup: the outcome is decided when the key is looked up
    have houtcome := outcome_of_looksUp hreport' hlooks has hrun hdone
    exact (houtcome.cons hu hmiss hharmless herrors).refusesRightly_iff hvalid
  · obtain ⟨herrors', hmiss'⟩ := settled_exec hreport' (by rwa [htask]) has hrun
    have houtcome : Outcome c u as t := .accepted herrors' hmiss'
    exact (houtcome.cons hu hmiss hharmless herrors).refusesRightly_iff hvalid

/-- A handler about to send an error does so if the channel has room. -/
theorem exists_answer_of_reply {msg : ServerMessage V} (herror : msg.IsError)
    (htask : (s.conns c).task = .reply msg) (hroom : ¬(s.conns c).Full) :
    ∃ t, s.step (.run c) = some t ∧ (t.conns c).task = .idle ∧
      (t.conns c).errors = (s.conns c).errors ++ [msg] := by
  refine ⟨s.setConn c (((s.conns c).enqueue { msg, stamp := 0 }).goto .idle), ?_, ?_, ?_⟩
  · simp only [step, run, htask]
    rw [Conn.send_eq_some_iff.2 ⟨hroom, rfl⟩, Option.map_some]
  · rw [conns_setConn_self]
    rfl
  · rw [conns_setConn_self, Conn.errors_goto, Conn.errors_enqueue]
    simp [herror]

theorem LooksUp.exists_run {key : Text} {id : Option V} (h : LooksUp c key id s) :
    ∃ u, s.run c = some u := by
  rcases h with htask | htask
  · simp only [run, htask]
    split
    · exact ⟨_, rfl⟩
    · exact ⟨_, rfl⟩
  · simp only [run, htask]
    split
    · exact ⟨_, rfl⟩
    · exact ⟨_, rfl⟩

/-- A handler that looks up a missing key answers with an error if the channel has room. -/
theorem LooksUp.exists_answer {key : Text} {id : Option V} (h : LooksUp c key id s)
    (hlive : ¬s.dict.Live s.now key) (hstale : ¬s.DeletesStale c (.run c))
    (hroom : ¬(s.conns c).Full) :
    ∃ t, Run.exec step s [.run c, .run c] = some t ∧ (t.conns c).task = .idle ∧
      ∃ msg : ServerMessage V, msg.IsError ∧
        (t.conns c).errors = (s.conns c).errors ++ [msg] := by
  obtain ⟨u, hu⟩ := h.exists_run
  obtain ⟨herrors, ⟨-, -, hconn, -⟩ | ⟨-, hfound⟩⟩ := lookup_run h hu
  · obtain ⟨t, ht, hidle, herrors'⟩ := exists_answer_of_reply (s := u) rfl
      (congrArg Conn.task hconn) (by rwa [hconn])
    refine ⟨t, ?_, hidle, _, rfl, herrors ▸ herrors'⟩
    rw [Run.exec_cons, step, hu, Option.bind_some, Run.exec_cons, ht, Option.bind_some,
      Run.exec_nil]
  · exact (hfound.elim hlive hstale).elim

/-- The handler of a frame that looks up a key does so unless it rejects the frame. -/
theorem not_misses_of_settled {now : ℕ} (h : (f.task now).Settled) : ¬f.Misses s := by
  intro hmisses
  cases f with
  | malformed => exact hmisses
  | message msg =>
    cases msg with
    | get key id | delete key id =>
      simp only [ClientFrame.task, dispatch] at h
      split at h
      · cases h
      · exact h
    | subscribe | set | list => exact hmisses

/-- A refused frame is answered by its handler if the channel has room. -/
theorem exists_answer (hidle : (s.conns c).task = .idle) (hroom : ¬(s.conns c).Full)
    (hrefused : f.Invalid ∨ f.Misses s) :
    ∃ as t, (∀ a ∈ as, a = .run c) ∧ Run.exec step s (f.arrival c :: as) = some t ∧
      (t.conns c).task = .idle ∧ Answered c s t := by
  have hstep := (step_arrival_iff f).2 ⟨hidle, rfl⟩
  set u := s.setConn c ((s.conns c).goto (f.task s.now)) with hu
  have hconn : u.conns c = (s.conns c).goto (f.task s.now) := conns_setConn_self _ _ _
  have hroom' : ¬(u.conns c).Full := by rwa [hconn]
  have herrors : (u.conns c).errors = (s.conns c).errors := by rw [hconn, Conn.errors_goto]
  rcases f.task_spec s.now with ⟨-, msg, herror, hreply⟩ | ⟨hvalid, key, id, hlookup⟩ |
    ⟨hvalid, hsettled⟩
  · -- an invalid message is answered by the handler's next step
    obtain ⟨t, ht, hdone, hanswer⟩ := exists_answer_of_reply herror
      (show (u.conns c).task = .reply msg by rw [hconn, ← hreply]; rfl) hroom'
    refine ⟨[.run c], t, by simp, ?_, hdone, answered_of_errors_append herror (herrors ▸ hanswer)⟩
    rw [Run.exec_cons, hstep, Option.bind_some, Run.exec_cons, ht, Option.bind_some, Run.exec_nil]
  · -- a key that is missing is looked up first, and answered after that
    have hmisses := hrefused.resolve_left hvalid
    have hlooks : LooksUp c key id u ∧ ¬u.dict.Live u.now key ∧ ¬u.DeletesStale c (.run c) := by
      rcases hlookup with ⟨rfl, htask⟩ | ⟨rfl, htask⟩
      · have hget : (u.conns c).task = .get key id := (congrArg Conn.task hconn).trans htask
        refine ⟨.inl hget, hmisses, ?_⟩
        rintro ⟨-, key', id', hdelete, -⟩
        cases hget.symm.trans hdelete
      · have hdelete : (u.conns c).task = .delete key id := (congrArg Conn.task hconn).trans htask
        refine ⟨.inr hdelete, hmisses.1, ?_⟩
        rintro ⟨-, key', id', hdelete', hstale⟩
        obtain ⟨rfl, -⟩ : key = key' ∧ id = id' := by simpa using hdelete.symm.trans hdelete'
        exact hmisses.2 hstale
    obtain ⟨t, ht, hdone, msg, herror, hanswer⟩ :=
      hlooks.1.exists_answer hlooks.2.1 hlooks.2.2 hroom'
    refine ⟨[.run c, .run c], t, by simp, ?_, hdone,
      answered_of_errors_append herror (herrors ▸ hanswer)⟩
    rw [Run.exec_cons, hstep, Option.bind_some, ht]
  · exact absurd (hrefused.resolve_left hvalid) (not_misses_of_settled hsettled)

end State

/-- From every state of a run, whatever else goes on, a frame that its handler has dealt with has
been answered with an error exactly if it was to be refused, and then the handler has done nothing
else, if and only if it deleted no stale key. With room in the channel a refused frame is
answered. -/
theorem refused_answered_iff {before : List (Action V)} {s : State V}
    (hbefore : Run.exec State.step init before = some s) (c : ConnectionId) (f : ClientFrame V) :
    (∀ as t, (∀ a ∈ as, ¬a.Arrives c) → Run.exec State.step s (f.arrival c :: as) = some t →
      (t.conns c).task = .idle →
        (State.RefusesRightly c f s as t ↔
          ¬Run.Sometime State.step (State.DeletesStale c) s (f.arrival c :: as))) ∧
    ((s.conns c).task = .idle → ¬(s.conns c).Full → f.Invalid ∨ f.Misses s →
      ∃ as t, (∀ a ∈ as, a = .run c) ∧ Run.exec State.step s (f.arrival c :: as) = some t ∧
        (t.conns c).task = .idle ∧ Answered c s t) := by
  have hreport := Run.inv_of_exec' State.handlersReport_step State.handlersReport_init hbefore
  exact ⟨fun as t has hrun hdone => State.refusesRightly_iff hreport has hrun hdone,
    State.exists_answer⟩

/-- A client subscribes to `k`, which is set on another connection and expires. -/
def expiredRun : List (Action ℕ) :=
  [.request 1 (.subscribe [['k']] none), .run 1, .run 1, .run 1, .listing 1 [], .run 1,
    .request 0 (.set ['k'] 1 (some 5)), .run 0, .run 0, .tick 5]

/-- A subscription with an invalid pattern among others is answered with an error, and none of its
patterns is entered. -/
theorem refused_answered_iff_expiredRun :
    ∃ s t, Run.exec State.step init expiredRun = some s ∧
      Run.exec State.step s [.request 0 (.subscribe [['k'], []] none), .run 0] = some t ∧
      State.RefusesRightly 0 (.message (.subscribe [['k'], []] none)) s [.run 0] t ∧
      (t.conns 0).errors = [.error "invalid key".toList "empty key".toList none] ∧
      (t.conns 0).subscription = none := by
  obtain ⟨t, ht⟩ := Option.isSome_iff_exists.1 (by decide : (Run.exec State.step init
    (expiredRun ++ [.request 0 (.subscribe [['k'], []] none), .run 0])).isSome)
  have hview : (Run.exec State.step init
      (expiredRun ++ [.request 0 (.subscribe [['k'], []] none), .run 0])).all fun t =>
        (t.conns 0).errors = [.error "invalid key".toList "empty key".toList none] ∧
          (t.conns 0).subscription = none := by
    decide
  have hidle : (Run.exec State.step init
      (expiredRun ++ [.request 0 (.subscribe [['k'], []] none), .run 0])).map
        (fun t => (t.conns 0).task) = some .idle := rfl
  rw [ht, Option.all_some, decide_eq_true_eq] at hview
  rw [ht, Option.map_some, Option.some.injEq] at hidle
  rw [Run.exec_append, Option.bind_eq_some_iff] at ht
  obtain ⟨s, hs, ht⟩ := ht
  refine ⟨s, t, hs, ht, ?_, hview⟩
  refine ((refused_answered_iff hs 0 (.message (.subscribe [['k'], []] none))).1 [.run 0] t
    (by simp [Action.Arrives]) ht hidle).2 ?_
  -- neither the arrival nor the step of the handler deletes a key
  rintro (⟨ha, -⟩ | ⟨u, hu, ⟨-, key, id, htask, -⟩ | ⟨v, -, hnil⟩⟩)
  · cases ha
  · cases (State.arrival_cases hu).1.symm.trans htask
  · exact hnil

/-- The expired value of `k` is deleted before the next sweep: the deletion is to be refused, is
answered with no error and is reported to the other client. -/
theorem expiredRun_not_refusesRightly :
    ∃ s t, Run.exec State.step init expiredRun = some s ∧
      Run.exec State.step s [.request 0 (.delete ['k'] none), .run 0, .run 0] = some t ∧
      Refused 0 (.message (.delete ['k'] none)) s [.run 0, .run 0] ∧
      (t.conns 0).log.length = 0 ∧
      (t.conns 1).log.map Frame.msg =
        [.subscribed [['k']] none, .update ['k'] 1, .key_deleted ['k']] ∧
      ¬State.RefusesRightly 0 (.message (.delete ['k'] none)) s [.run 0, .run 0] t := by
  obtain ⟨t, ht⟩ := Option.isSome_iff_exists.1 (by decide : (Run.exec State.step init
    (expiredRun ++ [.request 0 (.delete ['k'] none), .run 0, .run 0])).isSome)
  have hview : (Run.exec State.step init
      (expiredRun ++ [.request 0 (.delete ['k'] none), .run 0, .run 0])).all fun t =>
        (t.conns 0).log.length = 0 ∧ (t.conns 1).log.map Frame.msg =
          [.subscribed [['k']] none, .update ['k'] 1, .key_deleted ['k']] := by
    decide
  -- the value has expired, although the entry is still there
  have hmiss : (Run.exec State.step init expiredRun).all fun s =>
      (s.dict.get s.now ['k']).isNone := by
    decide
  rw [ht, Option.all_some, decide_eq_true_eq] at hview
  rw [Run.exec_append, Option.bind_eq_some_iff] at ht
  obtain ⟨s, hs, ht⟩ := ht
  rw [hs, Option.all_some, Option.isNone_iff_eq_none] at hmiss
  have hrefused : Refused 0 (.message (.delete ['k'] none)) s [.run 0, .run 0] := by
    obtain ⟨u, hu, -⟩ := Option.bind_eq_some_iff.1 ht
    obtain ⟨-, rfl⟩ := (State.step_arrival_iff (.message (.delete ['k'] none))).1 hu
    refine .inr ((Run.sometime_cons hu).2
      (.inr (.inl ⟨rfl, ['k'], none, .inr ?_, fun hlive => ?_⟩)))
    · rw [State.conns_setConn_self]
      rfl
    · have hsome : (s.dict.get s.now ['k']).isSome := Dict.get_isSome_iff_live.2 hlive
      rw [hmiss] at hsome
      cases hsome
  -- an answer would be an error, and nothing was sent
  refine ⟨s, t, hs, ht, hrefused, hview.1, hview.2, fun hright => ?_⟩
  obtain ⟨message, key, id, herrors⟩ := hright.1.2 hrefused
  have hnone : (t.conns 0).errors = [] := by
    rw [Conn.errors, List.length_eq_zero_iff.1 hview.1]
    rfl
  rw [hnone] at herrors
  simp at herrors

end GranolaSdr.WsServer
