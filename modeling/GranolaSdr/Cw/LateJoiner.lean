import GranolaSdr.Cw.Order
import GranolaSdr.Lib.Run
import Mathlib.Order.Bounds.Basic

/-!
# A station that joins late

A callsign is held back while it is sparse against the most frequent recent one. The counters of a
track agree with its history, so a station that left long ago does not count, however often it was
read: one that is read alone from some step on is reported as soon as it has been read often enough.

The counter is an `int`, and the test doubles it. From 2^30 windows on the double wraps, and the
station is held back by its own counter.

## Main definitions

* `Tally`: the counters and indices of the tracks are those of the history;
* `OnlyReads`: whenever a track is decoded, one callsign is read, and no other;
* `LateJoiner`: a station that is read alone on a track where others were.

## Main results

* `late_joiner`: it is reported, and stays so;
* `late_joiner_held_back`: unless its counter is too large.
-/

namespace GranolaSdr.Cw

open EditDistance

section History

variable {F : Type*}

/-! ## Counters and history -/

/-- Only the callsign itself is recent, so it is not sparse, unless its counter is too large. -/
theorem dominant_countCall_le (cfg : Config F) (wi : UInt64) (cq : Bool) {t : Track F} {call : Text}
    (hold : ∀ k ≠ call, ∀ stat, t.call_cnt.lookup k = some stat →
      ¬wi - stat.last_wi ≤ cfg.ttl_slots / 4) :
    dominant cfg wi (countCall wi cq t call) ≤ max 0 (wrap32 ((t.stat call).count + 1)) := by
  rw [dominant_le_iff]
  refine ⟨le_max_left _ _, ?_⟩
  intro k stat hk hrecent
  apply le_max_of_le_right
  by_cases hcall : k = call
  · subst hcall
    rw [countCall, AList.lookup_insert] at hk
    obtain rfl := Option.some.inj hk
    exact le_rfl
  · rw [countCall, AList.lookup_insert_ne hcall] at hk
    exact absurd hrecent (hold k hcall stat hk)

variable [LT F]

/-- The counters of a track are those of the history, and its indices those of the last windows in
which the callsigns were read. -/
structure Agrees (ws : List (Window F)) (s : State F) (t : Track F) : Prop where
  count : ∀ k, (t.stat k).count = wrap32 (s.heardIn t.id k).card
  last : ∀ k stat, t.call_cnt.lookup k = some stat →
    ∃ j v, IsGreatest (s.heardIn t.id k : Set ℕ) j ∧ ws[j]? = some v ∧ stat.last_wi = v.wi

/-- All tracks agree with the history of the windows. -/
structure Tally (ws : List (Window F)) (s : State F) : Prop where
  steps : s.steps = ws.length
  track_lt : ∀ e ∈ s.heard, e.track < s.next_id
  agrees : ∀ t ∈ s.tracks_, Agrees ws s t

/-- The last event of each callsign on a track. -/
def State.lastReads (s : State F) (id : ℕ) : List Event :=
  s.heard.filter fun e => e.track = id ∧
    ∀ f ∈ s.heard, f.track = id → f.call = e.call → f.step ≤ e.step

/-- A callsign that is not recent does not count. -/
theorem Agrees.not_recent {ws : List (Window F)} {s : State F} {t : Track F} (h : Agrees ws s t)
    (ttl_slots wi : UInt64) {call : Text}
    (hrecent : ∀ e ∈ s.lastReads t.id, e.call ≠ call →
      ∀ v ∈ ws[e.step]?, v.wi.toNat + (ttl_slots / 4).toNat < wi.toNat)
    {k : Text} (hk : k ≠ call) {stat : CallStat} (hstat : t.call_cnt.lookup k = some stat) :
    ¬wi - stat.last_wi ≤ ttl_slots / 4 := by
  obtain ⟨j, v, hgreatest, hv, hwi⟩ := h.last k stat hstat
  -- the index of the entry is that of the last event of the callsign
  have hmem : (⟨t.id, j, k⟩ : Event) ∈ s.lastReads t.id := by
    refine List.mem_filter.2 ⟨mem_heardIn.1 (Finset.mem_coe.1 hgreatest.1), ?_⟩
    rw [decide_eq_true_eq]
    refine ⟨rfl, ?_⟩
    rintro ⟨_, i, _⟩ hf rfl rfl
    exact hgreatest.2 (Finset.mem_coe.2 (mem_heardIn.2 hf))
  have hlt := hrecent _ hmem hk v hv
  have hle : v.wi ≤ wi := UInt64.le_iff_toNat_le.2 (by omega)
  rw [hwi, UInt64.le_iff_toNat_le, UInt64.toNat_sub_of_le _ _ hle]
  omega

theorem tally_init : Tally [] (.init : State F) := ⟨rfl, nofun, nofun⟩

theorem wrap32_add_one (n : ℤ) : wrap32 (wrap32 n + 1) = wrap32 (n + 1) := by
  rw [wrap32, wrap32, wrap32, Int.bmod_add_bmod]

theorem wrap32_of_lt {n : ℤ} (hlow : 0 ≤ n) (h : n < 2 ^ 31) : wrap32 n = n := by
  rw [wrap32]
  exact Int.bmod_eq_of_le (by omega) (by omega)

/-- The entries of a track after it is decoded. -/
theorem lookup_decodeTrack [LE F] [DecidableLE F] [Zero F] (cfg : Config F) (w : Window F)
    (t : Track F) (k : Text) :
    ∃ cq, (decodeTrack cfg w t).1.call_cnt.lookup k =
      if k ∈ heardCalls w t then some ⟨wrap32 ((t.stat k).count + 1), w.wi, cq⟩
      else t.call_cnt.lookup k := by
  cases hlisten : listen w t with
  | none =>
    rw [decodeTrack_of_none cfg hlisten, heardCalls_of_none hlisten]
    exact ⟨false, rfl⟩
  | some listened =>
    obtain ⟨hz, r⟩ := listened
    rw [decodeTrack_of_some cfg hlisten]
    obtain ⟨new, -, hcore, -, -⟩ := foldl_emitCall cfg w hz (heardCalls w t)
      ((heardCalls w t).foldl (countCall w.wi r.window_cq) t, [])
    have hcnt := congrArg Core.call_cnt hcore
    refine ⟨(t.stat k).cq || r.window_cq, ?_⟩
    rw [← lookup_foldl_countCall w.wi r.window_cq (nodup_heardCalls w t)]
    exact congrArg (AList.lookup k) hcnt

variable [DecidableLT F] [Zero F] [Add F] [Mul F] [OfScientific F] {cfg : Config F}
  {ws : List (Window F)} {s : State F} {w : Window F} {t : Track F}

/-- A live track agrees with the history, also when it is new. -/
theorem Tally.live (h : Tally ws s) (hinv : Inv cfg s) (ht : t ∈ live cfg s w) :
    Agrees ws s t := by
  obtain ⟨-, -, hlive⟩ := live_cores cfg w hinv.nodup hinv.id_lt
  obtain ⟨-, ⟨u, hu, hcore⟩ | ⟨hnew, hcore⟩⟩ := hlive t ht
  · -- a track from before the window, with the counters it had
    have hid : t.id = u.id := congrArg Core.id hcore
    have hcnt : t.call_cnt = u.call_cnt := congrArg Core.call_cnt hcore
    obtain ⟨hcount, hlast⟩ := h.agrees u hu
    constructor
    · intro k
      rw [Track.stat_congr hcnt, hid]
      exact hcount k
    · intro k stat
      rw [hcnt, hid]
      exact hlast k stat
  · -- a new track, whose number is in no event yet
    have hcnt : t.call_cnt = ∅ := congrArg Core.call_cnt hcore
    constructor
    · intro k
      have hempty : s.heardIn t.id k = ∅ := by
        rw [Finset.eq_empty_iff_forall_notMem]
        intro j hj
        have hlt : t.id < s.next_id := h.track_lt _ (mem_heardIn.1 hj)
        omega
      rw [hempty, Track.stat, hcnt, AList.lookup_empty, Finset.card_empty]
      exact (wrap32_of_lt le_rfl (by omega)).symm
    · intro k stat hk
      rw [hcnt, AList.lookup_empty] at hk
      cases hk

variable [LE F] [DecidableLE F]

/-- What a step adds to the history. -/
theorem mem_heard_step {e : Event} :
    e ∈ (step cfg s w).heard ↔
      e ∈ s.heard ∨ ∃ u ∈ live cfg s w, e.track = u.id ∧ e.step = s.steps ∧
        e.call ∈ heardCalls w u := by
  rw [step, List.mem_append, List.mem_flatMap]
  apply or_congr_right
  constructor
  · rintro ⟨u, hu, he⟩
    obtain ⟨k, hk, rfl⟩ := List.mem_map.1 he
    exact ⟨u, hu, rfl, rfl, hk⟩
  · rintro ⟨u, hu, htrack, hstep, hk⟩
    refine ⟨u, hu, List.mem_map.2 ⟨e.call, hk, ?_⟩⟩
    rw [← htrack, ← hstep]

/-- The steps in which a callsign was read on a live track. -/
theorem heardIn_step (hinv : Inv cfg s) (ht : t ∈ live cfg s w) (k : Text) :
    (step cfg s w).heardIn t.id k =
      if k ∈ heardCalls w t then insert s.steps (s.heardIn t.id k) else s.heardIn t.id k := by
  obtain ⟨-, hnodup, -⟩ := live_cores cfg w hinv.nodup hinv.id_lt
  ext j
  rw [mem_heardIn, mem_heard_step]
  have hnow : (∃ u ∈ live cfg s w, t.id = u.id ∧ j = s.steps ∧ k ∈ heardCalls w u) ↔
      j = s.steps ∧ k ∈ heardCalls w t := by
    constructor
    · -- no other live track has the number
      rintro ⟨u, hu, hid, hj, hk⟩
      obtain rfl := List.inj_on_of_nodup_map hnodup ht hu hid
      exact ⟨hj, hk⟩
    · rintro ⟨hj, hk⟩
      exact ⟨t, ht, rfl, hj, hk⟩
  rw [hnow, ← mem_heardIn]
  split
  next hk => simp [hk, or_comm]
  next hk => simp [hk]

/-- A decoded track agrees with the history again. -/
theorem Agrees.step (h : Agrees ws s t) (hinv : Inv cfg s) (hsteps : s.steps = ws.length)
    (ht : t ∈ Cw.live cfg s w) :
    Agrees (ws ++ [w]) (Cw.step cfg s w) (decodeTrack cfg w t).1 := by
  have hdecoded := decoded_decodeTrack cfg w t
  have hfresh (k : Text) : ∀ j ∈ s.heardIn t.id k, j < s.steps := fun j hj =>
    hinv.heard_lt _ (mem_heardIn.1 hj)
  constructor
  · intro k
    rw [hdecoded.count, hdecoded.id, heardIn_step hinv ht, h.count]
    split
    next =>
      rw [wrap32_add_one, Finset.card_insert_of_notMem fun hmem => (hfresh k _ hmem).false]
      push_cast
      rfl
    next => rfl
  · intro k stat hstat
    rw [hdecoded.id, heardIn_step hinv ht]
    obtain ⟨cq, hlookup⟩ := lookup_decodeTrack cfg w t k
    rw [hlookup] at hstat
    split_ifs at hstat ⊢ with hk
    · -- read in this window
      obtain rfl := Option.some.inj hstat
      refine ⟨s.steps, w, ⟨by simp, ?_⟩, ?_, rfl⟩
      · intro j hj
        rcases Finset.mem_insert.1 (Finset.mem_coe.1 hj) with rfl | hj
        · exact le_rfl
        · exact (hfresh k j hj).le
      · rw [hsteps, List.getElem?_append_right le_rfl, Nat.sub_self]
        rfl
    · -- read in an earlier one, whose place in the history is the same
      obtain ⟨j, v, hgreatest, hv, hwi⟩ := h.last k stat hstat
      refine ⟨j, v, hgreatest, ?_, hwi⟩
      rw [List.getElem?_append_left (List.getElem?_eq_some_iff.1 hv).1, hv]

theorem Tally.step (h : Tally ws s) (hinv : Inv cfg s) (w : Window F) :
    Tally (ws ++ [w]) (Cw.step cfg s w) := by
  obtain ⟨hle, -, hlive⟩ := live_cores cfg w hinv.nodup hinv.id_lt
  constructor
  · simp [Cw.step, h.steps]
  · intro e he
    rcases mem_heard_step.1 he with hold | ⟨u, hu, htrack, -, -⟩
    · exact (h.track_lt e hold).trans_le hle
    · rw [htrack]
      exact (hlive u hu).1
  · intro t ht
    obtain ⟨u, hu, rfl⟩ := List.mem_map.1 ht
    exact (h.live hinv hu).step hinv h.steps hu

theorem tally_run (cfg : Config F) (ws : List (Window F)) : Tally ws (run cfg ws) := by
  induction ws using List.reverseRecOn with
  | nil => exact tally_init
  | append_singleton ws w ih =>
    rw [run_append_singleton]
    exact ih.step (Inv.run cfg ws) w

/-! ## Reports -/

/-- A callsign reported in a step was read on the track. -/
theorem mem_spotsOn_step (hinv : Inv cfg s) {id : ℕ} {call : Text}
    (h : call ∈ (step cfg s w).spotsOn id) :
    call ∈ s.spotsOn id ∨ ∃ t ∈ live cfg s w, t.id = id ∧ call ∈ heardCalls w t := by
  by_cases hlive : ∃ t ∈ live cfg s w, t.id = id
  · obtain ⟨t, ht, rfl⟩ := hlive
    have hdecoded := decoded_decodeTrack cfg w t
    rw [hinv.spotsOn_step ht, hdecoded.emitted, (hinv.live ht).1, List.mem_append] at h
    rcases h with hold | hnew
    · exact Or.inl hold
    · obtain ⟨x, hx, rfl⟩ := List.mem_map.1 hnew
      exact Or.inr ⟨t, ht, rfl, (hdecoded.confirmed x hx).1⟩
  · rw [spotsOn_step_of_forall_ne fun t ht hid => hlive ⟨t, ht, hid⟩] at h
    exact Or.inl h

/-- A report stays. -/
theorem mem_spotsOn_run {id : ℕ} {call : Text} (h : call ∈ (run cfg ws).spotsOn id)
    (ws' : List (Window F)) : call ∈ (run cfg (ws ++ ws')).spotsOn id := by
  induction ws' using List.reverseRecOn with
  | nil => rwa [List.append_nil]
  | append_singleton ws' w ih =>
    rw [← List.append_assoc, run_append_singleton]
    rw [State.spotsOn, List.mem_map] at ih ⊢
    obtain ⟨e, he, hcall⟩ := ih
    obtain ⟨he, hid⟩ := List.mem_filter.1 he
    exact ⟨e, List.mem_filter.2 ⟨List.mem_append_left _ he, hid⟩, hcall⟩

/-- Whenever the track is decoded in a window, exactly this callsign is read. -/
def OnlyReads (cfg : Config F) (id : ℕ) (call : Text) (s : State F) (w : Window F) : Prop :=
  ∀ t ∈ live cfg s w, t.id = id → (listen w t).isSome → heardCalls w t = [call]

instance (cfg : Config F) (id : ℕ) (call : Text) (s : State F) (w : Window F) :
    Decidable (OnlyReads cfg id call s w) :=
  inferInstanceAs (Decidable (∀ t ∈ live cfg s w, _))

/-- Then no other callsign is reported there. -/
theorem spotsOn_of_onlyReads {id : ℕ} {call : Text} (hinv : Inv cfg s)
    (h : OnlyReads cfg id call s w) {e : Text} (he : e ∈ (step cfg s w).spotsOn id) :
    e ∈ s.spotsOn id ∨ e = call := by
  rcases mem_spotsOn_step hinv he with hold | ⟨t, ht, hid, hheard⟩
  · exact Or.inl hold
  · right
    cases hlisten : listen w t with
    | none =>
      rw [heardCalls_of_none hlisten] at hheard
      cases hheard
    | some listened =>
      rw [h t ht hid (by rw [hlisten]; rfl)] at hheard
      exact List.mem_singleton.1 hheard

/-- The steps of a run, each of which is possible. -/
theorem exec_run (cfg : Config F) (ws ws' : List (Window F)) :
    Run.exec (fun s w => some (step cfg s w)) (run cfg ws) ws' = some (run cfg (ws ++ ws')) := by
  induction ws' generalizing ws with
  | nil => rw [List.append_nil, Run.exec_nil]
  | cons w ws' ih =>
    rw [Run.exec_cons, Option.bind_some, ← run_append_singleton, ih, List.append_assoc]
    rfl

theorem spotsOn_run_of_onlyReads {id : ℕ} {call : Text} {ws' : List (Window F)}
    (h : Run.Along (fun s w => some (step cfg s w)) (OnlyReads cfg id call) (run cfg ws) ws')
    {e : Text} (he : e ∈ (run cfg (ws ++ ws')).spotsOn id) :
    e ∈ (run cfg ws).spotsOn id ∨ e = call := by
  have hstep : ∀ s w s', (Inv cfg s ∧ ∀ e ∈ s.spotsOn id, e ∈ (run cfg ws).spotsOn id ∨ e = call) →
      OnlyReads cfg id call s w → some (step cfg s w) = some s' →
      Inv cfg s' ∧ ∀ e ∈ s'.spotsOn id, e ∈ (run cfg ws).spotsOn id ∨ e = call := by
    rintro s w s' ⟨hinv, hspots⟩ honly hstep
    obtain rfl := Option.some.inj hstep
    refine ⟨hinv.step w, ?_⟩
    intro e he
    rcases spotsOn_of_onlyReads hinv honly he with hold | heq
    · exact hspots e hold
    · exact Or.inr heq
  have hinit : Inv cfg (run cfg ws) ∧
      ∀ e ∈ (run cfg ws).spotsOn id, e ∈ (run cfg ws).spotsOn id ∨ e = call :=
    ⟨Inv.run cfg ws, fun e he => Or.inl he⟩
  exact (Run.inv_of_exec hstep hinit h (exec_run cfg ws ws')).2 e he

/-! ## The late joiner -/

/-- After some windows, the callsign is the only one read on the track `during` others and in the
window `w`. -/
structure LateJoiner (cfg : Config F) (before during : List (Window F)) (w : Window F) (id : ℕ)
    (call : Text) : Prop where
  /-- No other callsign that was reported before is near. -/
  apart : ∀ e ∈ (run cfg before).spotsOn id, e ≠ call → ¬Within 1 e call ∧ ¬call <+: e
  only : Run.Along (fun s w => some (step cfg s w)) (OnlyReads cfg id call) (run cfg before)
    (during ++ [w])
  decoded : ∃ t ∈ live cfg (run cfg (before ++ during)) w, t.id = id ∧ (listen w t).isSome
  /-- It has been read in enough of these windows. -/
  confirm : cfg.confirm ≤
    (((run cfg (before ++ during ++ [w])).heardIn id call).filter (before.length ≤ ·)).card
  /-- The others were last read more than a quarter of `ttl_slots` ago. -/
  recent : ∀ e ∈ (run cfg (before ++ during)).lastReads id, e.call ≠ call →
    ∀ v ∈ (before ++ during)[e.step]?, v.wi.toNat + (cfg.ttl_slots / 4).toNat < w.wi.toNat

variable {before during : List (Window F)} {id : ℕ} {call : Text}

namespace LateJoiner

/-- The callsigns reported on the track stay apart from the late joiner. -/
theorem not_isVariant (h : LateJoiner cfg before during w id call) {e : Text}
    (he : e ∈ (run cfg (before ++ during)).spotsOn id) (hne : e ≠ call) :
    isVariant e call = false := by
  have honly := ((Run.along_append (exec_run cfg before during)).1 h.only).1
  rcases spotsOn_run_of_onlyReads honly he with hbefore | heq
  · obtain ⟨hwithin, hprefix⟩ := h.apart e hbefore hne
    rw [isVariant, Bool.or_eq_false_iff, Bool.and_eq_false_iff]
    constructor
    · right
      rw [← Bool.not_eq_true, List.isPrefixOf_iff_prefix]
      exact hprefix
    · rw [← Bool.not_eq_true, editDistLE1_iff]
      exact hwithin
  · exact absurd heq hne

/-- The callsign is read in the window, and in no other step that is counted already. -/
theorem card_heardIn (h : LateJoiner cfg before during w id call) :
    ((run cfg (before ++ during ++ [w])).heardIn id call).card =
      ((run cfg (before ++ during)).heardIn id call).card + 1 := by
  obtain ⟨t, ht, rfl, hsome⟩ := h.decoded
  have hinv := Inv.run cfg (before ++ during)
  have honly := ((Run.along_append (exec_run cfg before during)).1 h.only).2.1
  rw [run_append_singleton, heardIn_step hinv ht, honly t ht rfl hsome,
    if_pos (List.mem_singleton_self call), Finset.card_insert_of_notMem]
  intro hmem
  exact (hinv.heard_lt _ (mem_heardIn.1 hmem)).false

end LateJoiner

/-- A station that is read alone on a track, often enough and long enough after the others, is
reported by the end of the window, and stays so, if its counter has not reached 2^30. -/
theorem late_joiner (cfg : Config F) (before during : List (Window F)) (w : Window F) (id : ℕ)
    (call : Text) (h : LateJoiner cfg before during w id call)
    (hcard : ((run cfg (before ++ during ++ [w])).heardIn id call).card < 2 ^ 30)
    (after : List (Window F)) :
    call ∈ (run cfg (before ++ during ++ [w] ++ after)).spotsOn id := by
  apply mem_spotsOn_run
  have hinv := Inv.run cfg (before ++ during)
  have hnext := h.card_heardIn
  have hconfirm : cfg.confirm ≤ ((run cfg (before ++ during ++ [w])).heardIn id call).card :=
    h.confirm.trans (Int.ofNat_le.2 (Finset.card_le_card (Finset.filter_subset _ _)))
  have honly := ((Run.along_append (exec_run cfg before during)).1 h.only).2.1
  obtain ⟨t, ht, rfl, hsome⟩ := h.decoded
  have hagrees := (tally_run cfg (before ++ during)).live hinv ht
  obtain ⟨⟨hz, r⟩, hlisten⟩ := Option.isSome_iff_exists.1 hsome
  rw [run_append_singleton, hinv.spotsOn_step ht, decodeTrack_of_some cfg hlisten,
    honly t ht rfl hsome]
  by_cases hemitted : call ∈ t.emitted
  · -- reported before, and that stays
    exact mem_emitted_foldl cfg w hz [call] hemitted
  · -- the counter is the number of windows, and neither it nor its double wraps
    have hstat := stat_countCall w.wi r.window_cq t call call
    have hsum : wrap32 ((t.stat call).count + 1) =
        ((run cfg (before ++ during ++ [w])).heardIn t.id call).card := by
      rw [hagrees.count, wrap32_add_one, hnext]
      exact wrap32_of_lt (by omega) (by omega)
    rw [if_pos rfl, hsum] at hstat
    have hdominant := dominant_countCall_le cfg w.wi r.window_cq fun k hk stat hlookup =>
      hagrees.not_recent cfg.ttl_slots w.wi h.recent hk hlookup
    have hconfirmed : Confirmed cfg w.wi (countCall w.wi r.window_cq t call) call := by
      rw [Confirmed, hstat, wrap32_of_lt (by omega) (by omega)]
      refine ⟨not_or.2 ⟨by omega, hemitted⟩, by omega, ?_⟩
      -- all others that were reported were so before the station was alone
      rw [List.any_eq_true]
      rintro ⟨e, he, hnear⟩
      have hne : e ≠ call := fun heq => hemitted (heq ▸ he)
      have hspot : e ∈ (run cfg (before ++ during)).spotsOn t.id := (hinv.live ht).1 ▸ he
      rw [h.not_isVariant hspot hne] at hnear
      cases hnear
    rw [List.foldl_cons, List.foldl_nil, List.foldl_cons, List.foldl_nil, emitCall,
      if_pos hconfirmed]
    exact List.mem_append_right _ (List.mem_singleton_self call)

end History

/-! ## Two stations -/

/-- A window with one carrier, on which a text is read. -/
def oneCarrier (wi : UInt64) (txt : Text) : Window ℚ where
  wi := wi
  snr := [0, 0, 20, 0, 0]
  decode _ := txt
  wpm _ := 20
  binToHz _ := 7030000
  lib := .insertion

/-- The first station is read three times, the second one twice, in the end alone. -/
theorem late_joiner_second_station :
    let cfg : Config ℚ := ⟨12, 0, 2, 2, 2, 100⟩
    let first (wi : UInt64) := oneCarrier wi "K1AAA".toList
    let second (wi : UInt64) := oneCarrier wi "K2BBB".toList
    LateJoiner cfg [first 0, first 25, first 50] [second 75] (second 100) 0 "K2BBB".toList ∧
      "K2BBB".toList ∈ (run cfg ([first 0, first 25, first 50] ++ [second 75] ++ [second 100] ++
        [])).spotsOn 0 := by
  intro cfg first second
  have hbefore : (run cfg [first 0, first 25, first 50]).spotsOn 0 = ["K1AAA".toList] := by
    decide +kernel
  have hjoin : LateJoiner cfg [first 0, first 25, first 50] [second 75] (second 100) 0
      "K2BBB".toList := by
    constructor
    · intro e he _
      rw [hbefore, List.mem_singleton] at he
      rw [he, ← editDistLE1_iff]
      decide
    · decide +kernel
    · decide +kernel
    · decide +kernel
    · decide +kernel
  exact ⟨hjoin, late_joiner cfg _ _ _ _ _ hjoin (by decide +kernel) []⟩

/-! ## A large counter -/

/-- Settings under which a callsign has to be read in 2^30 windows. -/
def patient : Config ℚ := ⟨12, 0, 2, 2, 2 ^ 30, 3000⟩

/-- The window `i` of a station that is alone. -/
def alone (i : ℕ) : Window ℚ := oneCarrier (.ofNat (50 * i)) "K1ABC".toList

/-- There is no track yet, or the one of the station. -/
def OneTrack (s : State ℚ) : Prop :=
  s.tracks_ = [] ∧ s.next_id = 0 ∨ ∃ t, s.tracks_ = [t] ∧ t.id = 0 ∧ t.bin = 2

theorem live_alone {s : State ℚ} (h : OneTrack s) (i : ℕ) :
    ∃ t, live patient s (alone i) = [t] ∧ t.id = 0 ∧ t.bin = 2 ∧ t.last_wi = (alone i).wi := by
  have hpeaks : peaks patient (alone i) = [⟨2, 20⟩] := rfl
  -- the peak makes the track, or meets it at its bin
  rcases h with ⟨hnone, hid⟩ | ⟨t, hone, hid, hbin⟩
  · refine ⟨birth (alone i).wi ⟨2, 20⟩ 0, ?_, rfl, rfl, rfl⟩
    rw [live, associated, hpeaks, hnone, hid]
    exact List.filter_cons_of_pos (by simp [birth])
  · refine ⟨follow (alone i).wi ⟨2, 20⟩ t, ?_, hid, rfl, rfl⟩
    rw [live, associated, hpeaks, hone]
    have hnearest : nearest patient.drift_bins 2 [(t, false)] = some 0 := by
      rw [nearest, nearestLoop, hbin]
      rfl
    simp only [unclaimed, List.map_cons, List.map_nil, List.foldl_cons, List.foldl_nil, associate,
      hnearest, List.modify_zero_cons]
    exact List.filter_cons_of_pos (by simp [follow])

theorem heardCalls_alone {i : ℕ} {t : Track ℚ} (h : t.last_wi = (alone i).wi) :
    (listen (alone i) t).isSome ∧ heardCalls (alone i) t = ["K1ABC".toList] := by
  have hlisten : listen (alone i) t = some (7030000, readText "K1ABC".toList) := by
    rw [listen, if_neg (not_not.2 h)]
    exact if_neg (by decide : ¬(7030000 : ℚ) ≤ 0)
  rw [heardCalls_of_some hlisten, hlisten]
  exact ⟨rfl, rfl⟩

/-- After `n` windows of the station it has been read in each, and was not reported. -/
structure HeldBack (n : ℕ) (s : State ℚ) : Prop where
  one : OneTrack s
  heard : s.heard = (List.range n).map fun j => ⟨0, j, "K1ABC".toList⟩
  spotted : s.spotted = []

theorem HeldBack.heardIn {n : ℕ} {s : State ℚ} (h : HeldBack n s) :
    s.heardIn 0 "K1ABC".toList = Finset.range n := by
  ext j
  rw [mem_heardIn, h.heard]
  simp

/-- The counter is too small, or its double is negative. -/
theorem not_confirmed_of_count {wi : UInt64} {t : Track ℚ} {call : Text} {n : ℕ} (hn : n ≤ 2 ^ 30)
    (hcount : (t.stat call).count = wrap32 n) : ¬Confirmed patient wi t call := by
  rw [wrap32_of_lt (by omega) (by omega)] at hcount
  rintro ⟨hconfirm, hsparse, -⟩
  -- only the counter 2^30 is large enough, and twice that is -2^31
  have hge : (2 : ℤ) ^ 30 ≤ n := by
    rw [← hcount]
    exact not_lt.1 fun hlt => hconfirm (Or.inl hlt)
  have hnonneg : 0 ≤ dominant patient wi t := ((dominant_le_iff patient wi t _).1 le_rfl).1
  rw [hcount, show (n : ℤ) = 2 ^ 30 by omega] at hsparse
  exact hsparse (lt_of_lt_of_le (by decide) hnonneg)

theorem heldBack_run {n : ℕ} (hn : n ≤ 2 ^ 30) :
    HeldBack n (run patient ((List.range n).map alone)) := by
  induction n with
  | zero => exact ⟨Or.inl ⟨rfl, rfl⟩, rfl, rfl⟩
  | succ n ih =>
    have hbefore := ih (by omega)
    have hinv := Inv.run patient ((List.range n).map alone)
    have htally := tally_run patient ((List.range n).map alone)
    rw [List.range_succ, List.map_append, List.map_singleton, run_append_singleton]
    generalize run patient ((List.range n).map alone) = s at hbefore hinv htally ⊢
    have hsteps : s.steps = n := by
      rw [htally.steps, List.length_map, List.length_range]
    obtain ⟨t, hlive, hid, hbin, hlast⟩ := live_alone hbefore.one n
    have ht : t ∈ live patient s (alone n) := by
      rw [hlive]
      exact List.mem_singleton_self t
    obtain ⟨hsome, hheard⟩ := heardCalls_alone hlast
    obtain ⟨⟨hz, r⟩, hlisten⟩ := Option.isSome_iff_exists.1 hsome
    -- the counter of the callsign counts the windows so far
    have hcount : (t.stat "K1ABC".toList).count = wrap32 n := by
      rw [(htally.live hinv ht).count, hid, hbefore.heardIn, Finset.card_range]
    -- so the callsign is counted once more, and not confirmed
    have hdecode : decodeTrack patient (alone n) t =
        (countCall (alone n).wi r.window_cq t "K1ABC".toList, []) := by
      rw [decodeTrack_of_some patient hlisten, hheard, List.foldl_cons, List.foldl_nil,
        List.foldl_cons, List.foldl_nil, emitCall]
      refine if_neg (not_confirmed_of_count hn ?_)
      rw [stat_countCall, if_pos rfl, hcount, wrap32_add_one]
      push_cast
      rfl
    constructor
    · right
      refine ⟨countCall (alone n).wi r.window_cq t "K1ABC".toList, ?_, hid, hbin⟩
      rw [step, hlive, List.map_singleton, hdecode]
    · rw [step, hlive, List.flatMap_singleton, hheard, hbefore.heard, hsteps, hid,
        List.range_succ, List.map_append]
      rfl
    · simp only [step, hlive, List.flatMap_singleton, hdecode, hbefore.spotted]
      rfl

/-- All these steps are those of a station that is read alone. -/
theorem along_alone (n : ℕ) :
    Run.Along (fun s w => some (step patient s w)) (OnlyReads patient 0 "K1ABC".toList) .init
      ((List.range n).map alone) := by
  apply And.left
  refine Run.along_of_inv (I := OneTrack) (L := fun w => ∃ i, alone i = w) ?_ (Or.inl ⟨rfl, rfl⟩) ?_
    (exec_run patient [] _)
  · rintro s _ s' hs ⟨i, rfl⟩ hstep
    obtain rfl := Option.some.inj hstep
    obtain ⟨t, hlive, hid, hbin, hlast⟩ := live_alone hs i
    obtain ⟨-, hheard⟩ := heardCalls_alone hlast
    constructor
    · intro u hu _ _
      rw [hlive, List.mem_singleton] at hu
      rw [hu, hheard]
    · right
      refine ⟨(decodeTrack patient (alone i) t).1, ?_,
        (decoded_decodeTrack patient (alone i) t).id.trans hid,
        (decodeTrack_place patient (alone i) t).1.trans hbin⟩
      rw [step, hlive, List.map_singleton]
  · intro w hw
    obtain ⟨i, -, rfl⟩ := List.mem_map.1 hw
    exact ⟨i, rfl⟩

/-- In its last window the station is a late joiner that is held back. -/
theorem held_back_of_eq {n : ℕ} (hn : n + 1 = 2 ^ 30) :
    LateJoiner patient [] ((List.range n).map alone) (alone n) 0 "K1ABC".toList ∧
      "K1ABC".toList ∉
        (run patient ([] ++ (List.range n).map alone ++ [alone n])).spotsOn 0 := by
  have hlast := heldBack_run (n := n + 1) hn.le
  have hfirst := heldBack_run (n := n) (by omega)
  have hsplit : (List.range (n + 1)).map alone = [] ++ (List.range n).map alone ++ [alone n] := by
    rw [List.range_succ, List.map_append, List.map_singleton, List.nil_append]
  rw [hsplit] at hlast
  constructor
  · constructor
    · intro e he _
      exact absurd he List.not_mem_nil
    · have honly := along_alone (n + 1)
      rwa [hsplit, List.nil_append] at honly
    · obtain ⟨t, hlive, hid, -, hwi⟩ := live_alone hfirst.one n
      refine ⟨t, ?_, hid, (heardCalls_alone hwi).1⟩
      rw [List.nil_append, hlive]
      exact List.mem_singleton_self t
    · rw [hlast.heardIn, List.length_nil, Finset.filter_true_of_mem fun j _ => Nat.zero_le j,
        Finset.card_range, hn]
      exact le_rfl
    · -- no other callsign was read
      intro e he hne
      have hheard := (List.mem_filter.1 he).1
      rw [List.nil_append, hfirst.heard] at hheard
      obtain ⟨j, -, rfl⟩ := List.mem_map.1 hheard
      exact absurd rfl hne
  · rw [State.spotsOn, hlast.spotted]
    exact List.not_mem_nil

/-- A station that has to be read in 2^30 windows is not reported then. -/
theorem late_joiner_held_back :
    LateJoiner patient [] ((List.range (2 ^ 30 - 1)).map alone) (alone (2 ^ 30 - 1)) 0
        "K1ABC".toList ∧
      "K1ABC".toList ∉ (run patient ([] ++ (List.range (2 ^ 30 - 1)).map alone ++
        [alone (2 ^ 30 - 1)])).spotsOn 0 :=
  held_back_of_eq (by omega)

end GranolaSdr.Cw
