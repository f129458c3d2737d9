import GranolaSdr.Cw.Tracker
import Mathlib.Data.Finset.Card

/-!
# Confirmation of spots

Association and expiry move tracks around but leave their counters and their reported callsigns
alone, and a new track starts with none. The counter of a callsign is at most the number of steps
in which the callsign was read on the track, since a step counts it at most once. A callsign is
reported when its counter has reached `confirm`, unless a callsign reported before on the track is
the same or near.

## Main definitions

* `State.spotsOn`, `State.heardIn`: the callsigns reported on a track, and the steps in which one
  was read there;
* `Inv`: the invariant of the tracker and its history.

## Main results

* `spots_confirmed`: the callsigns reported on a track over its life.
-/

namespace GranolaSdr.Cw

open EditDistance

namespace State

variable {F : Type*}

/-- The callsigns reported on a track, in order. -/
def spotsOn (s : State F) (id : ℕ) : List Text :=
  (s.spotted.filter (·.track = id)).map Event.call

/-- The steps in which a callsign was read on a track. -/
def heardIn (s : State F) (id : ℕ) (call : Text) : Finset ℕ :=
  ((s.heard.filter fun e => e.track = id ∧ e.call = call).map Event.step).toFinset

end State

theorem mem_heardIn {F : Type*} {s : State F} {id j : ℕ} {k : Text} :
    j ∈ s.heardIn id k ↔ ⟨id, j, k⟩ ∈ s.heard := by
  simp only [State.heardIn, List.mem_toFinset, List.mem_map, List.mem_filter, decide_eq_true_eq]
  constructor
  · rintro ⟨⟨id, j, k⟩, ⟨he, rfl, rfl⟩, rfl⟩
    exact he
  · exact fun he => ⟨⟨id, j, k⟩, ⟨he, rfl, rfl⟩, rfl⟩

/-- A callsign reported later is neither within one edit of one reported before nor a proper prefix
of it. -/
def Apart (e call : Text) : Prop := ¬Within 1 e call ∧ ¬(call <+: e ∧ call ≠ e)

theorem apart_of_not_isVariant {e call : Text} (h : isVariant e call = false) : Apart e call := by
  rw [isVariant, Bool.or_eq_false_iff, Bool.and_eq_false_iff] at h
  obtain ⟨hshorter, hedit⟩ := h
  constructor
  · rw [← editDistLE1_iff, hedit]
    exact Bool.false_ne_true
  · rintro ⟨hpre, hne⟩
    have hlt : call.length < e.length :=
      lt_of_le_of_ne hpre.length_le fun hlen => hne (hpre.eq_of_length hlen)
    rcases hshorter with hlen | hpref
    · exact absurd hlt (of_decide_eq_false hlen)
    · exact absurd (List.isPrefixOf_iff_prefix.2 hpre) (by rw [hpref]; exact Bool.false_ne_true)

/-- A callsign is within an edit of itself. -/
theorem Apart.ne {e call : Text} (h : Apart e call) : e ≠ call := by
  rintro rfl
  exact h.1 (within_refl 1 e)

/-! ## Association and expiry -/

/-- What association and expiry leave alone of a track. -/
structure Core where
  id : ℕ
  call_cnt : AList fun _ : Text => CallStat
  emitted : List Text

/-- The core of a new track. -/
def newCore (id : ℕ) : Core := ⟨id, ∅, []⟩

section Association

variable {F : Type*}

def Track.core (t : Track F) : Core := ⟨t.id, t.call_cnt, t.emitted⟩

def Claims.cores (c : Claims F) : List Core := c.tracks.map fun e => e.1.core

variable [Add F] [Mul F] [OfScientific F]

theorem cores_modify (tracks : List (Track F × Bool)) (wi : UInt64) (p : Peak F) (i : ℕ) :
    (tracks.modify i fun e => (follow wi p e.1, true)).map (fun e => e.1.core) =
      tracks.map fun e => e.1.core := by
  induction tracks generalizing i with
  | nil => rw [List.modify_nil]
  | cons e tracks ih =>
    cases i with
    | zero => rfl
    | succ i => rw [List.modify_succ_cons, List.map_cons, List.map_cons, ih]

/-- A peak leaves the cores alone or adds a new one. -/
theorem cores_associate (cfg : Config F) (wi : UInt64) (c : Claims F) (p : Peak F) :
    ((associate cfg wi c p).cores = c.cores ∧ (associate cfg wi c p).next_id = c.next_id) ∨
      ((associate cfg wi c p).cores = c.cores ++ [newCore c.next_id] ∧
        (associate cfg wi c p).next_id = c.next_id + 1) := by
  rw [associate]
  split
  · exact .inl ⟨cores_modify c.tracks wi p _, rfl⟩
  · split_ifs
    · exact .inl ⟨rfl, rfl⟩
    · exact .inr ⟨by simp [Claims.cores, Track.core, birth, newCore], rfl⟩

/-- Some peaks add new cores, with the next numbers. -/
theorem cores_foldl_associate (cfg : Config F) (wi : UInt64) (ps : List (Peak F)) (c : Claims F) :
    ∃ k, (ps.foldl (associate cfg wi) c).cores =
        c.cores ++ (List.range' c.next_id k).map newCore ∧
      (ps.foldl (associate cfg wi) c).next_id = c.next_id + k := by
  induction ps using List.reverseRecOn with
  | nil => exact ⟨0, (List.append_nil _).symm, rfl⟩
  | append_singleton ps p ih =>
    obtain ⟨k, hcores, hid⟩ := ih
    rw [List.foldl_append, List.foldl_cons, List.foldl_nil]
    rcases cores_associate cfg wi (ps.foldl (associate cfg wi) c) p with
      ⟨hsame, hsame_id⟩ | ⟨hnew, hnew_id⟩
    · exact ⟨k, hsame.trans hcores, hsame_id.trans hid⟩
    · refine ⟨k + 1, ?_, by rw [hnew_id, hid, Nat.add_assoc]⟩
      rw [hnew, hcores, hid, List.range'_concat, List.map_append, List.append_assoc, Nat.one_mul]
      rfl

variable [LT F] [DecidableLT F] [Zero F]

theorem cores_associated (cfg : Config F) (s : State F) (w : Window F) :
    ∃ k, (associated cfg s w).cores =
        s.tracks_.map Track.core ++ (List.range' s.next_id k).map newCore ∧
      (associated cfg s w).next_id = s.next_id + k := by
  obtain ⟨k, hcores, hid⟩ :=
    cores_foldl_associate cfg w.wi (peaks cfg w) (unclaimed s.tracks_ s.next_id)
  refine ⟨k, hcores.trans ?_, hid⟩
  simp [Claims.cores, unclaimed]

/-- A live track has the core of a track before the window or is new, and no two live tracks have
the same number. -/
theorem live_cores (cfg : Config F) (w : Window F) {s : State F}
    (hnodup : (s.tracks_.map Track.id).Nodup) (hlt : ∀ t ∈ s.tracks_, t.id < s.next_id) :
    s.next_id ≤ (associated cfg s w).next_id ∧ ((live cfg s w).map Track.id).Nodup ∧
      ∀ t ∈ live cfg s w, t.id < (associated cfg s w).next_id ∧
        ((∃ u ∈ s.tracks_, t.core = u.core) ∨ s.next_id ≤ t.id ∧ t.core = newCore t.id) := by
  obtain ⟨k, hcores, hid⟩ := cores_associated cfg s w
  -- the numbers of the live tracks, old ones first
  have hids : (associated cfg s w).cores.map Core.id =
      s.tracks_.map Track.id ++ List.range' s.next_id k := by
    rw [hcores, List.map_append, List.map_map, List.map_map]
    exact congrArg _ (List.map_id _)
  refine ⟨hid ▸ Nat.le_add_right _ _, ?_, fun t ht => ?_⟩
  · have hall : ((associated cfg s w).cores.map Core.id).Nodup := by
      rw [hids, List.nodup_append]
      refine ⟨hnodup, List.nodup_range', fun i hi j hj => ?_⟩
      obtain ⟨t, ht, rfl⟩ := List.mem_map.1 hi
      have hj := List.mem_range'_1.1 hj
      exact (Nat.lt_of_lt_of_le (hlt t ht) hj.1).ne
    have hmap : (associated cfg s w).cores.map Core.id =
        ((associated cfg s w).tracks.map Prod.fst).map Track.id := by
      rw [Claims.cores, List.map_map, List.map_map]
      rfl
    rw [hmap] at hall
    exact hall.sublist (List.filter_sublist.map Track.id)
  · obtain ⟨e, he, rfl⟩ := List.mem_map.1 (List.mem_of_mem_filter ht)
    have hcore : e.1.core ∈ (associated cfg s w).cores :=
      List.mem_map_of_mem (f := fun e => e.1.core) he
    rw [hcores, List.mem_append] at hcore
    rcases hcore with hold | hnew
    · -- a track from before the window, with a number below the next one
      obtain ⟨u, hu, hucore⟩ := List.mem_map.1 hold
      have huid : u.id = e.1.id := congrArg Core.id hucore
      have hult := hlt u hu
      exact ⟨by omega, .inl ⟨u, hu, hucore.symm⟩⟩
    · -- a track born in the window
      obtain ⟨i, hi, hicore⟩ := List.mem_map.1 hnew
      have hiid : i = e.1.id := congrArg Core.id hicore
      have hi := List.mem_range'_1.1 hi
      exact ⟨by omega, .inr ⟨by omega, by rw [← hicore, hiid]⟩⟩

end Association

/-! ## Decoding -/

theorem nodup_seen_now_readToken {r : Reading} (h : r.seen_now.Nodup) (tok : Text) :
    (readToken r tok).seen_now.Nodup := by
  rw [readToken]
  split_ifs
  · exact h
  · split
    · exact h
    · next call _ =>
      by_cases hmem : call ∈ r.seen_now
      · simpa [hmem] using h
      · simpa [hmem, List.nodup_append] using ⟨h, fun a ha heq => hmem (heq ▸ ha)⟩

theorem nodup_seen_now_foldl {toks : List Text} {r : Reading} (h : r.seen_now.Nodup) :
    (toks.foldl readToken r).seen_now.Nodup := by
  induction toks generalizing r with
  | nil => exact h
  | cons tok toks ih => exact ih (nodup_seen_now_readToken h tok)

/-- A text's callsigns are collected without repetition. -/
theorem nodup_seen_now (txt : Text) : (readText txt).seen_now.Nodup :=
  nodup_seen_now_foldl List.nodup_nil

section Decoding

variable {F : Type*} {t : Track F}

theorem Track.stat_congr {u : Track F} (h : t.call_cnt = u.call_cnt) (k : Text) :
    t.stat k = u.stat k := by
  rw [Track.stat, Track.stat, h]

theorem stat_countCall (wi : UInt64) (cq : Bool) (t : Track F) (call k : Text) :
    ((countCall wi cq t call).stat k).count =
      if k = call then wrap32 ((t.stat k).count + 1) else (t.stat k).count := by
  rw [Track.stat, countCall]
  split_ifs with h
  · rw [h, AList.lookup_insert]
    rfl
  · rw [AList.lookup_insert_ne h]
    rfl

/-- Each callsign read is counted once. -/
theorem foldl_countCall (wi : UInt64) (cq : Bool) {calls : List Text} (hnodup : calls.Nodup)
    (t : Track F) :
    (calls.foldl (countCall wi cq) t).id = t.id ∧
      (calls.foldl (countCall wi cq) t).emitted = t.emitted ∧
      ∀ k, ((calls.foldl (countCall wi cq) t).stat k).count =
        if k ∈ calls then wrap32 ((t.stat k).count + 1) else (t.stat k).count := by
  induction calls generalizing t with
  | nil => exact ⟨rfl, rfl, fun k => rfl⟩
  | cons call calls ih =>
    obtain ⟨hnot, hnodup⟩ := List.nodup_cons.1 hnodup
    obtain ⟨hid, hemitted, hcount⟩ := ih hnodup (countCall wi cq t call)
    refine ⟨hid, hemitted, fun k => ?_⟩
    rw [List.foldl_cons, hcount k, stat_countCall]
    by_cases hk : k = call
    · -- counted here, and not again among the rest
      subst hk
      rw [if_neg hnot, if_pos rfl, if_pos List.mem_cons_self]
    · simp [hk]

variable [LT F]

/-- What reporting does to a track: it adds the reported callsigns, which have been read often
enough, and keeps the reported callsigns apart. -/
theorem foldl_emitCall (cfg : Config F) (w : Window F) (hz : F) (calls : List Text)
    (r : Track F × List (CwSpot F)) :
    ∃ new : List (CwSpot F), (calls.foldl (emitCall cfg w hz) r).2 = r.2 ++ new ∧
      (calls.foldl (emitCall cfg w hz) r).1.core =
        ⟨r.1.id, r.1.call_cnt, r.1.emitted ++ new.map CwSpot.call⟩ ∧
      (∀ x ∈ new, x.call ∈ calls ∧ cfg.confirm ≤ (r.1.stat x.call).count) ∧
      (r.1.emitted.Pairwise Apart → (r.1.emitted ++ new.map CwSpot.call).Pairwise Apart) := by
  induction calls generalizing r with
  | nil =>
    refine ⟨[], (List.append_nil _).symm, ?_, by simp, by simp⟩
    rw [List.map_nil, List.append_nil]
    rfl
  | cons call calls ih =>
    obtain ⟨new, hspots, hcore, hmem, hapart⟩ := ih (emitCall cfg w hz r call)
    rw [List.foldl_cons]
    by_cases hconfirmed : Confirmed cfg w.wi r.1 call
    · rw [emitCall, if_pos hconfirmed] at hspots hcore hmem hapart ⊢
      obtain ⟨hcount, -, hvariant⟩ := hconfirmed
      -- the callsign is reported, and the rest is kept apart from it as well
      refine ⟨⟨hz, w.wpm r.1.bin, r.1.snr_ema, call, (r.1.stat call).cq⟩ :: new, ?_, ?_, ?_, ?_⟩
      · rw [hspots, List.append_assoc, List.singleton_append]
      · simp only [hcore, List.map_cons, List.append_assoc, List.singleton_append]
      · rintro x (_ | ⟨_, hx⟩)
        · exact ⟨List.mem_cons_self, not_lt.1 fun hlt => hcount (.inl hlt)⟩
        · exact ⟨List.mem_cons_of_mem _ (hmem x hx).1, (hmem x hx).2⟩
      · intro hpairwise
        rw [List.map_cons, List.append_cons]
        refine hapart ?_
        rw [List.pairwise_append]
        refine ⟨hpairwise, List.pairwise_singleton _ _, fun e he k hk => ?_⟩
        obtain rfl := List.mem_singleton.1 hk
        refine apart_of_not_isVariant ?_
        rw [Bool.not_eq_true, List.any_eq_false] at hvariant
        exact Bool.not_eq_true _ ▸ hvariant e he
    · rw [emitCall, if_neg hconfirmed] at hspots hcore hmem hapart ⊢
      exact ⟨new, hspots, hcore, fun x hx => ⟨List.mem_cons_of_mem _ (hmem x hx).1, (hmem x hx).2⟩,
        hapart⟩

variable [LE F] [DecidableLE F] [Zero F]

section Listen

variable {w : Window F} {hz : F} {r : Reading}

theorem heardCalls_of_none (h : listen w t = none) : heardCalls w t = [] := by
  rw [heardCalls, h]

theorem heardCalls_of_some (h : listen w t = some (hz, r)) :
    heardCalls w t = w.lib.visit r.seen_now := by
  rw [heardCalls, h]

theorem decodeTrack_of_none (cfg : Config F) (h : listen w t = none) :
    decodeTrack cfg w t = (t, []) := by
  rw [decodeTrack, h]

theorem decodeTrack_of_some (cfg : Config F) (h : listen w t = some (hz, r)) :
    decodeTrack cfg w t = (heardCalls w t).foldl (emitCall cfg w hz)
      ((heardCalls w t).foldl (countCall w.wi r.window_cq) t, []) := by
  rw [decodeTrack, h, heardCalls_of_some h]

theorem nodup_heardCalls (w : Window F) (t : Track F) : (heardCalls w t).Nodup := by
  cases h : listen w t with
  | none =>
    rw [heardCalls_of_none h]
    exact List.nodup_nil
  | some listened =>
    rw [heardCalls_of_some h, (w.lib.visit_perm _).nodup_iff]
    rw [listen] at h
    split_ifs at h
    obtain rfl := Option.some.inj h
    exact nodup_seen_now _

end Listen

/-- What decoding does to a track. -/
structure Decoded (cfg : Config F) (w : Window F) (t : Track F) (r : Track F × List (CwSpot F)) :
    Prop where
  id : r.1.id = t.id
  emitted : r.1.emitted = t.emitted ++ r.2.map CwSpot.call
  count : ∀ k, (r.1.stat k).count =
    if k ∈ heardCalls w t then wrap32 ((t.stat k).count + 1) else (t.stat k).count
  confirmed : ∀ x ∈ r.2, x.call ∈ heardCalls w t ∧ cfg.confirm ≤ (r.1.stat x.call).count
  apart : t.emitted.Pairwise Apart → r.1.emitted.Pairwise Apart

theorem decoded_decodeTrack (cfg : Config F) (w : Window F) (t : Track F) :
    Decoded cfg w t (decodeTrack cfg w t) := by
  cases hlisten : listen w t with
  | none =>
    rw [decodeTrack_of_none cfg hlisten]
    refine ⟨rfl, (List.append_nil _).symm, fun k => ?_, fun x hx => ?_, id⟩
    · rw [heardCalls_of_none hlisten, if_neg List.not_mem_nil]
    · cases hx
  | some listened =>
    obtain ⟨hz, r⟩ := listened
    rw [decodeTrack_of_some cfg hlisten]
    -- the calls of the window are counted first
    obtain ⟨hid, hemitted, hcount⟩ :=
      foldl_countCall w.wi r.window_cq (nodup_heardCalls w t) t
    generalize (heardCalls w t).foldl (countCall w.wi r.window_cq) t = counted at *
    -- then those counted often enough are emitted
    obtain ⟨new, hspots, hcore, hmem, hapart⟩ :=
      foldl_emitCall cfg w hz (heardCalls w t) (counted, [])
    generalize (heardCalls w t).foldl (emitCall cfg w hz) (counted, []) = result at *
    obtain rfl : result.2 = new := hspots
    have hresult : result.1.emitted = counted.emitted ++ result.2.map CwSpot.call :=
      congrArg Core.emitted hcore
    have hstat : ∀ k, result.1.stat k = counted.stat k := fun k =>
      Track.stat_congr (congrArg Core.call_cnt hcore) k
    refine ⟨(congrArg Core.id hcore).trans hid, hemitted ▸ hresult, fun k => ?_, fun x hx => ?_,
      fun h => ?_⟩
    · rw [hstat, hcount]
    · rw [hstat]
      exact hmem x hx
    · rw [hresult]
      exact hapart (hemitted ▸ h)

end Decoding

/-! ## History -/

/-- The entries of one source in a log to which each source has contributed a part. -/
theorem filter_flatMap_of_mem {α : Type*} {sources : List α} {key : α → ℕ} (part : α → List Event)
    (htrack : ∀ a, ∀ e ∈ part a, e.track = key a) (hnodup : (sources.map key).Nodup) {a : α}
    (ha : a ∈ sources) : (sources.flatMap part).filter (·.track = key a) = part a := by
  -- the other sources contribute entries with other keys
  have hother : ∀ (bs : List α), key a ∉ bs.map key →
      (bs.flatMap part).filter (·.track = key a) = [] := by
    intro bs hbs
    rw [List.filter_eq_nil_iff]
    intro e he heq
    obtain ⟨b, hb, he⟩ := List.mem_flatMap.1 he
    refine hbs (List.mem_map.2 ⟨b, hb, ?_⟩)
    rw [← htrack b e he]
    simpa using heq
  have hself : (part a).filter (·.track = key a) = part a :=
    List.filter_eq_self.2 fun e he => decide_eq_true (htrack a e he)
  obtain ⟨pre, post, rfl⟩ := List.append_of_mem ha
  rw [List.map_append, List.map_cons, List.nodup_append, List.nodup_cons] at hnodup
  obtain ⟨-, ⟨hpost, -⟩, hpre⟩ := hnodup
  have hpre : key a ∉ pre.map key := fun hmem => hpre _ hmem _ List.mem_cons_self rfl
  rw [List.flatMap_append, List.flatMap_cons, List.filter_append, List.filter_append,
    hother pre hpre,
    hother post hpost, hself, List.append_nil, List.nil_append]

/-- A source that is not there has contributed nothing. -/
theorem filter_flatMap_of_forall_ne {α : Type*} {sources : List α} {key : α → ℕ}
    (part : α → List Event) (htrack : ∀ a, ∀ e ∈ part a, e.track = key a) {id : ℕ}
    (h : ∀ a ∈ sources, key a ≠ id) : (sources.flatMap part).filter (·.track = id) = [] := by
  rw [List.filter_eq_nil_iff]
  intro e he heq
  obtain ⟨a, ha, he⟩ := List.mem_flatMap.1 he
  refine h a ha ?_
  rw [← htrack a e he]
  simpa using heq

theorem wrap32_bounds {n : ℤ} (h : -2 ^ 31 ≤ n) : -2 ^ 31 ≤ wrap32 n ∧ wrap32 n ≤ n := by
  rw [wrap32, Int.bmod_def]
  split_ifs <;> omega

section History

variable {F : Type*}

/-- The invariant of the tracker and its history. -/
structure Inv (cfg : Config F) (s : State F) : Prop where
  nodup : (s.tracks_.map Track.id).Nodup
  id_lt : ∀ t ∈ s.tracks_, t.id < s.next_id
  heard_lt : ∀ e ∈ s.heard, e.step < s.steps
  spotted_lt : ∀ e ∈ s.spotted, e.track < s.next_id
  emitted : ∀ t ∈ s.tracks_, t.emitted = s.spotsOn t.id
  count : ∀ t ∈ s.tracks_, ∀ k, -2 ^ 31 ≤ (t.stat k).count ∧
    (t.stat k).count ≤ (s.heardIn t.id k).card
  confirmed : ∀ e ∈ s.spotted,
    cfg.confirm ≤ ((s.heardIn e.track e.call).filter (· ≤ e.step)).card
  apart : ∀ id, (s.spotsOn id).Pairwise Apart

theorem Inv.init (cfg : Config F) : Inv cfg (.init : State F) where
  nodup := List.nodup_nil
  id_lt _ ht := absurd ht List.not_mem_nil
  heard_lt _ he := absurd he List.not_mem_nil
  spotted_lt _ he := absurd he List.not_mem_nil
  emitted _ ht := absurd ht List.not_mem_nil
  count _ ht := absurd ht List.not_mem_nil
  confirmed _ he := absurd he List.not_mem_nil
  apart _ := List.Pairwise.nil

variable [LT F] [DecidableLT F] [Zero F] [Add F] [Mul F] [OfScientific F]
  {cfg : Config F} {s : State F} {w : Window F} {t : Track F}

/-- A track that stays live agrees with the history, and so does a new one. -/
theorem Inv.live (h : Inv cfg s) (ht : t ∈ live cfg s w) :
    t.emitted = s.spotsOn t.id ∧ ∀ k, -2 ^ 31 ≤ (t.stat k).count ∧
      (t.stat k).count ≤ (s.heardIn t.id k).card := by
  obtain ⟨-, -, hlive⟩ := live_cores cfg w h.nodup h.id_lt
  obtain ⟨-, ⟨u, hu, hcore⟩ | ⟨hnew, hcore⟩⟩ := hlive t ht
  · have hid : t.id = u.id := congrArg Core.id hcore
    have hemitted : t.emitted = u.emitted := congrArg Core.emitted hcore
    rw [hid, hemitted]
    refine ⟨h.emitted u hu, fun k => ?_⟩
    rw [Track.stat_congr (congrArg Core.call_cnt hcore)]
    exact h.count u hu k
  · -- no callsign has been reported under a number not given out before
    have hspots : s.spotsOn t.id = [] := by
      rw [State.spotsOn, List.map_eq_nil_iff, List.filter_eq_nil_iff]
      intro e he heq
      have hlt := h.spotted_lt e he
      have heq : e.track = t.id := of_decide_eq_true heq
      omega
    refine ⟨(congrArg Core.emitted hcore).trans hspots.symm, fun k => ?_⟩
    have hstat : t.stat k = ⟨0, 0, false⟩ := by
      rw [Track.stat, show t.call_cnt = ∅ from congrArg Core.call_cnt hcore, AList.lookup_empty]
      rfl
    rw [hstat]
    exact ⟨by decide, Int.natCast_nonneg _⟩

variable [LE F] [DecidableLE F]

theorem heardIn_subset_step (cfg : Config F) (s : State F) (w : Window F) (id : ℕ) (k : Text) :
    s.heardIn id k ⊆ (step cfg s w).heardIn id k := by
  intro j hj
  rw [mem_heardIn] at hj ⊢
  exact List.mem_append_left _ hj

theorem steps_mem_heardIn (ht : t ∈ live cfg s w) {k : Text} (hk : k ∈ heardCalls w t) :
    s.steps ∈ (step cfg s w).heardIn t.id k := by
  rw [mem_heardIn]
  apply List.mem_append_right
  exact List.mem_flatMap.2 ⟨t, ht, List.mem_map.2 ⟨k, hk, rfl⟩⟩

/-- The callsigns reported on a track that is no longer live. -/
theorem spotsOn_step_of_forall_ne {id : ℕ} (hne : ∀ t ∈ Cw.live cfg s w, t.id ≠ id) :
    (step cfg s w).spotsOn id = s.spotsOn id := by
  have hlog := filter_flatMap_of_forall_ne
    (fun t => (decodeTrack cfg w t).2.map fun sp => ⟨t.id, s.steps, sp.call⟩)
    (fun t e he => by
      obtain ⟨sp, -, rfl⟩ := List.mem_map.1 he
      rfl) hne
  rw [State.spotsOn, step, List.filter_append, hlog, List.append_nil, State.spotsOn]

namespace Inv

/-- After a window the counter of a callsign is still at most the number of steps in which it was
read on the track. -/
theorem count_decodeTrack (h : Inv cfg s) (ht : t ∈ Cw.live cfg s w) (k : Text) :
    -2 ^ 31 ≤ ((decodeTrack cfg w t).1.stat k).count ∧
      ((decodeTrack cfg w t).1.stat k).count ≤ ((step cfg s w).heardIn t.id k).card := by
  obtain ⟨hlow, hle⟩ := (h.live ht).2 k
  rw [(decoded_decodeTrack cfg w t).count k]
  split_ifs with hk
  · -- this step is a new one in which the callsign was read
    have hfresh : s.steps ∉ s.heardIn t.id k := fun hmem =>
      (h.heard_lt _ (mem_heardIn.1 hmem)).false
    have hcard : (s.heardIn t.id k).card + 1 ≤ ((step cfg s w).heardIn t.id k).card := by
      rw [← Finset.card_insert_of_notMem hfresh]
      exact Finset.card_le_card
        (Finset.insert_subset (steps_mem_heardIn ht hk) (heardIn_subset_step cfg s w t.id k))
    obtain ⟨hlow', hle'⟩ := wrap32_bounds (n := (t.stat k).count + 1) (by omega)
    exact ⟨hlow', by omega⟩
  · have hcard := Finset.card_le_card (heardIn_subset_step cfg s w t.id k)
    exact ⟨hlow, by omega⟩

/-- The callsigns reported on a live track after a window. -/
theorem spotsOn_step (h : Inv cfg s) (ht : t ∈ Cw.live cfg s w) :
    (step cfg s w).spotsOn t.id = (decodeTrack cfg w t).1.emitted := by
  obtain ⟨-, hnodup, -⟩ := live_cores cfg w h.nodup h.id_lt
  have hlog := filter_flatMap_of_mem
    (fun t => (decodeTrack cfg w t).2.map fun sp => ⟨t.id, s.steps, sp.call⟩)
    (fun t e he => by
      obtain ⟨sp, -, rfl⟩ := List.mem_map.1 he
      rfl) hnodup ht
  rw [(decoded_decodeTrack cfg w t).emitted, (h.live ht).1, State.spotsOn, step,
    List.filter_append, hlog, List.map_append, List.map_map]
  rfl

theorem heard_lt_step (h : Inv cfg s) (w : Window F) :
    ∀ e ∈ (Cw.step cfg s w).heard, e.step < (Cw.step cfg s w).steps := by
  intro e he
  rcases List.mem_append.1 he with hold | hnew
  · exact (h.heard_lt e hold).trans (Nat.lt_succ_self _)
  · obtain ⟨t, -, he⟩ := List.mem_flatMap.1 hnew
    obtain ⟨k, -, rfl⟩ := List.mem_map.1 he
    exact Nat.lt_succ_self _

/-- A reported callsign has been read in enough steps up to that of the report. -/
theorem confirmed_step (h : Inv cfg s) (w : Window F) {e : Event}
    (he : e ∈ (Cw.step cfg s w).spotted) :
    cfg.confirm ≤ (((Cw.step cfg s w).heardIn e.track e.call).filter (· ≤ e.step)).card := by
  rcases List.mem_append.1 he with hold | hnew
  · have hmono := Finset.card_le_card (Finset.filter_subset_filter (· ≤ e.step)
      (heardIn_subset_step cfg s w e.track e.call))
    exact (h.confirmed e hold).trans (Int.ofNat_le.2 hmono)
  · obtain ⟨t, ht, he⟩ := List.mem_flatMap.1 hnew
    obtain ⟨x, hx, rfl⟩ := List.mem_map.1 he
    -- no step of the history comes after this one
    have hall : ((Cw.step cfg s w).heardIn t.id x.call).filter (· ≤ s.steps) =
        (Cw.step cfg s w).heardIn t.id x.call := by
      apply Finset.filter_true_of_mem
      intro j hj
      exact Nat.lt_succ_iff.1 (h.heard_lt_step w _ (mem_heardIn.1 hj))
    rw [hall]
    exact ((decoded_decodeTrack cfg w t).confirmed x hx).2.trans (h.count_decodeTrack ht x.call).2

theorem step (h : Inv cfg s) (w : Window F) : Inv cfg (Cw.step cfg s w) := by
  obtain ⟨hle, hnodup, hlive⟩ := live_cores cfg w h.nodup h.id_lt
  -- decoding keeps the identifiers, so distinct tracks stay distinct
  refine ⟨?_, ?_, h.heard_lt_step w, ?_, ?_, ?_, fun e => h.confirmed_step w, fun id => ?_⟩
  · rw [Cw.step, List.map_map]
    have hid : (Track.id ∘ fun t => (decodeTrack cfg w t).1) = Track.id :=
      funext fun t => (decoded_decodeTrack cfg w t).id
    rwa [hid]
  · intro t ht
    obtain ⟨u, hu, rfl⟩ := List.mem_map.1 ht
    rw [(decoded_decodeTrack cfg w u).id]
    exact (hlive u hu).1
  · intro e he
    -- a spot is an old one, or belongs to a track that is live now
    rcases List.mem_append.1 he with hold | hnew
    · exact (h.spotted_lt e hold).trans_le hle
    · obtain ⟨t, ht, he⟩ := List.mem_flatMap.1 hnew
      obtain ⟨x, -, rfl⟩ := List.mem_map.1 he
      exact (hlive t ht).1
  · intro t ht
    obtain ⟨u, hu, rfl⟩ := List.mem_map.1 ht
    rw [(decoded_decodeTrack cfg w u).id, h.spotsOn_step hu]
  · intro t ht k
    obtain ⟨u, hu, rfl⟩ := List.mem_map.1 ht
    rw [(decoded_decodeTrack cfg w u).id]
    exact h.count_decodeTrack hu k
  · -- a track that is not live any more gets no further spots
    by_cases hex : ∃ t ∈ Cw.live cfg s w, t.id = id
    · obtain ⟨t, ht, rfl⟩ := hex
      rw [h.spotsOn_step ht]
      exact (decoded_decodeTrack cfg w t).apart ((h.live ht).1 ▸ h.apart t.id)
    · rw [spotsOn_step_of_forall_ne fun t ht heq => hex ⟨t, ht, heq⟩]
      exact h.apart id

theorem run (cfg : Config F) (ws : List (Window F)) : Inv cfg (Cw.run cfg ws) := by
  induction ws using List.reverseRecOn with
  | nil => exact init cfg
  | append_singleton ws w ih =>
    rw [run_append_singleton]
    exact ih.step w

end Inv

/-- In every run and with any settings, a callsign is reported at most once on a track over the
track's life, never when it is within one edit of a callsign reported before on the track or a
proper prefix of it, and only after it has been read on the track in at least `confirm` steps. -/
theorem spots_confirmed (cfg : Config F) (ws : List (Window F)) :
    (∀ id, ((run cfg ws).spotsOn id).Nodup ∧ ((run cfg ws).spotsOn id).Pairwise Apart) ∧
      ∀ e ∈ (run cfg ws).spotted,
        cfg.confirm ≤ (((run cfg ws).heardIn e.track e.call).filter (· ≤ e.step)).card :=
  ⟨fun id => ⟨((Inv.run cfg ws).apart id).imp Apart.ne, (Inv.run cfg ws).apart id⟩,
    (Inv.run cfg ws).confirmed⟩

end History

end GranolaSdr.Cw
