import GranolaSdr.Cw.Tracker
import Mathlib.Algebra.Order.Field.Rat
import Mathlib.Data.Int.Order.Basic
import Mathlib.Data.List.Induction
import Mathlib.Data.List.Nodup

/-!
# Live tracks are distinct

A peak goes to the nearest track that no peak has claimed yet in the window, so an unclaimed track
on the peak's own bin is never passed over for another one. A claimed track sits on the bin of an
earlier peak, which is a different bin, and a new track is born only away from all others. So no two
tracks ever share a bin, in whichever order the peaks are taken.

## Main definitions

* `target`, `targets`: the track that a peak is matched with or gives birth to;
* `Placed`: the invariant of the association.

## Main results

* `nearest_spec`: what the search for a track finds;
* `run_distinct`: the tracks after any step of a run.
-/

namespace GranolaSdr.Cw

variable {F : Type*}

/-! ## The search for a track -/

theorem dist_eq_zero {a b : ℤ} : dist a b = 0 ↔ a = b := by
  unfold dist
  omega

theorem dist_nonneg (a b : ℤ) : 0 ≤ dist a b := Int.natCast_nonneg _

/-- The search keeps the best so far unless it finds a better one, which is then the best. -/
theorem nearestLoop_spec (drift_bins bin : ℤ) (tracks : List (Track F × Bool)) (i : ℕ)
    (best : Option ℕ) (bestd : ℤ) :
    (nearestLoop drift_bins bin tracks i best bestd = best ∧
      ∀ t, (t, false) ∈ tracks → dist t.bin bin ≤ drift_bins → bestd ≤ dist t.bin bin) ∨
    ∃ j t, nearestLoop drift_bins bin tracks i best bestd = some (i + j) ∧
      tracks[j]? = some (t, false) ∧ dist t.bin bin ≤ drift_bins ∧ dist t.bin bin < bestd ∧
      ∀ u, (u, false) ∈ tracks → dist u.bin bin ≤ drift_bins → dist t.bin bin ≤ dist u.bin bin := by
  induction tracks generalizing i best bestd with
  | nil => exact .inl ⟨rfl, fun t ht => absurd ht List.not_mem_nil⟩
  | cons e tracks ih =>
    obtain ⟨t, claimed⟩ := e
    rw [nearestLoop]
    split_ifs with hbetter
    · obtain ⟨rfl, hdrift, hlt⟩ := hbetter
      -- the track is the best so far, and the rest is searched for a better one
      rcases ih (i + 1) (some i) (dist t.bin bin) with
        ⟨hbest, hrest⟩ | ⟨j, u, hbest, hu, hudrift, hult, hrest⟩
      · refine .inr ⟨0, t, hbest, rfl, hdrift, hlt, fun u hu hudrift => ?_⟩
        rcases List.mem_cons.1 hu with heq | hu
        · obtain ⟨rfl, -⟩ := Prod.mk.inj heq
          exact le_rfl
        · exact hrest u hu hudrift
      · refine .inr ⟨j + 1, u, ?_, hu, hudrift, lt_trans hult hlt, fun v hv hvdrift => ?_⟩
        · rw [hbest]
          congr 1
          omega
        · rcases List.mem_cons.1 hv with heq | hv
          · obtain ⟨rfl, -⟩ := Prod.mk.inj heq
            exact le_of_lt hult
          · exact hrest v hv hvdrift
    · -- the track is no better than the best so far
      have hworse : claimed = false → dist t.bin bin ≤ drift_bins → bestd ≤ dist t.bin bin :=
        fun hclaimed hdrift => not_lt.1 fun hlt => hbetter ⟨hclaimed, hdrift, hlt⟩
      rcases ih (i + 1) best bestd with ⟨hbest, hrest⟩ | ⟨j, u, hbest, hu, hudrift, hult, hrest⟩
      · refine .inl ⟨hbest, fun u hu hudrift => ?_⟩
        rcases List.mem_cons.1 hu with heq | hu
        · obtain ⟨rfl, rfl⟩ := Prod.mk.inj heq
          exact hworse rfl hudrift
        · exact hrest u hu hudrift
      · refine .inr ⟨j + 1, u, ?_, hu, hudrift, hult, fun v hv hvdrift => ?_⟩
        · rw [hbest]
          congr 1
          omega
        · rcases List.mem_cons.1 hv with heq | hv
          · obtain ⟨rfl, rfl⟩ := Prod.mk.inj heq
            exact le_trans (le_of_lt hult) (hworse rfl hvdrift)
          · exact hrest v hv hvdrift

/-- The track found is unclaimed and within reach, and no such track is nearer. -/
theorem nearest_spec {drift_bins bin : ℤ} {tracks : List (Track F × Bool)} {i : ℕ}
    (h : nearest drift_bins bin tracks = some i) :
    ∃ t, tracks[i]? = some (t, false) ∧ dist t.bin bin ≤ drift_bins ∧
      ∀ u, (u, false) ∈ tracks → dist u.bin bin ≤ drift_bins →
        dist t.bin bin ≤ dist u.bin bin := by
  rcases nearestLoop_spec drift_bins bin tracks 0 none (drift_bins + 1) with
    ⟨hnone, -⟩ | ⟨j, t, hsome, ht, hdrift, -, hnearest⟩
  · exact absurd (h.symm.trans hnone) (Option.some_ne_none i)
  · have hij : i = 0 + j := Option.some.inj (h.symm.trans hsome)
    rw [Nat.zero_add] at hij
    subst hij
    exact ⟨t, ht, hdrift, hnearest⟩

/-! ## Where a peak goes -/

section Association

/-- The index of the track that a peak is matched with, or that is born at the peak. -/
def target (cfg : Config F) (c : Claims F) (p : Peak F) : Option ℕ :=
  match nearest cfg.drift_bins p.bin c.tracks with
  | some i => some i
  | none =>
    if c.tracks.any fun e => dist e.1.bin p.bin ≤ cfg.merge_bins then none
    else some c.tracks.length

variable [Add F] [Mul F] [OfScientific F]

/-- The targets of some peaks in turn. -/
def targets (cfg : Config F) (wi : UInt64) : Claims F → List (Peak F) → List (Option ℕ)
  | _, [] => []
  | c, p :: ps => target cfg c p :: targets cfg wi (associate cfg wi c p) ps

/-- The bins of the tracks. -/
def Claims.bins (c : Claims F) : List ℤ := c.tracks.map fun e => e.1.bin

/-- A track is claimed. -/
def Claims.Claimed (c : Claims F) (i : ℕ) : Prop := ∃ t, c.tracks[i]? = some (t, true)

/-- What a peak can do: it moves an unclaimed track and claims it, it gives birth to a claimed
track, or it is dropped. -/
theorem associate_cases (cfg : Config F) (wi : UInt64) (c : Claims F) (p : Peak F) :
    (∃ i t, target cfg c p = some i ∧ c.tracks[i]? = some (t, false) ∧
      (∀ u, (u, false) ∈ c.tracks → dist u.bin p.bin ≤ cfg.drift_bins →
        dist t.bin p.bin ≤ dist u.bin p.bin) ∧ dist t.bin p.bin ≤ cfg.drift_bins ∧
      (associate cfg wi c p).tracks = c.tracks.set i (follow wi p t, true)) ∨
    (target cfg c p = some c.tracks.length ∧
      (∀ e ∈ c.tracks, cfg.merge_bins < dist e.1.bin p.bin) ∧
      (associate cfg wi c p).tracks = c.tracks ++ [(birth wi p c.next_id, true)]) ∨
    target cfg c p = none ∧ associate cfg wi c p = c := by
  rw [associate, target]
  cases hnearest : nearest cfg.drift_bins p.bin c.tracks with
  | some i =>
    obtain ⟨t, ht, hdrift, hleast⟩ := nearest_spec hnearest
    -- the nearest free track within the drift moves to the peak
    refine .inl ⟨i, t, rfl, ht, hleast, hdrift, ?_⟩
    show c.tracks.modify i _ = _
    rw [List.modify_eq_set_getElem?, ht]
    rfl
  | none =>
    dsimp only
    split_ifs with hshadowed
    · -- a claimed track is too close for a birth
      exact .inr (.inr ⟨rfl, rfl⟩)
    · -- no track is close, and one is born
      refine .inr (.inl ⟨rfl, fun e he => ?_, rfl⟩)
      rw [Bool.not_eq_true, List.any_eq_false] at hshadowed
      exact not_le.1 fun hle => hshadowed e he (decide_eq_true hle)

/-- A peak changes no track but its target. -/
theorem associate_getElem? (cfg : Config F) (wi : UInt64) (c : Claims F) (p : Peak F) {i : ℕ}
    (hi : target cfg c p ≠ some i) : (associate cfg wi c p).tracks[i]? = c.tracks[i]? := by
  rcases associate_cases cfg wi c p with
    ⟨j, t, htarget, -, -, -, htracks⟩ | ⟨htarget, -, htracks⟩ | ⟨-, hsame⟩
  · have hne : j ≠ i := by
      rintro rfl
      exact hi htarget
    rw [htracks, List.getElem?_set_ne hne]
  · have hne : i ≠ c.tracks.length := by
      rintro rfl
      exact hi htarget
    rw [htracks]
    -- a birth is appended, so the tracks before it keep their places
    rcases Nat.lt_or_gt_of_ne hne with hlt | hgt
    · exact List.getElem?_append_left hlt
    · rw [List.getElem?_eq_none (by simp; omega), List.getElem?_eq_none (Nat.le_of_lt hgt)]
  · rw [hsame]

/-! ## Bins -/

/-- The tracks have different bins, and those claimed are on the bins of earlier peaks. -/
structure Placed (c : Claims F) (done : List (Peak F)) : Prop where
  nodup : c.bins.Nodup
  claimed : ∀ t, (t, true) ∈ c.tracks → ∃ p ∈ done, p.bin = t.bin

omit [Add F] [Mul F] [OfScientific F] in
theorem Placed.cons {c : Claims F} {done : List (Peak F)} (h : Placed c done) (p : Peak F) :
    Placed c (p :: done) := by
  refine ⟨h.nodup, fun t ht => ?_⟩
  obtain ⟨q, hq, hqbin⟩ := h.claimed t ht
  exact ⟨q, List.mem_cons_of_mem p hq, hqbin⟩

omit [Add F] [Mul F] [OfScientific F] in
/-- The nearest of the unclaimed tracks within reach moves to the peak. -/
theorem Placed.nodup_set {drift_bins : ℤ} {c : Claims F} {done : List (Peak F)} (h : Placed c done)
    {p : Peak F} (hp : ∀ q ∈ done, q.bin ≠ p.bin) {i : ℕ} {t : Track F}
    (ht : c.tracks[i]? = some (t, false))
    (hleast : ∀ u, (u, false) ∈ c.tracks → dist u.bin p.bin ≤ drift_bins →
      dist t.bin p.bin ≤ dist u.bin p.bin)
    (hdrift : dist t.bin p.bin ≤ drift_bins) : (c.bins.set i p.bin).Nodup := by
  by_cases hmem : p.bin ∈ c.bins
  · -- the track on the bin is unclaimed, so it is the one that is matched
    obtain ⟨⟨u, claimed⟩, hu, hubin⟩ := List.mem_map.1 hmem
    cases claimed with
    | true =>
      obtain ⟨q, hq, hqbin⟩ := h.claimed u hu
      exact absurd (hqbin.trans hubin) (hp q hq)
    | false =>
      have hzero : dist u.bin p.bin = 0 := dist_eq_zero.2 hubin
      have hudrift : dist u.bin p.bin ≤ drift_bins := by
        rw [hzero]
        exact le_trans (dist_nonneg _ _) hdrift
      have hbin : t.bin = p.bin := by
        refine dist_eq_zero.1 (le_antisymm ?_ (dist_nonneg _ _))
        exact hzero ▸ hleast u hu hudrift
      have hi : c.bins[i]? = some p.bin := by
        rw [Claims.bins, List.getElem?_map, ht, ← hbin]
        rfl
      obtain ⟨hlt, hget⟩ := List.getElem?_eq_some_iff.1 hi
      rw [← hget, List.set_getElem_self]
      exact h.nodup
  · exact h.nodup.set hmem

omit [Add F] [Mul F] [OfScientific F] in
/-- A track is born away from all others. -/
theorem Placed.nodup_append {merge_bins : ℤ} (hmerge : 0 ≤ merge_bins) {c : Claims F}
    {done : List (Peak F)} (h : Placed c done) {p : Peak F}
    (haway : ∀ e ∈ c.tracks, merge_bins < dist e.1.bin p.bin) : (c.bins ++ [p.bin]).Nodup := by
  rw [List.nodup_append]
  refine ⟨h.nodup, List.nodup_singleton _, fun a ha b hb heq => ?_⟩
  obtain ⟨e, he, rfl⟩ := List.mem_map.1 ha
  obtain rfl := List.mem_singleton.1 hb
  have hfar := haway e he
  rw [dist_eq_zero.2 (show e.1.bin = p.bin from heq)] at hfar
  exact absurd hmerge (not_le.2 hfar)

theorem Placed.associate {cfg : Config F} (hmerge : 0 ≤ cfg.merge_bins) (wi : UInt64) {c : Claims F}
    {done : List (Peak F)} (h : Placed c done) {p : Peak F} (hp : ∀ q ∈ done, q.bin ≠ p.bin) :
    Placed (associate cfg wi c p) (p :: done) := by
  rcases associate_cases cfg wi c p with
    ⟨i, t, -, ht, hleast, hdrift, htracks⟩ | ⟨-, haway, htracks⟩ | ⟨-, hsame⟩
  · constructor
    · rw [Claims.bins, htracks, List.map_set]
      exact h.nodup_set hp ht hleast hdrift
    · -- the track that has moved is claimed by this peak
      intro u hu
      rw [htracks] at hu
      rcases List.mem_or_eq_of_mem_set hu with hu | heq
      · exact (h.cons p).claimed u hu
      · obtain ⟨rfl, -⟩ := Prod.mk.inj heq
        exact ⟨p, List.mem_cons_self, rfl⟩
  · constructor
    · rw [Claims.bins, htracks, List.map_append, List.map_singleton]
      exact h.nodup_append hmerge haway
    · -- and so is the one that is born
      intro u hu
      rw [htracks] at hu
      rcases List.mem_append.1 hu with hu | hu
      · exact (h.cons p).claimed u hu
      · obtain ⟨rfl, -⟩ := Prod.mk.inj (List.mem_singleton.1 hu)
        exact ⟨p, List.mem_cons_self, rfl⟩
  · rw [hsame]
    exact h.cons p

theorem nodup_bins_foldl {cfg : Config F} (hmerge : 0 ≤ cfg.merge_bins) (wi : UInt64)
    {ps done : List (Peak F)} (hps : (ps.map Peak.bin).Nodup)
    (hdone : ∀ p ∈ ps, ∀ q ∈ done, q.bin ≠ p.bin) {c : Claims F} (h : Placed c done) :
    (ps.foldl (associate cfg wi) c).bins.Nodup := by
  induction ps generalizing c done with
  | nil => exact h.nodup
  | cons p ps ih =>
    obtain ⟨hp, hps⟩ := List.nodup_cons.1 hps
    obtain ⟨hpdone, hdone⟩ := List.forall_mem_cons.1 hdone
    refine ih hps (fun q hq => List.forall_mem_cons.2 ⟨?_, hdone q hq⟩)
      (h.associate hmerge wi hpdone)
    exact fun heq => hp (heq ▸ List.mem_map_of_mem hq)

/-! ## Targets -/

theorem Claims.Claimed.associate {cfg : Config F} {wi : UInt64} {c : Claims F} {p : Peak F} {i : ℕ}
    (h : c.Claimed i) : (associate cfg wi c p).Claimed i := by
  obtain ⟨u, hu⟩ := h
  rcases associate_cases cfg wi c p with
    ⟨j, t, -, ht, -, -, htracks⟩ | ⟨-, -, htracks⟩ | ⟨-, hsame⟩
  · have hne : j ≠ i := by
      rintro rfl
      simp [ht] at hu
    exact ⟨u, by rw [htracks, List.getElem?_set_ne hne, hu]⟩
  · obtain ⟨hi, -⟩ := List.getElem?_eq_some_iff.1 hu
    exact ⟨u, by rw [htracks, List.getElem?_append_left hi, hu]⟩
  · exact ⟨u, by rw [hsame, hu]⟩

/-- The target of a peak is not claimed before it, and is claimed after it. -/
theorem claimed_target {cfg : Config F} (wi : UInt64) {c : Claims F} {p : Peak F} {i : ℕ}
    (h : target cfg c p = some i) : ¬c.Claimed i ∧ (associate cfg wi c p).Claimed i := by
  rcases associate_cases cfg wi c p with
    ⟨j, t, htarget, ht, -, -, htracks⟩ | ⟨htarget, -, htracks⟩ | ⟨htarget, -⟩
  · obtain rfl := Option.some.inj (htarget.symm.trans h)
    obtain ⟨hj, -⟩ := List.getElem?_eq_some_iff.1 ht
    refine ⟨fun ⟨u, hu⟩ => by simp [ht] at hu, follow wi p t, ?_⟩
    rw [htracks, List.getElem?_set_self hj]
  · obtain rfl := Option.some.inj (htarget.symm.trans h)
    refine ⟨fun ⟨u, hu⟩ => by simp at hu, birth wi p c.next_id, ?_⟩
    rw [htracks, List.getElem?_concat_length]
  · exact absurd (h.symm.trans htarget) (Option.some_ne_none i)

theorem not_claimed_of_mem_targets {cfg : Config F} {wi : UInt64} {ps : List (Peak F)}
    {c : Claims F} {i : ℕ} (h : some i ∈ targets cfg wi c ps) : ¬c.Claimed i := by
  induction ps generalizing c with
  | nil => exact absurd h List.not_mem_nil
  | cons p ps ih =>
    rcases List.mem_cons.1 h with heq | hrest
    · exact (claimed_target wi heq.symm).1
    · -- a claimed track stays claimed
      exact fun hclaimed => ih hrest hclaimed.associate

/-- No track is the target of two peaks. -/
theorem nodup_targets (cfg : Config F) (wi : UInt64) (c : Claims F) (ps : List (Peak F)) :
    ((targets cfg wi c ps).filterMap id).Nodup := by
  induction ps generalizing c with
  | nil => exact List.nodup_nil
  | cons p ps ih =>
    rw [targets]
    cases htarget : target cfg c p with
    | none =>
      rw [List.filterMap_cons_none rfl]
      exact ih _
    | some i =>
      rw [List.filterMap_cons_some (show id (some i) = some i from rfl), List.nodup_cons]
      -- the target is claimed now, and no target of a later peak is claimed before it
      refine ⟨fun hmem => ?_, ih _⟩
      obtain ⟨j, hj, rfl⟩ := List.mem_filterMap.1 hmem
      exact not_claimed_of_mem_targets hj (claimed_target wi htarget).2

/-- A track was seen in the window or is as it was. -/
theorem last_wi_associate (cfg : Config F) (wi : UInt64) (c : Claims F) (p : Peak F)
    {e : Track F × Bool} (he : e ∈ (associate cfg wi c p).tracks) :
    e.1.last_wi = wi ∨ ∃ e' ∈ c.tracks, e'.1.last_wi = e.1.last_wi := by
  rcases associate_cases cfg wi c p with
    ⟨i, t, -, -, -, -, htracks⟩ | ⟨-, -, htracks⟩ | ⟨-, hsame⟩
  · rw [htracks] at he
    rcases List.mem_or_eq_of_mem_set he with he | rfl
    · exact .inr ⟨e, he, rfl⟩
    · exact .inl rfl
  · rw [htracks] at he
    rcases List.mem_append.1 he with he | he
    · exact .inr ⟨e, he, rfl⟩
    · obtain rfl := List.mem_singleton.1 he
      exact .inl rfl
  · exact .inr ⟨e, hsame ▸ he, rfl⟩

theorem last_wi_foldl (cfg : Config F) (wi : UInt64) (ps : List (Peak F)) (c : Claims F)
    {e : Track F × Bool} (he : e ∈ (ps.foldl (associate cfg wi) c).tracks) :
    e.1.last_wi = wi ∨ ∃ e' ∈ c.tracks, e'.1.last_wi = e.1.last_wi := by
  induction ps generalizing c with
  | nil => exact .inr ⟨e, he, rfl⟩
  | cons p ps ih =>
    rcases ih (associate cfg wi c p) he with hnow | ⟨e', he', heq⟩
    · exact .inl hnow
    · rw [← heq]
      exact last_wi_associate cfg wi c p he'

end Association

/-! ## Steps -/

section Step

theorem foldl_countCall_place (wi : UInt64) (cq : Bool) (calls : List Text) (t : Track F) :
    (calls.foldl (countCall wi cq) t).bin = t.bin ∧
      (calls.foldl (countCall wi cq) t).last_wi = t.last_wi := by
  induction calls generalizing t with
  | nil => exact ⟨rfl, rfl⟩
  | cons call calls ih => exact ih (countCall wi cq t call)

variable [LT F]

theorem foldl_emitCall_place (cfg : Config F) (w : Window F) (hz : F) (calls : List Text)
    (r : Track F × List (CwSpot F)) :
    (calls.foldl (emitCall cfg w hz) r).1.bin = r.1.bin ∧
      (calls.foldl (emitCall cfg w hz) r).1.last_wi = r.1.last_wi := by
  induction calls generalizing r with
  | nil => exact ⟨rfl, rfl⟩
  | cons call calls ih =>
    obtain ⟨hbin, hlast⟩ := ih (emitCall cfg w hz r call)
    have hemit : (emitCall cfg w hz r call).1.bin = r.1.bin ∧
        (emitCall cfg w hz r call).1.last_wi = r.1.last_wi := by
      rw [emitCall]
      split_ifs <;> exact ⟨rfl, rfl⟩
    exact ⟨hbin.trans hemit.1, hlast.trans hemit.2⟩

/-- Decoding leaves a track where it is. -/
theorem decodeTrack_place [LE F] [DecidableLE F] [Zero F] (cfg : Config F) (w : Window F)
    (t : Track F) :
    (decodeTrack cfg w t).1.bin = t.bin ∧ (decodeTrack cfg w t).1.last_wi = t.last_wi := by
  rw [decodeTrack]
  split
  · exact ⟨rfl, rfl⟩
  · next hz r _ =>
    obtain ⟨hbin, hlast⟩ := foldl_emitCall_place cfg w hz (w.lib.visit r.seen_now)
      ((w.lib.visit r.seen_now).foldl (countCall w.wi r.window_cq) t, [])
    obtain ⟨hbin', hlast'⟩ := foldl_countCall_place w.wi r.window_cq (w.lib.visit r.seen_now) t
    exact ⟨hbin.trans hbin', hlast.trans hlast'⟩

variable [DecidableLT F] [Zero F] [Add F] [Mul F] [OfScientific F]

omit [Add F] [OfScientific F] in
/-- No two peaks are on one bin. -/
theorem nodup_bins_peaks (cfg : Config F) (w : Window F) :
    ((peaks cfg w).map Peak.bin).Nodup := by
  rw [peaks, ((w.lib.sort_perm _).map Peak.bin).nodup_iff, detect, List.map_filterMap]
  -- the bin of a peak is the position it is found at
  refine List.Nodup.filterMap (fun i j b hi hj => ?_) List.nodup_range
  obtain ⟨p, hp, rfl⟩ := Option.map_eq_some_iff.1 hi
  obtain ⟨q, hq, hbin⟩ := Option.map_eq_some_iff.1 hj
  dsimp only at hp hq
  split_ifs at hp hq
  obtain rfl := Option.some.inj hp
  obtain rfl := Option.some.inj hq
  exact (Nat.cast_injective hbin).symm

/-- What holds of the tracks between two steps. -/
structure Separate (s : State F) (wis : List UInt64) : Prop where
  nodup : (s.tracks_.map Track.bin).Nodup
  last_wi : ∀ t ∈ s.tracks_, t.last_wi ∈ wis

theorem nodup_bins_live {cfg : Config F} (hmerge : 0 ≤ cfg.merge_bins) {s : State F}
    (h : (s.tracks_.map Track.bin).Nodup) (w : Window F) :
    ((live cfg s w).map Track.bin).Nodup := by
  -- no track is claimed before the first peak
  have hplaced : Placed (unclaimed s.tracks_ s.next_id) [] := by
    constructor
    · rw [Claims.bins, unclaimed, List.map_map]
      exact h
    · intro t ht
      obtain ⟨u, -, heq⟩ := List.mem_map.1 ht
      exact absurd (Prod.mk.inj heq).2 Bool.noConfusion
  have hall : (associated cfg s w).bins.Nodup :=
    nodup_bins_foldl hmerge w.wi (nodup_bins_peaks cfg w)
      (fun p _ q hq => absurd hq List.not_mem_nil) hplaced
  have hmap :
      (associated cfg s w).bins = ((associated cfg s w).tracks.map Prod.fst).map Track.bin := by
    rw [Claims.bins, List.map_map]
    rfl
  rw [hmap] at hall
  exact hall.sublist (List.filter_sublist.map Track.bin)

theorem last_wi_live {cfg : Config F} {s : State F} {wis : List UInt64}
    (h : ∀ t ∈ s.tracks_, t.last_wi ∈ wis) {w : Window F} {t : Track F} (ht : t ∈ live cfg s w) :
    t.last_wi ∈ wis ++ [w.wi] ∧ ¬cfg.ttl_slots < w.wi - t.last_wi := by
  obtain ⟨hmem, hidle⟩ := List.mem_filter.1 ht
  obtain ⟨e, he, rfl⟩ := List.mem_map.1 hmem
  refine ⟨?_, by simpa using hidle⟩
  rcases last_wi_foldl cfg w.wi _ _ he with hnow | ⟨e', he', heq⟩
  · exact List.mem_append_right _ (List.mem_singleton.2 hnow)
  · obtain ⟨u, hu, rfl⟩ := List.mem_map.1 he'
    exact List.mem_append_left _ (heq ▸ h u hu)

variable [LE F] [DecidableLE F]

theorem Separate.step {cfg : Config F} (hmerge : 0 ≤ cfg.merge_bins) {s : State F}
    {wis : List UInt64} (h : Separate s wis) (w : Window F) :
    Separate (step cfg s w) (wis ++ [w.wi]) := by
  constructor
  · have hbins : (Cw.step cfg s w).tracks_.map Track.bin = (live cfg s w).map Track.bin := by
      rw [Cw.step, List.map_map]
      exact List.map_congr_left fun t _ => (decodeTrack_place cfg w t).1
    rw [hbins]
    exact nodup_bins_live hmerge h.nodup w
  · intro t ht
    obtain ⟨u, hu, rfl⟩ := List.mem_map.1 ht
    rw [(decodeTrack_place cfg w u).2]
    exact (last_wi_live h.last_wi hu).1

theorem separate_run {cfg : Config F} (hmerge : 0 ≤ cfg.merge_bins) (ws : List (Window F)) :
    Separate (run cfg ws) (ws.map Window.wi) := by
  induction ws using List.reverseRecOn with
  | nil => exact ⟨List.nodup_nil, fun t ht => absurd ht List.not_mem_nil⟩
  | append_singleton ws w ih =>
    rw [run_append_singleton, List.map_append]
    exact ih.step hmerge w

/-- After every step of a run with increasing indices no two live tracks have the same bin, every
live track was matched within `ttl_slots`, no track is the target of two peaks of the step, and a
peak changes no track but its target. -/
theorem run_distinct (cfg : Config F) (hmerge : 0 ≤ cfg.merge_bins) (ws : List (Window F))
    (w : Window F) (hwi : ((ws ++ [w]).map Window.wi).Pairwise (· < ·)) :
    ((run cfg (ws ++ [w])).tracks_.map Track.bin).Nodup ∧
      (∀ t ∈ (run cfg (ws ++ [w])).tracks_, t.last_wi ∈ (ws ++ [w]).map Window.wi ∧
        t.last_wi ≤ w.wi ∧ w.wi.toNat ≤ t.last_wi.toNat + cfg.ttl_slots.toNat) ∧
      ((targets cfg w.wi (unclaimed (run cfg ws).tracks_ (run cfg ws).next_id)
        (peaks cfg w)).filterMap id).Nodup ∧
      ∀ c p i, target cfg c p ≠ some i →
        (associate cfg w.wi c p).tracks[i]? = c.tracks[i]? := by
  have hbefore := separate_run hmerge ws
  refine ⟨(separate_run hmerge (ws ++ [w])).nodup, fun t ht => ?_, nodup_targets _ _ _ _,
    fun c p i => associate_getElem? cfg w.wi c p⟩
  -- an index of the run is at most the last one, as they increase
  have hmem := (separate_run hmerge (ws ++ [w])).last_wi t ht
  refine ⟨hmem, ?_⟩
  have hle : t.last_wi ≤ w.wi := by
    rw [List.map_append, List.map_singleton] at hmem hwi
    rcases List.mem_append.1 hmem with hold | hnow
    · exact UInt64.le_of_lt ((List.pairwise_append.1 hwi).2.2 _ hold _ List.mem_cons_self)
    · exact UInt64.le_of_eq (List.mem_singleton.1 hnow)
  rw [run_append_singleton] at ht
  obtain ⟨u, hu, rfl⟩ := List.mem_map.1 ht
  have hidle := (last_wi_live hbefore.last_wi hu).2
  rw [(decodeTrack_place cfg w u).2] at hle ⊢
  refine ⟨hle, ?_⟩
  -- the difference of the indices does not wrap
  rw [UInt64.not_lt, UInt64.le_iff_toNat_le, UInt64.toNat_sub_of_le _ _ hle] at hidle
  omega

end Step

/-! ## An example -/

/-- A window with two carriers, of which no text is read. -/
def twoCarriers (wi : UInt64) (snr : List ℚ) : Window ℚ where
  wi := wi
  snr := snr
  decode _ := []
  wpm _ := 20
  binToHz _ := 7030000
  lib := .insertion

/-- Two carriers that drift toward each other. -/
theorem run_distinct_two_carriers :
    let cfg : Config ℚ := ⟨12, 0, 2, 2, 2, 3000⟩
    let ws := [twoCarriers 0 [0, 0, 20, 0, 0, 0, 0, 0, 30, 0, 0]]
    let w := twoCarriers 50 [0, 0, 0, 0, 20, 0, 0, 30, 0, 0, 0]
    ((run cfg (ws ++ [w])).tracks_.map Track.bin).Nodup ∧
      (∀ t ∈ (run cfg (ws ++ [w])).tracks_, t.last_wi ∈ (ws ++ [w]).map Window.wi ∧
        t.last_wi ≤ w.wi ∧ w.wi.toNat ≤ t.last_wi.toNat + cfg.ttl_slots.toNat) ∧
      ((targets cfg w.wi (unclaimed (run cfg ws).tracks_ (run cfg ws).next_id)
        (peaks cfg w)).filterMap id).Nodup ∧
      ∀ c p i, target cfg c p ≠ some i →
        (associate cfg w.wi c p).tracks[i]? = c.tracks[i]? :=
  run_distinct _ (by decide) _ _ (by decide)

end GranolaSdr.Cw
