import GranolaSdr.Cw.Tracker
import GranolaSdr.Lib.Run

/-!
# Sidebands in the association

The association visits the peaks of a window by strength. A peak near a track that a stronger peak
has claimed is a sideband of that carrier. The peak is offered to the unclaimed tracks first, and
is dropped only when it is near none of them. A sideband of one carrier that comes near the track of
another takes that track along.

## Main definitions

* `Sideband`: a peak within `merge_bins` of a claimed track;
* `DropsSideband`: a sideband changes nothing.

## Main results

* `dropsSideband_along_iff`: the windows of which every sideband is dropped.
-/

namespace GranolaSdr.Cw

section Sideband

variable {F : Type*}

/-- A peak lies within `merge_bins` of a track already claimed. -/
def Sideband (cfg : Config F) (c : Claims F) (p : Peak F) : Prop :=
  ∃ e ∈ c.tracks, e.2 = true ∧ dist e.1.bin p.bin ≤ cfg.merge_bins

/-- An unclaimed track lies within `drift_bins` of a peak. -/
def NearUnclaimed (cfg : Config F) (c : Claims F) (p : Peak F) : Prop :=
  ∃ e ∈ c.tracks, e.2 = false ∧ dist e.1.bin p.bin ≤ cfg.drift_bins

instance (cfg : Config F) (c : Claims F) (p : Peak F) : Decidable (Sideband cfg c p) :=
  inferInstanceAs (Decidable (∃ e ∈ c.tracks, _))

instance (cfg : Config F) (c : Claims F) (p : Peak F) : Decidable (NearUnclaimed cfg c p) :=
  inferInstanceAs (Decidable (∃ e ∈ c.tracks, _))

variable {drift_bins bin : ℤ}

/-- Once a track is found, the search finds one. -/
theorem nearestLoop_some_isSome (drift_bins bin : ℤ) (tracks : List (Track F × Bool)) (i b : ℕ)
    (bestd : ℤ) : (nearestLoop drift_bins bin tracks i (some b) bestd).isSome := by
  induction tracks generalizing i b bestd with
  | nil => rfl
  | cons e tracks ih =>
    obtain ⟨t, claimed⟩ := e
    rw [nearestLoop]
    split_ifs
    · exact ih _ _ _
    · exact ih _ _ _

/-- The search finds a track if there is an unclaimed one in range. -/
theorem nearestLoop_none_eq_none_iff (tracks : List (Track F × Bool)) (i : ℕ) :
    nearestLoop drift_bins bin tracks i none (drift_bins + 1) = none ↔
      ∀ e ∈ tracks, e.2 = false → ¬dist e.1.bin bin ≤ drift_bins := by
  induction tracks generalizing i with
  | nil => simp [nearestLoop]
  | cons e tracks ih =>
    obtain ⟨t, claimed⟩ := e
    rw [nearestLoop, List.forall_mem_cons]
    split_ifs with hnear
    · -- the first track in range is found, or a nearer one
      have hsome := nearestLoop_some_isSome drift_bins bin tracks (i + 1) i (dist t.bin bin)
      refine iff_of_false (Option.isSome_iff_ne_none.1 hsome) fun h => ?_
      exact h.1 hnear.1 hnear.2.1
    · rw [ih]
      refine (and_iff_right fun hclaimed hle => hnear ⟨hclaimed, hle, ?_⟩).symm
      exact Int.lt_add_one_of_le hle

/-- What the search finds is an unclaimed track. -/
theorem nearestLoop_eq_some {tracks : List (Track F × Bool)} {i k : ℕ} {best : Option ℕ}
    {bestd : ℤ} (h : nearestLoop drift_bins bin tracks i best bestd = some k) :
    best = some k ∨ ∃ j t, k = i + j ∧ tracks[j]? = some (t, false) := by
  induction tracks generalizing i best bestd with
  | nil => exact .inl h
  | cons e tracks ih =>
    obtain ⟨t, claimed⟩ := e
    have hlater : (∃ j t, k = i + 1 + j ∧ tracks[j]? = some (t, false)) →
        ∃ j t', k = i + j ∧ ((t, claimed) :: tracks)[j]? = some (t', false) := by
      rintro ⟨j, t', rfl, hj⟩
      exact ⟨j + 1, t', by omega, hj⟩
    rw [nearestLoop] at h
    split_ifs at h with hnear
    · rcases ih h with hi | hi
      · obtain rfl := Option.some.inj hi
        exact .inr ⟨0, t, rfl, by rw [List.getElem?_cons_zero, hnear.1]⟩
      · exact .inr (hlater hi)
    · exact (ih h).imp id hlater

theorem nearest_eq_none_iff {cfg : Config F} {c : Claims F} {p : Peak F} :
    nearest cfg.drift_bins p.bin c.tracks = none ↔ ¬NearUnclaimed cfg c p := by
  rw [nearest, nearestLoop_none_eq_none_iff, NearUnclaimed]
  push Not
  rfl

variable [Add F] [Mul F] [OfScientific F]

/-- A peak that is a sideband is dropped: it neither moves nor refreshes a track, nor is a track
born at it. -/
def DropsSideband (cfg : Config F) (wi : UInt64) (c : Claims F) (p : Peak F) : Prop :=
  Sideband cfg c p → associate cfg wi c p = c

variable {cfg : Config F} {wi : UInt64} {c : Claims F} {p : Peak F}

/-- A peak near an unclaimed track claims it. -/
theorem associate_ne_of_nearUnclaimed (h : NearUnclaimed cfg c p) : associate cfg wi c p ≠ c := by
  rw [associate]
  split
  · next k hk =>
    obtain h' | ⟨j, t, rfl, hj⟩ := nearestLoop_eq_some hk
    · cases h'
    · rw [Nat.zero_add]
      intro heq
      -- the track was not claimed before
      have hget := congrArg (fun c : Claims F => c.tracks[j]?) heq
      simp only [List.getElem?_modify_eq, hj, Option.map_eq_map, Option.map_some,
        Option.some.injEq, Prod.mk.injEq] at hget
      exact Bool.noConfusion hget.2
  · next hnone => exact absurd h (nearest_eq_none_iff.1 hnone)

/-- A sideband near no unclaimed track is dropped. -/
theorem associate_of_sideband (hnear : ¬NearUnclaimed cfg c p) (h : Sideband cfg c p) :
    associate cfg wi c p = c := by
  have hshadowed : c.tracks.any fun e => dist e.1.bin p.bin ≤ cfg.merge_bins := by
    obtain ⟨e, he, -, hle⟩ := h
    exact List.any_eq_true.2 ⟨e, he, decide_eq_true hle⟩
  rw [associate, nearest_eq_none_iff.2 hnear]
  exact if_pos hshadowed

theorem dropsSideband_iff :
    DropsSideband cfg wi c p ↔ (Sideband cfg c p → ¬NearUnclaimed cfg c p) :=
  forall_congr' fun h => ⟨fun heq hnear => associate_ne_of_nearUnclaimed hnear heq,
    fun hnear => associate_of_sideband hnear h⟩

variable [LT F] [DecidableLT F] [Zero F]

/-- In every state and window, all sidebands are dropped exactly when no peak that is a sideband
comes within `drift_bins` of an unclaimed track. -/
theorem dropsSideband_along_iff (cfg : Config F) (s : State F) (w : Window F) :
    Run.Along (fun c p => some (associate cfg w.wi c p)) (DropsSideband cfg w.wi)
        (unclaimed s.tracks_ s.next_id) (peaks cfg w) ↔
      Run.Along (fun c p => some (associate cfg w.wi c p))
        (fun c p => Sideband cfg c p → ¬NearUnclaimed cfg c p) (unclaimed s.tracks_ s.next_id)
        (peaks cfg w) :=
  Run.along_congr fun _ _ => dropsSideband_iff

end Sideband

/-- The default settings, and a window with the given metric. -/
def defaultConfig : Config ℚ := ⟨12, 0, 2, 2, 2, 3000⟩

def metricWindow (wi : UInt64) (snr : List ℚ) : Window ℚ where
  wi := wi
  snr := snr
  decode _ := []
  wpm _ := 20
  binToHz _ := 7000000
  lib := .insertion

/-- Two carriers three bins apart, and then two equal values two bins apart: the second of them is a
sideband of the first carrier and captures the track of the other one. -/
theorem sideband_captures_track :
    let s := run defaultConfig [metricWindow 25 [0, 0, 0, 0, 0, 30, 0, 0, 30, 0, 0, 0]]
    let w := metricWindow 50 [0, 0, 0, 0, 0, 30, 0, 30, 0, 0, 0, 0]
    s.tracks_.map Track.bin = [5, 8] ∧
      (associated defaultConfig s w).tracks.map (fun e => e.1.bin) = [5, 7] ∧
      ¬Run.Along (fun c p => some (associate defaultConfig w.wi c p))
        (DropsSideband defaultConfig w.wi) (unclaimed s.tracks_ s.next_id)
        (peaks defaultConfig w) := by
  refine ⟨by decide +kernel, by decide +kernel, fun h => ?_⟩
  have hfar := (Run.along_congr fun _ _ => dropsSideband_iff).1 h
  revert hfar
  decide +kernel

end GranolaSdr.Cw
