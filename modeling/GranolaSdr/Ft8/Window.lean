import GranolaSdr.Lib.Run
import Mathlib.Data.List.AList
import Mathlib.Data.List.MinMax

/-!
# The FT8 reporting window

`publishSpot` offers a decoded message to a window that keeps the strongest spot of each text. The
scan thread and the refine worker offer. When a window is over, the scan thread swaps its map for an
empty one under the mutex and then publishes what it took, while the refine worker offers on.

## Main definitions

* `Window`, `step`: the window and its steps;
* `windows`: the offers of a run, split at the swaps;
* `best`: the strongest offer of a text, the first one among equals.

## Main results

* `flushes_publish_best`: each flush publishes the best offer of each text offered in its window,
  and nothing else.
-/

namespace GranolaSdr.Ft8

/-- What is kept of the spots of one text. -/
structure WindowSpot (F : Type*) where
  snr : ℤ
  freq_hz : F
  unix_time : F
  time_offset : F
  deriving DecidableEq

/-- The arguments of `publishSpot`. -/
structure Offer (F : Type*) where
  text : List Char
  fo : ℤ
  to_ : ℤ
  ts : ℤ
  score : ℤ
  timestamp : F

/-- The threads that offer spots. -/
inductive Producer where
  | scan
  | refine
  deriving DecidableEq

/-- A published text with its spot. -/
abbrev Record (F : Type*) := List Char × WindowSpot F

/-- The window. -/
structure Window (F : Type*) where
  window_buf_ : AList fun _ : List Char => WindowSpot F
  /-- The flush in progress: the records published and those still to be published. -/
  flushing : Option (List (Record F) × List (Record F))
  /-- The records published by each flush that has ended. -/
  flushes : List (List (Record F))

/-- What can happen next. -/
inductive Window.Action (F : Type*) where
  /-- A thread calls `publishSpot`. -/
  | offer (producer : Producer) (offer : Offer F)
  /-- The scan thread enters `flushWindow` and swaps the map, whose entries are visited in some
  order. -/
  | swap (order : List (Record F))
  /-- `flushWindow` publishes the next record, or returns after the last one. -/
  | publish

variable {F : Type*}

/-- The signal-to-noise ratio that a score stands for, an integer like the score. -/
def Offer.snr (offer : Offer F) : ℤ := offer.score - 26

namespace Window

/-- The empty window. -/
def init : Window F := { window_buf_ := ∅, flushing := none, flushes := [] }

section Step

variable (composite_bin_to_rf_hz : ℤ → F) (time_sec : ℤ → ℤ → F)

/-- The spot made from an offer. -/
def spot (offer : Offer F) : WindowSpot F where
  snr := offer.snr
  freq_hz := composite_bin_to_rf_hz offer.fo
  unix_time := offer.timestamp
  time_offset := time_sec offer.to_ offer.ts

/-- `publishSpot`: a spot replaces a weaker one of the same text. -/
def publishSpot (w : Window F) (offer : Offer F) : Window F :=
  match w.window_buf_.lookup offer.text with
  | none => { w with
      window_buf_ := w.window_buf_.insert offer.text (spot composite_bin_to_rf_hz time_sec offer) }
  | some old =>
    if old.snr < offer.snr then { w with
      window_buf_ := w.window_buf_.insert offer.text (spot composite_bin_to_rf_hz time_sec offer) }
    else w

/-- The entries of a map as records. -/
def records (buf : AList fun _ : List Char => WindowSpot F) : List (Record F) :=
  buf.entries.map fun e => (e.1, e.2)

/-- The steps of the window. The scan thread does not offer during a flush, nor does it enter
another one. -/
def step [DecidableEq F] (w : Window F) : Action F → Option (Window F)
  | .offer producer offer =>
    if producer = .scan ∧ w.flushing.isSome then none
    else some (w.publishSpot composite_bin_to_rf_hz time_sec offer)
  | .swap order =>
    if w.flushing = none ∧ order.Perm (records w.window_buf_) then
      some { w with window_buf_ := ∅, flushing := some ([], order) }
    else none
  | .publish =>
    match w.flushing with
    | none => none
    | some (published, record :: rest) =>
      some { w with flushing := some (published ++ [record], rest) }
    | some (published, []) =>
      some { w with flushing := none, flushes := w.flushes ++ [published] }

end Step

/-! ## Offers and windows -/

/-- The offers of a run, in order. -/
def offers (as : List (Action F)) : List (Offer F) :=
  as.filterMap fun
    | .offer _ offer => some offer
    | _ => none

/-- One more action: an offer belongs to the last window, and a swap ends it. -/
def addAction (ws : List (List (Offer F)) × List (Offer F)) :
    Action F → List (List (Offer F)) × List (Offer F)
  | .offer _ offer => (ws.1, ws.2 ++ [offer])
  | .swap _ => (ws.1 ++ [ws.2], [])
  | .publish => ws

/-- The offers before each swap of a run and after the one before, and those after the last. -/
def windows (as : List (Action F)) : List (List (Offer F)) × List (Offer F) :=
  as.foldl addAction ([], [])

/-- The order of the integers, by which offers are compared. -/
local instance snrOrder : Preorder ℤ := Int.instLinearOrder.toPreorder

/-- The offer of a text with the greatest signal-to-noise ratio, the first one among equals. -/
def best (window : List (Offer F)) (text : List Char) : Option (Offer F) :=
  (window.filter (·.text = text)).argmax Offer.snr

section Reports

variable (composite_bin_to_rf_hz : ℤ → F) (time_sec : ℤ → ℤ → F)

/-- Some records report a window: one record for each text offered, that of its best offer. -/
structure Reports (window : List (Offer F)) (records : List (Record F)) : Prop where
  nodup : (records.map Prod.fst).Nodup
  mem_iff : ∀ text s, (text, s) ∈ records ↔
    (best window text).map (spot composite_bin_to_rf_hz time_sec) = some s

/-- The flushes of a run have reported its windows: each flush that has ended reported its window,
and the records of a flush in progress, published or not, report the last window. -/
def FlushesReport (ws : List (List (Offer F))) (w : Window F) : Prop :=
  match w.flushing with
  | none => List.Forall₂ (Reports composite_bin_to_rf_hz time_sec) ws w.flushes
  | some (published, rest) =>
    List.Forall₂ (Reports composite_bin_to_rf_hz time_sec) ws (w.flushes ++ [published ++ rest])

/-- The map holds the best offer of each text of the window. -/
def HoldsBest (window : List (Offer F)) (w : Window F) : Prop :=
  ∀ text, w.window_buf_.lookup text =
    (best window text).map (spot composite_bin_to_rf_hz time_sec)

end Reports

/-- An offer of another text does not change the best offer. -/
theorem best_append_of_ne {window : List (Offer F)} {offer : Offer F} {text : List Char}
    (h : offer.text ≠ text) : best (window ++ [offer]) text = best window text := by
  rw [best, List.filter_append, List.filter_cons_of_neg (by simpa using h), List.filter_nil,
    List.append_nil, best]

/-- An offer becomes the best of its text when there is none or when it is stronger. -/
theorem best_append_self (window : List (Offer F)) (offer : Offer F) :
    best (window ++ [offer]) offer.text =
      match best window offer.text with
      | none => some offer
      | some old => if old.snr < offer.snr then some offer else some old := by
  rw [best, List.filter_append, List.filter_cons_of_pos (by simp), List.filter_nil,
    List.argmax_concat, ← best]
  cases best window offer.text <;> rfl

section Proofs

variable {composite_bin_to_rf_hz : ℤ → F} {time_sec : ℤ → ℤ → F} {w w' : Window F}
  {window : List (Offer F)} {ws : List (List (Offer F)) × List (Offer F)}

/-- An offer writes the map alone. -/
@[simp]
theorem flushing_publishSpot (offer : Offer F) :
    (w.publishSpot composite_bin_to_rf_hz time_sec offer).flushing = w.flushing := by
  rw [publishSpot]
  split
  · rfl
  · split_ifs <;> rfl

@[simp]
theorem flushes_publishSpot (offer : Offer F) :
    (w.publishSpot composite_bin_to_rf_hz time_sec offer).flushes = w.flushes := by
  rw [publishSpot]
  split
  · rfl
  · split_ifs <;> rfl

/-- An offer keeps the best spot of each text in the map. -/
theorem HoldsBest.publishSpot (h : HoldsBest composite_bin_to_rf_hz time_sec window w)
    (offer : Offer F) :
    HoldsBest composite_bin_to_rf_hz time_sec (window ++ [offer])
      (w.publishSpot composite_bin_to_rf_hz time_sec offer) := by
  intro text
  have hself := h offer.text
  rcases eq_or_ne offer.text text with rfl | hne
  · rw [best_append_self, Window.publishSpot]
    cases hbest : best window offer.text with
    | none =>
      rw [hbest, Option.map_none] at hself
      simp only [hself, AList.lookup_insert, Option.map_some]
    | some old =>
      rw [hbest, Option.map_some] at hself
      -- the source's `>` keeps the older spot on a tie, and so does the best of the window
      by_cases hlt : old.snr < offer.snr
      · simp [hself, spot, hlt]
      · simp [hself, spot, hlt]
  · rw [best_append_of_ne hne, ← h text, Window.publishSpot]
    -- another text: the write at the offer's own does not touch it
    have hother : ∀ s, (w.window_buf_.insert offer.text s).lookup text =
        w.window_buf_.lookup text := fun s => AList.lookup_insert_ne hne.symm
    split
    · exact hother _
    · split_ifs
      · exact hother _
      · rfl

/-- The entries of a map that holds the best spots report the window. -/
theorem HoldsBest.reports (h : HoldsBest composite_bin_to_rf_hz time_sec window w)
    {order : List (Record F)} (hperm : order.Perm (records w.window_buf_)) :
    Reports composite_bin_to_rf_hz time_sec window order where
  nodup := by
    rw [(hperm.map Prod.fst).nodup_iff, records, List.map_map]
    exact w.window_buf_.nodupKeys
  mem_iff text s := by
    rw [← h text, hperm.mem_iff, records, ← Option.mem_def, AList.mem_lookup_iff]
    constructor
    · intro hmem
      obtain ⟨⟨k, v⟩, he, heq⟩ := List.mem_map.1 hmem
      cases heq
      exact he
    · exact fun hmem => List.mem_map_of_mem (f := fun e => (e.1, e.2)) hmem

/-- The offers of a run are those of its windows, in order. -/
theorem flatten_windows (as : List (Action F)) :
    (windows as).1.flatten ++ (windows as).2 = offers as := by
  induction as using List.reverseRecOn with
  | nil => rfl
  | append_singleton as a ih =>
    rw [windows, List.foldl_append, List.foldl_cons, List.foldl_nil, ← windows, offers,
      List.filterMap_append, ← offers, ← ih]
    cases a <;> simp [addAction]

variable [DecidableEq F]

/-- Every step keeps the reports of the windows and the best spots of the one that goes on. -/
theorem flushesReport_step {a : Action F}
    (hreport : FlushesReport composite_bin_to_rf_hz time_sec ws.1 w)
    (hbest : HoldsBest composite_bin_to_rf_hz time_sec ws.2 w)
    (hstep : w.step composite_bin_to_rf_hz time_sec a = some w') :
    FlushesReport composite_bin_to_rf_hz time_sec (addAction ws a).1 w' ∧
      HoldsBest composite_bin_to_rf_hz time_sec (addAction ws a).2 w' := by
  cases a with
  | offer producer offer =>
    simp only [step, Option.ite_none_left_eq_some, Option.some.injEq] at hstep
    obtain ⟨-, rfl⟩ := hstep
    refine ⟨?_, hbest.publishSpot offer⟩
    rw [FlushesReport, flushing_publishSpot, flushes_publishSpot]
    exact hreport
  | swap order =>
    simp only [step, Option.ite_none_right_eq_some, Option.some.injEq] at hstep
    obtain ⟨⟨hflushing, hperm⟩, rfl⟩ := hstep
    rw [FlushesReport, hflushing] at hreport
    -- the buffer handed over becomes one more flush, and the new window starts empty
    exact ⟨List.rel_append hreport (.cons (hbest.reports hperm) .nil), fun text => rfl⟩
  | publish =>
    rw [FlushesReport] at hreport
    simp only [step] at hstep
    split at hstep
    · cases hstep
    · next published record rest hflushing =>
      obtain rfl := Option.some.inj hstep
      rw [hflushing] at hreport
      refine ⟨?_, hbest⟩
      simpa only [FlushesReport, addAction, List.append_assoc, List.singleton_append] using hreport
    · next published hflushing =>
      obtain rfl := Option.some.inj hstep
      rw [hflushing] at hreport
      refine ⟨?_, hbest⟩
      simpa only [FlushesReport, addAction, List.append_nil] using hreport

/-- In every run each offer belongs to the window that the first swap after it ends, and each
flush publishes one record for each text offered in its window, that of the best offer. -/
theorem flushes_publish_best {as : List (Action F)}
    (hrun : Run.exec (step composite_bin_to_rf_hz time_sec) init as = some w) :
    (windows as).1.flatten ++ (windows as).2 = offers as ∧
      FlushesReport composite_bin_to_rf_hz time_sec (windows as).1 w := by
  refine ⟨flatten_windows as, ?_⟩
  have hstep : ∀ (ws : List (List (Offer F)) × List (Offer F)) (w : Window F) (a : Action F)
      (w' : Window F),
      FlushesReport composite_bin_to_rf_hz time_sec ws.1 w ∧
        HoldsBest composite_bin_to_rf_hz time_sec ws.2 w →
      w.step composite_bin_to_rf_hz time_sec a = some w' →
      FlushesReport composite_bin_to_rf_hz time_sec (addAction ws a).1 w' ∧
        HoldsBest composite_bin_to_rf_hz time_sec (addAction ws a).2 w' :=
    fun ws w a w' h hstep => flushesReport_step h.1 h.2 hstep
  have hinit : FlushesReport composite_bin_to_rf_hz time_sec [] (init : Window F) ∧
      HoldsBest composite_bin_to_rf_hz time_sec [] (init : Window F) :=
    ⟨List.Forall₂.nil, fun text => rfl⟩
  exact (Run.rel_of_exec (g := ([], [])) hstep hinit hrun).1

/-- Two threads offer the same text, and a further offer comes during the flush. -/
def sharedRun : List (Action ℤ) :=
  [.offer .scan ⟨['K'], 100, 0, 0, 30, 0⟩, .offer .refine ⟨['K'], 101, 0, 0, 31, 0⟩,
    .swap [(['K'], ⟨5, 101, 0, 0⟩)], .offer .refine ⟨['K'], 100, 0, 0, 30, 1⟩, .publish, .publish]

theorem flushes_publish_best_sharedRun :
    ∃ w, Run.exec (step (fun fo => fo) fun to_ _ => to_) init sharedRun = some w ∧
      (windows sharedRun).1.flatten ++ (windows sharedRun).2 = offers sharedRun ∧
        FlushesReport (fun fo => fo) (fun to_ _ => to_) (windows sharedRun).1 w := by
  obtain ⟨w, hw⟩ := Option.isSome_iff_exists.1
    (by decide : (Run.exec (step (fun fo => fo) fun to_ _ => to_) init sharedRun).isSome)
  exact ⟨w, hw, flushes_publish_best hw⟩

end Proofs

end Window

end GranolaSdr.Ft8
