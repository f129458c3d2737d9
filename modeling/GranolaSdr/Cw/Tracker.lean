import GranolaSdr.Cw.Callsign
import Mathlib.Algebra.Group.Nat.Defs
import Mathlib.Algebra.Order.Ring.Rat
import Mathlib.Algebra.Ring.Int.Defs
import Mathlib.Data.List.AList
import Mathlib.Data.List.Sort

/-!
# The CW tracker

`CwTracker` keeps one track for each Morse code carrier. A step takes the detection metric of one
window, associates its peaks with the tracks, drops the tracks that have been idle for too long, and
decodes the tracks seen in the window. A callsign is reported on a track once it has been read there
in enough windows.

The metric is of a type `F` with the operations of a floating-point type, of which nothing else is
assumed. The tracks carry numbers and the state carries logs; these are history, and no step depends
on them.

## Main definitions

* `Track`, `State`: a carrier, and the tracker with its history;
* `associate`: what a peak does to the tracks;
* `decodeTrack`: the callsigns read and reported on a track;
* `step`, `run`: a window, and a sequence of windows.
-/

namespace GranolaSdr.Cw

/-- The settings of the tracker. -/
structure Config (F : Type*) where
  snr_thresh : F
  adapt_k : F
  drift_bins : ℤ
  merge_bins : ℤ
  confirm : ℤ
  ttl_slots : UInt64

/-- What is known of a callsign on a track. -/
structure CallStat where
  count : ℤ
  last_wi : UInt64
  cq : Bool

/-- A carrier. -/
structure Track (F : Type*) where
  /-- The number of the track. -/
  id : ℕ
  bin : ℤ
  snr_ema : F
  born_wi : UInt64
  last_wi : UInt64
  call_cnt : AList fun _ : Text => CallStat
  emitted : List Text

/-- A reported callsign. -/
structure CwSpot (F : Type*) where
  hz : F
  wpm : F
  snr : F
  call : Text
  cq : Bool

/-- A local maximum of the metric. -/
structure Peak (F : Type*) where
  bin : ℤ
  s : F

/-- The choices the standard library is free to make: the order of equally strong peaks, and the
order in which a hash set is visited. -/
structure Library (F : Type*) [LT F] where
  sort : List (Peak F) → List (Peak F)
  sort_perm : ∀ peaks, (sort peaks).Perm peaks
  sort_sorted : ∀ peaks, (sort peaks).Pairwise fun a b => ¬a.s < b.s
  visit : List Text → List Text
  visit_perm : ∀ calls, (visit calls).Perm calls

/-- The order of peaks by strength. -/
def NotWeaker (a b : Peak ℚ) : Prop := b.s ≤ a.s

instance : DecidableRel NotWeaker := fun a b => inferInstanceAs (Decidable (b.s ≤ a.s))

instance : IsTrans (Peak ℚ) NotWeaker := ⟨fun _ _ _ hab hbc => le_trans hbc hab⟩

instance : Std.Total NotWeaker := ⟨fun a b => le_total b.s a.s⟩

/-- A library that sorts by insertion and visits callsigns in the order in which they were read. -/
def Library.insertion : Library ℚ where
  sort peaks := peaks.insertionSort NotWeaker
  sort_perm peaks := List.perm_insertionSort NotWeaker peaks
  sort_sorted peaks := (List.pairwise_insertionSort NotWeaker peaks).imp not_lt.2
  visit calls := calls
  visit_perm _ := List.Perm.refl _

/-- The arguments of a step. -/
structure Window (F : Type*) [LT F] where
  wi : UInt64
  snr : List F
  decode : ℤ → Text
  wpm : ℤ → F
  binToHz : ℤ → F
  lib : Library F

/-- A callsign read or reported on a track in a step. -/
structure Event where
  track : ℕ
  step : ℕ
  call : Text
  deriving DecidableEq

/-- The tracker, with the number of steps so far and of tracks so far, the callsigns read and those
reported. -/
structure State (F : Type*) where
  tracks_ : List (Track F)
  next_id : ℕ
  steps : ℕ
  heard : List Event
  spotted : List Event

section Tracker

variable {F : Type*} [LT F] [DecidableLT F] [LE F] [DecidableLE F] [Zero F] [Add F] [Mul F]
  [OfScientific F]

/-! ## Detection -/

/-- The threshold of a window: the absolute one, or a multiple of the median if that is more. -/
def gate (cfg : Config F) (snr : List F) : F :=
  if 0 < cfg.adapt_k ∧ 8 < snr.length then
    -- the median is the noise level, since few bins hold a carrier
    let median := (snr.mergeSort fun a b => !decide (b < a)).getD (snr.length / 2) 0
    if cfg.snr_thresh < cfg.adapt_k * median then cfg.adapt_k * median else cfg.snr_thresh
  else cfg.snr_thresh

/-- The bins above the threshold that none of the two neighbours on each side exceeds. -/
def detect (cfg : Config F) (snr : List F) : List (Peak F) :=
  (List.range snr.length).filterMap fun bin =>
    let at_ (i : ℕ) := snr.getD i 0
    -- equal neighbours do not exclude each other
    if 2 ≤ bin ∧ bin + 2 < snr.length ∧ ¬at_ bin < gate cfg snr ∧
        ¬(at_ bin < at_ (bin - 1) ∨ at_ bin < at_ (bin + 1) ∨ at_ bin < at_ (bin - 2) ∨
          at_ bin < at_ (bin + 2)) then
      some ⟨bin, at_ bin⟩
    else none

/-! ## Association -/

/-- The distance of two bins. -/
def dist (a b : ℤ) : ℤ := (a - b).natAbs

/-- The tracks during the association of a window, each with the flag of being claimed. -/
structure Claims (F : Type*) where
  tracks : List (Track F × Bool)
  next_id : ℕ

/-- The search for the unclaimed track nearest to a bin, from index `i` on. -/
def nearestLoop (drift_bins bin : ℤ) :
    List (Track F × Bool) → ℕ → Option ℕ → ℤ → Option ℕ
  | [], _, best, _ => best
  | (t, claimed) :: rest, i, best, bestd =>
    if claimed = false ∧ dist t.bin bin ≤ drift_bins ∧ dist t.bin bin < bestd then
      nearestLoop drift_bins bin rest (i + 1) (some i) (dist t.bin bin)
    else nearestLoop drift_bins bin rest (i + 1) best bestd

/-- The index of the unclaimed track nearest to a bin and within `drift_bins` of it. -/
def nearest (drift_bins bin : ℤ) (tracks : List (Track F × Bool)) : Option ℕ :=
  nearestLoop drift_bins bin tracks 0 none (drift_bins + 1)

/-- A track follows a peak. -/
def follow (wi : UInt64) (p : Peak F) (t : Track F) : Track F :=
  { t with bin := p.bin, snr_ema := 0.7 * t.snr_ema + 0.3 * p.s, last_wi := wi }

/-- A new track at a peak. -/
def birth (wi : UInt64) (p : Peak F) (id : ℕ) : Track F where
  id := id
  bin := p.bin
  snr_ema := p.s
  born_wi := wi
  last_wi := wi
  call_cnt := ∅
  emitted := []

/-- What a peak does to the tracks. -/
def associate (cfg : Config F) (wi : UInt64) (c : Claims F) (p : Peak F) : Claims F :=
  match nearest cfg.drift_bins p.bin c.tracks with
  -- the carrier of an unclaimed track has drifted to the peak
  | some i => { c with tracks := c.tracks.modify i fun e => (follow wi p e.1, true) }
  | none =>
    -- the shoulder of a track, claimed or not, is dropped
    if c.tracks.any fun e => dist e.1.bin p.bin ≤ cfg.merge_bins then c
    else { tracks := c.tracks ++ [(birth wi p c.next_id, true)], next_id := c.next_id + 1 }

/-- The tracks before the association of a window. -/
def unclaimed (tracks : List (Track F)) (next_id : ℕ) : Claims F where
  tracks := tracks.map fun t => (t, false)
  next_id := next_id

/-- The peaks of a window, strongest first. -/
def peaks (cfg : Config F) (w : Window F) : List (Peak F) := w.lib.sort (detect cfg w.snr)

/-- The tracks after the association of a window. -/
def associated (cfg : Config F) (s : State F) (w : Window F) : Claims F :=
  (peaks cfg w).foldl (associate cfg w.wi) (unclaimed s.tracks_ s.next_id)

/-- The tracks that have not been idle for too long. -/
def live (cfg : Config F) (s : State F) (w : Window F) : List (Track F) :=
  ((associated cfg s w).tracks.map Prod.fst).filter fun t => !(cfg.ttl_slots < w.wi - t.last_wi)

/-! ## Decoding -/

/-- The callsigns found in a text, and whether it holds a call for answers. -/
structure Reading where
  seen_now : List Text
  window_cq : Bool

/-- The tokens that call for answers. -/
def isCq (tok : Text) : Bool := tok = "CQ".toList || tok = "QRZ".toList

/-- Read the next token. -/
def readToken (r : Reading) (tok : Text) : Reading :=
  if isCq tok then { r with window_cq := true }
  else
    match extractCall tok with
    | none => r
    | some call =>
      -- a callsign with `CQ` or `QRZ` run into it is calling too
      { seen_now := if r.seen_now.contains call then r.seen_now else r.seen_now ++ [call]
        window_cq := r.window_cq ||
          call ≠ tok && ("CQ".toList.isPrefixOf tok || "QRZ".toList.isPrefixOf tok) }

/-- Read a decoded text. -/
def readText (txt : Text) : Reading := (tokens txt).foldl readToken ⟨[], false⟩

/-- What is read on a track, with its frequency, if it is seen in the window and on the band. -/
def listen (w : Window F) (t : Track F) : Option (F × Reading) :=
  -- not seen in this window, or off the band
  if t.last_wi ≠ w.wi then none
  else if w.binToHz t.bin ≤ 0 then none
  else some (w.binToHz t.bin, readText (w.decode t.bin))

/-- The callsigns read on a track, in the order in which they are visited. -/
def heardCalls (w : Window F) (t : Track F) : List Text :=
  match listen w t with
  | none => []
  | some (_, r) => w.lib.visit r.seen_now

/-- `int` arithmetic. -/
def wrap32 (n : ℤ) : ℤ := n.bmod (2 ^ 32)

/-- The entry of a callsign, `call_cnt[call]`. -/
def Track.stat (t : Track F) (call : Text) : CallStat :=
  (t.call_cnt.lookup call).getD { count := 0, last_wi := 0, cq := false }

/-- Count a callsign. -/
def countCall (wi : UInt64) (window_cq : Bool) (t : Track F) (call : Text) : Track F :=
  { t with
    call_cnt := t.call_cnt.insert call
      { count := wrap32 ((t.stat call).count + 1)
        last_wi := wi
        cq := (t.stat call).cq || window_cq } }

/-- The greatest count of a callsign read recently. -/
def dominant (cfg : Config F) (wi : UInt64) (t : Track F) : ℤ :=
  t.call_cnt.entries.foldl (fun best e =>
    -- a station that has left does not count against the next one
    if wi - e.2.last_wi ≤ cfg.ttl_slots / 4 then max best e.2.count else best) 0

/-- A callsign is a fragment or a misread of a reported one. -/
def isVariant (e call : Text) : Bool :=
  call.length < e.length && call.isPrefixOf e || editDistLE1 e call

/-- A callsign is reported: it has been read often enough and was not reported before, and it is
neither sparse against the recent callsigns nor a variant of a reported one. -/
def Confirmed (cfg : Config F) (wi : UInt64) (t : Track F) (call : Text) : Prop :=
  ¬((t.stat call).count < cfg.confirm ∨ call ∈ t.emitted) ∧
    ¬wrap32 ((t.stat call).count * 2) < dominant cfg wi t ∧ ¬t.emitted.any (isVariant · call)

instance (cfg : Config F) (wi : UInt64) (t : Track F) (call : Text) :
    Decidable (Confirmed cfg wi t call) :=
  inferInstanceAs (Decidable (_ ∧ _ ∧ _))

/-- Report a callsign if it is confirmed. -/
def emitCall (cfg : Config F) (w : Window F) (hz : F) (r : Track F × List (CwSpot F))
    (call : Text) : Track F × List (CwSpot F) :=
  if Confirmed cfg w.wi r.1 call then
    ({ r.1 with emitted := r.1.emitted ++ [call] },
      r.2 ++ [⟨hz, w.wpm r.1.bin, r.1.snr_ema, call, (r.1.stat call).cq⟩])
  else r

/-- Decode a track: count the callsigns read and report those confirmed. -/
def decodeTrack (cfg : Config F) (w : Window F) (t : Track F) : Track F × List (CwSpot F) :=
  match listen w t with
  | none => (t, [])
  | some (hz, r) =>
    -- all callsigns of the window are counted before the first is reported
    let calls := w.lib.visit r.seen_now
    calls.foldl (emitCall cfg w hz) (calls.foldl (countCall w.wi r.window_cq) t, [])

/-! ## Steps -/

/-- The spots a step returns. -/
def spots (cfg : Config F) (s : State F) (w : Window F) : List (CwSpot F) :=
  (live cfg s w).flatMap fun t => (decodeTrack cfg w t).2

/-- A step of the tracker. -/
def step (cfg : Config F) (s : State F) (w : Window F) : State F where
  tracks_ := (live cfg s w).map fun t => (decodeTrack cfg w t).1
  next_id := (associated cfg s w).next_id
  steps := s.steps + 1
  heard := s.heard ++
    (live cfg s w).flatMap fun t => (heardCalls w t).map fun call => ⟨t.id, s.steps, call⟩
  spotted := s.spotted ++
    (live cfg s w).flatMap fun t => (decodeTrack cfg w t).2.map fun sp => ⟨t.id, s.steps, sp.call⟩

/-- The tracker before the first window. -/
def State.init : State F where
  tracks_ := []
  next_id := 0
  steps := 0
  heard := []
  spotted := []

/-- The tracker after some windows. -/
def run (cfg : Config F) (ws : List (Window F)) : State F := ws.foldl (step cfg) .init

theorem run_append_singleton (cfg : Config F) (ws : List (Window F)) (w : Window F) :
    run cfg (ws ++ [w]) = step cfg (run cfg ws) w := by
  rw [run, List.foldl_append]
  rfl

end Tracker

end GranolaSdr.Cw
