import GranolaSdr.Cw.MorseStream
import GranolaSdr.Lib.TwoMeans
import Mathlib.Analysis.Real.Sqrt
import Mathlib.Data.List.DropRight

/-!
# The two-pass Morse decoder

`CwMorse::decode` of `src/gm/hf/cw_morse.cc` from the key states on: it lists the runs of marks and
spaces, absorbs the runs that are too short to be keyed, clusters the lengths of the marks into dits
and dahs, and reads the runs with the estimates from the clusters. A keying with less than twenty
percent of jitter is read as if it were exact.

## Main definitions

* `keyRuns`, `deglitch`, `clusters`, `replay`: the passes;
* `decodeKeys`: the text of some key states;
* `Timed`: a sign that lasts its time, up to jitter.

## Main results

* `decodeKeys_of_timed`: the message is decoded, whatever the jitter.
-/

namespace GranolaSdr.Cw.Morse

variable {F : Type*} [Field F] [LinearOrder F]

/-- A run of equal key states: whether the key is down, and its length in ms. -/
abbrev Run (F : Type*) := Bool × F

/-- The scan for runs. -/
structure RunScan (F : Type*) where
  k : Bool
  run : ℕ
  seen_mark : Bool
  runs : List (Run F)

namespace RunScan

/-- The runs once the current one has ended. The leading space is dropped. -/
def closed (hop_ms : F) (s : RunScan F) : List (Run F) :=
  if s.k || s.seen_mark then s.runs ++ [(s.k, s.run * hop_ms)] else s.runs

/-- The next key state. -/
def next (hop_ms : F) (s : RunScan F) (next : Bool) : RunScan F :=
  if next ≠ s.k then
    { k := next, run := 1, seen_mark := s.seen_mark || s.k, runs := s.closed hop_ms }
  else { s with run := s.run + 1 }

end RunScan

/-- The runs of some key states, without the leading and the trailing space. -/
def keyRuns (hop_ms : F) (keys : List Bool) : List (Run F) :=
  let s := keys.foldl (RunScan.next hop_ms) ⟨false, 0, false, []⟩
  if s.k ∧ 0 < s.run then s.runs ++ [(true, s.run * hop_ms)] else s.runs

/-- Absorb short runs into their neighbours. -/
def absorb (glitch : F) : List (Run F) → List (Run F)
  | before :: short :: after :: runs =>
    -- the run behind the absorbed ones is looked at next
    if short.2 < glitch then absorb glitch ((before.1, before.2 + (short.2 + after.2)) :: runs)
    else before :: absorb glitch (short :: after :: runs)
  | runs => runs
termination_by runs => runs.length

/-- Drop short runs at both ends, and absorb the others. -/
def deglitch (glitch : F) (runs : List (Run F)) : List (Run F) :=
  (absorb glitch (runs.dropWhile (·.2 < glitch))).rdropWhile (·.2 < glitch)

/-- The lengths of the marks. -/
def marks (runs : List (Run F)) : List F := (runs.filter Prod.fst).map Prod.snd

/-- The centres of the dits and the dahs, from the first mark and all marks. -/
def clusters (first : F) (marks : List F) : F × F :=
  TwoMeans.iterate marks 20 (marks.foldl min first, marks.foldl max first)

/-- Read a run. -/
def replay (mark_split : F) (m : CwMorse F) (run : Run F) : CwMorse F :=
  if run.1 then { m with symbol_ := m.symbol_ ++ [if run.2 < mark_split then .dit else .dah] }
  else m.onSpace run.2

/-- `decode`, from the key states on. -/
def CwMorse.decodeKeys (sqrt : F → F) (m : CwMorse F) (keys : List Bool) : Text :=
  let m := m.reset
  let runs := deglitch (2.5 * m.hop_ms_) (keyRuns m.hop_ms_ keys)
  match marks runs with
  | [] => []
  | first :: rest =>
    let c := clusters first (first :: rest)
    let split := decide (1.8 * c.1 < c.2)
    -- marks that do not separate are all dits
    let m := { m with dit_ms_ := if split then c.1 else 0.5 * (c.1 + c.2) }
    let mark_split := if split then sqrt (c.1 * c.2) else 1e9
    ((runs.dropWhile (!·.1)).foldl (replay mark_split) m).flushSymbol false |>.text_

/-! ## The runs of a keying -/

/-- Signs with their numbers of samples. -/
abbrev Timing := List (Sign × ℕ)

/-- The key states of timed signs. -/
def Timing.keys (timing : Timing) : List Bool :=
  timing.flatMap fun p => List.replicate p.2 p.1.isMark

/-- The runs of timed signs. -/
def Timing.runs (hop_ms : F) (timing : Timing) : List (Run F) :=
  timing.map fun p => (p.1.isMark, p.2 * hop_ms)

namespace RunScan

variable {hop_ms : F}

omit [LinearOrder F] in
theorem foldl_next_of_eq {s : RunScan F} {key : Bool} (h : s.k = key) (n : ℕ) :
    (List.replicate n key).foldl (next hop_ms) s = { s with run := s.run + n } := by
  induction n generalizing s with
  | zero => rfl
  | succ n ih =>
    have hnext : s.next hop_ms key = { s with run := s.run + 1 } := if_neg (not_not.2 h.symm)
    have hk : (s.next hop_ms key).k = key := by rw [hnext]; exact h
    rw [List.replicate_succ, List.foldl_cons, ih hk, hnext]
    simp only [Nat.add_assoc, Nat.add_comm 1 n]

omit [LinearOrder F] in
/-- A new run closes the old one. -/
theorem foldl_next_of_ne {s : RunScan F} {key : Bool} (h : key ≠ s.k) {n : ℕ} (hn : 0 < n) :
    (List.replicate n key).foldl (next hop_ms) s =
      { k := key, run := n, seen_mark := s.seen_mark || s.k, runs := s.closed hop_ms } := by
  obtain ⟨n, rfl⟩ := Nat.exists_eq_succ_of_ne_zero hn.ne'
  have hnext : s.next hop_ms key =
      { k := key, run := 1, seen_mark := s.seen_mark || s.k, runs := s.closed hop_ms } := if_pos h
  have hk : (s.next hop_ms key).k = key := by rw [hnext]
  rw [List.replicate_succ, List.foldl_cons, foldl_next_of_eq hk, hnext]
  simp only [Nat.add_comm 1 n, Nat.succ_eq_add_one]

variable (hop_ms) in
omit [LinearOrder F] in
/-- The scan over some signs, by induction over the marks. -/
theorem foldl_next_keys {signs : List Sign} (halt : Alternating signs) {timing : Timing}
    (hsigns : timing.map Prod.fst = signs) (hpos : ∀ p ∈ timing, 0 < p.2) {s : RunScan F}
    (hk : s.k = false) :
    let s' := timing.keys.foldl (next hop_ms) s
    s'.k = true ∧ 0 < s'.run ∧ s'.closed hop_ms = s.closed hop_ms ++ timing.runs hop_ms := by
  induction halt generalizing timing s with
  | mark e =>
    obtain ⟨⟨sign, n⟩, rest, rfl, rfl, hrest⟩ := List.map_eq_cons_iff.1 hsigns
    obtain rfl := List.map_eq_nil_iff.1 hrest
    have hn : 0 < n := hpos _ List.mem_cons_self
    have hkeys : Timing.keys [(Sign.mark e, n)] = List.replicate n true := List.append_nil _
    rw [hkeys, foldl_next_of_ne (by rw [hk]; exact Bool.noConfusion) hn]
    exact ⟨rfl, hn, rfl⟩
  | cons e g halt ih =>
    obtain ⟨⟨sign, n⟩, rest, rfl, rfl, hrest⟩ := List.map_eq_cons_iff.1 hsigns
    obtain ⟨⟨sign', n'⟩, timing, rfl, rfl, htiming⟩ := List.map_eq_cons_iff.1 hrest
    have hn : 0 < n := hpos _ List.mem_cons_self
    have hn' : 0 < n' := hpos _ (List.mem_cons_of_mem _ List.mem_cons_self)
    have hkeys : Timing.keys ((Sign.mark e, n) :: (Sign.gap g, n') :: timing) =
        List.replicate n true ++ (List.replicate n' false ++ Timing.keys timing) := rfl
    -- the mark closes what came before, and the space closes the mark
    rw [hkeys, List.foldl_append, foldl_next_of_ne (by rw [hk]; exact Bool.noConfusion) hn,
      List.foldl_append, foldl_next_of_ne Bool.noConfusion hn']
    obtain ⟨hk', hrun, hclosed⟩ := ih htiming
      (fun p hp => hpos p (List.mem_cons_of_mem _ (List.mem_cons_of_mem _ hp)))
      (s := ⟨false, n', _, _⟩) rfl
    refine ⟨hk', hrun, hclosed.trans ?_⟩
    simp [closed, Timing.runs, Sign.isMark]

end RunScan

omit [LinearOrder F] in
/-- The runs of a keying between two silences. -/
theorem keyRuns_keys {timing : Timing} (halt : Alternating (timing.map Prod.fst))
    (hpos : ∀ p ∈ timing, 0 < p.2) (hop_ms : F) (lead trail : ℕ) :
    keyRuns hop_ms (List.replicate lead false ++ timing.keys ++ List.replicate trail false) =
      timing.runs hop_ms := by
  have hlead : (List.replicate lead false).foldl (RunScan.next hop_ms) ⟨false, 0, false, []⟩ =
      ⟨false, 0 + lead, false, []⟩ := RunScan.foldl_next_of_eq rfl lead
  obtain ⟨hk, hrun, hclosed⟩ := RunScan.foldl_next_keys hop_ms halt rfl hpos
    (s := ⟨false, 0 + lead, false, []⟩) rfl
  rw [← hlead] at hk hrun hclosed
  rw [keyRuns, List.foldl_append, List.foldl_append]
  generalize timing.keys.foldl (RunScan.next hop_ms) _ = s at hk hrun hclosed
  have hruns : s.closed hop_ms = timing.runs hop_ms := hclosed.trans (by rw [hlead]; rfl)
  cases trail with
  | zero =>
    -- the last mark is still open at the end of the samples
    rw [List.replicate_zero, List.foldl_nil, if_pos ⟨hk, hrun⟩, ← hruns, RunScan.closed, hk]
    rfl
  | succ trail =>
    rw [RunScan.foldl_next_of_ne (by rw [hk]; exact Bool.noConfusion) trail.succ_pos,
      if_neg (by simp)]
    exact hruns

/-! ## Runs that are long enough -/

section Deglitch

variable {glitch : F}

omit [Field F] in
theorem dropWhile_of_le {runs : List (Run F)} (h : ∀ run ∈ runs, glitch ≤ run.2) :
    runs.dropWhile (·.2 < glitch) = runs := by
  cases runs with
  | nil => rfl
  | cons run runs => exact List.dropWhile_cons_of_neg (by simpa using h run List.mem_cons_self)

theorem absorb_of_le {runs : List (Run F)} (h : ∀ run ∈ runs, glitch ≤ run.2) :
    absorb glitch runs = runs := by
  induction runs with
  | nil => rw [absorb]; simp
  | cons before runs ih =>
    obtain ⟨-, hruns⟩ := List.forall_mem_cons.1 h
    match runs, ih hruns with
    | [], _ => rw [absorb]; simp
    | [_], _ => rw [absorb]; simp
    | short :: after :: runs, ih =>
      -- the run in the middle is not short
      rw [absorb, if_neg (not_lt.2 (hruns short List.mem_cons_self)), ih]

/-- The de-glitching changes nothing. -/
theorem deglitch_of_le {runs : List (Run F)} (h : ∀ run ∈ runs, glitch ≤ run.2) :
    deglitch glitch runs = runs := by
  have hreverse : ∀ run ∈ runs.reverse, glitch ≤ run.2 := by simpa using h
  rw [deglitch, dropWhile_of_le h, absorb_of_le h, List.rdropWhile, dropWhile_of_le hreverse,
    List.reverse_reverse]

end Deglitch

/-! ## Jitter -/

/-- A sign lasts its units, with less than twenty percent of jitter. -/
def Timed (u : F) (sign : Sign) (ms : F) : Prop := |ms - sign.units * u| < 0.2 * (sign.units * u)

variable [IsStrictOrderedRing F] {u : F}

theorem Timed.bounds {sign : Sign} {ms : F} (h : Timed u sign ms) :
    0.8 * (sign.units * u) < ms ∧ ms < 1.2 * (sign.units * u) := by
  obtain ⟨hlow, hhigh⟩ := abs_lt.1 h
  norm_num at hlow hhigh ⊢
  constructor <;> linarith

/-- The lengths of dits. -/
def dits (u : F) : Set F := Set.Ioo (0.8 * u) (1.2 * u)

/-- The lengths of dahs. -/
def dahs (u : F) : Set F := Set.Ioo (2.4 * u) (3.6 * u)

theorem Timed.mem_dits {ms : F} (h : Timed u (.mark .dit) ms) : ms ∈ dits u := by
  have hbounds := h.bounds
  norm_num [Sign.units] at hbounds
  constructor <;> norm_num <;> linarith [hbounds.1, hbounds.2]

theorem Timed.mem_dahs {ms : F} (h : Timed u (.mark .dah) ms) : ms ∈ dahs u := by
  have hbounds := h.bounds
  norm_num [Sign.units] at hbounds
  constructor <;> norm_num <;> linarith [hbounds.1, hbounds.2]

/-- A space is taken for what it is, by any estimate that is the length of a dit. -/
theorem Timed.takenFor {g : Gap} {ms dit_ms : F} (h : Timed u (.gap g) ms)
    (hdit : dit_ms ∈ dits u) :
    CwMorse.TakenFor dit_ms g ms := by
  have hbounds := h.bounds
  obtain ⟨hlow, hhigh⟩ := hdit
  norm_num at hlow hhigh
  cases g with
  | element =>
    norm_num [Sign.units] at hbounds
    show ms < 1.73 * dit_ms
    norm_num
    linarith [hbounds.2]
  | letter =>
    norm_num [Sign.units] at hbounds
    constructor <;> norm_num <;> linarith [hbounds.1, hbounds.2]
  | word =>
    norm_num [Sign.units] at hbounds
    constructor <;> norm_num <;> linarith [hbounds.1, hbounds.2]

/-- The estimates of the clusters lie among the dits and among the dahs, however the marks are
mixed. -/
theorem clusters_mem (hu : 0 < u) {first : F} {rest : List F}
    (h : ∀ x ∈ first :: rest, x ∈ dits u ∨ x ∈ dahs u) (hdit : ∃ x ∈ first :: rest, x ∈ dits u)
    (hdah : ∃ x ∈ first :: rest, x ∈ dahs u) :
    (clusters first (first :: rest)).1 ∈ dits u ∧ (clusters first (first :: rest)).2 ∈ dahs u := by
  obtain ⟨dit, hmem_dit, -, hdit⟩ := hdit
  obtain ⟨dah, hmem_dah, hdah, -⟩ := hdah
  have hlow : ∀ x ∈ first :: rest, 0.8 * u < x := by
    intro x hx
    rcases h x hx with hx | hx
    · exact hx.1
    · exact lt_trans (by norm_num; linarith) hx.1
  have hhigh : ∀ x ∈ first :: rest, x < 3.6 * u := by
    intro x hx
    rcases h x hx with hx | hx
    · exact hx.2.trans (by norm_num; linarith)
    · exact hx.2
  have hapart : TwoMeans.Apart (0.8 * u) (1.2 * u) (2.4 * u) (3.6 * u) := by
    constructor <;> norm_num <;> linarith
  -- the rounds keep them there, so it is enough that the first estimates are
  refine TwoMeans.iterate_mem hapart h 20 ?_ ?_
  · -- the least mark is at most a dit
    exact ⟨TwoMeans.lt_foldl_min (hlow first List.mem_cons_self) hlow,
      (TwoMeans.foldl_min_le (List.mem_cons_of_mem _ hmem_dit)).trans_lt hdit⟩
  · -- the greatest mark is at least a dah
    exact ⟨hdah.trans_le (TwoMeans.le_foldl_max (List.mem_cons_of_mem _ hmem_dah)),
      TwoMeans.foldl_max_lt (hhigh first List.mem_cons_self) hhigh⟩

/-- A run is read as the sign it was keyed for. -/
theorem replay_eq {mark_split : F} {m : CwMorse F} {sign : Sign} {ms : F} (h : Timed u sign ms)
    (hsplit : ∀ x ∈ dits u, x < mark_split) (hsplit' : ∀ x ∈ dahs u, mark_split ≤ x)
    (hdit : m.dit_ms_ ∈ dits u) :
    replay mark_split m (sign.isMark, ms) = { m with toBuffer := m.toBuffer.read sign } := by
  cases sign with
  | gap g => exact CwMorse.onSpace_eq (h.takenFor hdit)
  | mark e =>
    have hmark : (if ms < mark_split then Element.dit else .dah) = e := by
      cases e with
      | dit => exact if_pos (hsplit ms h.mem_dits)
      | dah => exact if_neg (not_lt.2 (hsplit' ms h.mem_dahs))
    show { m with symbol_ := m.symbol_ ++ [if ms < mark_split then Element.dit else .dah] } = _
    rw [hmark]
    rfl

/-- The runs of a keying are read as its signs. -/
theorem foldl_replay {mark_split : F} (hsplit : ∀ x ∈ dits u, x < mark_split)
    (hsplit' : ∀ x ∈ dahs u, mark_split ≤ x) {hop_ms : F} {timing : Timing}
    (h : ∀ p ∈ timing, Timed u p.1 (p.2 * hop_ms)) {m : CwMorse F} (hdit : m.dit_ms_ ∈ dits u) :
    (timing.runs hop_ms).foldl (replay mark_split) m =
      { m with toBuffer := (timing.map Prod.fst).foldl Buffer.read m.toBuffer } := by
  induction timing generalizing m with
  | nil => rfl
  | cons p timing ih =>
    obtain ⟨hp, htiming⟩ := List.forall_mem_cons.1 h
    have hruns : Timing.runs hop_ms (p :: timing) =
        (p.1.isMark, p.2 * hop_ms) :: Timing.runs hop_ms timing := rfl
    rw [hruns, List.foldl_cons, replay_eq hp hsplit hsplit' hdit]
    exact ih htiming hdit

omit [LinearOrder F] [IsStrictOrderedRing F] in
theorem mem_marks {hop_ms : F} {timing : Timing} {x : F} :
    x ∈ marks (timing.runs hop_ms) ↔ ∃ p ∈ timing, p.1.isMark ∧ p.2 * hop_ms = x := by
  simp [marks, Timing.runs]

theorem Timed.mem_dits_or_dahs {sign : Sign} (hmark : sign.isMark) {ms : F} (h : Timed u sign ms) :
    ms ∈ dits u ∨ ms ∈ dahs u := by
  cases sign with
  | gap g => exact absurd hmark Bool.noConfusion
  | mark e =>
    cases e with
    | dit => exact .inl h.mem_dits
    | dah => exact .inr h.mem_dahs

omit [LinearOrder F] [IsStrictOrderedRing F] in
/-- The first run of a keying is a mark. -/
theorem dropWhile_runs {timing : Timing} (halt : Alternating (timing.map Prod.fst)) (hop_ms : F) :
    (timing.runs hop_ms).dropWhile (!·.1) = timing.runs hop_ms := by
  cases timing with
  | nil => rfl
  | cons p timing =>
    -- the signs begin with a mark, by the definition of alternation
    have hmark : p.1.isMark = true := by
      rw [List.map_cons] at halt
      generalize timing.map Prod.fst = signs at halt
      generalize p.1 = sign at halt
      cases halt <;> rfl
    exact List.dropWhile_cons_of_neg (by simp [hmark])

/-- The geometric mean of the estimates separates all dits from all dahs. -/
theorem sqrt_separates {u c₁ c₂ : ℝ} (hu : 0 < u) (h₁ : c₁ ∈ dits u) (h₂ : c₂ ∈ dahs u) :
    (∀ x ∈ dits u, x < √(c₁ * c₂)) ∧ ∀ x ∈ dahs u, √(c₁ * c₂) ≤ x := by
  obtain ⟨hlow₁, hhigh₁⟩ := h₁
  obtain ⟨hlow₂, hhigh₂⟩ := h₂
  norm_num at hlow₁ hhigh₁ hlow₂ hhigh₂
  have hpos₁ : 0 ≤ c₁ := by linarith
  have hpos₂ : 0 ≤ c₂ := by linarith
  constructor
  · rintro x ⟨hlow, hhigh⟩
    norm_num at hlow hhigh
    have hx : 0 ≤ x := by linarith
    refine Real.lt_sqrt_of_sq_lt ?_
    -- the longest dit squared is below the least product
    calc x ^ 2 < (6 / 5 * u) ^ 2 := by gcongr
      _ ≤ 4 / 5 * u * (12 / 5 * u) := by nlinarith
      _ ≤ c₁ * c₂ := by gcongr
  · rintro x ⟨hlow, hhigh⟩
    norm_num at hlow hhigh
    refine Real.sqrt_le_iff.2 ⟨by linarith, ?_⟩
    -- the greatest product is below the shortest dah squared
    calc c₁ * c₂ ≤ 6 / 5 * u * (18 / 5 * u) := by gcongr
      _ ≤ (12 / 5 * u) ^ 2 := by nlinarith
      _ ≤ x ^ 2 := by gcongr

/-- A message with a dit and a dah is decoded from every keying with less than twenty percent of
jitter on each sign, none of them shorter than two and a half hops, between any silences. -/
theorem CwMorse.decodeKeys_of_timed {u : ℝ} (m : CwMorse ℝ) {message : Message}
    (hdit : Sign.mark .dit ∈ message.signs) (hdah : Sign.mark .dah ∈ message.signs)
    {timing : Timing} (hsigns : timing.map Prod.fst = message.signs)
    (htimed : ∀ p ∈ timing, Timed u p.1 (p.2 * m.hop_ms_))
    (hlong : ∀ p ∈ timing, 2.5 * m.hop_ms_ ≤ p.2 * m.hop_ms_) (lead trail : ℕ) :
    m.decodeKeys Real.sqrt
      (List.replicate lead false ++ timing.keys ++ List.replicate trail false) = message.text := by
  obtain ⟨p, hp, hpdit⟩ := List.mem_map.1 (hsigns ▸ hdit)
  obtain ⟨q, hq, hqdah⟩ := List.mem_map.1 (hsigns ▸ hdah)
  have hdit_ms : (p.2 * m.hop_ms_ : ℝ) ∈ dits u := Timed.mem_dits (hpdit ▸ htimed p hp)
  have hdah_ms : (q.2 * m.hop_ms_ : ℝ) ∈ dahs u := Timed.mem_dahs (hqdah ▸ htimed q hq)
  have hu : 0 < u := by
    obtain ⟨hlow, hhigh⟩ := hdit_ms
    norm_num at hlow hhigh
    linarith
  -- a sign without samples would be too short
  have hpos : ∀ p ∈ timing, 0 < p.2 := by
    intro p hp
    refine Nat.pos_of_ne_zero fun hzero => ?_
    have hbounds := (htimed p hp).bounds.1
    rw [hzero, Nat.cast_zero, zero_mul] at hbounds
    have hunits : (0 : ℝ) ≤ p.1.units * u := by positivity
    norm_num at hbounds
    linarith
  have hne : message ≠ [] := by
    rintro rfl
    exact absurd hdit List.not_mem_nil
  have halt : Alternating (timing.map Prod.fst) := hsigns ▸ alternating_message hne
  -- no run is short enough to be taken for a glitch
  have hruns : deglitch (2.5 * m.hop_ms_) (keyRuns m.hop_ms_
      (List.replicate lead false ++ timing.keys ++ List.replicate trail false)) =
      timing.runs m.hop_ms_ := by
    rw [keyRuns_keys halt hpos]
    refine deglitch_of_le fun run hrun => ?_
    obtain ⟨p, hp, rfl⟩ := List.mem_map.1 hrun
    exact hlong p hp
  have hmarks : ∀ x ∈ marks (timing.runs m.hop_ms_), x ∈ dits u ∨ x ∈ dahs u := by
    intro x hx
    obtain ⟨p, hp, hmark, rfl⟩ := mem_marks.1 hx
    exact (htimed p hp).mem_dits_or_dahs hmark
  have hp' : (p.2 * m.hop_ms_ : ℝ) ∈ marks (timing.runs m.hop_ms_) :=
    mem_marks.2 ⟨p, hp, by rw [hpdit]; rfl, rfl⟩
  have hq' : (q.2 * m.hop_ms_ : ℝ) ∈ marks (timing.runs m.hop_ms_) :=
    mem_marks.2 ⟨q, hq, by rw [hqdah]; rfl, rfl⟩
  cases hlist : marks (timing.runs m.hop_ms_) with
  | nil => exact absurd (hlist ▸ hp') List.not_mem_nil
  | cons first rest =>
    rw [hlist] at hmarks hp' hq'
    obtain ⟨hc₁, hc₂⟩ := clusters_mem hu hmarks ⟨_, hp', hdit_ms⟩ ⟨_, hq', hdah_ms⟩
    -- the clusters separate
    have hsplit :
        1.8 * (clusters first (first :: rest)).1 < (clusters first (first :: rest)).2 := by
      have hhigh := hc₁.2
      have hlow := hc₂.1
      norm_num at hhigh hlow ⊢
      linarith
    obtain ⟨hlow, hhigh⟩ := sqrt_separates hu hc₁ hc₂
    have hreset : m.reset.hop_ms_ = m.hop_ms_ := rfl
    have hempty : m.reset.toBuffer = .empty := rfl
    rw [decodeKeys]
    dsimp only
    rw [hreset, hruns, hlist]
    dsimp only
    rw [dropWhile_runs halt, decide_eq_true hsplit, if_pos rfl, if_pos rfl,
      foldl_replay hlow hhigh htimed hc₁, hsigns]
    exact read_signs message

/-- `E T` at 20 words a minute, with a short dit, a long space and a long dah. -/
theorem CwMorse.decodeKeys_of_timed_e_t :
    (new (5 : ℝ) 20).decodeKeys Real.sqrt
      (List.replicate 4 false ++
        Timing.keys [(.mark .dit, 10), (.gap .word, 100), (.mark .dah, 42)] ++
        List.replicate 0 false) = ['E', ' ', 'T'] := by
  refine @decodeKeys_of_timed 60 (new (5 : ℝ) 20) e_t (by decide) (by decide) _ rfl
    (fun p hp => ?_) (fun p hp => ?_) 4 0
  all_goals
    have hhop : (new (5 : ℝ) 20).hop_ms_ = 5 := rfl
    rw [hhop]
    simp only [List.mem_cons, List.not_mem_nil, or_false] at hp
    rcases hp with rfl | rfl | rfl <;> norm_num [Timed, Sign.units, abs_lt]

end GranolaSdr.Cw.Morse
