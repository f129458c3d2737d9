import GranolaSdr.Cw.MorseCode
import Mathlib.Algebra.Order.Field.Basic
import Mathlib.Tactic.Linarith
import Mathlib.Tactic.NormNum

/-!
# The streaming Morse decoder

`CwMorse` of `src/gm/hf/cw_morse.cc`, fed with one key state for each sample. The estimate of the
dit decides what is a dit and what kind a space is, and each mark in turn moves the estimate. The
estimate stays within a half of the true unit, so all signs of a regularly keyed message are told
apart.

## Main definitions

* `CwMorse`, `onMark`, `onSpace`, `edge`, `flush`, `take`: the decoder, in exact arithmetic;
* `Near`: the estimate is between two thirds and one and a half times the unit;
* `keying`: the key states of a message sent at a number of samples for each unit.

## Main results

* `edge_flush_take`: the message is decoded, and the estimate stays near the unit throughout.
-/

namespace GranolaSdr.Cw.Morse

/-- The state of the decoder, but for what `push` tracks of the envelope. -/
structure CwMorse (F : Type*) extends Buffer where
  hop_ms_ : F
  init_dit_ms_ : F
  dit_ms_ : F
  /-- Whether the key is down. -/
  key_ : Bool
  /-- The samples in the current run. -/
  run_ : ℕ
  /-- Whether the key has been down. -/
  started_ : Bool

namespace CwMorse

variable {F : Type*} [Field F] [LinearOrder F]

/-- `reset` -/
def reset (m : CwMorse F) : CwMorse F :=
  { m with
    toBuffer := .empty
    dit_ms_ := m.init_dit_ms_
    key_ := false
    run_ := 0
    started_ := false }

/-- A new decoder. -/
def new (hop_ms init_wpm : F) : CwMorse F :=
  reset
    { toBuffer := .empty
      hop_ms_ := hop_ms
      init_dit_ms_ := 1200 / init_wpm
      dit_ms_ := 1200 / init_wpm
      key_ := false
      run_ := 0
      started_ := false }

/-- The estimate of the dit, pulled toward the unit that was observed and clamped. -/
def adapt (dit_ms target : F) : F :=
  let dit_ms := dit_ms + (target - dit_ms) * 0.15
  let dit_ms := if dit_ms < 15 then 15 else dit_ms
  if 240 < dit_ms then 240 else dit_ms

/-- `onMark` -/
def onMark (m : CwMorse F) (ms : F) : CwMorse F :=
  if ms ≤ 0 then m
  else if ms < 2 * m.dit_ms_ then
    { m with symbol_ := m.symbol_ ++ [.dit], dit_ms_ := adapt m.dit_ms_ ms }
  else { m with symbol_ := m.symbol_ ++ [.dah], dit_ms_ := adapt m.dit_ms_ (ms / 3) }

/-- `onSpace` -/
def onSpace (m : CwMorse F) (ms : F) : CwMorse F :=
  if m.symbol_ = [] then m
  else if ms < 1.73 * m.dit_ms_ then m
  else if ms < 4.58 * m.dit_ms_ then { m with toBuffer := m.flushSymbol false }
  else { m with toBuffer := m.flushSymbol true }

/-- `edge` -/
def edge (m : CwMorse F) (key_now : Bool) : CwMorse F :=
  if key_now ≠ m.key_ then
    let ms := m.run_ * m.hop_ms_
    -- the leading space is ignored
    let m := if m.key_ then m.onMark ms else if m.started_ then m.onSpace ms else m
    { m with key_ := key_now, run_ := 1, started_ := m.started_ || key_now }
  else { m with run_ := m.run_ + 1 }

/-- `flush` -/
def flush (m : CwMorse F) : CwMorse F :=
  let m :=
    if m.key_ ∧ 0 < m.run_ then
      { m.onMark (m.run_ * m.hop_ms_) with key_ := false, run_ := 0 }
    else m
  { m with toBuffer := m.flushSymbol false }

/-- `take` -/
def take (m : CwMorse F) : Text × CwMorse F := (m.text_, { m with text_ := [] })

/-! ## Runs of samples -/

/-- The decoder once the current run has ended. -/
def closed (m : CwMorse F) : CwMorse F :=
  if m.key_ then m.onMark (m.run_ * m.hop_ms_)
  else if m.started_ then m.onSpace (m.run_ * m.hop_ms_)
  else m

theorem edge_of_ne {m : CwMorse F} {key_now : Bool} (h : key_now ≠ m.key_) :
    m.edge key_now =
      { m.closed with key_ := key_now, run_ := 1, started_ := m.closed.started_ || key_now } :=
  if_pos h

theorem foldl_edge_of_eq {m : CwMorse F} {key_now : Bool} (h : m.key_ = key_now) (n : ℕ) :
    (List.replicate n key_now).foldl edge m = { m with run_ := m.run_ + n } := by
  induction n generalizing m with
  | zero => rfl
  | succ n ih =>
    have hedge : m.edge key_now = { m with run_ := m.run_ + 1 } := if_neg (not_not.2 h.symm)
    have hnext : (m.edge key_now).key_ = key_now := by rw [hedge]; exact h
    rw [List.replicate_succ, List.foldl_cons, ih hnext, hedge]
    simp only [Nat.add_assoc, Nat.add_comm 1 n]

/-- The first sample of a new run ends the old one, and the others are counted. -/
theorem foldl_edge_of_ne {m : CwMorse F} {key_now : Bool} (h : key_now ≠ m.key_) (n : ℕ) :
    (List.replicate (n + 1) key_now).foldl edge m =
      { m.closed with
        key_ := key_now, run_ := n + 1, started_ := m.closed.started_ || key_now } := by
  rw [List.replicate_succ, List.foldl_cons, edge_of_ne h, foldl_edge_of_eq rfl]
  simp only [Nat.add_comm 1 n]

theorem onMark_hop (m : CwMorse F) (ms : F) : (m.onMark ms).hop_ms_ = m.hop_ms_ := by
  unfold onMark
  split_ifs <;> rfl

theorem onSpace_hop (m : CwMorse F) (ms : F) : (m.onSpace ms).hop_ms_ = m.hop_ms_ := by
  unfold onSpace
  split_ifs <;> rfl

theorem closed_hop (m : CwMorse F) : m.closed.hop_ms_ = m.hop_ms_ := by
  unfold closed
  split_ifs
  · exact onMark_hop m _
  · exact onSpace_hop m _
  · rfl

theorem closed_started (m : CwMorse F) : m.closed.started_ = m.started_ := by
  unfold closed onMark onSpace
  split_ifs <;> rfl

/-! ## Telling the signs apart -/

/-- An estimate of the dit by which a space of some length is taken for one of a kind. -/
def TakenFor (dit_ms : F) : Gap → F → Prop
  | .element, ms => ms < 1.73 * dit_ms
  | .letter, ms => 1.73 * dit_ms ≤ ms ∧ ms < 4.58 * dit_ms
  | .word, ms => 1.73 * dit_ms ≤ ms ∧ 4.58 * dit_ms ≤ ms

theorem onSpace_eq {m : CwMorse F} {g : Gap} {ms : F} (h : TakenFor m.dit_ms_ g ms) :
    m.onSpace ms = { m with toBuffer := m.toBuffer.read (.gap g) } := by
  unfold onSpace Buffer.read
  by_cases hsymbol : m.symbol_ = []
  · simp only [if_pos hsymbol]
  · simp only [if_neg hsymbol]
    cases g with
    | element => exact if_pos h
    | letter => rw [if_neg (not_lt.2 h.1), if_pos h.2]
    | word => rw [if_neg (not_lt.2 h.1), if_neg (not_lt.2 h.2)]

end CwMorse

/-! ## The estimate of the dit -/

variable {F : Type*} [Field F] [LinearOrder F]

/-- The estimate of the dit is between two thirds and one and a half times the unit. -/
def Near (u dit_ms : F) : Prop := 2 / 3 * u ≤ dit_ms ∧ dit_ms ≤ 3 / 2 * u

/-- The units that a sign lasts. -/
def Sign.units : Sign → ℕ
  | .mark .dit => 1
  | .mark .dah => 3
  | .gap .element => 1
  | .gap .letter => 3
  | .gap .word => 7

/-- The key states of some signs, at a number of samples for each unit. -/
def keying (samples : ℕ) (signs : List Sign) : List Bool :=
  signs.flatMap fun sign => List.replicate (sign.units * samples) sign.isMark

namespace CwMorse

/-- The estimate is near the unit after every sample. -/
def Steady (u : F) (m : CwMorse F) (keys : List Bool) : Prop :=
  ∀ p, p <+: keys → Near u (p.foldl edge m).dit_ms_

variable {u : F}

theorem Steady.append {m : CwMorse F} {keys keys' : List Bool} (h : Steady u m keys)
    (h' : Steady u (keys.foldl edge m) keys') : Steady u m (keys ++ keys') := by
  intro p hp
  rcases List.prefix_or_prefix_of_prefix hp (List.prefix_append keys keys') with hp' | ⟨q, rfl⟩
  · exact h p hp'
  · rw [List.foldl_append]
    exact h' q ((List.prefix_append_right_inj keys).1 hp)

/-- The estimate changes at the first sample of a run only. -/
theorem steady_replicate {m : CwMorse F} (h : Near u m.dit_ms_) (hclosed : Near u m.closed.dit_ms_)
    (n : ℕ) (key_now : Bool) : Steady u m (List.replicate n key_now) := by
  intro p hp
  -- a prefix is a shorter run of the same state
  obtain ⟨-, hp⟩ := List.prefix_replicate_iff.1 hp
  rw [hp]
  rcases eq_or_ne key_now m.key_ with heq | hne
  · -- no edge
    rw [foldl_edge_of_eq heq.symm]
    exact h
  · -- an edge, unless there are no samples at all
    cases p.length with
    | zero => exact h
    | succ n =>
      rw [foldl_edge_of_ne hne]
      exact hclosed

variable [IsStrictOrderedRing F]

/-- The estimate moves toward the unit, and a bound that it is clamped to lies between the two. -/
theorem near_adapt (hlo : 15 ≤ u) (hhi : u ≤ 240) {dit_ms : F} (h : Near u dit_ms) :
    Near u (adapt dit_ms u) := by
  obtain ⟨hlow, hhigh⟩ := h
  have hmoved : Near u (dit_ms + (u - dit_ms) * 0.15) := by
    constructor <;> norm_num <;> linarith
  obtain ⟨hlow, hhigh⟩ := hmoved
  unfold adapt
  dsimp only
  split_ifs <;> constructor <;> linarith

/-- A mark is taken for what it is. -/
theorem onMark_spec (hlo : 15 ≤ u) (hhi : u ≤ 240) {m : CwMorse F} (hnear : Near u m.dit_ms_)
    (e : Element) :
    (m.onMark ((Sign.mark e).units * u)).toBuffer = m.toBuffer.read (.mark e) ∧
      Near u (m.onMark ((Sign.mark e).units * u)).dit_ms_ := by
  have hadapt := near_adapt hlo hhi hnear
  obtain ⟨hlow, hhigh⟩ := hnear
  cases e with
  | dit =>
    have hms : ((Sign.mark .dit).units : F) * u = u := by rw [Sign.units, Nat.cast_one, one_mul]
    have hpos : ¬u ≤ 0 := by linarith
    -- a unit is less than twice an estimate of two thirds of it
    have hdit : u < 2 * m.dit_ms_ := by linarith
    rw [hms, onMark, if_neg hpos, if_pos hdit]
    exact ⟨rfl, hadapt⟩
  | dah =>
    have hms : ((Sign.mark .dah).units : F) * u = 3 * u := by rw [Sign.units, Nat.cast_ofNat]
    have hpos : ¬3 * u ≤ 0 := by linarith
    -- three units are at least twice an estimate of one and a half
    have hdah : ¬3 * u < 2 * m.dit_ms_ := by linarith
    rw [hms, onMark, if_neg hpos, if_neg hdah, mul_div_cancel_left₀ u three_ne_zero]
    exact ⟨rfl, hadapt⟩

/-- A space is taken for what it is. -/
theorem onSpace_spec (hu : 0 < u) {m : CwMorse F} (hnear : Near u m.dit_ms_) (g : Gap) :
    m.onSpace ((Sign.gap g).units * u) = { m with toBuffer := m.toBuffer.read (.gap g) } := by
  obtain ⟨hlow, hhigh⟩ := hnear
  refine onSpace_eq ?_
  cases g with
  | element =>
    show ((Sign.gap .element).units : F) * u < 1.73 * m.dit_ms_
    norm_num [Sign.units]
    linarith
  | letter => constructor <;> norm_num [Sign.units] <;> linarith
  | word => constructor <;> norm_num [Sign.units] <;> linarith

/-! ## Messages -/

/-- What is known when a mark is about to begin or has begun: ending the current run leaves these
buffers, and an estimate near the unit. -/
structure Ends (u : F) (m : CwMorse F) (b : Buffer) : Prop where
  buffer : m.closed.toBuffer = b
  near : Near u m.dit_ms_
  near_closed : Near u m.closed.dit_ms_

section Message

variable {hop_ms : F} {samples : ℕ} (hunit : u = samples * hop_ms) (hlo : 15 ≤ u) (hhi : u ≤ 240)

omit [LinearOrder F] [IsStrictOrderedRing F] in
include hunit in
theorem units_mul (sign : Sign) : ((sign.units * samples : ℕ) : F) * hop_ms = sign.units * u := by
  rw [hunit, Nat.cast_mul, mul_assoc]

include hunit hlo in
theorem run_pos (sign : Sign) : 0 < sign.units * samples := by
  have hsamples : samples ≠ 0 := by
    rintro rfl
    rw [Nat.cast_zero, zero_mul] at hunit
    linarith
  have hunits : 0 < sign.units := by
    cases sign with
    | mark e => cases e <;> decide
    | gap g => cases g <;> decide
  exact Nat.mul_pos hunits (Nat.pos_of_ne_zero hsamples)

include hunit hlo hhi in
/-- The run of a mark, up to its end. -/
theorem ends_mark {m : CwMorse F} (hkey : m.key_ = false) (hhop : m.hop_ms_ = hop_ms) {b : Buffer}
    (h : Ends u m b) (e : Element) :
    let m' := (List.replicate ((Sign.mark e).units * samples) true).foldl edge m
    m'.key_ = true ∧ m'.started_ ∧ 0 < m'.run_ ∧ m'.hop_ms_ = hop_ms ∧
      Ends u m' (b.read (.mark e)) := by
  have hrun := run_pos hunit hlo (.mark e)
  obtain ⟨n, hn⟩ := Nat.exists_eq_add_of_lt hrun
  rw [Nat.zero_add] at hn
  have hne : true ≠ m.key_ := by rw [hkey]; exact Bool.noConfusion
  intro m'
  -- the first sample ends the silence or the space, and the others lengthen the run
  have hm' : m' = { m.closed with
      key_ := true, run_ := n + 1, started_ := m.closed.started_ || true } := by
    rw [← foldl_edge_of_ne hne, ← hn]
  have hhop' : m'.hop_ms_ = hop_ms := by rw [hm', ← hhop]; exact closed_hop m
  have hclosed : m'.closed = m'.onMark ((Sign.mark e).units * u) := by
    rw [closed, if_pos (by rw [hm']), hhop', ← units_mul hunit, hm', hn]
  have hnear : Near u m'.dit_ms_ := by rw [hm']; exact h.near_closed
  obtain ⟨hbuffer, hnear'⟩ := onMark_spec hlo hhi hnear e
  have hb : m'.toBuffer = b := by rw [hm']; exact h.buffer
  refine ⟨by rw [hm'], by rw [hm', Bool.or_true], by rw [hm']; exact Nat.succ_pos n, hhop', ?_⟩
  exact ⟨by rw [hclosed, hbuffer, hb], hnear, hclosed ▸ hnear'⟩

include hunit hlo in
/-- The run of the space after a mark, up to its end. -/
theorem ends_gap {m : CwMorse F} (hkey : m.key_ = true) (hstarted : m.started_)
    (hhop : m.hop_ms_ = hop_ms) {b : Buffer} (h : Ends u m b) (g : Gap) :
    let m' := (List.replicate ((Sign.gap g).units * samples) false).foldl edge m
    m'.key_ = false ∧ m'.hop_ms_ = hop_ms ∧ Ends u m' (b.read (.gap g)) := by
  have hrun := run_pos hunit hlo (.gap g)
  obtain ⟨n, hn⟩ := Nat.exists_eq_add_of_lt hrun
  rw [Nat.zero_add] at hn
  have hne : false ≠ m.key_ := by rw [hkey]; exact Bool.noConfusion
  intro m'
  -- the first sample ends the mark
  have hm' : m' = { m.closed with
      key_ := false, run_ := n + 1, started_ := m.closed.started_ || false } := by
    rw [← foldl_edge_of_ne hne, ← hn]
  have hhop' : m'.hop_ms_ = hop_ms := by rw [hm', ← hhop]; exact closed_hop m
  have hstarted' : m'.started_ = true := by
    rw [hm', Bool.or_false, closed_started]
    exact hstarted
  have hnear : Near u m'.dit_ms_ := by rw [hm']; exact h.near_closed
  -- a unit is a whole number of hops, so the run lasts exactly that of the sign
  have hms : (m'.run_ : F) * m'.hop_ms_ = (Sign.gap g).units * u := by
    rw [hhop', ← units_mul hunit, hm', hn]
  have hclosed : m'.closed = { m' with toBuffer := m'.toBuffer.read (.gap g) } := by
    rw [closed, if_neg (by rw [hm']; exact Bool.noConfusion), if_pos hstarted', hms]
    exact onSpace_spec (by linarith) hnear g
  have hb : m'.toBuffer = b := by rw [hm']; exact h.buffer
  refine ⟨by rw [hm'], hhop', ?_⟩
  exact ⟨by rw [hclosed, ← hb], hnear, by rw [hclosed]; exact hnear⟩

include hunit hlo hhi in
/-- The samples of some signs, up to the end of the last mark: by induction over the marks, from
what ending the current run leaves to what ending the last mark leaves. -/
theorem ends_keying {signs : List Sign} (halt : Alternating signs) {m : CwMorse F}
    (hkey : m.key_ = false) (hhop : m.hop_ms_ = hop_ms) {b : Buffer} (h : Ends u m b) :
    let m' := (keying samples signs).foldl edge m
    m'.key_ = true ∧ 0 < m'.run_ ∧ m'.hop_ms_ = hop_ms ∧ Ends u m' (signs.foldl Buffer.read b) ∧
      Steady u m (keying samples signs) := by
  induction halt generalizing m b with
  | mark e =>
    obtain ⟨hkey', -, hrun', hhop', hends⟩ := ends_mark hunit hlo hhi hkey hhop h e
    have hkeying : keying samples [.mark e] =
        List.replicate ((Sign.mark e).units * samples) true := List.append_nil _
    rw [hkeying]
    exact ⟨hkey', hrun', hhop', hends, steady_replicate h.near h.near_closed _ _⟩
  | @cons e g signs halt ih =>
    obtain ⟨hkey₁, hstarted₁, -, hhop₁, hends₁⟩ := ends_mark hunit hlo hhi hkey hhop h e
    obtain ⟨hkey₂, hhop₂, hends₂⟩ := ends_gap hunit hlo hkey₁ hstarted₁ hhop₁ hends₁ g
    obtain ⟨hkey', hrun', hhop', hends, hsteady⟩ := ih hkey₂ hhop₂ hends₂
    have hkeying : keying samples (.mark e :: .gap g :: signs) =
        List.replicate ((Sign.mark e).units * samples) true ++
          (List.replicate ((Sign.gap g).units * samples) false ++ keying samples signs) := rfl
    rw [hkeying, List.foldl_append, List.foldl_append]
    refine ⟨hkey', hrun', hhop', hends, ?_⟩
    exact (steady_replicate h.near h.near_closed _ _).append
      ((steady_replicate hends₁.near hends₁.near_closed _ _).append hsteady)

/-- The key states of a message between two silences. -/
def transmission (samples : ℕ) (message : Message) (lead trail : ℕ) : List Bool :=
  List.replicate lead false ++ keying samples message.signs ++ List.replicate trail false

omit [IsStrictOrderedRing F] in
/-- Flushing while the key is down, or after the last mark, ends the last letter. -/
theorem flush_spec {m : CwMorse F} (hkey : m.key_ = true) (hrun : 0 < m.run_) (trail : ℕ) :
    ((List.replicate trail false).foldl edge m).flush.toBuffer =
        m.closed.toBuffer.flushSymbol false ∧
      ((List.replicate trail false).foldl edge m).flush.dit_ms_ = m.closed.dit_ms_ := by
  have hclosed : m.closed = m.onMark (m.run_ * m.hop_ms_) := if_pos hkey
  cases trail with
  | zero =>
    -- the key is down, and flushing ends the mark
    rw [hclosed, List.replicate_zero, List.foldl_nil, flush, if_pos ⟨hkey, hrun⟩]
    exact ⟨rfl, rfl⟩
  | succ trail =>
    -- the first sample of the silence has ended the mark
    have hne : false ≠ m.key_ := by rw [hkey]; exact Bool.noConfusion
    rw [foldl_edge_of_ne hne, flush, if_neg (by simp)]
    exact ⟨rfl, rfl⟩

include hunit hlo hhi in
/-- A message keyed at a unit between 15 and 240 ms that is a whole number of hops, between any
silences, is decoded exactly, if the first estimate of the dit is near the unit, and the estimate
stays near it. -/
theorem edge_flush_take {init_wpm : F} (hseed : Near u (1200 / init_wpm)) (message : Message)
    (lead trail : ℕ) :
    let m := (transmission samples message lead trail).foldl edge (new hop_ms init_wpm)
    m.flush.take.1 = message.text ∧ Near u m.flush.dit_ms_ ∧
      ∀ p, p <+: transmission samples message lead trail →
        Near u (p.foldl edge (new hop_ms init_wpm)).dit_ms_ := by
  have hlead : (List.replicate lead false).foldl edge (new hop_ms init_wpm) =
      { new hop_ms init_wpm with run_ := 0 + lead } := foldl_edge_of_eq rfl lead
  set m₀ := (List.replicate lead false).foldl edge (new hop_ms init_wpm) with hm₀
  -- the leading silence is no space, as nothing has started
  have hclosed₀ : m₀.closed = m₀ := by rw [hlead]; rfl
  have hnear₀ : Near u m₀.dit_ms_ := by rw [hlead]; exact hseed
  have hends₀ : Ends u m₀ .empty :=
    ⟨by rw [hclosed₀, hlead]; rfl, hnear₀, by rwa [hclosed₀]⟩
  have hsteady₀ : Steady u (new hop_ms init_wpm) (List.replicate lead false) :=
    steady_replicate hseed hseed lead false
  intro m
  have hm : m = (List.replicate trail false).foldl edge
      ((keying samples message.signs).foldl edge m₀) := by
    rw [hm₀, ← List.foldl_append, ← List.foldl_append, ← List.append_assoc]
    rfl
  by_cases hne : message = []
  · -- nothing but silence
    subst hne
    have hm' : m = { m₀ with run_ := m₀.run_ + trail } := by
      rw [hm]
      exact foldl_edge_of_eq (by rw [hlead]; rfl) trail
    refine ⟨?_, ?_, ?_⟩
    · rw [hm', hlead]
      rfl
    · rw [hm', hlead]
      exact hseed
    · refine Steady.append (Steady.append hsteady₀ ?_) ?_
      · exact steady_replicate hnear₀ (by rwa [hclosed₀]) 0 false
      · rw [List.foldl_append]
        exact steady_replicate hnear₀ (by rwa [hclosed₀]) trail false
  · obtain ⟨hkey, hrun, -, hends, hsteady⟩ := ends_keying hunit hlo hhi
      (alternating_message hne) (by rw [hlead]; rfl) (by rw [hlead]; rfl) hends₀
    obtain ⟨hbuffer, hdit⟩ := flush_spec hkey hrun trail
    rw [← hm, hends.buffer] at hbuffer
    rw [← hm] at hdit
    refine ⟨?_, by rw [hdit]; exact hends.near_closed, ?_⟩
    · rw [take, hbuffer]
      exact read_signs message
    · refine (hsteady₀.append hsteady).append ?_
      rw [List.foldl_append]
      exact steady_replicate hends.near hends.near_closed trail false

end Message

/-- The message `E T`. -/
def e_t : Message :=
  [⟨[⟨([.dit], 'E'), by decide⟩], by simp⟩, ⟨[⟨([.dah], 'T'), by decide⟩], by simp⟩]

/-- `E T` at 20 words a minute, up to the end of the last mark. -/
theorem edge_flush_take_e_t :
    let m := (transmission 12 e_t 4 0).foldl edge (new (5 : ℚ) 20)
    m.flush.take.1 = ['E', ' ', 'T'] ∧ Near 60 m.flush.dit_ms_ ∧
      ∀ p, p <+: transmission 12 e_t 4 0 → Near 60 (p.foldl edge (new (5 : ℚ) 20)).dit_ms_ :=
  edge_flush_take (by norm_num) (by norm_num) (by norm_num) ⟨by norm_num, by norm_num⟩ e_t 4 0

end CwMorse

end GranolaSdr.Cw.Morse
