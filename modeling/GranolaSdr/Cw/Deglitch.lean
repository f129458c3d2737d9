import GranolaSdr.Cw.MorseRuns
import Mathlib.Algebra.Group.Nat.Even

/-!
# De-glitching runs

The de-glitching of `CwMorse::decode` goes over the runs by index and erases two of them at a time,
so that what it looks at next has moved. It still ends on any runs, and what it leaves are runs of
the input, or sums of neighbours: each of an odd number of runs, whose key state is the first one's.
No run that is left is short, and the key states alternate as before.

## Main definitions

* `absorbFrom`, `deglitchLoop`: the loops, cut off after some rounds;
* `AlternatingRuns`: runs whose key states alternate;
* `SumOf`: a run that sums a group of runs.

## Main results

* `deglitchLoop_eq`: the loops end with the de-glitched runs;
* `deglitch_spec`: what the de-glitched runs are.
-/

namespace GranolaSdr.Cw.Morse

variable {F : Type*} [Field F] [LinearOrder F]

/-! ## The loop over the indices -/

/-- The loop over the indices from `i`, cut off after `fuel` rounds. -/
def absorbFrom (glitch : F) : ℕ → ℕ → List (Run F) → Option (List (Run F))
  | 0, _, _ => none
  | fuel + 1, i, runs =>
    match runs[i - 1]?, runs[i]?, runs[i + 1]? with
    | some before, some short, some after =>
      if short.2 < glitch then
        let runs := runs.set (i - 1) (before.1, before.2 + (short.2 + after.2))
        -- `runs[i]` is another run now
        absorbFrom glitch fuel i (runs.take i ++ runs.drop (i + 2))
      else absorbFrom glitch fuel (i + 1) runs
    | _, _, _ => some runs

/-- The de-glitching, with its loop cut off after `fuel` rounds. -/
def deglitchLoop (fuel : ℕ) (glitch : F) (runs : List (Run F)) : Option (List (Run F)) :=
  (absorbFrom glitch fuel 1 (runs.dropWhile (·.2 < glitch))).map (·.rdropWhile (·.2 < glitch))

variable {glitch : F}

/-- A round of the loop, at the run behind `before`. -/
theorem absorbFrom_round (pre runs : List (Run F)) (before short after : Run F) (fuel : ℕ) :
    absorbFrom glitch (fuel + 1) (pre.length + 1) (pre ++ before :: short :: after :: runs) =
      if short.2 < glitch then
        absorbFrom glitch fuel (pre.length + 1)
          (pre ++ (before.1, before.2 + (short.2 + after.2)) :: runs)
      else absorbFrom glitch fuel (pre.length + 2) (pre ++ before :: short :: after :: runs) := by
  have hafter : (pre ++ before :: short :: after :: runs)[pre.length + 1 + 1]? = some after := by
    rw [List.getElem?_append_right (by omega), show pre.length + 1 + 1 - pre.length = 2 by omega]
    rfl
  have hdrop (x : Run F) :
      (pre ++ x :: short :: after :: runs).drop (pre.length + 1 + 2) = runs := by
    rw [Nat.add_assoc, List.drop_length_add_append]
    rfl
  simp [absorbFrom, hafter, hdrop, List.take_append, List.take_of_length_le (Nat.le_succ _)]

/-- From an index on, the loop leaves the runs up to there, and absorbs the others. -/
theorem absorbFrom_append (pre runs : List (Run F)) {fuel : ℕ} (h : runs.length < fuel) :
    absorbFrom glitch fuel (pre.length + 1) (pre ++ runs) = some (pre ++ absorb glitch runs) := by
  obtain ⟨fuel, rfl⟩ : ∃ n, fuel = n + 1 := ⟨fuel - 1, by omega⟩
  fun_induction absorb glitch runs generalizing pre fuel with
  | case1 before short after runs hshort ih =>
    simp only [List.length_cons] at h ih
    obtain ⟨fuel, rfl⟩ : ∃ n, fuel = n + 1 := ⟨fuel - 1, by omega⟩
    rw [absorbFrom_round, if_pos hshort]
    exact ih pre fuel (by omega)
  | case2 before short after runs hshort ih =>
    simp only [List.length_cons] at h ih
    obtain ⟨fuel, rfl⟩ : ∃ n, fuel = n + 1 := ⟨fuel - 1, by omega⟩
    rw [absorbFrom_round, if_neg hshort]
    simpa using ih (pre ++ [before]) fuel (by omega)
  | case3 runs hruns =>
    -- fewer than three runs are left
    match runs with
    | [] => simp [absorbFrom]
    | [_] => simp [absorbFrom]
    | [_, _] => simp [absorbFrom]
    | before :: short :: after :: runs => exact absurd rfl (hruns before short after runs)

/-- The loop ends, on any runs, and with the de-glitched ones. -/
theorem deglitchLoop_eq (runs : List (Run F)) {fuel : ℕ} (h : runs.length < fuel) :
    deglitchLoop fuel glitch runs = some (deglitch glitch runs) := by
  have hlen : (runs.dropWhile (·.2 < glitch)).length < fuel :=
    (List.dropWhile_sublist _).length_le.trans_lt h
  rw [deglitchLoop, deglitch]
  exact congrArg _ (absorbFrom_append [] _ hlen)

/-! ## What is left -/

/-- The key states of the runs alternate. -/
def AlternatingRuns (runs : List (Run F)) : Prop := (runs.map Prod.fst).IsChain (· ≠ ·)

/-- A run that sums an odd number of runs, with the key state of the first. -/
structure SumOf (group : List (Run F)) (run : Run F) : Prop where
  odd : Odd group.length
  key : (group.map Prod.fst).head? = some run.1
  ms : run.2 = (group.map Prod.snd).sum

theorem alternatingRuns_absorb (runs : List (Run F)) (h : AlternatingRuns runs) :
    AlternatingRuns (absorb glitch runs) ∧
      ((absorb glitch runs).map Prod.fst).head? = (runs.map Prod.fst).head? := by
  fun_induction absorb glitch runs with
  | case1 before short after runs hshort ih =>
    -- the key states of the neighbours of a run are equal, so the merged run fits in their place
    simp only [AlternatingRuns, List.map_cons, List.isChain_cons_cons] at h ih
    obtain ⟨hbefore, hafter, hruns⟩ := h
    have hkey : before.1 = after.1 :=
      (Bool.eq_not_iff.2 hbefore).trans (Bool.eq_not_iff.2 hafter.symm).symm
    exact ih (hkey ▸ hruns)
  | case2 before short after runs hshort ih =>
    simp only [AlternatingRuns, List.map_cons, List.isChain_cons_cons] at h ih
    obtain ⟨hbefore, hruns⟩ := h
    obtain ⟨ih, hhead⟩ := ih hruns
    refine ⟨?_, rfl⟩
    rw [AlternatingRuns, List.map_cons, List.isChain_cons]
    refine ⟨?_, ih⟩
    intro key hkey
    rw [hhead] at hkey
    exact (Option.some_inj.1 hkey) ▸ hbefore
  | case3 runs hruns => exact ⟨h, rfl⟩

omit [LinearOrder F] in
theorem SumOf.singleton (run : Run F) : SumOf [run] run := ⟨odd_one, rfl, by simp⟩

omit [LinearOrder F] in
/-- The two runs behind a run join its group. -/
theorem SumOf.absorb {before short after run : Run F} {group : List (Run F)}
    (h : SumOf ((before.1, before.2 + (short.2 + after.2)) :: group) run) :
    SumOf (before :: short :: after :: group) run := by
  obtain ⟨hodd, hkey, hms⟩ := h
  refine ⟨?_, hkey, ?_⟩
  · simpa [Nat.odd_add_one, Nat.even_add_one] using hodd
  · simpa [add_assoc] using hms

/-- What the absorbing leaves: the sums of some groups of runs, none of them short, and short runs
behind them. -/
def Grouped (glitch : F) (runs absorbed : List (Run F)) : Prop :=
  ∃ groups left back, runs = groups.flatten ++ back ∧ absorbed = left ++ back ∧
    List.Forall₂ SumOf groups left ∧ (∀ run ∈ left, glitch ≤ run.2) ∧
    ∀ run ∈ back, run.2 < glitch

theorem grouped_nil : Grouped glitch [] [] := ⟨[], [], [], by simp⟩

/-- A run that is not short is a group of its own. -/
theorem Grouped.cons {run : Run F} {runs absorbed : List (Run F)} (h : Grouped glitch runs absorbed)
    (hrun : glitch ≤ run.2) : Grouped glitch (run :: runs) (run :: absorbed) := by
  obtain ⟨groups, left, back, rfl, rfl, hsum, hleft, hback⟩ := h
  refine ⟨[run] :: groups, run :: left, back, by simp, rfl, ?_, ?_, hback⟩
  · exact hsum.cons (SumOf.singleton run)
  · exact List.forall_mem_cons.2 ⟨hrun, hleft⟩

/-- The group of a merged run has the two runs behind it as well. -/
theorem Grouped.absorb {before short after : Run F} {runs absorbed : List (Run F)}
    (h : Grouped glitch ((before.1, before.2 + (short.2 + after.2)) :: runs) absorbed)
    (hmerged : glitch ≤ before.2 + (short.2 + after.2)) :
    Grouped glitch (before :: short :: after :: runs) absorbed := by
  obtain ⟨groups, left, back, hruns, rfl, hsum, hleft, hback⟩ := h
  cases hsum with
  | nil =>
    -- the merged run is not short
    refine absurd (hback (before.1, before.2 + (short.2 + after.2)) ?_) hmerged.not_gt
    rw [List.flatten_nil, List.nil_append] at hruns
    exact hruns ▸ List.mem_cons_self
  | @cons group run groups left hgroup hsum =>
    obtain _ | ⟨first, group⟩ := group
    · exact absurd hgroup.odd (by simp)
    simp only [List.flatten_cons, List.cons_append, List.cons.injEq] at hruns
    obtain ⟨rfl, rfl⟩ := hruns
    exact ⟨(before :: short :: after :: group) :: groups, run :: left, back, by simp, rfl,
      hsum.cons hgroup.absorb, hleft, hback⟩

variable [IsStrictOrderedRing F]

/-- Absorbing leaves sums of groups, if the first run is not short. Only the last run may be. -/
theorem grouped_absorb (runs : List (Run F)) (hfirst : ∀ run ∈ runs.head?, glitch ≤ run.2)
    (hpos : ∀ run ∈ runs, 0 < run.2) : Grouped glitch runs (absorb glitch runs) := by
  fun_induction Morse.absorb glitch runs with
  | case1 before short after runs hshort ih =>
    simp only [List.forall_mem_cons, List.head?_cons, Option.mem_some_iff, forall_eq'] at *
    obtain ⟨hbefore, hpshort, hafter, hruns⟩ := hpos
    have hmerged : glitch ≤ before.2 + (short.2 + after.2) := by linarith
    exact (ih hmerged ⟨by linarith, hruns⟩).absorb hmerged
  | case2 before short after runs hshort ih =>
    simp only [List.forall_mem_cons, List.head?_cons, Option.mem_some_iff, forall_eq'] at *
    exact (ih (not_lt.1 hshort) hpos.2).cons hfirst
  | case3 runs hruns =>
    match runs with
    | [] => exact grouped_nil
    | [first] => exact grouped_nil.cons (hfirst first rfl)
    | [first, last] =>
      apply Grouped.cons _ (hfirst first rfl)
      rcases le_or_gt glitch last.2 with hlast | hlast
      · exact grouped_nil.cons hlast
      · exact ⟨[], [], [last], rfl, rfl, List.Forall₂.nil, by simp, by simpa using hlast⟩
    | before :: short :: after :: runs => exact absurd rfl (hruns before short after runs)

omit [Field F] in
/-- Dropping short runs at the end leaves those before them, if none of these is short. -/
theorem rdropWhile_append {left back : List (Run F)} (hleft : ∀ run ∈ left, glitch ≤ run.2)
    (hback : ∀ run ∈ back, run.2 < glitch) :
    (left ++ back).rdropWhile (·.2 < glitch) = left := by
  have hreverse : ∀ run ∈ left.reverse, glitch ≤ run.2 := by simpa using hleft
  rw [List.rdropWhile, List.reverse_append, List.dropWhile_append_of_pos (by simpa using hback),
    dropWhile_of_le hreverse, List.reverse_reverse]

/-- The de-glitching ends on any runs. Those that are left alternate, none of them is short, and
they sum the groups of a part of the input, around which all runs are short. -/
theorem deglitch_spec (runs : List (Run F)) (halt : AlternatingRuns runs)
    (hpos : ∀ run ∈ runs, 0 < run.2) (glitch : F) :
    (∀ fuel, runs.length < fuel →
        deglitchLoop fuel glitch runs = some (deglitch glitch runs)) ∧
      AlternatingRuns (deglitch glitch runs) ∧
      (∀ run ∈ deglitch glitch runs, glitch ≤ run.2) ∧
      ∃ front groups back, runs = front ++ groups.flatten ++ back ∧
        (∀ run ∈ front ++ back, run.2 < glitch) ∧
        List.Forall₂ SumOf groups (deglitch glitch runs) := by
  refine ⟨fun fuel => deglitchLoop_eq runs, ?_⟩
  set front := runs.takeWhile (·.2 < glitch) with hfront
  set kept := runs.dropWhile (·.2 < glitch) with hkept
  have hruns : runs = front ++ kept := List.takeWhile_append_dropWhile.symm
  -- what is kept begins with a run that is long enough
  have hfirst : ∀ run ∈ kept.head?, glitch ≤ run.2 := by
    intro run hrun
    have hnot := List.head?_dropWhile_not (fun run : Run F => decide (run.2 < glitch)) runs
    rw [← hkept, hrun] at hnot
    simpa using hnot
  obtain ⟨groups, left, back, hgroups, habsorb, hsum, hleft, hback⟩ := grouped_absorb kept hfirst
    (fun run hrun => hpos run (hruns ▸ List.mem_append_right front hrun))
  -- the short runs at the end are dropped
  have hdeglitch : deglitch glitch runs = left := by
    rw [deglitch, ← hkept, habsorb, rdropWhile_append hleft hback]
  have halternate : AlternatingRuns (absorb glitch kept) :=
    (alternatingRuns_absorb kept (halt.suffix ((List.dropWhile_suffix _).map Prod.fst))).1
  rw [hdeglitch]
  refine ⟨?_, hleft, front, groups, back, ?_, ?_, hsum⟩
  · rw [habsorb, AlternatingRuns, List.map_append] at halternate
    exact halternate.left_of_append
  · rw [List.append_assoc, ← hgroups, hruns]
  · apply List.forall_mem_append.2 ⟨?_, hback⟩
    intro run hrun
    simpa using List.mem_takeWhile_imp hrun

/-- A space with a click in it, after a click and before a dah. -/
theorem deglitch_spec_click :
    let runs : List (Run ℚ) := [(true, 1), (false, 9), (true, 1), (false, 9), (true, 30)]
    AlternatingRuns (deglitch 5 runs) ∧ ∀ run ∈ deglitch 5 runs, 5 ≤ run.2 := by
  have halt : AlternatingRuns
      ([(true, 1), (false, 9), (true, 1), (false, 9), (true, 30)] : List (Run ℚ)) := by
    simp [AlternatingRuns]
  obtain ⟨-, halternate, hle, -⟩ := deglitch_spec _ halt (by norm_num) 5
  exact ⟨halternate, hle⟩

/-! ## The runs of the decoder -/

namespace RunScan

/-- What the scan for runs keeps: the last run has the other key state, and no run is empty. -/
structure Inv (s : RunScan F) : Prop where
  alternating : AlternatingRuns s.runs
  last : ∀ key ∈ (s.runs.map Prod.fst).getLast?, key ≠ s.k
  pos : ∀ run ∈ s.runs, 0 < run.2
  seen_mark : s.seen_mark = false → s.runs = []
  run : s.k = true ∨ s.seen_mark = true → 0 < s.run

variable {hop_ms : F} {s : RunScan F}

/-- The current run may be closed at any time. -/
theorem Inv.push (h : s.Inv) (hhop : 0 < hop_ms) (hrun : s.k = true ∨ s.seen_mark = true) :
    AlternatingRuns (s.runs ++ [(s.k, s.run * hop_ms)]) ∧
      ∀ run ∈ s.runs ++ [(s.k, s.run * hop_ms)], 0 < run.2 := by
  constructor
  · rw [AlternatingRuns, List.map_append, List.isChain_append]
    refine ⟨h.alternating, List.isChain_singleton _, ?_⟩
    rintro key hkey _ ⟨⟩
    exact h.last key hkey
  · apply List.forall_mem_append.2 ⟨h.pos, ?_⟩
    have hpos : 0 < s.run * hop_ms := mul_pos (Nat.cast_pos.2 (h.run hrun)) hhop
    simpa using hpos

theorem Inv.next (h : s.Inv) (hhop : 0 < hop_ms) (key : Bool) : (s.next hop_ms key).Inv := by
  rw [RunScan.next]
  split
  next hkey =>
    rw [closed]
    split
    next hrun =>
      obtain ⟨halt, hpos⟩ := h.push hhop (by simpa using hrun)
      refine ⟨halt, ?_, hpos, ?_, fun _ => one_pos⟩
      · simpa using hkey.symm
      · intro hseen
        simp_all
    -- the leading space
    next hrun =>
      simp only [Bool.or_eq_true, not_or, Bool.not_eq_true] at hrun
      have hnil := h.seen_mark hrun.2
      exact ⟨h.alternating, by simp [hnil], h.pos, fun _ => hnil, fun _ => one_pos⟩
  next =>
    exact ⟨h.alternating, h.last, h.pos, h.seen_mark, fun _ => Nat.succ_pos _⟩

end RunScan

/-- The runs that the decoder de-glitches alternate, and none is empty. -/
theorem keyRuns_alternating {hop_ms : F} (hhop : 0 < hop_ms) (keys : List Bool) :
    AlternatingRuns (keyRuns hop_ms keys) ∧ ∀ run ∈ keyRuns hop_ms keys, 0 < run.2 := by
  have hscan : (keys.foldl (RunScan.next hop_ms) ⟨false, 0, false, []⟩).Inv := by
    apply List.foldlRecOn (motive := RunScan.Inv) keys (RunScan.next hop_ms)
    · exact ⟨List.isChain_nil, by simp, by simp, fun _ => rfl, by simp⟩
    · exact fun s hs key _ => hs.next hhop key
  simp only [keyRuns]
  split
  next hkey => exact hkey.1 ▸ hscan.push hhop (Or.inl hkey.1)
  next => exact ⟨hscan.alternating, hscan.pos⟩

end GranolaSdr.Cw.Morse
