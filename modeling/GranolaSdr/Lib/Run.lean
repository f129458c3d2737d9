import Mathlib.Order.Basic
import Mathlib.Data.List.Infix

/-!
# Runs of a step function

A system is a partial step function `step : σ → α → Option σ`: in a given state an action either
leads to one next state or is not possible. A run is a list of actions, each possible in the state
it is taken in.

## Main definitions

* `Run.exec`: the state a list of actions leads to;
* `Run.Along`: every action of a run meets a condition in the state it is taken in;
* `Run.Sometime`: some action of a run does;
* `Run.trace`: what the steps of a run put out.

## Main results

* `Run.inv_of_exec`: an invariant preserved by the steps that meet the condition holds after every
  run whose steps meet it;
* `Run.rel_of_exec`: the same for a relation to a fold over the actions taken;
* `Run.trace_append_waiting`: when steps put out from the front of a queue and take in at its end,
  what a run puts out is what it takes in, less what still waits;
* `Run.forall_prefix_iff_along`: when a step preserves the invariant exactly if it meets the
  condition, the invariant holds throughout a run exactly if every step meets the condition;
* `Run.forall_prefix_iff_along_of_inv`, `Run.forall_prefix_iff_along_of_along`: the same for a
  property beside an invariant, on all runs or on those whose steps meet an assumption.
-/

namespace Run

variable {σ α : Type*} (step : σ → α → Option σ)

/-- The state reached by taking the actions in order, if each is possible. -/
def exec : σ → List α → Option σ
  | s, [] => some s
  | s, a :: as => (step s a).bind fun s' => exec s' as

/-- Every action of the run meets `P` in the state it is taken in. -/
def Along (P : σ → α → Prop) : σ → List α → Prop
  | _, [] => True
  | s, a :: as => P s a ∧ ∀ s' ∈ step s a, Along P s' as

/-- Some action of the run meets `P` in the state it is taken in. -/
def Sometime (P : σ → α → Prop) : σ → List α → Prop
  | _, [] => False
  | s, a :: as => P s a ∨ ∃ s' ∈ step s a, Sometime P s' as

/-- What the steps of a run put out, in order. -/
def trace {β : Type*} (out : σ → α → List β) : σ → List α → List β
  | _, [] => []
  | s, a :: as =>
    match step s a with
    | none => out s a
    | some s' => out s a ++ trace out s' as

variable {step}

instance decidableAlong {P : σ → α → Prop} [∀ s a, Decidable (P s a)] :
    ∀ s as, Decidable (Along step P s as)
  | _, [] => isTrue trivial
  | s, a :: as =>
    match h : step s a with
    | none => decidable_of_iff (P s a) (by simp [Along, h])
    | some s' =>
      have := decidableAlong (P := P) s' as
      decidable_of_iff (P s a ∧ Along step P s' as) (by simp [Along, h])

@[simp]
theorem exec_nil (s : σ) : exec step s [] = some s := rfl

@[simp]
theorem exec_cons (s : σ) (a : α) (as : List α) :
    exec step s (a :: as) = (step s a).bind fun s' => exec step s' as := rfl

theorem exec_append (s : σ) (as bs : List α) :
    exec step s (as ++ bs) = (exec step s as).bind fun s' => exec step s' bs := by
  induction as generalizing s with
  | nil => rfl
  | cons a as ih =>
    rw [List.cons_append, exec_cons, exec_cons, Option.bind_assoc]
    exact Option.bind_congr fun s' _ => ih s'

theorem along_congr {P Q : σ → α → Prop} (h : ∀ s a, P s a ↔ Q s a) {s : σ} {as : List α} :
    Along step P s as ↔ Along step Q s as := by
  have hPQ : P = Q := funext fun s => funext fun a => propext (h s a)
  rw [hPQ]

theorem along_true (s : σ) (as : List α) : Along step (fun _ _ => True) s as := by
  induction as generalizing s with
  | nil => trivial
  | cons a as ih => exact ⟨trivial, fun t _ => ih t⟩

theorem along_cons {P : σ → α → Prop} {s s' : σ} {a : α} {as : List α} (h : step s a = some s') :
    Along step P s (a :: as) ↔ P s a ∧ Along step P s' as := by
  simp [Along, h]

theorem along_append {P : σ → α → Prop} {s s' : σ} {as bs : List α}
    (h : exec step s as = some s') :
    Along step P s (as ++ bs) ↔ Along step P s as ∧ Along step P s' bs := by
  induction as generalizing s with
  | nil =>
    rw [exec_nil, Option.some.injEq] at h
    simp [Along, h]
  | cons a as ih =>
    rw [exec_cons, Option.bind_eq_some_iff] at h
    obtain ⟨t, ht, h⟩ := h
    rw [List.cons_append, along_cons ht, along_cons ht, ih h, and_assoc]

theorem Along.mono {P Q : σ → α → Prop} (hPQ : ∀ s a, P s a → Q s a) {s : σ} {as : List α}
    (h : Along step P s as) : Along step Q s as := by
  induction as generalizing s with
  | nil => trivial
  | cons a as ih => exact ⟨hPQ s a h.1, fun t ht => ih (h.2 t ht)⟩

theorem along_of_forall_mem {P : α → Prop} {s : σ} {as : List α} (h : ∀ a ∈ as, P a) :
    Along step (fun _ a => P a) s as := by
  induction as generalizing s with
  | nil => trivial
  | cons a as ih =>
    obtain ⟨ha, has⟩ := List.forall_mem_cons.1 h
    exact ⟨ha, fun t _ => ih has⟩

/-- A condition on actions alone, along a run of a system in which every action is possible. -/
theorem along_const_iff {f : σ → α → σ} (hstep : ∀ s a, step s a = some (f s a)) {P : α → Prop}
    {s : σ} {as : List α} : Along step (fun _ a => P a) s as ↔ ∀ a ∈ as, P a := by
  induction as generalizing s with
  | nil => simp [Along]
  | cons a as ih => rw [along_cons (hstep s a), ih, List.forall_mem_cons]

/-- A condition along a run, read off the states the prefixes lead to. -/
theorem along_iff {P : σ → α → Prop} {s : σ} {as : List α} :
    Along step P s as ↔ ∀ bs a, bs ++ [a] <+: as → ∀ t ∈ exec step s bs, P t a := by
  induction as generalizing s with
  | nil => simp [Along]
  | cons a as ih =>
    constructor
    · rintro ⟨hP, hrest⟩ bs b hbs t ht
      cases bs with
      | nil =>
        obtain rfl : b = a := by simpa using hbs
        obtain rfl : s = t := by simpa using ht
        exact hP
      | cons c bs =>
        obtain ⟨rfl, htail⟩ := List.cons_prefix_cons.1 hbs
        rw [exec_cons, Option.mem_def, Option.bind_eq_some_iff] at ht
        obtain ⟨u, hu, ht⟩ := ht
        -- the rest of the prefix is one of the rest of the run
        exact ih.1 (hrest u hu) bs b htail t ht
    · intro h
      refine ⟨h [] a (by simp) s rfl, fun u hu => ih.2 fun bs b hbs t ht => ?_⟩
      exact h (a :: bs) b (List.cons_prefix_cons.2 ⟨rfl, hbs⟩) t (by
        rw [exec_cons, Option.mem_def.1 hu]
        exact ht)

theorem Along.of_prefix {P : σ → α → Prop} {s : σ} {as bs : List α} (h : Along step P s as)
    (hbs : bs <+: as) : Along step P s bs :=
  along_iff.2 fun cs a hcs => along_iff.1 h cs a (hcs.trans hbs)

/-- An invariant that holds initially and is preserved by every step meeting the condition holds
after every run whose steps meet the condition. -/
theorem inv_of_exec {Inv : σ → Prop} {P : σ → α → Prop}
    (hstep : ∀ s a s', Inv s → P s a → step s a = some s' → Inv s') {s s' : σ} {as : List α}
    (hs : Inv s) (hP : Along step P s as) (hrun : exec step s as = some s') : Inv s' := by
  induction as generalizing s with
  | nil =>
    rw [exec_nil, Option.some.injEq] at hrun
    exact hrun ▸ hs
  | cons a as ih =>
    rw [exec_cons, Option.bind_eq_some_iff] at hrun
    obtain ⟨t, ht, hrun⟩ := hrun
    exact ih (hstep s a t hs hP.1 ht) (hP.2 t ht) hrun

/-- An invariant preserved by every step holds after every run. -/
theorem inv_of_exec' {Inv : σ → Prop}
    (hstep : ∀ s a s', Inv s → step s a = some s' → Inv s') {s s' : σ} {as : List α}
    (hs : Inv s) (hrun : exec step s as = some s') : Inv s' :=
  inv_of_exec (fun s a s' h _ => hstep s a s' h) hs (along_true s as) hrun

/-- Two conditions on the steps of a run are exchanged by a property of states: when a step meets
the one from a state with the property exactly if it meets the other and leads to such a state, a
run meets the one throughout from a state with the property exactly if it meets the other and leads
to such a state. -/
theorem and_along_iff {Inv Q : σ → Prop} {L P P' : σ → α → Prop}
    (hinv : ∀ s a s', Inv s → L s a → step s a = some s' → Inv s')
    (hstep : ∀ s a s', Inv s → L s a → step s a = some s' → (Q s ∧ P s a ↔ Q s' ∧ P' s a))
    {s s' : σ} {as : List α} (hs : Inv s) (hL : Along step L s as)
    (hrun : exec step s as = some s') :
    Q s ∧ Along step P s as ↔ Q s' ∧ Along step P' s as := by
  induction as generalizing s with
  | nil =>
    rw [exec_nil, Option.some.injEq] at hrun
    rw [hrun]
    exact Iff.rfl
  | cons a as ih =>
    rw [exec_cons, Option.bind_eq_some_iff] at hrun
    obtain ⟨u, hu, hrun⟩ := hrun
    have hiff := hstep s a u hs hL.1 hu
    -- the property moves over the first step, and by induction over the others
    have hrest := ih (hinv s a u hs hL.1 hu) (hL.2 u hu) hrun
    rw [along_cons hu, along_cons hu, ← and_assoc, hiff, and_right_comm, hrest, and_right_comm,
      and_assoc]

/-- A relation between a state and a fold over the actions taken, kept by every step, holds after
every run. -/
theorem rel_of_exec {γ : Type*} {R : γ → σ → Prop} {f : γ → α → γ}
    (hstep : ∀ g s a s', R g s → step s a = some s' → R (f g a) s') {g : γ} {s s' : σ}
    {as : List α} (hs : R g s) (hrun : exec step s as = some s') : R (as.foldl f g) s' := by
  induction as generalizing g s with
  | nil =>
    rw [exec_nil, Option.some.injEq] at hrun
    exact hrun ▸ hs
  | cons a as ih =>
    rw [exec_cons, Option.bind_eq_some_iff] at hrun
    obtain ⟨t, ht, hrun⟩ := hrun
    exact ih (hstep g s a t hs ht) hrun

theorem sometime_cons {P : σ → α → Prop} {s s' : σ} {a : α} {as : List α}
    (h : step s a = some s') : Sometime step P s (a :: as) ↔ P s a ∨ Sometime step P s' as := by
  simp [Sometime, h]

theorem not_sometime_iff {P : σ → α → Prop} {s : σ} {as : List α} :
    ¬Sometime step P s as ↔ Along step (fun s a => ¬P s a) s as := by
  induction as generalizing s with
  | nil => simp [Sometime, Along]
  | cons a as ih => simp [Sometime, Along, not_or, ih]

theorem Sometime.mono {P Q : σ → α → Prop} (hPQ : ∀ s a, P s a → Q s a) {s : σ} {as : List α}
    (h : Sometime step P s as) : Sometime step Q s as := by
  induction as generalizing s with
  | nil => exact h
  | cons a as ih => exact h.imp (hPQ s a) fun ⟨t, ht, hrest⟩ => ⟨t, ht, ih hrest⟩

/-- What every step does from states with a property that it keeps, every step of a run does. -/
theorem along_of_inv {I : σ → Prop} {L : α → Prop} {P : σ → α → Prop}
    (hstep : ∀ s a s', I s → L a → step s a = some s' → P s a ∧ I s') {s s' : σ}
    {as : List α} (hs : I s) (hL : ∀ a ∈ as, L a) (hrun : exec step s as = some s') :
    Along step P s as ∧ I s' := by
  induction as generalizing s with
  | nil =>
    rw [exec_nil, Option.some.injEq] at hrun
    exact ⟨trivial, hrun ▸ hs⟩
  | cons a as ih =>
    rw [exec_cons, Option.bind_eq_some_iff] at hrun
    obtain ⟨t, ht, hrun⟩ := hrun
    obtain ⟨hLa, hLas⟩ := List.forall_mem_cons.1 hL
    obtain ⟨hP, ht'⟩ := hstep s a t hs hLa ht
    obtain ⟨hrest, hs'⟩ := ih ht' hLas hrun
    exact ⟨(along_cons ht).2 ⟨hP, hrest⟩, hs'⟩

theorem trace_cons {β : Type*} {out : σ → α → List β} {s s' : σ} {a : α} {as : List α}
    (h : step s a = some s') : trace step out s (a :: as) = out s a ++ trace step out s' as := by
  rw [trace, h]

theorem trace_append {β : Type*} {out : σ → α → List β} {s s' : σ} {as bs : List α}
    (h : exec step s as = some s') :
    trace step out s (as ++ bs) = trace step out s as ++ trace step out s' bs := by
  induction as generalizing s with
  | nil =>
    rw [exec_nil, Option.some.injEq] at h
    rw [h]
    rfl
  | cons a as ih =>
    rw [exec_cons, Option.bind_eq_some_iff] at h
    obtain ⟨t, ht, h⟩ := h
    rw [List.cons_append, trace_cons ht, trace_cons ht, ih h, List.append_assoc]

theorem map_trace {β γ : Type*} {out : σ → α → List β} (f : β → γ) (s : σ) (as : List α) :
    (trace step out s as).map f = trace step (fun s a => (out s a).map f) s as := by
  induction as generalizing s with
  | nil => rfl
  | cons a as ih =>
    simp only [trace]
    split
    · rfl
    · rw [List.map_append, ih]

/-- What the actions alone decide. -/
theorem trace_const {β : Type*} {out : α → List β} {s s' : σ} {as : List α}
    (h : exec step s as = some s') : trace step (fun _ a => out a) s as = as.flatMap out := by
  induction as generalizing s with
  | nil => rfl
  | cons a as ih =>
    rw [exec_cons, Option.bind_eq_some_iff] at h
    obtain ⟨t, ht, h⟩ := h
    rw [trace_cons ht, ih h, List.flatMap_cons]

/-- What every step updates by what it puts out, a run updates by what it puts out. -/
theorem foldl_trace {β γ : Type*} {view : σ → γ} {out : σ → α → List β} {f : γ → β → γ}
    (hstep : ∀ s a s', step s a = some s' → view s' = (out s a).foldl f (view s)) {s s' : σ}
    {as : List α} (hrun : exec step s as = some s') :
    view s' = (trace step out s as).foldl f (view s) := by
  induction as generalizing s with
  | nil =>
    rw [exec_nil, Option.some.injEq] at hrun
    rw [hrun]
    rfl
  | cons a as ih =>
    rw [exec_cons, Option.bind_eq_some_iff] at hrun
    obtain ⟨t, ht, hrun⟩ := hrun
    rw [trace_cons ht, List.foldl_append, ← hstep s a t ht, ih hrun]

/-- What a run puts out is what it has taken in, less what is still waiting: when each step puts out
from the front of what waits and takes in at its end, so does a run. -/
theorem trace_append_waiting {β : Type*} {Inv : σ → Prop} {out inp : σ → α → List β}
    {waiting : σ → List β} (hinv : ∀ s a s', Inv s → step s a = some s' → Inv s')
    (hstep : ∀ s a s', Inv s → step s a = some s' →
      out s a ++ waiting s' = waiting s ++ inp s a) {s s' : σ} {as : List α} (hs : Inv s)
    (hrun : exec step s as = some s') :
    trace step out s as ++ waiting s' = waiting s ++ trace step inp s as := by
  induction as generalizing s with
  | nil =>
    rw [exec_nil, Option.some.injEq] at hrun
    simp [trace, hrun]
  | cons a as ih =>
    rw [exec_cons, Option.bind_eq_some_iff] at hrun
    obtain ⟨t, ht, hrun⟩ := hrun
    rw [trace_cons ht, trace_cons ht, List.append_assoc, ih (hinv s a t hs ht) hrun,
      ← List.append_assoc, hstep s a t hs ht, List.append_assoc]

/-- A property beside an invariant, on runs whose steps meet an assumption: when a step preserves
the property exactly if it meets the condition, the property holds after every prefix of a run
exactly if every step of the run meets the condition. -/
theorem forall_prefix_iff_along_of_along {Inv Q : σ → Prop} {L P : σ → α → Prop}
    (hinv : ∀ s a s', Inv s → L s a → step s a = some s' → Inv s')
    (hstep : ∀ s a s', Inv s → Q s → L s a → step s a = some s' → (Q s' ↔ P s a)) {s s' : σ}
    {as : List α} (hs : Inv s) (hQ : Q s) (hL : Along step L s as)
    (hrun : exec step s as = some s') :
    (∀ bs, bs <+: as → ∀ t ∈ exec step s bs, Q t) ↔ Along step P s as := by
  induction as generalizing s with
  | nil => simp [Along, hQ]
  | cons a as ih =>
    rw [exec_cons, Option.bind_eq_some_iff] at hrun
    obtain ⟨u, hu, hrun⟩ := hrun
    have hinvu : Inv u := hinv s a u hs hL.1 hu
    have hiff := hstep s a u hs hQ hL.1 hu
    constructor
    · intro h
      -- the prefix of one step leads to the next state
      have hQu : Q u := h [a] (by simp) u (by simp [hu])
      refine ⟨hiff.1 hQu, fun u' hu' => ?_⟩
      obtain rfl : u = u' := Option.some.inj (hu.symm.trans hu')
      refine (ih hinvu hQu (hL.2 u hu) hrun).1 fun bs hbs t ht => ?_
      exact h (a :: bs) (by simpa using hbs) t (by simpa [hu] using ht)
    · rintro ⟨hP, hrest⟩ bs hbs t ht
      cases bs with
      | nil =>
        obtain rfl : s = t := by simpa using ht
        exact hQ
      | cons b bs =>
        obtain ⟨rfl, htail⟩ := List.cons_prefix_cons.1 hbs
        -- a longer prefix is one of the rest of the run
        refine (ih hinvu (hiff.2 hP) (hL.2 u hu) hrun).2 (hrest u hu) bs htail t ?_
        simpa [hu] using ht

/-- The same on all runs. -/
theorem forall_prefix_iff_along_of_inv {Inv Q : σ → Prop} {P : σ → α → Prop}
    (hinv : ∀ s a s', Inv s → step s a = some s' → Inv s')
    (hstep : ∀ s a s', Inv s → Q s → step s a = some s' → (Q s' ↔ P s a)) {s s' : σ} {as : List α}
    (hs : Inv s) (hQ : Q s) (hrun : exec step s as = some s') :
    (∀ bs, bs <+: as → ∀ t ∈ exec step s bs, Q t) ↔ Along step P s as :=
  forall_prefix_iff_along_of_along (fun s a s' h _ => hinv s a s' h)
    (fun s a s' h hQ _ => hstep s a s' h hQ) hs hQ (along_true s as) hrun

/-- When a step preserves the invariant exactly if it meets the condition, the invariant holds
after every prefix of a run exactly if every step of the run meets the condition. -/
theorem forall_prefix_iff_along {Inv : σ → Prop} {P : σ → α → Prop}
    (hstep : ∀ s a s', Inv s → step s a = some s' → (Inv s' ↔ P s a)) {s s' : σ} {as : List α}
    (hs : Inv s) (hrun : exec step s as = some s') :
    (∀ bs, bs <+: as → ∀ t ∈ exec step s bs, Inv t) ↔ Along step P s as :=
  forall_prefix_iff_along_of_inv (fun _ _ _ _ _ => trivial) (fun s a s' _ => hstep s a s') trivial
    hs hrun

end Run
