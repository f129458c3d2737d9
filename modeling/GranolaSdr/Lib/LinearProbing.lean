import Mathlib.Data.Fintype.Basic
import Mathlib.Order.Interval.Set.Basic
import Mathlib.Data.Fintype.EquivFin
import Mathlib.Tactic.Ring

/-!
# Linear probing

An open-addressing table of `N` slots with linear probing: an entry is stored at the first free
slot at or after its home slot, cyclically, and searched for from its home slot up to the first
free slot.

A table is given by what a search can see of it: which slots are occupied, and the entry of each
occupied slot. Searches are bounded by a number of steps, so they also end on a full table.

## Main definitions

* `LinearProbing.slot`: the slot a number of steps after a given one, cyclically;
* `LinearProbing.probe`: the bounded search;
* `LinearProbing.Table`: the entry of each slot;
* `LinearProbing.Table.Findable`: every entry is reached from its home slot through occupied slots;
* `LinearProbing.Table.Distinct`: no entry is stored twice.

## Main results

* `LinearProbing.exists_probe_eq_found_iff`: the search finds a match exactly when some match is
  reached through occupied slots;
* `LinearProbing.Table.findable_insert`, `LinearProbing.Table.distinct_insert`: storing an entry
  at the free slot its search ended on keeps both invariants;
* `LinearProbing.Table.occupied_dist_iff`: when an entry is reached from a slot other than its home
  slot;
* `LinearProbing.Table.findable_erase_iff`: removing entries keeps every other entry findable
  exactly when no removed slot lies on the way to a kept entry.
-/

namespace LinearProbing

variable {N : ℕ}

/-- The slot `d` steps after `h`, cyclically. -/
def slot (h : Fin N) (d : ℕ) : Fin N := ⟨(h + d) % N, Nat.mod_lt _ (Nat.zero_lt_of_lt h.isLt)⟩

@[simp]
theorem slot_zero (h : Fin N) : slot h 0 = h := by
  ext
  simp [slot, Nat.mod_eq_of_lt h.isLt]

@[simp]
theorem slot_self (h : Fin N) : slot h N = h := by
  ext
  simp [slot, Nat.mod_eq_of_lt h.isLt]

@[simp]
theorem slot_add_self (h : Fin N) (d : ℕ) : slot h (d + N) = slot h d := by
  ext
  simp [slot, ← Nat.add_assoc]

theorem slot_slot (h : Fin N) (d e : ℕ) : slot (slot h d) e = slot h (d + e) := by
  ext
  simp [slot, Nat.add_assoc]

/-- Fewer than `N` steps from one slot, different numbers of steps lead to different slots. -/
theorem slot_inj {h : Fin N} {d e : ℕ} (hd : d < N) (he : e < N) (heq : slot h d = slot h e) :
    d = e := by
  have hmod : (h + d) % N = (h + e) % N := congrArg Fin.val heq
  have hh := h.isLt
  rcases Nat.lt_or_ge (h + d) N with h₁ | h₁ <;> rcases Nat.lt_or_ge (h + e) N with h₂ | h₂
  · rw [Nat.mod_eq_of_lt h₁, Nat.mod_eq_of_lt h₂] at hmod
    omega
  · rw [Nat.mod_eq_of_lt h₁, Nat.mod_eq_sub_mod h₂, Nat.mod_eq_of_lt (by omega)] at hmod
    omega
  · rw [Nat.mod_eq_sub_mod h₁, Nat.mod_eq_of_lt (by omega), Nat.mod_eq_of_lt h₂] at hmod
    omega
  · rw [Nat.mod_eq_sub_mod h₁, Nat.mod_eq_of_lt (by omega), Nat.mod_eq_sub_mod h₂,
      Nat.mod_eq_of_lt (by omega)] at hmod
    omega

/-- The number of steps from slot `h` to slot `i`. -/
def dist (h i : Fin N) : ℕ := (N - h + i) % N

theorem dist_lt (h i : Fin N) : dist h i < N := Nat.mod_lt _ (Nat.zero_lt_of_lt h.isLt)

@[simp]
theorem slot_dist (h i : Fin N) : slot h (dist h i) = i := by
  have hh := h.isLt
  have hsum : (h : ℕ) + (N - h + i) = i + N := by omega
  ext
  simp [slot, dist, hsum, Nat.mod_eq_of_lt i.isLt]

theorem dist_slot (h : Fin N) {d : ℕ} (hd : d < N) : dist h (slot h d) = d :=
  slot_inj (dist_lt h _) hd (slot_dist h _)

/-! ## The bounded search -/

/-- The outcome of a search: the slot of a match, the first free slot, or the slot the search
stands at when its steps are used up. -/
inductive Outcome (N : ℕ) where
  | found (i : Fin N)
  | free (i : Fin N)
  | exhausted (i : Fin N)
  deriving DecidableEq

variable (occ isMatch : Fin N → Prop) [DecidablePred occ] [DecidablePred isMatch]

/-- Search from slot `i` for at most `fuel` steps: stop at a free slot or at a match. -/
def probe : ℕ → Fin N → Outcome N
  | 0, i => .exhausted i
  | fuel + 1, i =>
    if ¬occ i then .free i
    else if isMatch i then .found i
    else probe fuel (slot i 1)

/-- What a search has seen when it ends: only occupied slots without a match before its last
slot, and the reason it stopped there. -/
theorem probe_spec (fuel : ℕ) (h : Fin N) :
    ∃ d ≤ fuel, (∀ e < d, occ (slot h e) ∧ ¬isMatch (slot h e)) ∧
      ((d < fuel ∧ occ (slot h d) ∧ isMatch (slot h d) ∧
          probe occ isMatch fuel h = .found (slot h d)) ∨
        (d < fuel ∧ ¬occ (slot h d) ∧ probe occ isMatch fuel h = .free (slot h d)) ∨
        (d = fuel ∧ probe occ isMatch fuel h = .exhausted (slot h d))) := by
  induction fuel generalizing h with
  | zero => exact ⟨0, le_rfl, by simp, by simp [probe]⟩
  | succ fuel ih =>
    by_cases hocc : occ h
    · by_cases hmatch : isMatch h
      · exact ⟨0, Nat.zero_le _, by simp, by simp [probe, hocc, hmatch]⟩
      · -- an occupied slot of another key: the probe goes on from the next one
        obtain ⟨d, hd, hbefore, hend⟩ := ih (slot h 1)
        refine ⟨d + 1, Nat.succ_le_succ hd, fun e he => ?_, ?_⟩
        · cases e with
          | zero => simpa using ⟨hocc, hmatch⟩
          | succ e =>
            have := hbefore e (Nat.lt_of_succ_lt_succ he)
            rwa [slot_slot, Nat.add_comm 1 e] at this
        · rw [slot_slot, Nat.add_comm 1 d] at hend
          simpa [probe, hocc, hmatch] using hend
    · exact ⟨0, Nat.zero_le _, by simp, by simp [probe, hocc]⟩

/-- The search finds a match exactly when some matching slot is reached through occupied slots
within its steps. -/
theorem exists_probe_eq_found_iff (fuel : ℕ) (h : Fin N) :
    (∃ i, probe occ isMatch fuel h = .found i) ↔
      ∃ d < fuel, isMatch (slot h d) ∧ ∀ e ≤ d, occ (slot h e) := by
  obtain ⟨d, hd, hbefore, hend⟩ := probe_spec occ isMatch fuel h
  constructor
  · rintro ⟨i, hi⟩
    rcases hend with ⟨hlt, hocc, hmatch, _⟩ | ⟨_, _, hfree⟩ | ⟨_, hex⟩
    · refine ⟨d, hlt, hmatch, fun e he => ?_⟩
      rcases Nat.lt_or_eq_of_le he with h | rfl
      · exact (hbefore e h).1
      · exact hocc
    · simp [hfree] at hi
    · simp [hex] at hi
  · rintro ⟨d', hd', hmatch, hocc⟩
    -- the search cannot have passed the match nor stopped before it
    have hle : d ≤ d' := Nat.le_of_not_lt fun h => (hbefore d' h).2 hmatch
    rcases hend with ⟨_, _, _, hfound⟩ | ⟨_, hnocc, _⟩ | ⟨rfl, _⟩
    · exact ⟨_, hfound⟩
    · exact absurd (hocc d hle) hnocc
    · omega

variable {occ isMatch}

/-- A match the search finds is a match, on an occupied slot. -/
theorem of_probe_eq_found {fuel : ℕ} {h i : Fin N} (hi : probe occ isMatch fuel h = .found i) :
    occ i ∧ isMatch i := by
  obtain ⟨d, -, -, ⟨_, hocc, hmatch, hfound⟩ | ⟨_, _, hfree⟩ | ⟨_, hex⟩⟩ :=
    probe_spec occ isMatch fuel h
  · obtain rfl : slot h d = i := by simpa [hfound] using hi
    exact ⟨hocc, hmatch⟩
  · simp [hfree] at hi
  · simp [hex] at hi

/-! ## Tables -/

/-- A table: the entry of each occupied slot. -/
abbrev Table (N : ℕ) (E : Type*) := Fin N → Option E

namespace Table

variable {E : Type*} (t : Table N E) (home : E → Fin N)

/-- The slots from `h` up to, but without, the one `d` steps on are occupied. -/
def Occupied (h : Fin N) (d : ℕ) : Prop := ∀ e < d, (t (slot h e)).isSome

/-- Every entry is reached from its home slot through occupied slots. -/
def Findable : Prop :=
  ∀ i x, t i = some x → ∃ d < N, slot (home x) d = i ∧ t.Occupied (home x) d

/-- No entry is stored in two slots. -/
def Distinct : Prop := ∀ i j x, t i = some x → t j = some x → i = j

variable {t home}

theorem findable_empty : Findable (fun _ => none : Table N E) home := by
  simp [Findable]

theorem distinct_empty : Distinct (fun _ => none : Table N E) := by
  simp [Distinct]

theorem Occupied.mono {h : Fin N} {d e : ℕ} (hd : t.Occupied h d) (hle : e ≤ d) :
    t.Occupied h e := fun k hk => hd k (Nat.lt_of_lt_of_le hk hle)

/-- On a table that is not full, an entry is reached from slot `q` through occupied slots exactly
if its home slot is, or if its own slot comes before its home slot on the way from `q`. -/
theorem occupied_dist_iff (ht : t.Findable home) (hfree : ∃ i, t i = none) {i : Fin N} {x : E}
    (hx : t i = some x) (q : Fin N) :
    t.Occupied q (dist q i) ↔
      dist q i < dist q (home x) ∨ t.Occupied q (dist q (home x)) := by
  obtain ⟨d, hd, hslot, hpath⟩ := ht i x hx
  have hhome : ∀ e, slot (home x) e = slot q (dist q (home x) + e) := by
    intro e
    rw [← slot_slot, slot_dist]
  constructor
  · intro h
    rcases Nat.lt_or_ge (dist q i) (dist q (home x)) with hlt | hge
    · exact Or.inl hlt
    · exact Or.inr (h.mono hge)
  · have hocc_home : ∀ e < dist q (home x) + d, dist q (home x) ≤ e → (t (slot q e)).isSome := by
      intro e he hge
      have := hpath (e - dist q (home x)) (by omega)
      rwa [hhome, Nat.add_sub_cancel' hge] at this
    have hend : slot q (dist q (home x) + d) = slot q (dist q i) := by
      rw [← hhome, hslot, slot_dist]
    have hD := dist_lt q (home x)
    have hδ := dist_lt q i
    rintro (hlt | hocc) e he
    · -- the entry was displaced past `q`, so the way from its home slot covers the way from `q`
      have hwrap : dist q (home x) + d = dist q i + N := by
        rcases Nat.lt_or_ge (dist q (home x) + d) N with h | h
        · have := slot_inj h hδ hend
          omega
        · rw [← Nat.sub_add_cancel h, slot_add_self] at hend
          have := slot_inj (by omega) hδ hend
          omega
      have := hocc_home (e + N) (by omega) (by omega)
      rwa [slot_add_self] at this
    · have hshort : dist q (home x) + d < N := by
        by_contra hge
        obtain ⟨k, hk⟩ := hfree
        have hfull : (t (slot q (dist q k))).isSome := by
          have := dist_lt q k
          rcases Nat.lt_or_ge (dist q k) (dist q (home x)) with h | h
          · exact hocc _ h
          · exact hocc_home _ (by omega) h
        simp [hk] at hfull
      have hsum := slot_inj hshort hδ hend
      rcases Nat.lt_or_ge e (dist q (home x)) with h | h
      · exact hocc e h
      · exact hocc_home e (by omega) h

/-- Storing an entry at the first free slot after its home slot keeps every entry findable. -/
theorem findable_insert (ht : t.Findable home) {x : E} {d : ℕ} (hd : d < N)
    (hocc : t.Occupied (home x) d) :
    Findable (Function.update t (slot (home x) d) (some x)) home := by
  have hmono : ∀ i, (t i).isSome →
      (Function.update t (slot (home x) d) (some x) i).isSome := by
    intro i hi
    rcases eq_or_ne i (slot (home x) d) with rfl | hne
    · simp
    · rwa [Function.update_of_ne hne]
  intro i y hy
  rcases eq_or_ne i (slot (home x) d) with rfl | hne
  · obtain rfl : x = y := by simpa using hy
    exact ⟨d, hd, rfl, fun e he => hmono _ (hocc e he)⟩
  · rw [Function.update_of_ne hne] at hy
    obtain ⟨e, he, hslot, hpath⟩ := ht i y hy
    exact ⟨e, he, hslot, fun k hk => hmono _ (hpath k hk)⟩

/-- When the way to the first free slot after its home slot holds no copy of an entry, the table
holds none at all, and storing it there keeps the entries distinct. -/
theorem distinct_insert (ht : t.Findable home) (hdist : t.Distinct) {x : E} {d : ℕ} (hd : d < N)
    (hnew : ∀ e < d, t (slot (home x) e) ≠ some x) (hfree : t (slot (home x) d) = none) :
    Distinct (Function.update t (slot (home x) d) (some x)) := by
  -- a key held elsewhere would have an unbroken path, which the free slot cuts
  have habsent : ∀ i, t i ≠ some x := by
    intro i hi
    obtain ⟨e, he, rfl, hpath⟩ := ht i x hi
    rcases lt_trichotomy e d with hlt | rfl | hgt
    · exact hnew e hlt hi
    · simp [hfree] at hi
    · simpa [hfree] using hpath d hgt
  intro i j y hi hj
  rcases eq_or_ne i (slot (home x) d) with rfl | hi' <;>
    rcases eq_or_ne j (slot (home x) d) with rfl | hj'
  · rfl
  · obtain rfl : x = y := by simpa using hi
    exact absurd (by rwa [Function.update_of_ne hj'] at hj) (habsent j)
  · obtain rfl : x = y := by simpa using hj
    exact absurd (by rwa [Function.update_of_ne hi'] at hi) (habsent i)
  · rw [Function.update_of_ne hi'] at hi
    rw [Function.update_of_ne hj'] at hj
    exact hdist i j y hi hj

/-- The table without the entries of the removed slots. -/
def erase (t : Table N E) (removed : Fin N → Prop) [DecidablePred removed] : Table N E :=
  fun i => if removed i then none else t i

variable {removed : Fin N → Prop} [DecidablePred removed]

theorem distinct_erase (ht : t.Distinct) : (t.erase removed).Distinct := by
  intro i j x hi hj
  simp only [erase, Option.ite_none_left_eq_some] at hi hj
  exact ht i j x hi.2 hj.2

/-- No removed slot lies on the way from the home slot of a kept entry to its own slot. -/
def PathsKept (t : Table N E) (home : E → Fin N) (removed : Fin N → Prop) : Prop :=
  ∀ x, ∀ d < N, t (slot (home x) d) = some x → ¬removed (slot (home x) d) →
    ∀ e < d, ¬removed (slot (home x) e)

/-- Removing entries keeps the others findable exactly when no removed slot lies on the way to a
kept entry. -/
theorem findable_erase_iff (ht : t.Findable home) :
    (t.erase removed).Findable home ↔ t.PathsKept home removed := by
  constructor
  · intro h x d hd hx hkeep e he hrem
    have hx' : t.erase removed (slot (home x) d) = some x := by simp [erase, hkeep, hx]
    obtain ⟨d', hd', hslot, hpath⟩ := h _ x hx'
    obtain rfl : d' = d := slot_inj hd' hd hslot
    simpa [erase, hrem] using hpath e he
  · intro h i x hx
    simp only [erase, Option.ite_none_left_eq_some] at hx
    obtain ⟨d, hd, rfl, hpath⟩ := ht i x hx.2
    refine ⟨d, hd, rfl, fun e he => ?_⟩
    simp [erase, h x d hd hx.2 hx.1 e he, hpath e he]

end Table

end LinearProbing
