import GranolaSdr.Ft8.CallsignRuns

/-!
# The bookkeeping of the FT8 callsign hash table

The table of `gm/hf/ft8.cc` counts its entries in a variable of its own, and keeps their ages in the
words of their hashes. Over any history the counter agrees with the slots. An addition changes one
slot at the most, also when the table is full and the probe comes back to where it started.

The callsigns that `message.c` saves have three characters or more, so no entry looks like a free
slot. Their lengths and hashes are arbitrary here.

## Main definitions

* `HashTable.Reachable`: the tables after any history;
* `HashTable.occupied`: the occupied slots;
* `HashTable.Added`: what an addition may do;
* `HashTable.CleanedUp`: what a cleanup does.

## Main results

* `HashTable.bookkeeping`: the counter, and what the operations do.
-/

namespace GranolaSdr.Ft8

open LinearProbing

namespace HashTable

variable {t t' : HashTable} {callsign : List Char} {hash max_age : ℕ}
  {i : Fin CALLSIGN_HASHTABLE_SIZE}

/-- The tables that a history of operations leads to. -/
inductive Reachable : HashTable → Prop
  | init : Reachable hashtable_init
  | add {t : HashTable} (h : Reachable t) (callsign : List Char) (nonempty : callsign ≠ [])
      (hash : UInt32) : Reachable (hashtable_add callsign hash.toNat t)
  | cleanup {t : HashTable} (h : Reachable t) (max_age : UInt8) :
      Reachable (hashtable_cleanup max_age.toNat t)

/-- The occupied slots. -/
def occupied (t : HashTable) : Finset (Fin CALLSIGN_HASHTABLE_SIZE) :=
  Finset.univ.filter fun i => (t.slots i).Occupied

/-- A slot holds the callsign under the hash. -/
def Holds (s : Slot) (callsign : List Char) (hash : ℕ) : Prop :=
  s.Occupied ∧ s.callsign = callsign ∧ s.hash22 = hash

/-- What an addition may do: one slot changes, or none. -/
inductive Added (callsign : List Char) (hash : ℕ) (t t' : HashTable) : Prop
  | refreshed (i : Fin CALLSIGN_HASHTABLE_SIZE) (before : Holds (t.slots i) callsign hash)
      (after : Holds (t'.slots i) callsign hash) (age : (t'.slots i).age = 0)
      (others : ∀ j ≠ i, t'.slots j = t.slots j) (size : t'.size = t.size)
  | filled (i : Fin CALLSIGN_HASHTABLE_SIZE) (before : ¬(t.slots i).Occupied)
      (after : t'.slots i = ⟨callsign.take 11, hash⟩)
      (others : ∀ j ≠ i, t'.slots j = t.slots j) (size : t'.size = t.size + 1)
  | full (occupied : ∀ i, (t.slots i).Occupied) (unmatched : ∀ i, ¬Holds (t.slots i) callsign hash)
      (same : t' = t)

/-- What a cleanup does to a slot: it is freed, has grown older, or was free. -/
structure CleanedUp (max_age : ℕ) (s s' : Slot) : Prop where
  removed : s.Occupied → max_age ≤ s.age → ¬s'.Occupied
  kept : s.Occupied → s.age < max_age →
    s'.Occupied ∧ s'.callsign = s.callsign ∧ s'.hash22 = s.hash22 ∧ s'.age = s.age + 1
  free : ¬s.Occupied → s' = s

/-! ## Ages -/

theorem hash22_shiftRight (s : Slot) : (s.hash &&& hashMask) >>> 24 = 0 := by
  have hlt : s.hash &&& hashMask < 2 ^ 22 := hash22_lt s
  rw [Nat.shiftRight_eq_div_pow]
  exact Nat.div_eq_of_lt (hlt.trans (by norm_num))

@[simp]
theorem age_resetAge (s : Slot) : s.resetAge.age = 0 := by
  rw [Slot.age, Slot.resetAge, hash22_shiftRight, Nat.zero_mod]

/-- The age does not wrap below the greatest age a cleanup can be made with. -/
theorem age_aged {s : Slot} (h : s.age + 1 < 2 ^ 8) : s.aged.age = s.age + 1 := by
  have hword : u32 ((s.age + 1) <<< 24) = (s.age + 1) <<< 24 := by
    rw [u32, Nat.shiftLeft_eq]
    exact Nat.mod_eq_of_lt (by omega)
  rw [Slot.age, Slot.aged, hword, Nat.shiftRight_or_distrib, hash22_shiftRight, Nat.or_zero,
    Nat.shiftLeft_shiftRight, Nat.mod_eq_of_lt h]

/-! ## The slots after an operation -/

/-- Writing to a free slot. -/
theorem added_store (hfree : ¬(t.slots i).Occupied) :
    Added callsign hash t (t.store i callsign hash) := by
  rw [store, if_neg hfree]
  apply Added.filled i hfree
  · exact Function.update_self i _ t.slots
  · exact fun j hj => Function.update_of_ne hj _ t.slots
  · rfl

/-- A match on an occupied slot, whose age becomes zero. -/
theorem added_resetAge (hbefore : Holds (t.slots i) callsign hash) :
    Added callsign hash t { t with slots := Function.update t.slots i (t.slots i).resetAge } := by
  obtain ⟨hocc, hcall, hhash⟩ := hbefore
  apply Added.refreshed i ⟨hocc, hcall, hhash⟩
  · simpa [Holds] using ⟨hocc, hcall, hhash⟩
  · simp
  · exact fun j hj => Function.update_of_ne hj _ t.slots
  · rfl

theorem added_add (callsign : List Char) (hash : ℕ) (t : HashTable) :
    Added callsign hash t (hashtable_add callsign hash t) := by
  obtain ⟨d, -, hbefore, hend⟩ := probe_spec (fun i => (t.slots i).Occupied)
    (fun i => (t.slots i).hash &&& hashMask = hash ∧ (t.slots i).callsign = callsign)
    CALLSIGN_HASHTABLE_SIZE (slotOf hash)
  rcases hend with ⟨-, hocc, ⟨hhash, hcall⟩, hprobe⟩ | ⟨-, hfree, hprobe⟩ | ⟨rfl, hprobe⟩
  · -- the probe ends at a match
    rw [hashtable_add, probe, hprobe]
    exact added_resetAge ⟨hocc, hcall, hhash⟩
  · -- or at a free slot
    rw [hashtable_add, probe, hprobe]
    exact added_store hfree
  · -- the probe has been to every slot, and is back at its start
    have hall (i : Fin CALLSIGN_HASHTABLE_SIZE) := hbefore (dist (slotOf hash) i) (dist_lt _ i)
    simp only [slot_dist] at hall
    apply Added.full (fun i => (hall i).1)
    · rintro i ⟨-, hcall, hhash⟩
      exact (hall i).2 ⟨hhash, hcall⟩
    · rw [hashtable_add, probe, hprobe]
      exact if_pos (hall _).1

theorem cleanedUp_cleanup (hage : max_age < 2 ^ 8) (t : HashTable)
    (i : Fin CALLSIGN_HASHTABLE_SIZE) :
    CleanedUp max_age (t.slots i) ((hashtable_cleanup max_age t).slots i) := by
  simp only [hashtable_cleanup, cleanupSlot]
  constructor
  · intro hocc hold
    rw [if_pos hocc, if_pos hold]
    simp [Slot.Occupied]
  · intro hocc hyoung
    rw [if_pos hocc, if_neg hyoung.not_ge]
    exact ⟨(occupied_aged _).2 hocc, callsign_aged _, hash22_aged _, age_aged (by omega)⟩
  · exact fun hfree => if_neg hfree

/-! ## The counter -/

theorem card_occupied_le (t : HashTable) : t.occupied.card ≤ CALLSIGN_HASHTABLE_SIZE := by
  simpa using Finset.card_le_univ t.occupied

theorem mem_occupied : i ∈ t.occupied ↔ (t.slots i).Occupied := by simp [occupied]

/-- An addition keeps the counter in step. -/
theorem Added.size_eq (h : Added callsign hash t t') (hne : callsign ≠ [])
    (ht : t.size = t.occupied.card) : t'.size = t'.occupied.card := by
  cases h with
  | refreshed i before after age others size =>
    -- the callsign was there, and the counter stays
    have hocc : t'.occupied = t.occupied := by
      ext j
      rw [mem_occupied, mem_occupied]
      rcases eq_or_ne j i with rfl | hj
      · exact iff_of_true after.1 before.1
      · rw [others j hj]
    rw [size, ht, hocc]
  | filled i before after others size =>
    -- a free slot is filled, and the counter goes up by one
    have hocc : t'.occupied = insert i t.occupied := by
      ext j
      rw [Finset.mem_insert, mem_occupied, mem_occupied]
      rcases eq_or_ne j i with rfl | hj
      · simp [after, Slot.Occupied, hne]
      · simp [others j hj, hj]
    rw [size, ht, hocc, Finset.card_insert_of_notMem (by rwa [mem_occupied])]
    push_cast
    rfl
  | full _ _ same => rwa [same]

/-- A cleanup keeps the counter in step: it takes one off for each slot that it frees. -/
theorem size_cleanup (ht : t.size = t.occupied.card) :
    (hashtable_cleanup max_age t).size = (hashtable_cleanup max_age t).occupied.card := by
  have hsub : Finset.univ.filter (t.Removed max_age) ⊆ t.occupied := by
    intro i hi
    exact mem_occupied.2 (Finset.mem_filter.1 hi).2.1
  -- the loop takes the slots that it frees off the counter, one by one
  have hocc : (hashtable_cleanup max_age t).occupied =
      t.occupied \ Finset.univ.filter (t.Removed max_age) := by
    ext i
    rw [mem_occupied, ← isSome_entries_iff, entries_cleanup]
    by_cases hremoved : t.Removed max_age i
    · simp [Table.erase, hremoved]
    · simp [Table.erase, hremoved, isSome_entries_iff, mem_occupied]
  rw [hocc, Finset.card_sdiff_of_subset hsub, Nat.cast_sub (Finset.card_le_card hsub), ← ht]
  rfl

theorem Reachable.size_eq (h : Reachable t) : t.size = t.occupied.card := by
  induction h with
  | init => simp [occupied, hashtable_init, Slot.Occupied]
  | @add t _ callsign hne hash ih => exact (added_add callsign hash.toNat t).size_eq hne ih
  | cleanup _ max_age ih => exact size_cleanup ih

/-- The tables that the runs lead to are reachable. -/
theorem reachable_run (ops : List Op) : Reachable (run ops) := by
  apply List.foldlRecOn (motive := Reachable) ops HashTable.apply Reachable.init
  intro t ht op _
  cases op with
  | init => exact Reachable.init
  | add callsign hash =>
    have hhash : (UInt32.ofNat hash).toNat = hash :=
      UInt32.toNat_ofNat_of_lt' (hash.isLt.trans (by norm_num))
    have hadd := ht.add callsign.chars callsign.nonempty (UInt32.ofNat hash)
    rwa [hhash] at hadd
  | cleanup max_age =>
    have hage : (UInt8.ofNat max_age).toNat = max_age := UInt8.toNat_ofNat_of_lt' max_age.isLt
    have hcleanup := ht.cleanup (UInt8.ofNat max_age)
    rwa [hage] at hcleanup

/-- In every table that a history leads to, the counter is the number of occupied slots; an addition
refreshes one entry, fills one free slot, or finds the table full; and a cleanup removes the entries
that are too old and lets the others age. -/
theorem bookkeeping (t : HashTable) (ht : Reachable t) :
    (t.size = t.occupied.card ∧ 0 ≤ t.size ∧ t.size ≤ 2048) ∧
      (∀ callsign hash, Added callsign hash t (hashtable_add callsign hash t)) ∧
      ∀ max_age : UInt8, ∀ i,
        CleanedUp max_age.toNat (t.slots i) ((hashtable_cleanup max_age.toNat t).slots i) := by
  have hsize := ht.size_eq
  refine ⟨⟨hsize, ?_, ?_⟩, fun callsign hash => added_add callsign hash t, ?_⟩
  · rw [hsize]
    exact Nat.cast_nonneg _
  · rw [hsize]
    exact Nat.cast_le.2 (card_occupied_le t)
  · exact fun max_age => cleanedUp_cleanup max_age.toNat_lt t

theorem bookkeeping_agedChain :
    Reachable (run agedChain) ∧ (run agedChain).size = (run agedChain).occupied.card :=
  ⟨reachable_run agedChain, (bookkeeping (run agedChain) (reachable_run agedChain)).1.1⟩

end HashTable

end GranolaSdr.Ft8
