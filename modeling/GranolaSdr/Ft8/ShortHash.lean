import GranolaSdr.Ft8.CallsignRuns

/-!
# Lookups of callsigns by short hashes

A message can refer to a callsign by the 12 or 10 leading bits of its 22-bit hash. An addition
places an entry by the low bits of the hash, a short lookup starts at the slot of the leading bits
with zeros below them. The two agree only where no free slot separates them.

## Main definitions

* `addAll`: the table a list of additions leads to;
* `HashTable.ShortReachable`: some entry with the queried leading bits is not cut off from the
  start of the query by a free slot.

## Main results

* `shortLookups_iff`: on a table built by additions that is not full, the short lookups are right
  exactly if every stored entry is so reachable.
-/

namespace GranolaSdr.Ft8

open LinearProbing HashTable

/-- The table after adding callsigns under their hashes to an initialised one. -/
def addAll (adds : List (List Char × Fin (2 ^ 22))) : HashTable :=
  adds.foldl (fun t add => hashtable_add add.1 add.2 t) hashtable_init

theorem findable_addAll (adds : List (List Char × Fin (2 ^ 22))) :
    (addAll adds).entries.Findable home := by
  induction adds using List.reverseRecOn with
  | nil =>
    rw [addAll, List.foldl_nil, entries_init]
    exact Table.findable_empty
  | append_singleton adds add ih =>
    rw [addAll, List.foldl_append, List.foldl_cons, List.foldl_nil]
    exact findable_add ih add.1 add.2

namespace HashTable

/-- The slot a lookup by the hash bits above the lowest `shift` ones starts at. -/
def queryStart (shift hash : ℕ) : Fin CALLSIGN_HASHTABLE_SIZE := slotOf (hash >>> shift <<< shift)

/-- Some stored entry agrees with `hash` above the lowest `shift` bits, and no free slot lies
between the start of the query and the home slot of that entry, unless the entry itself was
displaced to a slot between them. -/
def ShortReachable (t : HashTable) (shift hash : ℕ) : Prop :=
  ∃ i, (t.slots i).Occupied ∧ (t.slots i).hash22 >>> shift = hash >>> shift ∧
    (dist (queryStart shift hash) i <
        dist (queryStart shift hash) (slotOf (t.slots i).hash22) ∨
      ∀ d < dist (queryStart shift hash) (slotOf (t.slots i).hash22),
        (t.slots (slot (queryStart shift hash) d)).Occupied)

variable {t : HashTable}

/-- On a table with findable entries that is not full, the lookup of the leading bits of a hash
succeeds exactly if an entry with these bits is reachable. -/
theorem isSome_lookup_shiftRight_iff (ht : t.entries.Findable home)
    (hfree : ∃ i, ¬(t.slots i).Occupied) (hash_type : ftx_callsign_hash_type_t)
    {hash : ℕ} (hhash : hash < 2 ^ 22) :
    (hashtable_lookup hash_type (hash >>> hash_shift hash_type) t).isSome ↔
      t.ShortReachable (hash_shift hash_type) hash := by
  set shift := hash_shift hash_type
  have hstart : slotOf (u32 (hash >>> shift <<< shift)) = queryStart shift hash := by
    have hle : hash >>> shift <<< shift ≤ hash := by
      rw [Nat.shiftRight_eq_div_pow, Nat.shiftLeft_eq]
      exact Nat.div_mul_le_self hash (2 ^ shift)
    rw [u32, Nat.mod_eq_of_lt (lt_of_le_of_lt hle (hhash.trans (by norm_num))), queryStart]
  have hfree' : ∃ i, t.entries i = none := hfree.imp fun i => entries_eq_none_iff.2
  rw [isSome_lookup_iff, hstart]
  constructor
  · rintro ⟨d, hd, hmatch, hpath⟩
    have hocc := hpath d le_rfl
    -- the entry found is held within reach: every slot the query passed is occupied
    refine ⟨slot (queryStart shift hash) d, hocc, hmatch, ?_⟩
    have hreach := (Table.occupied_dist_iff ht hfree' (entries_of_occupied hocc)
      (queryStart shift hash)).1 fun e he => ?_
    · exact hreach.imp id fun h e he => isSome_entries_iff.1 (h e he)
    · rw [dist_slot _ hd] at he
      exact isSome_entries_iff.2 (hpath e he.le)
  · rintro ⟨i, hocc, hmatch, hreach⟩
    -- the slots from the query's start to the entry are all occupied, so the query gets there
    have hpath := (Table.occupied_dist_iff ht hfree' (entries_of_occupied hocc)
      (queryStart shift hash)).2
      (hreach.imp id fun h e he => isSome_entries_iff.2 (h e he))
    refine ⟨dist (queryStart shift hash) i, dist_lt _ _, by rwa [slot_dist], fun e he => ?_⟩
    rcases Nat.lt_or_eq_of_le he with hlt | rfl
    · exact isSome_entries_iff.1 (hpath e hlt)
    · rwa [slot_dist]

end HashTable

/-- Every stored callsign is found by the 12 and by the 10 leading bits of its hash, and every
lookup that succeeds returns a callsign stored under a hash with the queried leading bits. -/
def ShortLookupsRight (t : HashTable) : Prop :=
  (∀ callsign hash, t.Stored callsign hash →
    (hashtable_lookup .FTX_CALLSIGN_HASH_12_BITS (hash >>> 10) t).isSome ∧
      (hashtable_lookup .FTX_CALLSIGN_HASH_10_BITS (hash >>> 12) t).isSome) ∧
  ∀ hash_type hash callsign, hashtable_lookup hash_type hash t = some callsign →
    ∃ h22, t.Stored callsign h22 ∧ h22 >>> hash_shift hash_type = hash

/-- On a table built by additions that is not full, the short lookups are right exactly if an entry
with the leading bits of each stored hash is reachable. -/
theorem shortLookups_iff (adds : List (List Char × Fin (2 ^ 22)))
    (hfree : ∃ i, ¬((addAll adds).slots i).Occupied) :
    ShortLookupsRight (addAll adds) ↔
      ∀ callsign hash, (addAll adds).Stored callsign hash →
        (addAll adds).ShortReachable 10 hash ∧ (addAll adds).ShortReachable 12 hash := by
  have hfind := findable_addAll adds
  have hlt : ∀ {callsign hash}, (addAll adds).Stored callsign hash → hash < 2 ^ 22 := by
    rintro callsign hash ⟨i, -, -, rfl⟩
    exact hash22_lt _
  have h₁₂ := fun {hash} (h : hash < 2 ^ 22) =>
    isSome_lookup_shiftRight_iff hfind hfree .FTX_CALLSIGN_HASH_12_BITS h
  have h₁₀ := fun {hash} (h : hash < 2 ^ 22) =>
    isSome_lookup_shiftRight_iff hfind hfree .FTX_CALLSIGN_HASH_10_BITS h
  constructor
  · rintro ⟨h, -⟩ callsign hash hstored
    have hhash := hlt hstored
    exact (h callsign hash hstored).imp (h₁₂ hhash).1 (h₁₀ hhash).1
  · refine fun h => ⟨fun callsign hash hstored => ?_, fun _ _ _ => stored_of_lookup⟩
    have hhash := hlt hstored
    exact (h callsign hash hstored).imp (h₁₂ hhash).2 (h₁₀ hhash).2

/-- A callsign whose home slot is the start of its short queries. -/
theorem shortLookups_iff_aligned :
    ShortLookupsRight (addAll [(['K', '1', 'A', 'B', 'C'], 4096)]) ↔
      ∀ callsign hash, (addAll [(['K', '1', 'A', 'B', 'C'], 4096)]).Stored callsign hash →
        (addAll [(['K', '1', 'A', 'B', 'C'], 4096)]).ShortReachable 10 hash ∧
          (addAll [(['K', '1', 'A', 'B', 'C'], 4096)]).ShortReachable 12 hash :=
  shortLookups_iff [(['K', '1', 'A', 'B', 'C'], 4096)] ⟨1, by decide +kernel⟩

/-- A callsign stored in slot 5, alone in the table, is not found by its leading bits. -/
theorem shortLookups_wrong :
    (addAll [(['K', '1', 'A', 'B', 'C'], 5)]).Stored ['K', '1', 'A', 'B', 'C'] 5 ∧
      hashtable_lookup .FTX_CALLSIGN_HASH_12_BITS (5 >>> 10)
        (addAll [(['K', '1', 'A', 'B', 'C'], 5)]) = none ∧
      hashtable_lookup .FTX_CALLSIGN_HASH_10_BITS (5 >>> 12)
        (addAll [(['K', '1', 'A', 'B', 'C'], 5)]) = none ∧
      ¬ShortLookupsRight (addAll [(['K', '1', 'A', 'B', 'C'], 5)]) := by
  have hstored : (addAll [(['K', '1', 'A', 'B', 'C'], 5)]).Stored ['K', '1', 'A', 'B', 'C'] 5 :=
    ⟨5, by decide +kernel, by decide +kernel, by decide +kernel⟩
  have hnone : hashtable_lookup .FTX_CALLSIGN_HASH_12_BITS (5 >>> 10)
      (addAll [(['K', '1', 'A', 'B', 'C'], 5)]) = none := by decide +kernel
  refine ⟨hstored, hnone, by decide +kernel, fun h => ?_⟩
  have hsome := (h.1 _ 5 hstored).1
  rw [hnone] at hsome
  exact absurd hsome (by decide)

end GranolaSdr.Ft8
