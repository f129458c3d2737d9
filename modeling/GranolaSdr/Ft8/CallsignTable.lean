import GranolaSdr.Lib.LinearProbing
import GranolaSdr.Lib.Run
import Mathlib.Data.Fintype.Card
import Mathlib.Data.Nat.Bitwise
import Mathlib.Tactic.NormNum

/-!
# The FT8 callsign hash table

The table of `gm/hf/ft8.cc` that resolves hashed callsigns: 2048 slots with linear probing from
the 22-bit hash modulo the table size, an age in the upper byte of each stored hash, and a cleanup
that frees the slots of entries that are too old. Lookups by 12-bit and 10-bit hashes only know
the leading bits of the 22-bit hash.

## Main definitions

* `HashTable`, `hashtable_init`, `hashtable_cleanup`, `hashtable_add`, `hashtable_lookup`: the
  table and its operations;
* `HashTable.entries`: the callsigns and 22-bit hashes of the occupied slots;
* `HashTable.Sound`: every stored entry is reached by probing, found by its 22-bit hash and stored
  once.

## Main results

* `HashTable.entries_add`, `HashTable.entries_cleanup`: what the operations do to the entries;
* `HashTable.isSome_lookup_iff`, `HashTable.stored_of_lookup`: when a lookup succeeds, and that it
  returns a stored callsign;
* `HashTable.sound_iff`: the table is sound exactly if its entries are findable and distinct.
-/

namespace GranolaSdr.Ft8

open LinearProbing

/-- The number of slots. -/
def CALLSIGN_HASHTABLE_SIZE : ℕ := 2048

instance : NeZero CALLSIGN_HASHTABLE_SIZE := ⟨by decide⟩

/-- The mask of the 22 hash bits below the age. -/
def hashMask : ℕ := 0x3FFFFF

/-- The value of a 32-bit word. -/
def u32 (n : ℕ) : ℕ := n % 2 ^ 32

/-- One slot: the C string, empty in a free slot, and the 32-bit word of age and hash. -/
structure Slot where
  /-- The stored string without its terminator. -/
  callsign : List Char
  /-- The age in the 8 most significant bits, the hash in the 22 least significant ones. -/
  hash : ℕ
  deriving DecidableEq

/-- The hash table and its entry counter. -/
structure HashTable where
  slots : Fin CALLSIGN_HASHTABLE_SIZE → Slot
  size : ℤ

/-- The hash widths a lookup can be made with. -/
inductive ftx_callsign_hash_type_t where
  | FTX_CALLSIGN_HASH_22_BITS
  | FTX_CALLSIGN_HASH_12_BITS
  | FTX_CALLSIGN_HASH_10_BITS
  deriving DecidableEq, Repr

/-- The number of bits a hash type leaves off the 22-bit hash. -/
def hash_shift : ftx_callsign_hash_type_t → ℕ
  | .FTX_CALLSIGN_HASH_22_BITS => 0
  | .FTX_CALLSIGN_HASH_12_BITS => 10
  | .FTX_CALLSIGN_HASH_10_BITS => 12

/-- The slot with the number `n` modulo the table size. -/
def slotOf (n : ℕ) : Fin CALLSIGN_HASHTABLE_SIZE :=
  ⟨n % CALLSIGN_HASHTABLE_SIZE, Nat.mod_lt _ (by decide)⟩

/-- `callsign[0] != '\0'`. -/
def Slot.Occupied (s : Slot) : Prop := s.callsign ≠ []

instance (s : Slot) : Decidable s.Occupied := inferInstanceAs (Decidable (_ ≠ _))

/-- The 22 hash bits of a slot. -/
def Slot.hash22 (s : Slot) : ℕ := s.hash &&& hashMask

/-- `(uint8_t)(hash >> 24)`. -/
def Slot.age (s : Slot) : ℕ := s.hash >>> 24 % 2 ^ 8

/-- An all-zero table. -/
def hashtable_init : HashTable where
  slots _ := ⟨[], 0⟩
  size := 0

/-- The slot with its age raised by one. -/
def Slot.aged (s : Slot) : Slot :=
  { s with hash := u32 ((s.age + 1) <<< 24) ||| (s.hash &&& hashMask) }

/-- The slot with age zero. -/
def Slot.resetAge (s : Slot) : Slot := { s with hash := s.hash &&& hashMask }

/-- The body of the cleanup loop: free a slot that is too old, else raise its age. -/
def cleanupSlot (max_age : ℕ) (s : Slot) : Slot :=
  if s.Occupied then
    if max_age ≤ s.age then ⟨[], 0⟩
    else s.aged
  else s

/-- The slots a cleanup frees. -/
def HashTable.Removed (t : HashTable) (max_age : ℕ) (i : Fin CALLSIGN_HASHTABLE_SIZE) : Prop :=
  (t.slots i).Occupied ∧ max_age ≤ (t.slots i).age

instance (t : HashTable) (max_age : ℕ) : DecidablePred (t.Removed max_age) :=
  fun _ => inferInstanceAs (Decidable (_ ∧ _))

/-- Free the entries whose age has reached `max_age` and let the others age by one. -/
def hashtable_cleanup (max_age : ℕ) (t : HashTable) : HashTable where
  slots i := cleanupSlot max_age (t.slots i)
  size := t.size - (Finset.univ.filter (t.Removed max_age)).card

/-- Probe for a free slot or a matching one, for at most `CALLSIGN_HASHTABLE_SIZE` steps. -/
def HashTable.probe (t : HashTable) (isMatch : Slot → Prop) [DecidablePred isMatch]
    (start : Fin CALLSIGN_HASHTABLE_SIZE) : Outcome CALLSIGN_HASHTABLE_SIZE :=
  LinearProbing.probe (fun i => (t.slots i).Occupied) (fun i => isMatch (t.slots i))
    CALLSIGN_HASHTABLE_SIZE start

/-- Write a new entry to slot `i`, unless the table is full and that slot is taken. -/
def HashTable.store (t : HashTable) (i : Fin CALLSIGN_HASHTABLE_SIZE) (callsign : List Char)
    (hash : ℕ) : HashTable :=
  if (t.slots i).Occupied then t
  else
    { slots := Function.update t.slots i ⟨callsign.take 11, hash⟩
      size := t.size + 1 }

/-- Add a callsign under a hash; one that is stored already gets age zero. -/
def hashtable_add (callsign : List Char) (hash : ℕ) (t : HashTable) : HashTable :=
  match t.probe (fun s => s.hash &&& hashMask = hash ∧ s.callsign = callsign) (slotOf hash) with
  | .found i =>
    { t with slots := Function.update t.slots i (t.slots i).resetAge }
  | .free i => t.store i callsign hash
  | .exhausted i => t.store i callsign hash

/-- The first callsign on the probe path whose leading hash bits are `hash`. -/
def hashtable_lookup (hash_type : ftx_callsign_hash_type_t) (hash : ℕ) (t : HashTable) :
    Option (List Char) :=
  match t.probe (fun s => (s.hash &&& hashMask) >>> hash_shift hash_type = hash)
      (slotOf (u32 (hash <<< hash_shift hash_type))) with
  | .found i => some (t.slots i).callsign
  | .free _ => none
  | .exhausted _ => none

/-! ## Entries -/

namespace HashTable

variable {t : HashTable} {max_age : ℕ} {i : Fin CALLSIGN_HASHTABLE_SIZE}

/-- The home slot of a stored entry. -/
def home (e : List Char × ℕ) : Fin CALLSIGN_HASHTABLE_SIZE := slotOf e.2

/-- What a slot stores: the callsign and the 22-bit hash, if it is occupied. -/
def entry (s : Slot) : Option (List Char × ℕ) :=
  if s.Occupied then some (s.callsign, s.hash22) else none

/-- What the slots of the table store. -/
def entries (t : HashTable) : Table CALLSIGN_HASHTABLE_SIZE (List Char × ℕ) := fun i =>
  entry (t.slots i)

/-- The callsign is stored under the 22-bit hash. -/
def Stored (t : HashTable) (callsign : List Char) (hash : ℕ) : Prop :=
  ∃ i, (t.slots i).Occupied ∧ (t.slots i).callsign = callsign ∧ (t.slots i).hash22 = hash

theorem entries_eq_some_iff {e : List Char × ℕ} :
    t.entries i = some e ↔
      (t.slots i).Occupied ∧ (t.slots i).callsign = e.1 ∧ (t.slots i).hash22 = e.2 := by
  rw [entries, entry, Option.ite_none_right_eq_some, Option.some.injEq, Prod.ext_iff]

theorem isSome_entries_iff : (t.entries i).isSome ↔ (t.slots i).Occupied := by
  simp [entries, entry]

theorem entries_eq_none_iff : t.entries i = none ↔ ¬(t.slots i).Occupied := by
  simp [entries, entry]

/-- The entry of an occupied slot. -/
theorem entries_of_occupied (h : (t.slots i).Occupied) :
    t.entries i = some ((t.slots i).callsign, (t.slots i).hash22) := if_pos h

theorem and_hashMask (n : ℕ) : n &&& hashMask = n % 2 ^ 22 := by
  have hmask : hashMask = 2 ^ 22 - 1 := by norm_num [hashMask]
  rw [hmask, Nat.and_two_pow_sub_one_eq_mod]

theorem hash22_eq_mod (s : Slot) : s.hash22 = s.hash % 2 ^ 22 := and_hashMask s.hash

theorem hash22_lt (s : Slot) : s.hash22 < 2 ^ 22 := by
  rw [hash22_eq_mod]
  exact Nat.mod_lt _ (by norm_num)

@[simp]
theorem callsign_aged (s : Slot) : s.aged.callsign = s.callsign := by rw [Slot.aged]

@[simp]
theorem callsign_resetAge (s : Slot) : s.resetAge.callsign = s.callsign := by rw [Slot.resetAge]

@[simp]
theorem occupied_aged (s : Slot) : s.aged.Occupied ↔ s.Occupied := by
  rw [Slot.Occupied, Slot.Occupied, callsign_aged]

@[simp]
theorem occupied_resetAge (s : Slot) : s.resetAge.Occupied ↔ s.Occupied := by
  rw [Slot.Occupied, Slot.Occupied, callsign_resetAge]

/-- Raising the age leaves the 22 hash bits alone. -/
@[simp]
theorem hash22_aged (s : Slot) : s.aged.hash22 = s.hash22 := by
  have hage : u32 ((s.age + 1) <<< 24) % 2 ^ 22 = 0 := by
    rw [u32, Nat.mod_mod_of_dvd _ (by norm_num), Nat.shiftLeft_eq]
    omega
  rw [hash22_eq_mod, hash22_eq_mod, Slot.aged, Nat.or_mod_two_pow, hage, Nat.zero_or,
    and_hashMask, Nat.mod_mod]

@[simp]
theorem hash22_resetAge (s : Slot) : s.resetAge.hash22 = s.hash22 := by
  rw [hash22_eq_mod, hash22_eq_mod, Slot.resetAge, and_hashMask, Nat.mod_mod]

@[simp]
theorem entry_nil (hash : ℕ) : entry ⟨[], hash⟩ = none := if_neg fun h => h rfl

@[simp]
theorem entry_aged (s : Slot) : entry s.aged = entry s := by
  simp only [entry, occupied_aged, callsign_aged, hash22_aged]

@[simp]
theorem entry_resetAge (s : Slot) : entry s.resetAge = entry s := by
  simp only [entry, occupied_resetAge, callsign_resetAge, hash22_resetAge]

/-! ## What the operations do to the entries -/

theorem entries_init : hashtable_init.entries = fun _ => none := by
  funext i
  exact entry_nil 0

/-- A cleanup frees the removed slots and keeps every other entry. -/
theorem entries_cleanup :
    (hashtable_cleanup max_age t).entries = t.entries.erase (t.Removed max_age) := by
  funext i
  simp only [Table.erase, entries, hashtable_cleanup, cleanupSlot]
  by_cases hocc : (t.slots i).Occupied
  · by_cases hage : max_age ≤ (t.slots i).age
    · rw [if_pos hocc, if_pos hage, entry_nil, if_pos ⟨hocc, hage⟩]
    · rw [if_pos hocc, if_neg hage, entry_aged, if_neg fun h => hage h.2]
  · rw [if_neg hocc, if_neg fun h => hocc h.1]

/-- Replacing one slot replaces its entry. -/
theorem entries_update (s : Slot) (size : ℤ) :
    (HashTable.mk (Function.update t.slots i s) size).entries =
      Function.update t.entries i (entry s) := by
  funext j
  rcases eq_or_ne j i with rfl | hne
  · simp only [entries, Function.update_self]
  · simp only [entries, Function.update_of_ne hne]

/-- Writing to a free slot adds an entry, unless the callsign is empty. -/
theorem entries_store {callsign : List Char} {hash : ℕ} (hfree : ¬(t.slots i).Occupied)
    (hhash : hash < 2 ^ 22) :
    (t.store i callsign hash).entries =
      if callsign = [] then t.entries
      else Function.update t.entries i (some (callsign.take 11, hash)) := by
  rw [store, if_neg hfree, entries_update]
  split_ifs with hempty
  · rw [hempty, List.take_nil, entry_nil, ← entries_eq_none_iff.2 hfree, Function.update_eq_self]
  · have hocc : Slot.Occupied ⟨callsign.take 11, hash⟩ := by simp [Slot.Occupied, hempty]
    rw [entry, if_pos hocc, hash22_eq_mod, Nat.mod_eq_of_lt hhash]

/-- An addition leaves the entries as they are or adds one at the first free slot on the probe
path of its hash, which holds no copy of it. -/
theorem entries_add (callsign : List Char) {hash : ℕ} (hhash : hash < 2 ^ 22) :
    (hashtable_add callsign hash t).entries = t.entries ∨
      ∃ d < CALLSIGN_HASHTABLE_SIZE,
        t.entries.Occupied (slotOf hash) d ∧ t.entries (slot (slotOf hash) d) = none ∧
        (∀ e < d, t.entries (slot (slotOf hash) e) ≠ some (callsign, hash)) ∧
        (hashtable_add callsign hash t).entries =
          Function.update t.entries (slot (slotOf hash) d) (some (callsign.take 11, hash)) := by
  obtain ⟨d, -, hbefore, hend⟩ := probe_spec (fun i => (t.slots i).Occupied)
    (fun i => (t.slots i).hash &&& hashMask = hash ∧ (t.slots i).callsign = callsign)
    CALLSIGN_HASHTABLE_SIZE (slotOf hash)
  rcases hend with ⟨_, _, _, hfound⟩ | ⟨hd, hfree, hprobe⟩ | ⟨rfl, hprobe⟩
  · left
    rw [hashtable_add, probe, hfound]
    simp only [entries_update, entry_resetAge]
    exact Function.update_eq_self _ t.entries
  · rw [hashtable_add, probe, hprobe]
    simp only [entries_store hfree hhash]
    split_ifs with hempty
    · exact Or.inl rfl
    · refine Or.inr ⟨d, hd, fun e he => isSome_entries_iff.2 (hbefore e he).1,
        entries_eq_none_iff.2 hfree, fun e he heq => ?_, rfl⟩
      obtain ⟨_, hcall, hhash'⟩ := entries_eq_some_iff.1 heq
      exact (hbefore e he).2 ⟨hhash', hcall⟩
  · -- the probe came back to its start, which it has seen to be occupied
    left
    have hocc := (hbefore 0 (by decide)).1
    rw [slot_zero] at hocc
    rw [hashtable_add, probe, hprobe]
    simp only [slot_self, store, if_pos hocc]

/-! ## Lookups -/

/-- A lookup succeeds exactly if a slot with the queried leading bits is reached from the start
slot through occupied slots. -/
theorem isSome_lookup_iff {hash_type : ftx_callsign_hash_type_t} {hash : ℕ} :
    (hashtable_lookup hash_type hash t).isSome ↔
      ∃ d < CALLSIGN_HASHTABLE_SIZE,
        (t.slots (slot (slotOf (u32 (hash <<< hash_shift hash_type))) d)).hash22 >>>
            hash_shift hash_type = hash ∧
          ∀ e ≤ d, (t.slots (slot (slotOf (u32 (hash <<< hash_shift hash_type))) e)).Occupied := by
  rw [hashtable_lookup, probe]
  simp only [Slot.hash22]
  rw [← exists_probe_eq_found_iff (fun i => (t.slots i).Occupied)
    (fun i => ((t.slots i).hash &&& hashMask) >>> hash_shift hash_type = hash)]
  split <;> simp_all

/-- The callsign a lookup returns is stored, under a hash with the queried leading bits. -/
theorem stored_of_lookup {hash_type : ftx_callsign_hash_type_t} {hash : ℕ} {callsign : List Char}
    (h : hashtable_lookup hash_type hash t = some callsign) :
    ∃ h22, t.Stored callsign h22 ∧ h22 >>> hash_shift hash_type = hash := by
  rw [hashtable_lookup, probe] at h
  split at h
  case h_1 i hfound =>
    obtain ⟨hocc, hmatch⟩ := of_probe_eq_found hfound
    exact ⟨(t.slots i).hash22, ⟨i, hocc, Option.some.inj h, rfl⟩, hmatch⟩
  case h_2 => simp at h
  case h_3 => simp at h

/-! ## Soundness -/

/-- Every stored entry is reached from its home slot through occupied slots, its 22-bit hash is
found, and no pair of callsign and hash is stored twice. -/
structure Sound (t : HashTable) : Prop where
  reachable : ∀ i, (t.slots i).Occupied → ∃ d < CALLSIGN_HASHTABLE_SIZE,
    slot (slotOf (t.slots i).hash22) d = i ∧
      ∀ e < d, (t.slots (slot (slotOf (t.slots i).hash22) e)).Occupied
  found : ∀ i, (t.slots i).Occupied →
    (hashtable_lookup .FTX_CALLSIGN_HASH_22_BITS (t.slots i).hash22 t).isSome
  distinct : ∀ i j, (t.slots i).Occupied → (t.slots j).Occupied →
    (t.slots i).callsign = (t.slots j).callsign → (t.slots i).hash22 = (t.slots j).hash22 → i = j

/-- A 22-bit hash is found if a slot with it is reached through occupied slots. -/
theorem isSome_lookup22_of_slot {hash d : ℕ} (hd : d < CALLSIGN_HASHTABLE_SIZE)
    (hhash : (t.slots (slot (slotOf hash) d)).hash22 = hash)
    (hocc : ∀ e ≤ d, (t.slots (slot (slotOf hash) e)).Occupied) :
    (hashtable_lookup .FTX_CALLSIGN_HASH_22_BITS hash t).isSome := by
  have hlt : hash < 2 ^ 22 := by
    rw [← hhash]
    exact hash22_lt _
  have hstart : u32 (hash <<< 0) = hash := Nat.mod_eq_of_lt (hlt.trans (by norm_num))
  rw [isSome_lookup_iff]
  simp only [hash_shift, hstart]
  exact ⟨d, hd, by rw [hhash, Nat.shiftRight_zero], hocc⟩

/-- An entry that is reached from its home slot is found by its 22-bit hash. -/
theorem isSome_lookup22 (ht : t.entries.Findable home) (hocc : (t.slots i).Occupied) :
    (hashtable_lookup .FTX_CALLSIGN_HASH_22_BITS (t.slots i).hash22 t).isSome := by
  obtain ⟨d, hd, hslot, hpath⟩ := ht i _ (entries_of_occupied hocc)
  simp only [home] at hslot hpath
  refine isSome_lookup22_of_slot hd (by rw [hslot]) fun e he => ?_
  rcases Nat.lt_or_eq_of_le he with hlt | rfl
  · exact isSome_entries_iff.1 (hpath e hlt)
  · rwa [hslot]

/-- The table is sound exactly if its entries are findable and distinct. -/
theorem sound_iff : t.Sound ↔ t.entries.Findable home ∧ t.entries.Distinct := by
  constructor
  · intro h
    constructor
    · intro i x hx
      obtain ⟨hocc, -, hhash⟩ := entries_eq_some_iff.1 hx
      obtain ⟨d, hd, hslot, hpath⟩ := h.reachable i hocc
      rw [hhash] at hslot hpath
      exact ⟨d, hd, hslot, fun e he => isSome_entries_iff.2 (hpath e he)⟩
    · intro i j x hi hj
      obtain ⟨hi, hic, hih⟩ := entries_eq_some_iff.1 hi
      obtain ⟨hj, hjc, hjh⟩ := entries_eq_some_iff.1 hj
      exact h.distinct i j hi hj (hic.trans hjc.symm) (hih.trans hjh.symm)
  · rintro ⟨hfind, hdist⟩
    refine ⟨fun i hi => ?_, fun i hi => isSome_lookup22 hfind hi, fun i j hi hj hc hh => ?_⟩
    · obtain ⟨d, hd, hslot, hpath⟩ := hfind i _ (entries_of_occupied hi)
      exact ⟨d, hd, hslot, fun e he => isSome_entries_iff.1 (hpath e he)⟩
    · refine hdist i j _ (entries_of_occupied hi) (entries_eq_some_iff.2 ⟨hj, hc.symm, hh.symm⟩)

end HashTable

end GranolaSdr.Ft8
