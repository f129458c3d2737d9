import GranolaSdr.Ft8.CallsignTable

/-!
# Runs of the FT8 callsign hash table

Histories of additions and cleanups. An addition never harms the table. A cleanup frees slots
in place, without moving the entries behind them, so it cuts the probe path of every kept entry
that leads through a freed slot: that entry is no longer found and is stored again when it is heard
again.

## Main definitions

* `Op`, `run`: the operations and the table a list of them leads to;
* `HashTable.CleanupKeepsChains`: a cleanup frees no slot on the way to an entry that it keeps.

## Main results

* `sound_throughout_iff`: the table is sound throughout a run exactly if every cleanup of the run
  keeps the chains.
-/

namespace GranolaSdr.Ft8

open LinearProbing HashTable

/-- A callsign that fits a slot. -/
structure Callsign where
  chars : List Char
  nonempty : chars ≠ []
  length_le : chars.length ≤ 11

/-- The operations on the table. -/
inductive Op where
  | init
  | add (callsign : Callsign) (hash : Fin (2 ^ 22))
  | cleanup (max_age : Fin 256)

/-- The table after an operation. -/
def HashTable.apply (t : HashTable) : Op → HashTable
  | .init => hashtable_init
  | .add callsign hash => hashtable_add callsign.chars hash t
  | .cleanup max_age => hashtable_cleanup max_age t

/-- The table after a list of operations on an initialised one. -/
def run (ops : List Op) : HashTable := ops.foldl HashTable.apply hashtable_init

/-- A cleanup frees no slot on the way from the home slot of an entry it keeps to that entry. -/
def HashTable.CleanupKeepsChains (t : HashTable) : Op → Prop
  | .cleanup max_age => t.entries.PathsKept home (t.Removed max_age)
  | _ => True

theorem sound_init : hashtable_init.Sound := by
  rw [sound_iff, entries_init]
  exact ⟨Table.findable_empty, Table.distinct_empty⟩

/-- An addition keeps the entries findable. -/
theorem findable_add {t : HashTable} (ht : t.entries.Findable home) (callsign : List Char)
    (hash : Fin (2 ^ 22)) : (hashtable_add callsign hash t).entries.Findable home := by
  rcases entries_add (t := t) callsign hash.isLt with h | ⟨d, hd, hocc, -, -, h⟩ <;> rw [h]
  · exact ht
  · exact Table.findable_insert (x := (callsign.take 11, (hash : ℕ))) ht hd hocc

/-- An addition keeps the table sound. -/
theorem sound_add {t : HashTable} (ht : t.Sound) (callsign : Callsign) (hash : Fin (2 ^ 22)) :
    (hashtable_add callsign.chars hash t).Sound := by
  obtain ⟨hfind, hdist⟩ := sound_iff.1 ht
  refine sound_iff.2 ⟨findable_add hfind callsign.chars hash, ?_⟩
  rcases entries_add (t := t) callsign.chars hash.isLt with h | ⟨d, hd, -, hfree, hnew, h⟩ <;>
    rw [h]
  · exact hdist
  · rw [List.take_of_length_le callsign.length_le]
    exact Table.distinct_insert (x := (callsign.chars, (hash : ℕ))) hfind hdist hd hnew hfree

/-- A cleanup keeps the table sound exactly if it keeps the chains. -/
theorem sound_cleanup_iff {t : HashTable} (ht : t.Sound) (max_age : Fin 256) :
    (hashtable_cleanup max_age t).Sound ↔ t.CleanupKeepsChains (.cleanup max_age) := by
  obtain ⟨hfind, hdist⟩ := sound_iff.1 ht
  rw [sound_iff, entries_cleanup, Table.findable_erase_iff hfind, CleanupKeepsChains]
  exact and_iff_left (Table.distinct_erase hdist)

/-- One step keeps the table sound exactly if, being a cleanup, it keeps the chains. -/
theorem sound_apply_iff {t : HashTable} (ht : t.Sound) (op : Op) :
    (t.apply op).Sound ↔ t.CleanupKeepsChains op := by
  cases op with
  | init => exact iff_of_true sound_init trivial
  | add callsign hash => exact iff_of_true (sound_add ht callsign hash) trivial
  | cleanup max_age => exact sound_cleanup_iff ht max_age

theorem exec_apply (t : HashTable) (ops : List Op) :
    Run.exec (fun t op => some (t.apply op)) t ops = some (ops.foldl HashTable.apply t) := by
  induction ops generalizing t with
  | nil => rfl
  | cons op ops ih => exact ih (t.apply op)

/-- The table is sound after every prefix of a run exactly if each cleanup of the run, in the
state it is made in, keeps the chains. -/
theorem sound_throughout_iff (ops : List Op) :
    (∀ done, done <+: ops → (run done).Sound) ↔
      ∀ done op, done ++ [op] <+: ops → (run done).CleanupKeepsChains op := by
  have hstep : ∀ (t : HashTable) (op : Op) (t' : HashTable), t.Sound →
      some (t.apply op) = some t' → (t'.Sound ↔ t.CleanupKeepsChains op) := by
    rintro t op t' ht heq
    obtain rfl := Option.some.inj heq
    exact sound_apply_iff ht op
  have hiff := Run.forall_prefix_iff_along hstep sound_init (exec_apply hashtable_init ops)
  rw [Run.along_iff] at hiff
  simpa [exec_apply, run] using hiff

/-- Two callsigns with the same home slot, the first of which ages out. -/
def agedChain : List Op :=
  [.add ⟨['K', '1', 'A', 'B', 'C'], by decide, by decide⟩ 5, .cleanup 1,
    .add ⟨['W', '9', 'X', 'Y', 'Z'], by decide, by decide⟩ 2053, .cleanup 1]

/-- Once the first callsign of the chain has aged out, the second one is still stored but not
found, and adding it again stores it twice. -/
theorem agedChain_not_sound :
    (run agedChain).Stored ['W', '9', 'X', 'Y', 'Z'] 2053 ∧
      hashtable_lookup .FTX_CALLSIGN_HASH_22_BITS 2053 (run agedChain) = none ∧
      ¬(run agedChain).Sound ∧
      let t := hashtable_add ['W', '9', 'X', 'Y', 'Z'] 2053 (run agedChain)
      entry (t.slots 5) = some (['W', '9', 'X', 'Y', 'Z'], 2053) ∧
        entry (t.slots 6) = some (['W', '9', 'X', 'Y', 'Z'], 2053) := by
  have hocc : ((run agedChain).slots 6).Occupied := by decide +kernel
  have hhash : ((run agedChain).slots 6).hash22 = 2053 := by decide +kernel
  have hlookup : hashtable_lookup .FTX_CALLSIGN_HASH_22_BITS 2053 (run agedChain) = none := by
    decide +kernel
  refine ⟨⟨6, hocc, by decide +kernel, hhash⟩, hlookup, fun h => ?_, ?_⟩
  · have hfound := h.found 6 hocc
    rw [hhash, hlookup] at hfound
    exact absurd hfound (by decide)
  · exact ⟨by decide +kernel, by decide +kernel⟩

end GranolaSdr.Ft8
