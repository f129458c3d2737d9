import GranolaSdr.WsServer.Protocol
import Mathlib.Data.List.AList

/-!
# The dictionary

`dict.rs`: a map from keys to values that may expire. Each definition is the body of one operation
under the lock. The clock is read before the lock is taken where the source does so, which is why
the time or the expiry is an argument.

## Main definitions

* `Dict`: the map;
* `Dict.set`, `Dict.get`, `Dict.delete`, `Dict.keys`, `Dict.expired`, `Dict.removeExpired`: the
  operations;
* `Dict.stored`: the value under a key, expired or not.
-/

namespace GranolaSdr.WsServer

/-- A stored value and the time it expires at. -/
structure Entry (V : Type*) where
  value : V
  expires_at : Option ℕ

/-- Whether the entry has expired at a time. -/
def Entry.Expired {V : Type*} (e : Entry V) (now : ℕ) : Prop := ∃ t ∈ e.expires_at, t ≤ now

instance {V : Type*} (e : Entry V) (now : ℕ) : Decidable (e.Expired now) :=
  match h : e.expires_at with
  | none => isFalse (by simp [Entry.Expired, h])
  | some t => decidable_of_iff (t ≤ now) (by simp [Entry.Expired, h])

theorem Entry.Expired.mono {V : Type*} {e : Entry V} {now later : ℕ} (h : e.Expired now)
    (hle : now ≤ later) : e.Expired later := by
  obtain ⟨t, ht, hexp⟩ := h
  exact ⟨t, ht, Nat.le_trans hexp hle⟩

/-- The map from keys to entries. -/
abbrev Dict (V : Type*) := AList fun _ : Text => Entry V

namespace Dict

variable {V : Type*} (d : Dict V)

/-- `set` and `set_with_ttl`: store a value. -/
def set (key : Text) (value : V) (expires_at : Option ℕ) : Dict V :=
  d.insert key { value, expires_at }

/-- The value under a key that has not expired. -/
def get (now : ℕ) (key : Text) : Option V :=
  (d.lookup key).bind fun e => if e.Expired now then none else some e.value

/-- The map without a key, and whether the key was there. -/
def delete (key : Text) : Dict V × Bool := (d.erase key, (d.lookup key).isSome)

/-- The keys whose entries satisfy a test. -/
def keysWhere (p : Entry V → Bool) : List Text :=
  (d.entries.filter fun e => p e.2).map Sigma.fst

/-- The keys that have not expired. -/
def keys (now : ℕ) : List Text := d.keysWhere fun e => !decide (e.Expired now)

/-- The keys that have expired, the candidates of a sweep. -/
def expired (now : ℕ) : List Text := d.keysWhere fun e => decide (e.Expired now)

/-- The second phase of a sweep: remove a candidate if it is expired. -/
def removeExpired (now : ℕ) (key : Text) : Option (Dict V) :=
  (d.lookup key).bind fun e => if e.Expired now then some (d.erase key) else none

/-- The value under a key, whether it has expired or not. -/
def stored (key : Text) : Option V := (d.lookup key).map Entry.value

variable {d} {key k : Text} {now later : ℕ}

theorem mem_keysWhere {p : Entry V → Bool} :
    k ∈ d.keysWhere p ↔ ∃ e, d.lookup k = some e ∧ p e := by
  simp only [keysWhere, List.mem_map, List.mem_filter, Sigma.exists, exists_and_right,
    exists_eq_right, AList.mem_lookup_iff, ← Option.mem_def]

theorem mem_keys : k ∈ d.keys now ↔ ∃ e, d.lookup k = some e ∧ ¬e.Expired now := by
  simp [keys, mem_keysWhere]

theorem mem_expired : k ∈ d.expired now ↔ ∃ e, d.lookup k = some e ∧ e.Expired now := by
  simp [expired, mem_keysWhere]

@[simp]
theorem stored_set_self (value : V) (expires_at : Option ℕ) :
    (d.set key value expires_at).stored key = some value := by
  simp [stored, set]

theorem lookup_set_of_ne (hne : k ≠ key) (value : V) (expires_at : Option ℕ) :
    (d.set key value expires_at).lookup k = d.lookup k :=
  AList.lookup_insert_ne hne

theorem lookup_erase_of_ne (hne : k ≠ key) : (d.erase key).lookup k = d.lookup k :=
  AList.lookup_erase_ne hne

@[simp]
theorem stored_erase_self : Dict.stored (d.erase key) key = none := by
  simp [stored]

/-- A value that is got is stored. -/
theorem stored_of_get {value : V} (h : d.get now key = some value) : d.stored key = some value := by
  obtain ⟨e, he, hval⟩ := Option.bind_eq_some_iff.1 h
  rw [Option.ite_none_left_eq_some] at hval
  rw [stored, he, Option.map_some, hval.2]

/-- A key that cannot be got stays so until it is stored again. -/
theorem get_eq_none_mono (hle : now ≤ later) (h : d.get now key = none) :
    d.get later key = none := by
  rw [get] at h ⊢
  cases hlookup : d.lookup key with
  | none => rfl
  | some e =>
    rw [hlookup, Option.bind_some] at h
    have hexp : e.Expired now := by
      by_contra hne
      simp [hne] at h
    simp [hexp.mono hle]

/-- A key that is not listed cannot be got. -/
theorem get_eq_none_of_notMem_keys (h : k ∉ d.keys now) : d.get now k = none := by
  rw [get, Option.bind_eq_none_iff]
  intro e he
  by_cases hexp : e.Expired now
  · exact if_pos hexp
  · exact absurd (mem_keys.2 ⟨e, he, hexp⟩) h

/-- Where nothing has expired, what is stored can be got. -/
theorem get_eq_stored (h : ∀ e, d.lookup key = some e → ¬e.Expired now) :
    d.get now key = d.stored key := by
  rw [get, stored]
  cases hlookup : d.lookup key with
  | none => rfl
  | some e => simp [h e hlookup]

theorem get_congr {d' : Dict V} (h : d'.lookup k = d.lookup k) : d'.get now k = d.get now k := by
  rw [get, get, h]

theorem stored_congr {d' : Dict V} (h : d'.lookup k = d.lookup k) : d'.stored k = d.stored k := by
  rw [stored, stored, h]

end Dict

end GranolaSdr.WsServer
