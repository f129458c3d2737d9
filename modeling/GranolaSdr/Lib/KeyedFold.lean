import Mathlib.Data.List.Basic
import Mathlib.Data.List.Induction
import Mathlib.Order.Lattice

/-!
# Folding the groups of a list

A dictionary that keeps the order of insertion, with a value for each key, folds the members of a
list group by group: the first member with a key is stored, and each later one is folded into the
stored value in place. A value that changes only for a greater one is the first of the greatest.

## Main definitions

* `group`, `firstKeys`: the members with a key, and the keys in order;
* `Folded`: the entries of such a dictionary;
* `IsFirstMax`: the first of the members that rank highest.

## Main results

* `Folded.append_new`, `Folded.append_old`: a member with a new key, and one with a known key;
* `isFirstMax_foldl`: keeping the greater of two, which keeps the first of the greatest.
-/

namespace KeyedFold

variable {K V : Type*} [DecidableEq K] {key : V → K} {f : V → V → V} {xs : List V}
  {entries : List (K × V)} {x : V} {k : K}

/-- The members with a key. -/
def group (key : V → K) (k : K) (xs : List V) : List V := xs.filter fun x => key x = k

theorem mem_group : x ∈ group key k xs ↔ x ∈ xs ∧ key x = k := by simp [group]

theorem group_append_of_eq (h : key x = k) : group key k (xs ++ [x]) = group key k xs ++ [x] := by
  simp [group, h]

theorem group_append_of_ne (h : key x ≠ k) : group key k (xs ++ [x]) = group key k xs := by
  simp [group, h]

theorem group_eq_nil (h : k ∉ xs.map key) : group key k xs = [] := by
  rw [group, List.filter_eq_nil_iff]
  intro x hx heq
  exact h (List.mem_map.2 ⟨x, hx, of_decide_eq_true heq⟩)

/-- The keys of a list, in the order in which they first arrive. -/
def firstKeys (key : V → K) (xs : List V) : List K := (xs.map key).eraseDups

/-- One entry for each key, in the order in which the keys first arrive, with the fold over its
members. -/
structure Folded (key : V → K) (f : V → V → V) (xs : List V) (entries : List (K × V)) : Prop where
  keys : entries.map Prod.fst = firstKeys key xs
  nodup : (entries.map Prod.fst).Nodup
  value : ∀ e ∈ entries, ∃ x rest, group key e.1 xs = x :: rest ∧ e.2 = rest.foldl f x

theorem folded_nil : Folded key f [] [] := ⟨rfl, List.nodup_nil, nofun⟩

namespace Folded

theorem mem_keys (h : Folded key f xs entries) : k ∈ entries.map Prod.fst ↔ k ∈ xs.map key := by
  rw [h.keys, firstKeys, List.mem_eraseDups]

/-- The value of an entry depends on its key alone. -/
theorem value_eq (h : Folded key f xs entries) {d e : K × V} (hd : d ∈ entries) (he : e ∈ entries)
    (hkey : d.1 = e.1) : d.2 = e.2 := by
  obtain ⟨x, rest, hx, hdval⟩ := h.value d hd
  obtain ⟨y, rest', hy, heval⟩ := h.value e he
  rw [hkey, hy] at hx
  obtain ⟨rfl, rfl⟩ := List.cons.inj hx
  rw [hdval, heval]

/-- The first member with a key is put at the end. -/
theorem append_new (h : Folded key f xs entries) (hx : key x ∉ xs.map key) :
    Folded key f (xs ++ [x]) (entries ++ [(key x, x)]) := by
  constructor
  · have hremove : [key x].removeAll (xs.map key) = [key x] := by
      simpa [List.removeAll] using hx
    rw [List.map_append, h.keys, firstKeys, firstKeys, List.map_append, List.eraseDups_append,
      List.map_singleton, List.map_singleton, hremove]
    simp [List.eraseDups_cons]
  · rw [List.map_append, List.map_singleton, List.perm_append_comm.nodup_iff]
    exact List.nodup_cons.2 ⟨fun hmem => hx (h.mem_keys.1 hmem), h.nodup⟩
  · intro e he
    rcases List.mem_append.1 he with he | he
    · -- the groups of the other keys are as they were
      have hne : key x ≠ e.1 := by
        rintro heq
        exact hx (heq ▸ h.mem_keys.1 (List.mem_map_of_mem he))
      rw [group_append_of_ne hne]
      exact h.value e he
    · obtain rfl := List.mem_singleton.1 he
      refine ⟨x, [], ?_, rfl⟩
      rw [group_append_of_eq rfl, group_eq_nil hx, List.nil_append]

/-- Folding into the entries of a key leaves the keys. -/
theorem map_fst_fold (entries : List (K × V)) (x : V) :
    (entries.map fun e => if e.1 = key x then (key x, f e.2 x) else e).map Prod.fst =
      entries.map Prod.fst := by
  rw [List.map_map]
  apply List.map_congr_left
  intro e _
  by_cases heq : e.1 = key x
  · simp [heq]
  · simp [heq]

/-- A later member is folded into the entry of its key. -/
theorem append_old (h : Folded key f xs entries) (hx : key x ∈ xs.map key) :
    Folded key f (xs ++ [x])
      (entries.map fun e => if e.1 = key x then (key x, f e.2 x) else e) := by
  constructor
  · -- the key is not new
    have hremove : [key x].removeAll (xs.map key) = [] := by
      simpa [List.removeAll] using hx
    rw [map_fst_fold, h.keys, firstKeys, firstKeys, List.map_append, List.eraseDups_append,
      List.map_singleton, hremove]
    simp
  · rw [map_fst_fold]
    exact h.nodup
  · intro e he
    obtain ⟨d, hd, rfl⟩ := List.mem_map.1 he
    obtain ⟨y, rest, hgroup, hvalue⟩ := h.value d hd
    split
    next heq =>
      refine ⟨y, rest ++ [x], ?_, ?_⟩
      · rw [group_append_of_eq rfl, ← heq, hgroup, List.cons_append]
      · rw [List.foldl_append, ← hvalue]
        rfl
    next hne =>
      exact ⟨y, rest, by rwa [group_append_of_ne (Ne.symm hne)], hvalue⟩

end Folded

/-! ## The first of the greatest -/

variable {β : Type*} [LinearOrder β] {rank : V → β} {y : V}

/-- The first of the members that rank highest. -/
def IsFirstMax (rank : V → β) (xs : List V) (x : V) : Prop :=
  ∃ before after, xs = before ++ x :: after ∧ (∀ y ∈ before, rank y < rank x) ∧
    ∀ y ∈ after, rank y ≤ rank x

theorem isFirstMax_head (h : ∀ y ∈ xs, rank y ≤ rank x) : IsFirstMax rank (x :: xs) x :=
  ⟨[], xs, rfl, nofun, h⟩

theorem IsFirstMax.le (h : IsFirstMax rank xs x) (hy : y ∈ xs) : rank y ≤ rank x := by
  obtain ⟨before, after, rfl, hbefore, hafter⟩ := h
  rcases List.mem_append.1 hy with hy | hy
  · exact (hbefore y hy).le
  · rcases List.mem_cons.1 hy with rfl | hy
    · exact le_rfl
    · exact hafter y hy

theorem IsFirstMax.append_of_le (h : IsFirstMax rank xs x) (hy : rank y ≤ rank x) :
    IsFirstMax rank (xs ++ [y]) x := by
  obtain ⟨before, after, rfl, hbefore, hafter⟩ := h
  refine ⟨before, after ++ [y], by simp, hbefore, ?_⟩
  exact List.forall_mem_append.2 ⟨hafter, by simpa using hy⟩

theorem IsFirstMax.append_of_lt (h : IsFirstMax rank xs x) (hy : rank x < rank y) :
    IsFirstMax rank (xs ++ [y]) y :=
  ⟨xs, [], rfl, fun _ hz => (h.le hz).trans_lt hy, nofun⟩

/-- Keeping the greater of two, and the earlier of equals, keeps the first of the greatest. `f` may
do something else with a first value that is not good. -/
theorem isFirstMax_foldl (good : V → Prop) {x : V} {rest : List V}
    (hf : ∀ a b, good a → (rank a < rank b ∧ f a b = b ∧ good b) ∨ (rank b ≤ rank a ∧ f a b = a))
    (hx : good x) : IsFirstMax rank (x :: rest) (rest.foldl f x) ∧ good (rest.foldl f x) := by
  induction rest using List.reverseRecOn with
  | nil => exact ⟨isFirstMax_head nofun, hx⟩
  | append_singleton rest y ih =>
    obtain ⟨hmax, hgood⟩ := ih
    rw [List.foldl_append, List.foldl_cons, List.foldl_nil, ← List.cons_append]
    rcases hf (rest.foldl f x) y hgood with ⟨hlt, heq, hy⟩ | ⟨hle, heq⟩
    · rw [heq]
      exact ⟨hmax.append_of_lt hlt, hy⟩
    · rw [heq]
      exact ⟨hmax.append_of_le hle, hgood⟩

end KeyedFold
