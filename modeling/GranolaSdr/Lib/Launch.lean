import GranolaSdr.Lib.Memory
import Mathlib.Data.List.Induction

/-!
# Launches of many threads

The threads of a launch run in some order on one memory. Each writes values that do not depend on
what the memory holds. When no two threads write the same cell, the order does not matter.

## Main definitions

* `Launch.Writes`: the cells that each thread writes, and what it writes there;
* `Launch.Apart`: no two threads write the same cell.

## Main results

* `Launch.Writes.foldl_of_mem`: what a cell that is written holds after all threads;
* `Launch.foldl_write`: threads that write lists of bounded length side by side.
-/

namespace Launch

variable {T α : Type*}

/-- A thread writes these values, whatever the memory holds. -/
def Writes (kernel : (ℕ → α) → T → ℕ → α) (writes : T → ℕ → Option α) : Prop :=
  ∀ mem t a, kernel mem t a = (writes t a).getD (mem a)

/-- No two threads write the same cell. -/
def Apart (writes : T → ℕ → Option α) : Prop :=
  ∀ t t' a v v', writes t a = some v → writes t' a = some v' → t = t'

variable {kernel : (ℕ → α) → T → ℕ → α} {writes : T → ℕ → Option α} {order : List T}

/-- A cell holds what its thread has written, wherever in the order the thread stands. -/
theorem Writes.foldl_of_mem (h : Writes kernel writes) (hapart : Apart writes) {t : T}
    (ht : t ∈ order) {a : ℕ} {v : α} (hv : writes t a = some v) (mem : ℕ → α) :
    order.foldl kernel mem a = v := by
  induction order using List.reverseRecOn with
  | nil => cases ht
  | append_singleton order last ih =>
    rw [List.foldl_append, List.foldl_cons, List.foldl_nil, h]
    cases hlast : writes last a with
    | some v' =>
      -- the last thread is the one that writes the cell
      have hsame : last = t := hapart last t a v' v hlast hv
      rw [hsame, hv] at hlast
      exact (Option.some.inj hlast).symm
    | none =>
      refine ih ((List.mem_append.1 ht).resolve_right fun hmem => ?_)
      rw [← List.mem_singleton.1 hmem, hv] at hlast
      cases hlast

/-- What the threads write that each write a list, from cell `w` times their number on. -/
def sideBySide (w : ℕ) (lists : ℕ → List α) (t a : ℕ) : Option α :=
  if w * t ≤ a then (lists t)[a - w * t]? else none

theorem writes_sideBySide (w : ℕ) (lists : ℕ → List α) :
    Writes (fun mem t => Memory.write mem (w * t) (lists t)) (sideBySide w lists) := by
  intro mem t a
  show (if w * t ≤ a then _ else _) = _
  rw [sideBySide]
  split_ifs <;> rfl

/-- The cell determines the thread. -/
theorem div_eq_of_sideBySide {w : ℕ} {lists : ℕ → List α} {t a : ℕ} {v : α}
    (hlen : (lists t).length ≤ w) (hv : sideBySide w lists t a = some v) : a / w = t := by
  rw [sideBySide] at hv
  split_ifs at hv with hle
  have hlt : a - w * t < w := lt_of_lt_of_le (List.getElem?_eq_some_iff.1 hv).1 hlen
  exact Nat.div_eq_of_lt_le (by rw [Nat.mul_comm]; exact hle)
    (by rw [Nat.succ_mul, Nat.mul_comm]; omega)

theorem apart_sideBySide {w : ℕ} {lists : ℕ → List α} (hlen : ∀ t, (lists t).length ≤ w) :
    Apart (sideBySide w lists) := fun t t' _ _ _ hv hv' =>
  (div_eq_of_sideBySide (hlen t) hv).symm.trans (div_eq_of_sideBySide (hlen t') hv')

/-- What the list of a thread leaves in its cells. -/
theorem foldl_write {w : ℕ} {lists : ℕ → List α} (hlen : ∀ t, (lists t).length ≤ w)
    {order : List ℕ} {t : ℕ} (ht : t ∈ order) {i : ℕ} {v : α} (hv : (lists t)[i]? = some v)
    (mem : ℕ → α) :
    order.foldl (fun mem t => Memory.write mem (w * t) (lists t)) mem (w * t + i) = v := by
  refine (writes_sideBySide w lists).foldl_of_mem (apart_sideBySide hlen) ht ?_ mem
  rw [sideBySide, if_pos (Nat.le_add_right _ _), Nat.add_sub_cancel_left, hv]

end Launch
