import Mathlib.Data.List.Basic
import Mathlib.Order.CompletePartialOrder
import Mathlib.Order.Interval.Set.Basic
import Mathlib.Order.Interval.Set.Disjoint

/-!
# Copies of ranges

A memory is a function from addresses to values. A copy reads its whole source before it writes, so
that source and destination may overlap. What a buffer holds is said relative to a stream: the
cells from some address on are the stream's elements from some number on.

## Main definitions

* `Memory.copy`, `Memory.write`: a memory after a copy, or a list, into it;
* `Memory.Holds`: a range of cells is a range of a stream.

## Main results

* `Memory.Holds.copy`, `Memory.Holds.copy_of_disjoint`: what a copy brings, and what it leaves;
* `Memory.Holds.append`, `Memory.Holds.sub`: ranges put together and cut out;
* `Memory.disjoint_ranges_iff`: when two ranges of one length are disjoint.
-/

namespace Memory

variable {α : Type*}

/-- The memory after cells of a source are copied to an address. -/
def copy (mem : ℕ → α) (dst : ℕ) (source : ℕ → α) (src count : ℕ) : ℕ → α := fun i =>
  if dst ≤ i ∧ i < dst + count then source (src + (i - dst)) else mem i

/-- The memory after a list is written to an address. -/
def write (mem : ℕ → α) (dst : ℕ) (list : List α) : ℕ → α := fun i =>
  if dst ≤ i then list[i - dst]?.getD (mem i) else mem i

/-- The cells from an address on are the elements of a stream from a number on. -/
def Holds (mem : ℕ → α) (pos : ℕ) (stream : ℕ → α) (start count : ℕ) : Prop :=
  ∀ i < count, mem (pos + i) = stream (start + i)

variable {mem source stream : ℕ → α} {dst src pos start count n m k : ℕ}

theorem copy_add (mem : ℕ → α) (dst : ℕ) (source : ℕ → α) (src : ℕ) {count i : ℕ}
    (h : i < count) : copy mem dst source src count (dst + i) = source (src + i) := by
  rw [copy, if_pos ⟨Nat.le_add_right dst i, Nat.add_lt_add_left h dst⟩, Nat.add_sub_cancel_left]

theorem copy_of_outside {i : ℕ} (h : i < dst ∨ dst + count ≤ i) :
    copy mem dst source src count i = mem i := if_neg (by omega)

theorem write_add (mem : ℕ → α) (dst : ℕ) (list : List α) (i : ℕ) :
    write mem dst list (dst + i) = list[i]?.getD (mem (dst + i)) := by
  rw [write, if_pos (Nat.le_add_right dst i), Nat.add_sub_cancel_left]

theorem write_of_outside {list : List α} {i : ℕ} (h : i < dst ∨ dst + list.length ≤ i) :
    write mem dst list i = mem i := by
  unfold write
  split_ifs with hle
  · rw [List.getElem?_eq_none (by omega), Option.getD_none]
  · rfl

theorem holds_zero (mem : ℕ → α) (pos : ℕ) (stream : ℕ → α) (start : ℕ) :
    Holds mem pos stream start 0 := nofun

theorem Holds.refl (mem : ℕ → α) (pos count : ℕ) : Holds mem pos mem pos count := fun _ _ => rfl

/-- What is computed cell by cell. -/
theorem Holds.comp {β : Type*} (f : α → β) (h : Holds mem pos stream start count) :
    Holds (fun i => f (mem i)) pos (fun i => f (stream i)) start count :=
  fun i hi => congrArg f (h i hi)

/-- The destination holds what the source held. -/
theorem Holds.copy (h : Holds source src stream start count) :
    Holds (copy mem dst source src count) dst stream start count := by
  intro i hi
  rw [copy_add mem dst source src hi]
  exact h i hi

/-- A range apart from the destination is left as it was. -/
theorem Holds.copy_of_disjoint (h : Holds mem pos stream start n)
    (hapart : pos + n ≤ dst ∨ dst + count ≤ pos) :
    Holds (Memory.copy mem dst source src count) pos stream start n := by
  intro i hi
  rw [copy_of_outside (by omega)]
  exact h i hi

/-- Two ranges side by side. -/
theorem Holds.append (h : Holds mem pos stream start m)
    (h' : Holds mem (pos + m) stream (start + m) n) : Holds mem pos stream start (m + n) := by
  intro i hi
  rcases lt_or_ge i m with him | him
  · exact h i him
  · obtain ⟨j, rfl⟩ := Nat.exists_eq_add_of_le him
    have hj := h' j (by omega)
    rwa [Nat.add_assoc, Nat.add_assoc] at hj

/-- A range within a range. -/
theorem Holds.sub (h : Holds mem pos stream start n) (hk : k + m ≤ n) :
    Holds mem (pos + k) stream (start + k) m := by
  intro i hi
  rw [Nat.add_assoc, Nat.add_assoc]
  exact h (k + i) (by omega)

/-- Two ranges of one length are disjoint exactly if they are empty or one ends where the other
begins, or before. -/
theorem disjoint_ranges_iff :
    Disjoint (Set.Ico dst (dst + count)) (Set.Ico src (src + count)) ↔
      count = 0 ∨ dst + count ≤ src ∨ src + count ≤ dst := by
  rw [Set.Ico_disjoint_Ico]
  omega

end Memory
