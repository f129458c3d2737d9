import Mathlib.Algebra.Order.Group.Multiset
import Mathlib.Data.List.Induction
import Mathlib.Data.Multiset.Sort
import Mathlib.Logic.Equiv.Basic

/-!
# The best elements of a stream

A heap in the first cells of a memory, with an element of the smallest key at its root. When it is
full, the root makes place for an element with a larger key, so that the heap has the best elements
of all that were offered. In the end it is sorted in place.

## Main definitions

* `MinHeap.up`, `MinHeap.down`: an element is moved towards the root, or away from it;
* `MinHeap.offer`: an element is offered to a heap of limited size;
* `MinHeap.sort`: the cells in order, an element of the largest key first;
* `MinHeap.Best`: some elements of a multiset, none of the others having a larger key.

## Main results

* `MinHeap.isHeap_up`, `MinHeap.isHeap_down`: the moves restore the order;
* `MinHeap.holds_foldl_offer`: what a heap has after a stream was offered to it;
* `MinHeap.sorted_sort`: the cells are in order.
-/

namespace MinHeap

variable {α K : Type*} [LinearOrder K] {key : α → K}

/-! ## The cells -/

/-- The memory after two cells are exchanged. -/
def swap (heap : ℕ → α) (i j : ℕ) : ℕ → α := heap ∘ Equiv.swap i j

/-- What the first cells have. -/
def content (heap : ℕ → α) (size : ℕ) : Multiset α := (Multiset.range size).map heap

theorem swap_left (heap : ℕ → α) (i j : ℕ) : swap heap i j i = heap j := by
  rw [swap, Function.comp_apply, Equiv.swap_apply_left]

theorem swap_right (heap : ℕ → α) (i j : ℕ) : swap heap i j j = heap i := by
  rw [swap, Function.comp_apply, Equiv.swap_apply_right]

theorem swap_of_ne (heap : ℕ → α) {i j k : ℕ} (hi : k ≠ i) (hj : k ≠ j) :
    swap heap i j k = heap k := by
  rw [swap, Function.comp_apply, Equiv.swap_apply_of_ne_of_ne hi hj]

theorem mem_content {heap : ℕ → α} {size : ℕ} {a : α} :
    a ∈ content heap size ↔ ∃ i < size, heap i = a := by
  rw [content, Multiset.mem_map]
  simp only [Multiset.mem_range]

theorem card_content (heap : ℕ → α) (size : ℕ) : (content heap size).card = size := by
  rw [content, Multiset.card_map, Multiset.card_range]

theorem content_succ (heap : ℕ → α) (size : ℕ) :
    content heap (size + 1) = heap size ::ₘ content heap size := by
  rw [content, Multiset.range_succ, Multiset.map_cons, content]

theorem content_congr {heap heap' : ℕ → α} {size : ℕ} (h : ∀ i < size, heap i = heap' i) :
    content heap size = content heap' size :=
  Multiset.map_congr rfl fun i hi => h i (Multiset.mem_range.1 hi)

/-- An exchange keeps what the cells have. -/
theorem content_swap (heap : ℕ → α) {i j size : ℕ} (hi : i < size) (hj : j < size) :
    content (swap heap i j) size = content heap size := by
  have hrange : (Multiset.range size).map (Equiv.swap i j) = Multiset.range size := by
    have hmem : ∀ k, k < size → Equiv.swap i j k < size := by
      intro k hk
      rw [Equiv.swap_apply_def]
      split_ifs
      · exact hj
      · exact hi
      · exact hk
    refine (Multiset.Nodup.ext ((Multiset.nodup_range size).map (Equiv.injective _))
      (Multiset.nodup_range size)).2 fun k => ?_
    rw [Multiset.mem_map]
    simp only [Multiset.mem_range]
    constructor
    · rintro ⟨l, hl, rfl⟩
      exact hmem l hl
    · intro hk
      exact ⟨Equiv.swap i j k, hmem k hk, Equiv.swap_apply_self i j k⟩
  rw [content, swap, ← Multiset.map_map, hrange, content]

/-! ## Moving an element -/

def parent (i : ℕ) : ℕ := (i - 1) / 2

theorem parent_lt {i : ℕ} (h : 0 < i) : parent i < i := by
  unfold parent
  omega

/-- The cells of a heap: no element has a smaller key than the one above it. -/
def IsHeap (key : α → K) (heap : ℕ → α) (size : ℕ) : Prop :=
  ∀ i, 0 < i → i < size → key (heap (parent i)) ≤ key (heap i)

/-- Move an element towards the root, as long as its key is smaller than that of the element
above. -/
def up (key : α → K) (heap : ℕ → α) (current : ℕ) : ℕ → α :=
  if _h : 0 < current ∧ key (heap current) < key (heap (parent current)) then
    up key (swap heap (parent current) current) (parent current)
  else heap
termination_by current
decreasing_by exact parent_lt _h.1

/-- The cell with the smallest key among a cell and the two below it. -/
def smallest (key : α → K) (heap : ℕ → α) (size current : ℕ) : ℕ :=
  let left := 2 * current + 1
  let right := left + 1
  let smallest := if left < size ∧ key (heap left) < key (heap current) then left else current
  if right < size ∧ key (heap right) < key (heap smallest) then right else smallest

theorem smallest_cases (key : α → K) (heap : ℕ → α) (size current : ℕ) :
    smallest key heap size current = current ∨
      current < smallest key heap size current ∧ smallest key heap size current < size ∧
        parent (smallest key heap size current) = current := by
  unfold smallest parent
  dsimp only
  split_ifs <;> omega

/-- Move an element away from the root, as long as there is a smaller key below. -/
def down (key : α → K) (heap : ℕ → α) (size current : ℕ) : ℕ → α :=
  if _h : smallest key heap size current = current then heap
  else down key (swap heap (smallest key heap size current) current) size
    (smallest key heap size current)
termination_by size - current
decreasing_by
  have hcases := (smallest_cases key heap size current).resolve_left _h
  omega

/-- The root has the smallest key. -/
theorem IsHeap.root_le {heap : ℕ → α} {size : ℕ} (h : IsHeap key heap size) {i : ℕ}
    (hi : i < size) : key (heap 0) ≤ key (heap i) := by
  induction i using Nat.strongRecOn with
  | ind i ih =>
    rcases Nat.eq_zero_or_pos i with rfl | hpos
    · exact le_rfl
    · have hlt := parent_lt hpos
      exact (ih (parent i) hlt (hlt.trans hi)).trans (h i hpos hi)

/-- The cells of a heap, but for an element that may have a smaller key than the one above it. -/
structure UpTo (key : α → K) (heap : ℕ → α) (size current : ℕ) : Prop where
  others : ∀ i, 0 < i → i < size → i ≠ current → key (heap (parent i)) ≤ key (heap i)
  below : ∀ i, 0 < i → i < size → parent i = current → 0 < current →
    key (heap (parent current)) ≤ key (heap i)

/-- The cells of a heap, but for an element that may have a larger key than those below it. -/
structure DownTo (key : α → K) (heap : ℕ → α) (size current : ℕ) : Prop where
  others : ∀ i, 0 < i → i < size → parent i ≠ current → key (heap (parent i)) ≤ key (heap i)
  below : ∀ i, 0 < i → i < size → parent i = current → 0 < current →
    key (heap (parent current)) ≤ key (heap i)

theorem UpTo.step {heap : ℕ → α} {size current : ℕ} (h : UpTo key heap size current)
    (hpos : 0 < current) (hcurrent : current < size)
    (hlt : key (heap current) < key (heap (parent current))) :
    UpTo key (swap heap (parent current) current) size (parent current) := by
  have hparent := parent_lt hpos
  constructor
  · intro i hi hsize hne
    -- the greater of the two moves down, where its children are no less
    by_cases hcur : i = current
    · rw [hcur, swap_left, swap_right]
      exact hlt.le
    · rw [swap_of_ne heap hne hcur]
      by_cases hbelow : parent i = current
      · rw [hbelow, swap_right]
        exact h.below i hi hsize hbelow hpos
      · by_cases hbeside : parent i = parent current
        · rw [hbeside, swap_left]
          exact hlt.le.trans (hbeside ▸ h.others i hi hsize hcur)
        · rw [swap_of_ne heap hbeside hbelow]
          exact h.others i hi hsize hcur
  · intro i hi hsize hbelow hroot
    -- two levels up the order is as it was
    have htwice := parent_lt hroot
    have habove := h.others (parent current) hroot (hparent.trans hcurrent) hparent.ne
    rw [swap_of_ne heap htwice.ne (htwice.trans hparent).ne]
    by_cases hcur : i = current
    · rw [hcur, swap_right]
      exact habove
    · have hne : i ≠ parent current := by
        rintro rfl
        exact absurd hbelow (parent_lt hi).ne
      rw [swap_of_ne heap hne hcur]
      exact habove.trans (hbelow ▸ h.others i hi hsize hcur)

/-- After the move towards the root the cells are a heap. -/
theorem isHeap_up {heap : ℕ → α} {size current : ℕ} (h : UpTo key heap size current)
    (hcurrent : current < size) : IsHeap key (up key heap current) size := by
  fun_induction up key heap current with
  | case1 heap current hmove ih =>
    exact ih (h.step hmove.1 hcurrent hmove.2) ((parent_lt hmove.1).trans hcurrent)
  | case2 heap current hstop =>
    intro i hi hsize
    by_cases hcur : i = current
    · subst hcur
      exact not_lt.1 fun hlt => hstop ⟨hi, hlt⟩
    · exact h.others i hi hsize hcur

theorem content_up {heap : ℕ → α} {size current : ℕ} (hcurrent : current < size) :
    content (up key heap current) size = content heap size := by
  fun_induction up key heap current with
  | case1 heap current hmove ih =>
    have hparent := (parent_lt hmove.1).trans hcurrent
    rw [ih hparent, content_swap heap hparent hcurrent]
  | case2 => rfl

/-- The smallest of the three cells has no larger key than the others. -/
theorem smallest_le (key : α → K) (heap : ℕ → α) (size current : ℕ) :
    key (heap (smallest key heap size current)) ≤ key (heap current) ∧
      ∀ i, 0 < i → i < size → parent i = current →
        key (heap (smallest key heap size current)) ≤ key (heap i) := by
  have hchild :
      ∀ i, 0 < i → parent i = current → i = 2 * current + 1 ∨ i = 2 * current + 1 + 1 := by
    intro i hi hparent
    unfold parent at hparent
    omega
  unfold smallest
  dsimp only
  generalize hleft : (if 2 * current + 1 < size ∧ key (heap (2 * current + 1)) < key (heap current)
    then 2 * current + 1 else current) = s
  have hs : key (heap s) ≤ key (heap current) ∧
      (2 * current + 1 < size → key (heap s) ≤ key (heap (2 * current + 1))) := by
    rw [← hleft]
    split_ifs with h
    · exact ⟨h.2.le, fun _ => le_rfl⟩
    · exact ⟨le_rfl, fun hlt => not_lt.1 fun hkey => h ⟨hlt, hkey⟩⟩
  split_ifs with h
  · refine ⟨h.2.le.trans hs.1, fun i hi hsize hparent => ?_⟩
    rcases hchild i hi hparent with rfl | rfl
    · exact h.2.le.trans (hs.2 hsize)
    · exact le_rfl
  · refine ⟨hs.1, fun i hi hsize hparent => ?_⟩
    rcases hchild i hi hparent with rfl | rfl
    · exact hs.2 hsize
    · exact not_lt.1 fun hkey => h ⟨hsize, hkey⟩

theorem DownTo.step {heap : ℕ → α} {size current : ℕ} (h : DownTo key heap size current)
    (hmove : smallest key heap size current ≠ current) :
    DownTo key (swap heap (smallest key heap size current) current) size
      (smallest key heap size current) := by
  obtain ⟨hlt, hsize, hparent⟩ := (smallest_cases key heap size current).resolve_left hmove
  obtain ⟨hle, hchildren⟩ := smallest_le key heap size current
  generalize smallest key heap size current = s at hmove hlt hsize hparent hle hchildren ⊢
  constructor
  · intro i hi hisize hne
    by_cases hs : i = s
    · rw [hs, hparent, swap_left, swap_right]
      exact hle
    · by_cases hcur : i = current
      · have htwice := parent_lt hi
        rw [swap_of_ne heap hne (hcur ▸ htwice.ne), hcur, swap_right]
        exact h.below s (by omega) hsize hparent (hcur ▸ hi)
      · rw [swap_of_ne heap hs hcur]
        by_cases hbeside : parent i = current
        · rw [hbeside, swap_right]
          exact hchildren i hi hisize hbeside
        · rw [swap_of_ne heap hne hbeside]
          exact h.others i hi hisize hbeside
  · intro i hi hisize hbelow hpos
    have hi' := parent_lt hi
    rw [hparent, swap_right, swap_of_ne heap (by omega) (by omega), ← hbelow]
    exact h.others i hi hisize (by omega)

/-- After the move away from the root the cells are a heap. -/
theorem isHeap_down {heap : ℕ → α} {size current : ℕ} (h : DownTo key heap size current) :
    IsHeap key (down key heap size current) size := by
  fun_induction down key heap size current with
  | case1 heap current hstop =>
    intro i hi hsize
    by_cases hcur : parent i = current
    · rw [hcur, ← hstop]
      exact (smallest_le key heap size current).2 i hi hsize hcur
    · exact h.others i hi hsize hcur
  | case2 heap current hmove ih => exact ih (h.step hmove)

theorem content_down {heap : ℕ → α} {size current : ℕ} :
    content (down key heap size current) size = content heap size := by
  fun_induction down key heap size current with
  | case1 => rfl
  | case2 heap current hmove ih =>
    obtain ⟨hlt, hsize, -⟩ := (smallest_cases key heap size current).resolve_left hmove
    rw [ih, content_swap heap hsize (hlt.trans hsize)]

/-- The cells behind the heap stay as they are. -/
theorem down_of_le {heap : ℕ → α} {size current i : ℕ} (h : size ≤ i) :
    down key heap size current i = heap i := by
  fun_induction down key heap size current with
  | case1 => rfl
  | case2 heap current hmove ih =>
    obtain ⟨hlt, hsize, -⟩ := (smallest_cases key heap size current).resolve_left hmove
    rw [ih, swap_of_ne heap (by omega) (by omega)]

/-! ## The best elements -/

/-- A heap in a memory. -/
structure State (α : Type*) where
  cells : ℕ → α
  size : ℕ

/-- Take the root from a heap that is full, if its key is smaller than that of a new element. -/
def makeRoom (key : α → K) (capacity : ℕ) (s : State α) (a : α) : State α :=
  if s.size = capacity ∧ key (s.cells 0) < key a then
    let size := s.size - 1
    ⟨down key (Function.update s.cells 0 (s.cells size)) size 0, size⟩
  else s

/-- Add an element to a heap that is not full. -/
def insert (key : α → K) (capacity : ℕ) (s : State α) (a : α) : State α :=
  if s.size < capacity then ⟨up key (Function.update s.cells s.size a) s.size, s.size + 1⟩ else s

/-- Offer an element to a heap. -/
def offer (key : α → K) (capacity : ℕ) (s : State α) (a : α) : State α :=
  insert key capacity (makeRoom key capacity s a) a

/-- As many elements of a multiset as there is place for, none of the others having a larger key. -/
def Best (key : α → K) (capacity : ℕ) (all best : Multiset α) : Prop :=
  best.card = min capacity all.card ∧
    ∃ rest, best + rest = all ∧ ∀ a ∈ best, ∀ b ∈ rest, key b ≤ key a

section Best

variable {capacity : ℕ} {all best : Multiset α} {a : α}

/-- As long as there is place, everything is kept. -/
theorem Best.add (h : Best key capacity all best) (hroom : best.card < capacity) (a : α) :
    Best key capacity (a ::ₘ all) (a ::ₘ best) := by
  obtain ⟨hcard, rest, rfl, hle⟩ := h
  have hrest : rest = 0 := by
    rw [← Multiset.card_eq_zero]
    rw [Multiset.card_add] at hcard
    omega
  subst hrest
  rw [add_zero] at hcard ⊢
  refine ⟨?_, 0, add_zero _, fun _ _ b hb => absurd hb (Multiset.notMem_zero b)⟩
  rw [Multiset.card_cons]
  omega

/-- An element with no larger key than all that are kept is not. -/
theorem Best.keep (h : Best key capacity all best) (hfull : best.card = capacity)
    (hkey : ∀ b ∈ best, key a ≤ key b) : Best key capacity (a ::ₘ all) best := by
  obtain ⟨hcard, rest, rfl, hle⟩ := h
  refine ⟨?_, a ::ₘ rest, Multiset.add_cons a best rest, fun x hx b hb => ?_⟩
  · rw [Multiset.card_cons]
    omega
  · rcases Multiset.mem_cons.1 hb with rfl | hb
    · exact hkey x hx
    · exact hle x hx b hb

/-- An element with a larger key takes the place of one with the smallest key. -/
theorem Best.replace {root : α} (h : Best key capacity all (root ::ₘ best))
    (hfull : best.card + 1 = capacity) (hroot : ∀ b ∈ best, key root ≤ key b)
    (hkey : key root < key a) : Best key capacity (a ::ₘ all) (a ::ₘ best) := by
  obtain ⟨hcard, rest, rfl, hle⟩ := h
  have hmem : root ∈ root ::ₘ best := Multiset.mem_cons_self root best
  refine ⟨?_, root ::ₘ rest, ?_, fun x hx b hb => ?_⟩
  · rw [Multiset.card_cons] at hcard ⊢
    rw [Multiset.card_cons]
    omega
  · rw [Multiset.cons_add, Multiset.cons_add, Multiset.add_cons]
  · have hx' : key root ≤ key x := by
      rcases Multiset.mem_cons.1 hx with rfl | hx
      · exact hkey.le
      · exact hroot x hx
    rcases Multiset.mem_cons.1 hb with rfl | hb
    · exact hx'
    · exact (hle root hmem b hb).trans hx'

/-- What is kept is not exceeded by what is not. -/
theorem Best.mem_of_card_lt (h : Best key capacity all best) (ha : a ∈ all)
    (hfew : (all.filter (key a ≤ key ·)).card ≤ capacity) : a ∈ best := by
  obtain ⟨hcard, rest, rfl, hle⟩ := h
  by_contra hnot
  have hrest : a ∈ rest := (Multiset.mem_add.1 ha).resolve_left hnot
  have hbest : best.filter (key a ≤ key ·) = best :=
    Multiset.filter_eq_self.2 fun b hb => hle b hb a hrest
  have hpos : 0 < (rest.filter (key a ≤ key ·)).card :=
    Multiset.card_pos_iff_exists_mem.2 ⟨a, Multiset.mem_filter.2 ⟨hrest, le_rfl⟩⟩
  have hrestpos : 0 < rest.card := Multiset.card_pos_iff_exists_mem.2 ⟨a, hrest⟩
  rw [Multiset.filter_add, hbest, Multiset.card_add] at hfew
  rw [Multiset.card_add] at hcard
  omega

end Best

/-- The last element in the place of the root. -/
theorem downTo_update {heap : ℕ → α} {size : ℕ} (h : IsHeap key heap (size + 1)) (a : α) :
    DownTo key (Function.update heap 0 a) size 0 := by
  constructor
  · intro i hi hsize hparent
    rw [Function.update_of_ne hparent, Function.update_of_ne hi.ne']
    exact h i hi (hsize.trans (Nat.lt_succ_self size))
  · intro i _ _ _ hlt
    exact absurd hlt (lt_irrefl 0)

/-- The root is taken from the heap. -/
theorem content_update_root (heap : ℕ → α) (size : ℕ) :
    heap 0 ::ₘ content (Function.update heap 0 (heap size)) size = content heap (size + 1) := by
  have hcells : content (Function.update heap 0 (heap size)) size =
      content (swap heap 0 size) size := by
    apply content_congr
    intro i hi
    rcases Nat.eq_zero_or_pos i with rfl | hpos
    · rw [Function.update_self, swap_left]
    · rw [Function.update_of_ne hpos.ne', swap_of_ne heap hpos.ne' hi.ne]
  rw [hcells, ← content_swap heap (Nat.succ_pos size) (Nat.lt_succ_self size), content_succ,
    swap_right]

/-- An element behind the heap. -/
theorem upTo_update {heap : ℕ → α} {size : ℕ} (h : IsHeap key heap size) (a : α) :
    UpTo key (Function.update heap size a) (size + 1) size := by
  constructor
  · intro i hi hsize hne
    have hparent := parent_lt hi
    rw [Function.update_of_ne hne, Function.update_of_ne (by omega)]
    exact h i hi (by omega)
  · intro i hi hsize hparent
    have hlt := parent_lt hi
    omega

theorem content_update_last (heap : ℕ → α) (size : ℕ) (a : α) :
    content (Function.update heap size a) (size + 1) = a ::ₘ content heap size := by
  rw [content_succ, Function.update_self]
  exact congrArg (a ::ₘ ·) (content_congr fun i hi => Function.update_of_ne hi.ne a heap)

theorem isHeap_insert {heap : ℕ → α} {size : ℕ} (h : IsHeap key heap size) (a : α) :
    IsHeap key (up key (Function.update heap size a) size) (size + 1) ∧
      content (up key (Function.update heap size a) size) (size + 1) = a ::ₘ content heap size := by
  refine ⟨isHeap_up (upTo_update h a) (Nat.lt_succ_self size), ?_⟩
  rw [content_up (Nat.lt_succ_self size), content_update_last]

/-- A heap has the best elements of what was offered to it. -/
structure Holds (key : α → K) (capacity : ℕ) (all : Multiset α) (s : State α) : Prop where
  isHeap : IsHeap key s.cells s.size
  best : Best key capacity all (content s.cells s.size)

/-- One more element is offered. -/
theorem Holds.offer {capacity : ℕ} (hcapacity : 0 < capacity) {all : Multiset α} {s : State α}
    (h : Holds key capacity all s) (a : α) :
    Holds key capacity (a ::ₘ all) (offer key capacity s a) := by
  obtain ⟨cells, size⟩ := s
  obtain ⟨hheap, hbest⟩ := h
  dsimp only at hheap hbest
  rw [MinHeap.offer, makeRoom]
  dsimp only
  by_cases hreplace : size = capacity ∧ key (cells 0) < key a
  · -- the root makes place
    rw [if_pos hreplace]
    obtain ⟨rfl, hkey⟩ := hreplace
    obtain ⟨n, rfl⟩ := Nat.exists_eq_succ_of_ne_zero hcapacity.ne'
    have hroot : ∀ b ∈ content cells (n + 1), key (cells 0) ≤ key b := by
      intro b hb
      obtain ⟨i, hi, rfl⟩ := mem_content.1 hb
      exact hheap.root_le hi
    obtain ⟨hup, hcontent⟩ := isHeap_insert (isHeap_down (downTo_update hheap (cells n))) a
    rw [Nat.succ_sub_one, MinHeap.insert, if_pos (Nat.lt_succ_self n)]
    refine ⟨hup, ?_⟩
    change Best key (n + 1) all (content cells (n + 1)) at hbest
    rw [← content_update_root] at hbest hroot
    dsimp only
    rw [hcontent, content_down]
    refine hbest.replace ?_ (fun b hb => hroot b (Multiset.mem_cons_of_mem hb)) hkey
    rw [card_content]
  · -- the root stays: there is room, or the element is no better
    rw [if_neg hreplace, MinHeap.insert]
    by_cases hroom : size < capacity
    · rw [if_pos hroom]
      obtain ⟨hup, hcontent⟩ := isHeap_insert hheap a
      refine ⟨hup, ?_⟩
      dsimp only
      rw [hcontent]
      exact hbest.add (by rwa [card_content]) a
    · rw [if_neg hroom]
      -- no room, so the root is at least as good as the element, and so is all the rest
      have hfull : size = capacity := by
        have hcard := hbest.1
        rw [card_content] at hcard
        omega
      refine ⟨hheap, hbest.keep (by rw [card_content, hfull]) fun b hb => ?_⟩
      obtain ⟨i, hi, rfl⟩ := mem_content.1 hb
      exact (not_lt.1 fun hkey => hreplace ⟨hfull, hkey⟩).trans (hheap.root_le hi)

/-- A heap that a whole stream was offered to. -/
theorem holds_foldl_offer {capacity : ℕ} (hcapacity : 0 < capacity) (stream : List α)
    (cells : ℕ → α) : Holds key capacity stream (stream.foldl (offer key capacity) ⟨cells, 0⟩) := by
  induction stream using List.reverseRecOn with
  | nil =>
    refine ⟨fun i _ hi => absurd hi (Nat.not_lt_zero i), ?_, 0, rfl, fun _ _ b hb => ?_⟩
    · exact (Nat.min_zero capacity).symm
    · exact absurd hb (Multiset.notMem_zero b)
  | append_singleton stream a ih =>
    rw [List.foldl_append]
    have h := ih.offer hcapacity a
    rwa [Multiset.cons_coe, Multiset.coe_eq_coe.2 (List.perm_append_singleton a stream).symm] at h

/-! ## Sorting -/

/-- The cells of a heap in order, an element of the largest key first. -/
def sort (key : α → K) : (ℕ → α) → ℕ → ℕ → α
  | heap, 0 => heap
  | heap, 1 => heap
  | heap, n + 2 => sort key (down key (swap heap (n + 1) 0) (n + 1) 0) (n + 1)

theorem sort_of_le {heap : ℕ → α} {size i : ℕ} (h : size ≤ i) : sort key heap size i = heap i := by
  fun_induction sort key heap size with
  | case1 => rfl
  | case2 => rfl
  | case3 heap n ih =>
    rw [ih (by omega), down_of_le (by omega), swap_of_ne heap (by omega) (by omega)]

theorem content_sort (key : α → K) (heap : ℕ → α) (size : ℕ) :
    content (sort key heap size) size = content heap size := by
  fun_induction sort key heap size with
  | case1 => rfl
  | case2 => rfl
  | case3 heap n ih =>
    rw [content_succ, ih, content_down, sort_of_le le_rfl, down_of_le le_rfl,
      ← content_succ, content_swap heap (by omega) (by omega)]

/-- The cells are in order. -/
theorem sorted_sort {heap : ℕ → α} {size : ℕ} (h : IsHeap key heap size) {i j : ℕ} (hij : i < j)
    (hj : j < size) : key (sort key heap size j) ≤ key (sort key heap size i) := by
  fun_induction sort key heap size with
  | case1 => exact absurd hj (Nat.not_lt_zero j)
  | case2 => omega
  | case3 heap n ih =>
    have hdown : DownTo key (swap heap (n + 1) 0) (n + 1) 0 := by
      constructor
      · intro k hk hsize hparent
        rw [swap_of_ne heap (by omega) hk.ne', swap_of_ne heap (by unfold parent; omega) hparent]
        exact h k hk (by omega)
      · intro k _ _ _ hlt
        exact absurd hlt (lt_irrefl 0)
    rcases Nat.lt_or_ge j (n + 1) with hlt | hge
    · exact ih (isHeap_down hdown) hlt
    · -- the last cell has the root
      obtain rfl : j = n + 1 := by omega
      rw [sort_of_le le_rfl, down_of_le le_rfl, swap_left]
      have hmem : sort key (down key (swap heap (n + 1) 0) (n + 1) 0) (n + 1) i ∈
          content heap (n + 2) := by
        rw [← content_swap heap (i := n + 1) (j := 0) (by omega) (by omega), content_succ]
        apply Multiset.mem_cons_of_mem
        rw [← @content_down α K _ key _ _ 0, ← content_sort key]
        exact mem_content.2 ⟨i, hij, rfl⟩
      obtain ⟨k, hk, hcell⟩ := mem_content.1 hmem
      rw [← hcell]
      exact h.root_le hk

end MinHeap
