import Mathlib.Data.List.Basic
import Mathlib.Data.Nat.Notation
import Mathlib.Order.MinMax

/-!
# Edit distance

Lists that differ by a bounded number of edits, each the insertion, the deletion or the
substitution of one element. The version of Mathlib used here has no edit distance, so the recursive
one is defined here, and shown to be the least number of edits.

## Main definitions

* `EditDistance.Edit`: one edit;
* `EditDistance.Within n`: at most `n` edits apart;
* `EditDistance.Omits`: one list is the other one less an element;
* `EditDistance.levenshtein`: the distance by recursion over both lists.

## Main results

* `EditDistance.within_one_iff_of_length_eq`: for lists of one length, a single substitution;
* `EditDistance.within_one_iff_of_length_succ`: for lists whose lengths differ by one, a single
  omission;
* `EditDistance.levenshtein_le_iff`: the recursive distance is the least number of edits.
-/

namespace EditDistance

variable {α : Type*}

/-- The second list is the first one after one edit. -/
inductive Edit : List α → List α → Prop
  | insert (xs : List α) (a : α) (ys : List α) : Edit (xs ++ ys) (xs ++ a :: ys)
  | delete (xs : List α) (a : α) (ys : List α) : Edit (xs ++ a :: ys) (xs ++ ys)
  | substitute (xs : List α) (a b : α) (ys : List α) : Edit (xs ++ a :: ys) (xs ++ b :: ys)

/-- At most `n` edits lead from one list to the other. -/
def Within : ℕ → List α → List α → Prop
  | 0, as, bs => as = bs
  | n + 1, as, bs => Within n as bs ∨ ∃ cs, Within n as cs ∧ Edit cs bs

/-- The first list is the second one less an element. -/
def Omits (as bs : List α) : Prop := ∃ xs b ys, as = xs ++ ys ∧ bs = xs ++ b :: ys

/-- The lists are equal except at one place. -/
def Substitutes (as bs : List α) : Prop := ∃ xs a b ys, as = xs ++ a :: ys ∧ bs = xs ++ b :: ys

theorem within_refl (n : ℕ) (as : List α) : Within n as as := by
  induction n with
  | zero => rfl
  | succ n ih => exact .inl ih

theorem within_one_iff {as bs : List α} : Within 1 as bs ↔ as = bs ∨ Edit as bs := by
  simp [Within]

theorem edit_iff {as bs : List α} :
    Edit as bs ↔ Omits as bs ∨ Omits bs as ∨ Substitutes as bs := by
  constructor
  · rintro (⟨xs, a, ys⟩ | ⟨xs, a, ys⟩ | ⟨xs, a, b, ys⟩)
    · exact .inl ⟨xs, a, ys, rfl, rfl⟩
    · exact .inr (.inl ⟨xs, a, ys, rfl, rfl⟩)
    · exact .inr (.inr ⟨xs, a, b, ys, rfl, rfl⟩)
  · rintro (⟨xs, a, ys, rfl, rfl⟩ | ⟨xs, a, ys, rfl, rfl⟩ | ⟨xs, a, b, ys, rfl, rfl⟩)
    · exact .insert xs a ys
    · exact .delete xs a ys
    · exact .substitute xs a b ys

theorem Omits.length_eq {as bs : List α} (h : Omits as bs) : bs.length = as.length + 1 := by
  obtain ⟨xs, b, ys, rfl, rfl⟩ := h
  simp only [List.length_append, List.length_cons]
  omega

theorem Substitutes.length_eq {as bs : List α} (h : Substitutes as bs) :
    bs.length = as.length := by
  obtain ⟨xs, a, b, ys, rfl, rfl⟩ := h
  simp

theorem Edit.symm {as bs : List α} (h : Edit as bs) : Edit bs as := by
  cases h with
  | insert xs a ys => exact .delete xs a ys
  | delete xs a ys => exact .insert xs a ys
  | substitute xs a b ys => exact .substitute xs b a ys

/-- Lists within one edit have lengths that differ by at most one. -/
theorem length_of_within_one {as bs : List α} (h : Within 1 as bs) :
    as.length ≤ bs.length + 1 ∧ bs.length ≤ as.length + 1 := by
  rw [within_one_iff, edit_iff] at h
  rcases h with rfl | h | h | h
  · exact ⟨Nat.le_succ _, Nat.le_succ _⟩
  · rw [h.length_eq]
    omega
  · rw [h.length_eq]
    omega
  · rw [h.length_eq]
    omega

theorem within_one_iff_of_length_eq {as bs : List α} (h : as.length = bs.length) :
    Within 1 as bs ↔ as = bs ∨ Substitutes as bs := by
  rw [within_one_iff, edit_iff]
  refine or_congr_right ⟨?_, fun hsub => .inr (.inr hsub)⟩
  rintro (homits | homits | hsub)
  · have := homits.length_eq
    omega
  · have := homits.length_eq
    omega
  · exact hsub

theorem within_one_iff_of_length_succ {as bs : List α} (h : bs.length = as.length + 1) :
    Within 1 as bs ↔ Omits as bs := by
  rw [within_one_iff, edit_iff]
  constructor
  · rintro (rfl | homits | homits | hsub)
    · omega
    · exact homits
    · have := homits.length_eq
      omega
    · have := hsub.length_eq
      omega
  · exact fun homits => .inr (.inl homits)

theorem within_one_comm {as bs : List α} : Within 1 as bs ↔ Within 1 bs as := by
  rw [within_one_iff, within_one_iff]
  exact or_congr eq_comm ⟨Edit.symm, Edit.symm⟩

/-! ## Element by element -/

theorem omits_self_cons (a : α) (as : List α) : Omits as (a :: as) := ⟨[], a, as, rfl, rfl⟩

/-- Either the first element is the one omitted, or the lists start with the same element. -/
theorem omits_cons_iff {a : α} {as : List α} {b : α} {bs : List α} :
    Omits (a :: as) (b :: bs) ↔ a :: as = bs ∨ a = b ∧ Omits as bs := by
  constructor
  · rintro ⟨xs, c, ys, has, hbs⟩
    cases xs with
    | nil =>
      obtain ⟨rfl, rfl⟩ := List.cons.inj hbs
      exact .inl has
    | cons x xs =>
      obtain ⟨rfl, rfl⟩ := List.cons.inj has
      obtain ⟨rfl, rfl⟩ := List.cons.inj hbs
      exact .inr ⟨rfl, xs, c, ys, rfl, rfl⟩
  · rintro (rfl | ⟨rfl, xs, c, ys, rfl, rfl⟩)
    · exact omits_self_cons _ _
    · exact ⟨a :: xs, c, ys, rfl, rfl⟩

/-- Lists that start with the same element, and one of which omits an element of the other, do so
behind it. -/
theorem omits_cons_self_iff {a : α} {as bs : List α} : Omits (a :: as) (a :: bs) ↔ Omits as bs := by
  rw [omits_cons_iff]
  constructor
  · rintro (rfl | ⟨-, h⟩)
    · exact omits_self_cons a as
    · exact h
  · exact fun h => .inr ⟨rfl, h⟩

theorem substitutes_cons_self_iff {a : α} {as bs : List α} :
    as = bs ∨ Substitutes as bs ↔ a :: as = a :: bs ∨ Substitutes (a :: as) (a :: bs) := by
  constructor
  · rintro (rfl | ⟨xs, b, c, ys, rfl, rfl⟩)
    · exact .inl rfl
    · exact .inr ⟨a :: xs, b, c, ys, rfl, rfl⟩
  · rintro (h | ⟨xs, b, c, ys, has, hbs⟩)
    · exact .inl (List.cons.inj h).2
    · cases xs with
      | nil =>
        obtain ⟨rfl, rfl⟩ := List.cons.inj has
        obtain ⟨rfl, rfl⟩ := List.cons.inj hbs
        exact .inl rfl
      | cons x xs =>
        obtain ⟨rfl, rfl⟩ := List.cons.inj has
        obtain ⟨-, rfl⟩ := List.cons.inj hbs
        exact .inr ⟨xs, b, c, ys, rfl, rfl⟩

theorem substitutes_cons_of_ne {a b : α} (hne : a ≠ b) {as bs : List α} :
    a :: as = b :: bs ∨ Substitutes (a :: as) (b :: bs) ↔ as = bs := by
  constructor
  · rintro (h | ⟨xs, c, d, ys, has, hbs⟩)
    · exact absurd (List.cons.inj h).1 hne
    · cases xs with
      | nil =>
        obtain ⟨-, rfl⟩ := List.cons.inj has
        exact (List.cons.inj hbs).2.symm
      | cons x xs =>
        exact absurd ((List.cons.inj has).1.trans (List.cons.inj hbs).1.symm) hne
  · rintro rfl
    exact .inr ⟨[], a, b, as, rfl, rfl⟩

/-! ## The recursive distance -/

section Levenshtein

theorem Edit.within {as bs : List α} (h : Edit as bs) : Within 1 as bs :=
  within_one_iff.2 (.inr h)

theorem Within.mono {m n : ℕ} (hmn : m ≤ n) {as bs : List α} (h : Within m as bs) :
    Within n as bs := by
  induction hmn with
  | refl => exact h
  | step _ ih => exact .inl ih

theorem Within.trans {m n : ℕ} {as bs cs : List α} (h : Within m as bs) (h' : Within n bs cs) :
    Within (m + n) as cs := by
  induction n generalizing cs with
  | zero =>
    obtain rfl : bs = cs := h'
    exact h
  | succ n ih =>
    rcases h' with h' | ⟨ds, h', hedit⟩
    · exact .inl (ih h')
    · exact .inr ⟨ds, ih h', hedit⟩

theorem Edit.cons (x : α) {as bs : List α} (h : Edit as bs) : Edit (x :: as) (x :: bs) := by
  rw [edit_iff] at h ⊢
  rcases h with ⟨xs, b, ys, rfl, rfl⟩ | ⟨xs, b, ys, rfl, rfl⟩ | ⟨xs, a, b, ys, rfl, rfl⟩
  · exact .inl ⟨x :: xs, b, ys, rfl, rfl⟩
  · exact .inr (.inl ⟨x :: xs, b, ys, rfl, rfl⟩)
  · exact .inr (.inr ⟨x :: xs, a, b, ys, rfl, rfl⟩)

theorem Within.cons (x : α) {n : ℕ} {as bs : List α} (h : Within n as bs) :
    Within n (x :: as) (x :: bs) := by
  induction n generalizing bs with
  | zero =>
    obtain rfl : as = bs := h
    exact within_refl 0 _
  | succ n ih =>
    rcases h with h | ⟨cs, h, hedit⟩
    · exact .inl (ih h)
    · exact .inr ⟨x :: cs, ih h, hedit.cons x⟩

theorem within_insert (as : List α) (x : α) : Within 1 as (x :: as) :=
  (Edit.insert [] x as).within

theorem within_delete (x : α) (as : List α) : Within 1 (x :: as) as :=
  (Edit.delete [] x as).within

theorem within_substitute (x y : α) (as : List α) : Within 1 (x :: as) (y :: as) :=
  (Edit.substitute [] x y as).within

variable [DecidableEq α]

/-- The Levenshtein distance, by recursion over both lists. -/
def levenshtein : List α → List α → ℕ
  | [], bs => bs.length
  | as, [] => as.length
  | a :: as, b :: bs =>
    min (levenshtein as (b :: bs) + 1)
      (min (levenshtein (a :: as) bs + 1) (levenshtein as bs + if a = b then 0 else 1))
termination_by as bs => as.length + bs.length

@[simp]
theorem levenshtein_nil (bs : List α) : levenshtein [] bs = bs.length := by
  rw [levenshtein]

@[simp]
theorem levenshtein_nil_right (as : List α) : levenshtein as [] = as.length := by
  cases as <;> simp [levenshtein]

theorem levenshtein_cons_cons (a b : α) (as bs : List α) :
    levenshtein (a :: as) (b :: bs) =
      min (levenshtein as (b :: bs) + 1)
        (min (levenshtein (a :: as) bs + 1) (levenshtein as bs + if a = b then 0 else 1)) := by
  rw [levenshtein]

/-- A list is reached by as many edits as its distance. -/
theorem within_levenshtein (as bs : List α) : Within (levenshtein as bs) as bs := by
  induction as generalizing bs with
  | nil =>
    induction bs with
    | nil => exact within_refl _ _
    | cons b bs ih =>
      rw [levenshtein_nil] at ih ⊢
      exact ih.trans (within_insert bs b)
  | cons a as iha =>
    induction bs with
    | nil =>
      have h := (within_delete a as).trans (iha [])
      rw [levenshtein_nil_right] at h ⊢
      rwa [Nat.add_comm] at h
    | cons b bs ihb =>
      have hdelete := (within_delete a as).trans (iha (b :: bs))
      have hinsert := ihb.trans (within_insert bs b)
      have hkeep : Within (levenshtein as bs + if a = b then 0 else 1) (a :: as) (b :: bs) := by
        split_ifs with hab
        · exact hab ▸ (iha bs).cons a
        · exact ((iha bs).cons a).trans (within_substitute a b bs)
      rw [Nat.add_comm] at hdelete
      rw [levenshtein_cons_cons]
      -- the least of the three is one of them
      rcases min_choice (levenshtein as (b :: bs) + 1)
        (min (levenshtein (a :: as) bs + 1) (levenshtein as bs + if a = b then 0 else 1)) with h | h
      · rwa [h]
      · rw [h]
        rcases min_choice (levenshtein (a :: as) bs + 1)
          (levenshtein as bs + if a = b then 0 else 1) with h | h
        · rwa [h]
        · rwa [h]

theorem levenshtein_cons_le (a : α) (as bs : List α) :
    levenshtein (a :: as) bs ≤ levenshtein as bs + 1 := by
  cases bs with
  | nil => simp
  | cons b bs =>
    rw [levenshtein_cons_cons]
    exact min_le_left _ _

theorem levenshtein_insert_le (as bs : List α) (b : α) :
    levenshtein as (b :: bs) ≤ levenshtein as bs + 1 := by
  cases as with
  | nil => simp
  | cons a as =>
    rw [levenshtein_cons_cons]
    exact (min_le_right _ _).trans (min_le_left _ _)

theorem levenshtein_delete_le (as bs : List α) (b : α) :
    levenshtein as bs ≤ levenshtein as (b :: bs) + 1 := by
  induction as with
  | nil =>
    simp only [levenshtein_nil, List.length_cons]
    omega
  | cons a as ih =>
    have hcons := levenshtein_cons_le a as bs
    rw [levenshtein_cons_cons]
    omega

theorem levenshtein_substitute_le (as bs : List α) (b c : α) :
    levenshtein as (c :: bs) ≤ levenshtein as (b :: bs) + 1 := by
  induction as with
  | nil => simp
  | cons a as ih =>
    rw [levenshtein_cons_cons, levenshtein_cons_cons]
    split_ifs <;> omega

/-- What holds of the rests of two lists holds of the lists. -/
theorem levenshtein_append_le (xs : List α) {ys zs : List α}
    (h : ∀ as, levenshtein as zs ≤ levenshtein as ys + 1) (as : List α) :
    levenshtein as (xs ++ zs) ≤ levenshtein as (xs ++ ys) + 1 := by
  induction xs generalizing as with
  | nil => exact h as
  | cons x xs ihx =>
    induction as with
    | nil => 
      have hnil := ihx []
      simp only [levenshtein_nil, List.cons_append, List.length_cons] at hnil ⊢
      omega
    | cons a as iha =>
      have hinsert := ihx (a :: as)
      have hkeep := ihx as
      simp only [List.cons_append] at iha ⊢
      rw [levenshtein_cons_cons, levenshtein_cons_cons]
      omega

theorem levenshtein_edit_le {bs cs : List α} (h : Edit bs cs) (as : List α) :
    levenshtein as cs ≤ levenshtein as bs + 1 := by
  rcases h with ⟨xs, b, ys⟩ | ⟨xs, b, ys⟩ | ⟨xs, b, c, ys⟩
  · exact levenshtein_append_le xs (fun as => levenshtein_insert_le as ys b) as
  · exact levenshtein_append_le xs (fun as => levenshtein_delete_le as ys b) as
  · exact levenshtein_append_le xs (fun as => levenshtein_substitute_le as ys b c) as

theorem levenshtein_self (as : List α) : levenshtein as as = 0 := by
  induction as with
  | nil => simp
  | cons a as ih => simp [levenshtein_cons_cons, ih]

/-- The distance is the least number of edits. -/
theorem levenshtein_le_iff {n : ℕ} {as bs : List α} : levenshtein as bs ≤ n ↔ Within n as bs := by
  constructor
  · exact fun h => (within_levenshtein as bs).mono h
  · intro h
    induction n generalizing bs with
    | zero =>
      obtain rfl : as = bs := h
      exact (levenshtein_self as).le
    | succ n ih =>
      rcases h with h | ⟨cs, h, hedit⟩
      · exact (ih h).trans n.le_succ
      · exact (levenshtein_edit_le hedit as).trans (Nat.succ_le_succ (ih h))

end Levenshtein

end EditDistance
