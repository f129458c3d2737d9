import Mathlib.Data.Fin.Basic
import Mathlib.Data.Nat.ModEq
import Mathlib.Logic.Function.Basic

/-!
# Rings that are written in order

A ring of `N` slots into which the entries of a log are written one after the other, entry `k` into
slot `k % N`. What a slot holds is determined by the log.

## Main definitions

* `RingLog.holds`: the number of the entry a slot holds after so many writes;
* `RingLog.newest`: that number for the slot of an entry already written;
* `RingLog.Represents`: the contents of the slots are those a log leaves.

## Main results

* `RingLog.holds_eq_some_iff`: a slot holds entry `k` from its write until `N` entries later;
* `RingLog.Represents.write`: writing the next entry;
* `RingLog.Represents.getElem?`: an entry that is among the last `N` can be read back.
-/

namespace RingLog

variable {N : ℕ} [NeZero N]

/-- The number of the entry a slot holds after `w` writes. -/
def holds : ℕ → Fin N → Option ℕ
  | 0, _ => none
  | w + 1, j => if Fin.ofNat N w = j then some w else holds w j

theorem ofNat_eq_ofNat_iff {k w : ℕ} : Fin.ofNat N k = Fin.ofNat N w ↔ k ≡ w [MOD N] := by
  rw [Fin.ext_iff, Fin.val_ofNat, Fin.val_ofNat, Nat.ModEq]

/-- Entries less than `N` apart lie in different slots. -/
theorem ofNat_inj_of_lt {k w : ℕ} (hkw : k ≤ w) (hlt : w < k + N)
    (h : Fin.ofNat N k = Fin.ofNat N w) : k = w := by
  have hdvd : N ∣ w - k := (Nat.modEq_iff_dvd' hkw).1 (ofNat_eq_ofNat_iff.1 h)
  have hzero : w - k = 0 := Nat.eq_zero_of_dvd_of_lt hdvd (by omega)
  omega

/-- A slot holds entry `k` from its write until `N` entries later. -/
theorem holds_eq_some_iff {w k : ℕ} {j : Fin N} :
    holds w j = some k ↔ Fin.ofNat N k = j ∧ k < w ∧ w ≤ k + N := by
  have hN := Nat.pos_of_neZero N
  induction w with
  | zero => simp [holds]
  | succ w ih =>
    rw [holds]
    split_ifs with hj
    · rw [Option.some.injEq]
      constructor
      · rintro rfl
        exact ⟨hj, Nat.lt_succ_self w, by omega⟩
      · rintro ⟨hk, hlt, hle⟩
        exact (ofNat_inj_of_lt (Nat.lt_succ_iff.1 hlt) (by omega) (hk.trans hj.symm)).symm
    · refine ih.trans ⟨?_, ?_⟩
      · rintro ⟨hk, hlt, hle⟩
        refine ⟨hk, by omega, ?_⟩
        -- the slot of entry `w` is that of entry `w - N`
        rcases Nat.lt_or_ge w (k + N) with hw | hw
        · omega
        · have hkN : w = k + N := le_antisymm hle hw
          refine absurd ?_ hj
          rw [← hk, hkN, ofNat_eq_ofNat_iff]
          simp [Nat.ModEq]
      · rintro ⟨hk, hlt, hle⟩
        have hne : k ≠ w := fun heq => hj (heq ▸ hk)
        exact ⟨hk, by omega, by omega⟩

/-- The number of the last of `w` entries that was written into the slot of entry `m`. -/
def newest (N w m : ℕ) : ℕ := m + N * ((w - 1 - m) / N)

theorem holds_ofNat {w m : ℕ} (h : m < w) : holds w (Fin.ofNat N m) = some (newest N w m) := by
  have hN := Nat.pos_of_neZero N
  have hdiv := Nat.div_add_mod (w - 1 - m) N
  have hmod := Nat.mod_lt (w - 1 - m) hN
  refine holds_eq_some_iff.2 ⟨?_, ?_, ?_⟩
  · rw [ofNat_eq_ofNat_iff, newest, Nat.ModEq, Nat.add_mul_mod_self_left]
  · rw [newest]
    omega
  · rw [newest]
    omega

/-- An entry is the last of its slot until `N` more have been written. -/
theorem newest_eq_self_iff {w m : ℕ} (h : m < w) : newest N w m = m ↔ w ≤ m + N := by
  rw [← Option.some_inj, ← holds_ofNat h, holds_eq_some_iff]
  simp [h]

/-- The next write changes the slot of its number. -/
theorem holds_succ (w : ℕ) :
    holds (N := N) (w + 1) = Function.update (holds w) (Fin.ofNat N w) (some w) := by
  funext j
  rw [holds]
  split_ifs with hj
  · rw [← hj, Function.update_self]
  · rw [Function.update_of_ne (Ne.symm hj)]

variable {β : Type*} {d : β}

/-- The slots hold what the log leaves in them, or `d` before their first write. -/
def Represents (d : β) (slots : Fin N → β) (log : List β) : Prop :=
  ∀ j, slots j = ((holds log.length j).bind fun k => log[k]?).getD d

theorem represents_nil : Represents d (fun _ : Fin N => d) [] := fun _ => rfl

/-- Writing the next entry of the log. -/
theorem Represents.write {slots : Fin N → β} {log : List β} (h : Represents d slots log) (x : β) :
    Represents d (Function.update slots (Fin.ofNat N log.length) x) (log ++ [x]) := by
  intro j
  rw [List.length_append, List.length_singleton, holds]
  split_ifs with hj
  · rw [← hj, Function.update_self]
    simp
  · rw [Function.update_of_ne (Ne.symm hj), h j]
    congr 1
    cases hholds : holds log.length j with
    | none => rfl
    | some k =>
      obtain ⟨-, hlt, -⟩ := holds_eq_some_iff.1 hholds
      rw [Option.bind_some, Option.bind_some, List.getElem?_append_left hlt]

/-- What a slot holds after `w` writes is the entry of that number. -/
theorem Represents.of_holds {slots : Fin N → β} {log : List β} (h : Represents d slots log)
    {j : Fin N} {k : ℕ} (hholds : holds log.length j = some k) : log[k]? = some (slots j) := by
  obtain ⟨-, hlt, -⟩ := holds_eq_some_iff.1 hholds
  rw [h j, hholds, Option.bind_some, List.getElem?_eq_getElem hlt, Option.getD_some]

/-- An entry that is among the last `N` can be read back. -/
theorem Represents.getElem? {slots : Fin N → β} {log : List β} (h : Represents d slots log)
    {k : ℕ} (hlt : k < log.length) (hle : log.length ≤ k + N) :
    log[k]? = some (slots (Fin.ofNat N k)) :=
  h.of_holds (holds_eq_some_iff.2 ⟨rfl, hlt, hle⟩)

end RingLog
