import Mathlib.Data.Fintype.Defs
import Mathlib.Data.List.Induction
import Mathlib.Data.List.Infix

/-!
# Prefix codes

A table lists symbols with their codewords. A decoder takes codewords off the front of its input
for as long as one fits.

## Main definitions

* `PrefixCode.PrefixFree`: no codeword is a prefix of another;
* `PrefixCode.Full`: whatever begins like a codeword goes on like one;
* `PrefixCode.Decodes`: the symbols read off an input and what is left of it.

## Main results

* `PrefixCode.Decodes.eq_of_prefixFree`: the symbols read off the codewords of a message are the
  message;
* `PrefixCode.Decodes.exists_rest_prefix`: what is left of an input is the beginning of a codeword.
-/

namespace PrefixCode

variable {σ α : Type*} {table : List (σ × List α)}

/-- No codeword is a prefix of the codeword of another entry. -/
def PrefixFree (table : List (σ × List α)) : Prop :=
  ∀ e ∈ table, ∀ f ∈ table, e.2 <+: f.2 → e = f

/-- What begins like a codeword and is no codeword yet goes on like one with any letter. -/
def Full (table : List (σ × List α)) : Prop :=
  ∀ e ∈ table, ∀ i < e.2.length, ∀ a, ∃ f ∈ table, e.2.take i ++ [a] <+: f.2

instance [DecidableEq σ] [DecidableEq α] : Decidable (PrefixFree table) :=
  inferInstanceAs (Decidable (∀ e ∈ table, ∀ f ∈ table, e.2 <+: f.2 → e = f))

instance [Fintype α] [DecidableEq α] : Decidable (Full table) :=
  inferInstanceAs (Decidable
    (∀ e ∈ table, ∀ i < e.2.length, ∀ a, ∃ f ∈ table, e.2.take i ++ [a] <+: f.2))

/-- Taking codewords off the front of an input until none fits gives the symbols, and leaves the
rest. -/
inductive Decodes (table : List (σ × List α)) : List α → List σ → List α → Prop
  | stop {input : List α} (h : ∀ e ∈ table, ¬e.2 <+: input) : Decodes table input [] input
  | read {e : σ × List α} (he : e ∈ table) {input : List α} {message : List σ} {rest : List α}
      (h : Decodes table input message rest) : Decodes table (e.2 ++ input) (e.1 :: message) rest

/-- With a full code, an input either begins with a codeword or is the beginning of one. -/
theorem exists_prefix_or_extends (hfull : Full table) (hne : table ≠ []) (input : List α) :
    (∃ e ∈ table, e.2 <+: input) ∨ ∃ e ∈ table, input <+: e.2 ∧ input ≠ e.2 := by
  induction input using List.reverseRecOn with
  | nil =>
    obtain ⟨e, he⟩ := List.exists_mem_of_ne_nil table hne
    by_cases hnil : e.2 = []
    · exact Or.inl ⟨e, he, by rw [hnil]⟩
    · exact Or.inr ⟨e, he, List.nil_prefix, Ne.symm hnil⟩
  | append_singleton input a ih =>
    rcases ih with ⟨e, he, hpre⟩ | ⟨e, he, hpre, hproper⟩
    · exact Or.inl ⟨e, he, hpre.trans (List.prefix_append ..)⟩
    · -- the codeword goes on after the input
      have hlt : input.length < e.2.length :=
        lt_of_le_of_ne hpre.length_le fun hlen => hproper (hpre.eq_of_length hlen)
      obtain ⟨f, hf, hnext⟩ := hfull e he input.length hlt a
      rw [← List.prefix_iff_eq_take.1 hpre] at hnext
      by_cases heq : input ++ [a] = f.2
      · exact Or.inl ⟨f, hf, by rw [heq]⟩
      · exact Or.inr ⟨f, hf, hnext, heq⟩

/-- With a prefix-free code at most one codeword fits. -/
theorem PrefixFree.eq_of_prefix (hfree : PrefixFree table) {e f : σ × List α} (he : e ∈ table)
    (hf : f ∈ table) {input : List α} (hpe : e.2 <+: input) (hpf : f.2 <+: input) : e = f := by
  rcases List.prefix_or_prefix_of_prefix hpe hpf with h | h
  · exact hfree e he f hf h
  · exact (hfree f hf e he h).symm

namespace Decodes

variable {input rest : List α} {message : List σ}

/-- The input is put together from the codewords read and the rest. -/
theorem exists_entries (h : Decodes table input message rest) :
    ∃ entries : List (σ × List α), (∀ e ∈ entries, e ∈ table) ∧ entries.map Prod.fst = message ∧
      input = entries.flatMap Prod.snd ++ rest := by
  induction h with
  | stop => exact ⟨[], by simp, rfl, rfl⟩
  | @read e he input message rest _ ih =>
    obtain ⟨entries, hmem, hmap, rfl⟩ := ih
    refine ⟨e :: entries, ?_, by rw [List.map_cons, hmap], ?_⟩
    · intro f hf
      rcases List.mem_cons.1 hf with rfl | hf
      · exact he
      · exact hmem f hf
    · rw [List.flatMap_cons, List.append_assoc]

/-- What is left of the input begins with no codeword. -/
theorem not_prefix_rest (h : Decodes table input message rest) : ∀ e ∈ table, ¬e.2 <+: rest := by
  induction h with
  | stop h => exact h
  | read _ _ ih => exact ih

/-- With a full code what is left of the input is the beginning of a codeword. -/
theorem exists_rest_prefix (hfull : Full table) (hne : table ≠ [])
    (h : Decodes table input message rest) : ∃ e ∈ table, rest <+: e.2 ∧ rest ≠ e.2 :=
  (exists_prefix_or_extends hfull hne rest).resolve_left fun ⟨e, he, hpre⟩ =>
    h.not_prefix_rest e he hpre

/-- With a prefix-free code the symbols read off the codewords of a message are the message. -/
theorem eq_of_prefixFree (hfree : PrefixFree table) (hne : ∀ e ∈ table, e.2 ≠ [])
    (h : Decodes table input message rest) {entries : List (σ × List α)}
    (hentries : ∀ e ∈ entries, e ∈ table) (hinput : input = entries.flatMap Prod.snd) :
    message = entries.map Prod.fst := by
  induction h generalizing entries with
  | stop hstop =>
    cases entries with
    | nil => rfl
    | cons f entries =>
      -- a decoder that stopped had no code left to read
      refine absurd ?_ (hstop f (hentries f List.mem_cons_self))
      rw [hinput, List.flatMap_cons]
      exact List.prefix_append ..
  | @read e he input message rest _ ih =>
    cases entries with
    | nil => exact absurd (List.append_eq_nil_iff.1 hinput).1 (hne e he)
    | cons f entries =>
      have hf := hentries f List.mem_cons_self
      -- two codes that start one input are the same code
      have hef : e = f := hfree.eq_of_prefix he hf (List.prefix_append e.2 input)
        (by rw [hinput, List.flatMap_cons]; exact List.prefix_append ..)
      subst hef
      rw [List.flatMap_cons, List.append_cancel_left_eq] at hinput
      rw [List.map_cons, ih (fun g hg => hentries g (List.mem_cons_of_mem _ hg)) hinput]

end Decodes

end PrefixCode
