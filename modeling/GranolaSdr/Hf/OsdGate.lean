import Mathlib.Algebra.Order.Ring.Cast
import Mathlib.Algebra.Order.Ring.Rat
import Mathlib.Data.Fin.VecNotation
import Mathlib.Data.List.AList
import Mathlib.Data.List.Dedup
import Mathlib.Data.List.FinRange
import Mathlib.Data.List.Induction
import Mathlib.Data.List.Sort
import Mathlib.Order.WithBot

/-!
# The gate of the OSD decoder

`decodeAndPublishContinuous` of the JS8 and FT8 decoders. A first pass decodes the candidates of a
scan, and the strongest ones that it fails on are tried again by the OSD decoder: one for each
frequency bin, with a score not below a floor, up to a number of them. FT8 looks at the 4096
strongest candidates only. Both write captures of what they decode, and of what OSD tried in vain.

The floor comes from the environment by `std::stof`, and can be any `float`. FT8 lets a score pass
that is `>=` the floor, JS8 drops one that is `<` it. The two differ where the floor is no number.

What the first pass, OSD and the publishing of a message make of a candidate is given by functions,
of which nothing is assumed.

## Main definitions

* `Score`: the `float` numbers as far as they are compared;
* `Js8.decodeAndPublishContinuous`, `Ft8.decodeAndPublishContinuous`: the two copies;
* `Gated`: what the gate promises.

## Main results

* `keepBest_spec`, `gate_spec`: the best candidate of each bin, and the strongest of them;
* `Js8.length_attempted`, `Ft8.length_attempted`: as many bins are tried as the cap and the failures
  allow;
* `gated_iff`: FT8 keeps the promises. JS8 keeps them exactly if the floor is a number, or OSD has
  nothing to try.
-/

namespace GranolaSdr.Hf.OsdGate

/-- A `float`: a number or an infinity, or no number. -/
inductive Score where
  | nan
  | value (x : WithBot (WithTop ℚ))

namespace Score

/-- `a < b`, which is false where one of them is no number. -/
def Less : Score → Score → Prop
  | value x, value y => x < y
  | _, _ => False

/-- `a <= b`, which is false where one of them is no number. -/
def LessEqual : Score → Score → Prop
  | value x, value y => x ≤ y
  | _, _ => False

instance : LT Score := ⟨Less⟩

instance : LE Score := ⟨LessEqual⟩

instance decidableLess : ∀ a b : Score, Decidable (a < b)
  | value x, value y => inferInstanceAs (Decidable (x < y))
  | nan, _ => isFalse id
  | value _, nan => isFalse id

instance decidableLessEqual : ∀ a b : Score, Decidable (a ≤ b)
  | value x, value y => inferInstanceAs (Decidable (x ≤ y))
  | nan, _ => isFalse id
  | value _, nan => isFalse id

@[simp]
theorem value_lt_value {x y : WithBot (WithTop ℚ)} : value x < value y ↔ x < y := Iff.rfl

@[simp]
theorem value_le_value {x y : WithBot (WithTop ℚ)} : value x ≤ value y ↔ x ≤ y := Iff.rfl

@[simp]
theorem not_nan_le (a : Score) : ¬nan ≤ a := id

@[simp]
theorem not_lt_nan (a : Score) : ¬a < nan := by
  cases a with
  | nan => exact id
  | value x => exact id

end Score

/-- The conversion of a score to `float`. -/
def toFloat (score : ℤ) : Score := .value (((score : ℚ) : WithTop ℚ) : WithBot (WithTop ℚ))

@[simp]
theorem toFloat_le_toFloat {a b : ℤ} : toFloat a ≤ toFloat b ↔ a ≤ b :=
  Score.value_le_value.trans
    (WithBot.coe_le_coe.trans (WithTop.coe_le_coe.trans Int.cast_le))

/-- A floor that is a number is passed by what is not below it. -/
theorem not_toFloat_lt_iff {floor : Score} (hfloor : floor ≠ .nan) {score : ℤ} :
    ¬toFloat score < floor ↔ floor ≤ toFloat score := by
  cases floor with
  | nan => exact absurd rfl hfloor
  | value x => exact Score.value_lt_value.not.trans (not_lt.trans Score.value_le_value.symm)

/-- A score below the floor is less than one that passes it. -/
theorem le_of_floor_le {floor : Score} {a b : ℤ} (ha : floor ≤ toFloat a)
    (hb : ¬floor ≤ toFloat b) : b ≤ a := by
  cases floor with
  | nan => exact absurd ha (Score.not_nan_le _)
  | value x =>
    have hbelow := not_le.1 (Score.value_le_value.not.1 hb)
    exact toFloat_le_toFloat.1 (Score.value_le_value.2 (hbelow.le.trans ha))

/-- The candidates of a scan: their frequency bins and their scores. -/
structure ContScanResult (n : ℕ) where
  fo : Fin n → ℤ
  score : Fin n → ℤ

/-- The settings of a decoder. -/
structure Settings where
  osd_enable_ : Bool
  osd_score_floor_ : Score
  osd_max_per_cycle_ : ℕ
  refine_enable_ : Bool

/-- The choices the standard library is free to make: the order in which a hash map is visited, and
the order of equal elements when some are sorted or the greatest ones selected. -/
structure Library (n : ℕ) where
  visit : List (Fin n) → List (Fin n)
  visit_perm : ∀ is, (visit is).Perm is
  sort : (Fin n → ℤ) → List (Fin n) → List (Fin n)
  sort_perm : ∀ score is, (sort score is).Perm is
  sort_sorted : ∀ score is, (sort score is).Pairwise fun i j => score j ≤ score i
  nth_element : (Fin n → ℤ) → ℕ → List (Fin n) → List (Fin n)
  nth_element_perm : ∀ score k is, (nth_element score k is).Perm is
  nth_element_le : ∀ score k is, ∀ i ∈ (nth_element score k is).take k,
    ∀ j ∈ (nth_element score k is).drop k, score j ≤ score i

/-- The order of candidates by their scores. -/
def NotWeaker {n : ℕ} (score : Fin n → ℤ) (i j : Fin n) : Prop := score j ≤ score i

instance {n : ℕ} (score : Fin n → ℤ) : DecidableRel (NotWeaker score) :=
  fun i j => inferInstanceAs (Decidable (score j ≤ score i))

instance {n : ℕ} (score : Fin n → ℤ) : IsTrans (Fin n) (NotWeaker score) :=
  ⟨fun _ _ _ hij hjk => le_trans hjk hij⟩

instance {n : ℕ} (score : Fin n → ℤ) : Std.Total (NotWeaker score) :=
  ⟨fun i j => le_total (score j) (score i)⟩

theorem insertionSort_le {n : ℕ} (score : Fin n → ℤ) (k : ℕ) (is : List (Fin n)) :
    ∀ i ∈ (is.insertionSort (NotWeaker score)).take k,
      ∀ j ∈ (is.insertionSort (NotWeaker score)).drop k, score j ≤ score i := by
  have hsorted := List.pairwise_insertionSort (NotWeaker score) is
  rw [← List.take_append_drop k (is.insertionSort (NotWeaker score)), List.pairwise_append]
    at hsorted
  exact hsorted.2.2

/-- A library that visits a map in the order of its entries and sorts by insertion. -/
def Library.insertion (n : ℕ) : Library n where
  visit is := is
  visit_perm := .refl
  sort score is := is.insertionSort (NotWeaker score)
  sort_perm score := List.perm_insertionSort (NotWeaker score)
  sort_sorted score := List.pairwise_insertionSort (NotWeaker score)
  nth_element score _ is := is.insertionSort (NotWeaker score)
  nth_element_perm score _ := List.perm_insertionSort (NotWeaker score)
  nth_element_le := insertionSort_le

/-- The labels of captures. -/
inductive Status where
  | pass
  | osd
  | fail
  deriving DecidableEq

/-- What a scan leaves: the bins with a decode, the captures, the candidates tried by OSD, and those
handed to the refine worker. -/
structure Output (n : ℕ) where
  decoded_bins : List ℤ
  captures : List (Status × Fin n)
  attempted : List (Fin n)
  refine : List (Fin n)

/-- Nothing yet. -/
def Output.empty (n : ℕ) : Output n := ⟨[], [], [], []⟩

/-- The candidates handed to the refine worker in a scan, at most. -/
def kRefineMaxPerCycle : ℕ := 2

section Gate

variable {n : ℕ} (cfg : Settings) (lib : Library n) (r : ContScanResult n)

/-- A frequency bin keeps its best candidate, the first of equal ones. -/
def keepBest (best_by_bin : AList fun _ : ℤ => Fin n) (i : Fin n) : AList fun _ : ℤ => Fin n :=
  match best_by_bin.lookup (r.fo i) with
  | some j => if r.score j < r.score i then best_by_bin.insert (r.fo i) i else best_by_bin
  | none => best_by_bin.insert (r.fo i) i

/-- The strongest of the bins' candidates. -/
def gate (best_by_bin : AList fun _ : ℤ => Fin n) : List (Fin n) :=
  let cands := lib.sort r.score (lib.visit (best_by_bin.entries.map Sigma.snd))
  if cfg.osd_max_per_cycle_ < cands.length then cands.take cfg.osd_max_per_cycle_ else cands

/-- A candidate that OSD did not decode is captured as failed, unless its bin has a decode, and
handed to the refine worker. -/
def fallThrough (o : Output n) (i : Fin n) : Output n :=
  let o := if r.fo i ∈ o.decoded_bins then o else { o with captures := o.captures ++ [(.fail, i)] }
  if cfg.refine_enable_ ∧ o.refine.length < kRefineMaxPerCycle then
    { o with refine := o.refine ++ [i] }
  else o

end Gate

/-! ## JS8 -/

namespace Js8

/-- What `publishCandidate` makes of a message: it is no message, it has been published in the epoch
already, or it is published and captured. -/
inductive Publish where
  | rejected
  | duplicate
  | fresh

section

variable {n : ℕ} (cfg : Settings) (lib : Library n) (r : ContScanResult n) (parity : Fin n → Bool)
  (publish osd : Fin n → Publish)

/-- `publishCandidate` -/
def publishCandidate (status : Status) (o : Output n) (i : Fin n) : Publish → Output n
  | .rejected => o
  | .duplicate => { o with decoded_bins := r.fo i :: o.decoded_bins }
  | .fresh =>
    { o with
      decoded_bins := r.fo i :: o.decoded_bins
      captures := o.captures ++ [(status, i)] }

/-- A candidate in the first pass. -/
def pass1 (o : Output n) (i : Fin n) : Output n :=
  if !parity i then o else publishCandidate r .pass o i (publish i)

/-- A candidate in the search for the best ones. -/
def select (best_by_bin : AList fun _ : ℤ => Fin n) (i : Fin n) : AList fun _ : ℤ => Fin n :=
  if parity i then best_by_bin
  else if toFloat (r.score i) < cfg.osd_score_floor_ then best_by_bin
  else keepBest r best_by_bin i

/-- A candidate in the second pass. -/
def pass2 (o : Output n) (i : Fin n) : Output n :=
  let o := { o with attempted := o.attempted ++ [i] }
  match osd i with
  | .rejected => fallThrough cfg r o i
  | p => publishCandidate r .osd o i p

/-- `decodeAndPublishContinuous` of JS8, where `parity` says which candidates the GPU decoded. -/
def decodeAndPublishContinuous : Output n :=
  let o := (List.finRange n).foldl (pass1 r parity publish) (.empty n)
  if !cfg.osd_enable_ then o
  else
    let best_by_bin := (List.finRange n).foldl (select cfg r parity) ∅
    (gate cfg lib r best_by_bin).foldl (pass2 cfg r osd) o

end

end Js8

/-! ## FT8 -/

namespace Ft8

/-- The number of candidates that are decoded, at most. -/
def kContTopKCandidates : ℕ := 4096

section

variable {n : ℕ} (cfg : Settings) (lib : Library n) (r : ContScanResult n)
  (bp_ok decode_msg osd : Fin n → Bool)

/-- The candidates that the first pass considers. -/
def order : List (Fin n) :=
  if kContTopKCandidates < n then
    (lib.nth_element r.score kContTopKCandidates (List.finRange n)).take kContTopKCandidates
  else List.finRange n

/-- A decode: the first one in a bin is captured. -/
def decoded (status : Status) (o : Output n) (i : Fin n) : Output n :=
  let o := if r.fo i ∈ o.decoded_bins then o else { o with captures := o.captures ++ [(status, i)] }
  { o with decoded_bins := r.fo i :: o.decoded_bins }

/-- A candidate in the first pass, with the failures to be tried again. -/
def pass1 (s : Output n × List (Fin n)) (i : Fin n) : Output n × List (Fin n) :=
  if bp_ok i then if decode_msg i then (decoded r .pass s.1 i, s.2) else s
  else if cfg.osd_enable_ ∧ cfg.osd_score_floor_ ≤ toFloat (r.score i) then (s.1, s.2 ++ [i])
  else s

/-- A candidate in the second pass. -/
def pass2 (o : Output n) (i : Fin n) : Output n :=
  let o := { o with attempted := o.attempted ++ [i] }
  if osd i then decoded r .osd o i else fallThrough cfg r o i

/-- `decodeAndPublishContinuous` of FT8, where `bp_ok` says which candidates belief propagation
decodes. -/
def decodeAndPublishContinuous : Output n :=
  let (o, osd_fail) := (order lib r).foldl (pass1 cfg r bp_ok decode_msg) (.empty n, [])
  if !cfg.osd_enable_ ∨ osd_fail = [] then o
  else
    let best_by_bin := osd_fail.foldl (keepBest r) ∅
    (gate cfg lib r best_by_bin).foldl (pass2 cfg r osd) o

end

end Ft8

/-! ## Promises -/

/-- What the gate promises of the candidates that it lets through, of those considered and
failed. -/
structure Gated {n : ℕ} (cfg : Settings) (r : ContScanResult n) (considered : List (Fin n))
    (Failed : Fin n → Prop) (o : Output n) : Prop where
  length_le : o.attempted.length ≤ cfg.osd_max_per_cycle_
  nodup : (o.attempted.map r.fo).Nodup
  failed : ∀ i ∈ o.attempted, i ∈ considered ∧ Failed i
  floor : ∀ i ∈ o.attempted, cfg.osd_score_floor_ ≤ toFloat (r.score i)
  best : ∀ i ∈ o.attempted, ∀ j ∈ considered, Failed j → r.fo j = r.fo i → r.score j ≤ r.score i
  /-- No bin that is left out has a stronger failure, if OSD is tried at all. -/
  strongest : ∀ i ∈ o.attempted, ∀ j ∈ considered, Failed j → r.fo j ∉ o.attempted.map r.fo →
    r.score j ≤ r.score i
  /-- No bin is both captured as failed and decoded. -/
  consistent : ∀ i, (.fail, i) ∈ o.captures → r.fo i ∉ o.decoded_bins

/-! ## The best of each bin -/

/-- The map has the best of some candidates for each of their bins. -/
structure Best {n : ℕ} (r : ContScanResult n) (is : List (Fin n))
    (best_by_bin : AList fun _ : ℤ => Fin n) : Prop where
  mem : ∀ bin i, best_by_bin.lookup bin = some i → i ∈ is ∧ r.fo i = bin
  le : ∀ bin i, best_by_bin.lookup bin = some i → ∀ j ∈ is, r.fo j = bin → r.score j ≤ r.score i
  cover : ∀ j ∈ is, ∃ i, best_by_bin.lookup (r.fo j) = some i

section Best

variable {n : ℕ} {r : ContScanResult n} {is : List (Fin n)} {best_by_bin : AList fun _ : ℤ => Fin n}

theorem best_nil : Best r [] ∅ where
  mem bin i h := by simp at h
  le bin i h := by simp at h
  cover j hj := absurd hj List.not_mem_nil

/-- A candidate that replaces the best one of its bin, or is its first. -/
theorem Best.insert (h : Best r is best_by_bin) {i : Fin n}
    (hbest : ∀ j, best_by_bin.lookup (r.fo i) = some j → r.score j ≤ r.score i) :
    Best r (is ++ [i]) (best_by_bin.insert (r.fo i) i) := by
  constructor
  · intro bin k hk
    -- in its own bin the candidate is the only one in question
    by_cases hbin : bin = r.fo i
    · subst hbin
      rw [AList.lookup_insert] at hk
      obtain rfl := Option.some.inj hk
      exact ⟨List.mem_append_right _ List.mem_cons_self, rfl⟩
    · rw [AList.lookup_insert_ne hbin] at hk
      obtain ⟨hmem, hfo⟩ := h.mem bin k hk
      exact ⟨List.mem_append_left _ hmem, hfo⟩
  · intro bin k hk j hj hfo
    by_cases hbin : bin = r.fo i
    · subst hbin
      rw [AList.lookup_insert] at hk
      obtain rfl := Option.some.inj hk
      rcases List.mem_append.1 hj with hj | hj
      · -- the best of the others in the bin is no better
        obtain ⟨best, hlookup⟩ := h.cover j hj
        rw [hfo] at hlookup
        exact (h.le _ best hlookup j hj hfo).trans (hbest best hlookup)
      · rw [List.mem_singleton.1 hj]
    · rw [AList.lookup_insert_ne hbin] at hk
      rcases List.mem_append.1 hj with hj | hj
      · exact h.le bin k hk j hj hfo
      · rw [List.mem_singleton.1 hj] at hfo
        exact absurd hfo.symm hbin
  · intro j hj
    -- no bin is lost
    by_cases hbin : r.fo j = r.fo i
    · rw [hbin]
      exact ⟨i, AList.lookup_insert _⟩
    · rw [AList.lookup_insert_ne hbin]
      rcases List.mem_append.1 hj with hj | hj
      · exact h.cover j hj
      · rw [List.mem_singleton.1 hj] at hbin
        exact absurd rfl hbin

theorem keepBest_spec (h : Best r is best_by_bin) (i : Fin n) :
    Best r (is ++ [i]) (keepBest r best_by_bin i) := by
  rw [keepBest]
  split
  · next best hbest =>
    split_ifs with hlt
    · refine h.insert fun j hj => ?_
      -- it beats the best of the bin so far
      obtain rfl := Option.some.inj (hbest.symm.trans hj)
      exact hlt.le
    · -- it does not, and the map stays: only its own bin needs an argument
      constructor
      · intro bin k hk
        obtain ⟨hmem, hfo⟩ := h.mem bin k hk
        exact ⟨List.mem_append_left _ hmem, hfo⟩
      · intro bin k hk j hj hfo
        rcases List.mem_append.1 hj with hj | hj
        · exact h.le bin k hk j hj hfo
        · obtain rfl := List.mem_singleton.1 hj
          subst hfo
          obtain rfl := Option.some.inj (hbest.symm.trans hk)
          exact not_lt.1 hlt
      · intro j hj
        rcases List.mem_append.1 hj with hj | hj
        · exact h.cover j hj
        · rw [List.mem_singleton.1 hj]
          exact ⟨best, hbest⟩
  · next hnone =>
    -- the first candidate of its bin
    refine h.insert fun j hj => ?_
    rw [hnone] at hj
    cases hj

/-- Each bin has its best candidate after all have been looked at. -/
theorem best_foldl (is : List (Fin n)) : Best r is (is.foldl (keepBest r) ∅) := by
  induction is using List.reverseRecOn with
  | nil => exact best_nil
  | append_singleton is i ih =>
    rw [List.foldl_append]
    exact keepBest_spec ih i

theorem gate_eq_take (cfg : Settings) (lib : Library n) :
    gate cfg lib r best_by_bin = (lib.sort r.score
      (lib.visit (best_by_bin.entries.map Sigma.snd))).take cfg.osd_max_per_cycle_ := by
  rw [gate]
  split_ifs with hlength
  · rfl
  · exact (List.take_of_length_le (not_lt.1 hlength)).symm

/-- The bins of the map are those of the candidates. -/
theorem Best.mem_keys (h : Best r is best_by_bin) {bin : ℤ} :
    bin ∈ best_by_bin.keys ↔ bin ∈ is.map r.fo := by
  rw [← AList.mem_keys, ← AList.lookup_isSome, Option.isSome_iff_exists, List.mem_map]
  constructor
  · rintro ⟨i, hi⟩
    exact ⟨i, h.mem bin i hi⟩
  · rintro ⟨j, hj, rfl⟩
    exact h.cover j hj

/-- As many bins get through as there are, up to the cap. -/
theorem length_gate (h : Best r is best_by_bin) (cfg : Settings) (lib : Library n) :
    (gate cfg lib r best_by_bin).length =
      min cfg.osd_max_per_cycle_ (is.map r.fo).dedup.length := by
  have hkeys : best_by_bin.keys.Perm (is.map r.fo).dedup := by
    apply (List.perm_ext_iff_of_nodup best_by_bin.keys_nodup (List.nodup_dedup _)).2
    intro bin
    rw [h.mem_keys, List.mem_dedup]
  have hlength : (best_by_bin.entries.map Sigma.snd).length = best_by_bin.keys.length := by
    rw [List.length_map, AList.keys, List.keys, List.length_map]
  rw [gate_eq_take, List.length_take, (lib.sort_perm r.score _).length_eq,
    (lib.visit_perm _).length_eq, hlength, hkeys.length_eq]

/-- The gate lets the best candidates of different bins through, and none stronger stays out. -/
theorem gate_spec (h : Best r is best_by_bin) (cfg : Settings) (lib : Library n) :
    ((gate cfg lib r best_by_bin).map r.fo).Nodup ∧
      (∀ i ∈ gate cfg lib r best_by_bin, i ∈ is ∧
        ∀ j ∈ is, r.fo j = r.fo i → r.score j ≤ r.score i) ∧
      ∀ i ∈ gate cfg lib r best_by_bin, ∀ j ∈ is, r.fo j ∉ (gate cfg lib r best_by_bin).map r.fo →
        r.score j ≤ r.score i := by
  rw [gate_eq_take]
  have hperm := (lib.sort_perm r.score _).trans (lib.visit_perm (best_by_bin.entries.map Sigma.snd))
  have hsorted := lib.sort_sorted r.score (lib.visit (best_by_bin.entries.map Sigma.snd))
  generalize lib.sort r.score _ = cands at hperm hsorted
  -- the candidates are those of the map
  have hmem : ∀ i, i ∈ cands ↔ best_by_bin.lookup (r.fo i) = some i := by
    intro i
    rw [hperm.mem_iff, List.mem_map]
    constructor
    · rintro ⟨e, he, rfl⟩
      have hlookup := AList.mem_lookup_iff.2 he
      rwa [(h.mem _ _ hlookup).2]
    · intro hlookup
      exact ⟨⟨r.fo i, i⟩, AList.mem_lookup_iff.1 hlookup, rfl⟩
  have hnodup : (cands.map r.fo).Nodup := by
    have hkeys : (best_by_bin.entries.map Sigma.snd).map r.fo = best_by_bin.keys := by
      rw [List.map_map]
      refine List.map_congr_left fun e he => ?_
      exact (h.mem e.1 e.2 (AList.mem_lookup_iff.2 he)).2
    rw [(hperm.map r.fo).nodup_iff, hkeys]
    exact best_by_bin.keys_nodup
  refine ⟨hnodup.sublist ((List.take_sublist _ _).map r.fo), fun i hi => ?_,
    fun i hi j hj hout => ?_⟩
  · have hlookup := (hmem i).1 (List.mem_of_mem_take hi)
    exact ⟨(h.mem _ _ hlookup).1, h.le _ _ hlookup⟩
  · -- the best of the other bin comes later in the order
    obtain ⟨best, hbest⟩ := h.cover j hj
    have hfo := (h.mem _ _ hbest).2
    have hcands : best ∈ cands := (hmem best).2 (by rwa [hfo])
    have hdrop : best ∈ cands.drop cfg.osd_max_per_cycle_ := by
      rw [← List.take_append_drop cfg.osd_max_per_cycle_ cands, List.mem_append] at hcands
      exact hcands.resolve_left fun hin => hout (hfo ▸ List.mem_map_of_mem hin)
    rw [← List.take_append_drop cfg.osd_max_per_cycle_ cands, List.pairwise_append] at hsorted
    exact (h.le _ best hbest j hj rfl).trans (hsorted.2.2 i hi best hdrop)

end Best

/-! ## The second pass -/

section Pass2

variable {n : ℕ} {r : ContScanResult n}

/-- What holds after some candidates of the second pass. -/
structure Tried (r : ContScanResult n) (done : List (Fin n)) (o : Output n) : Prop where
  attempted : o.attempted = done
  /-- The bin of a capture as failed has been tried, without success. -/
  failed : ∀ i, (.fail, i) ∈ o.captures → i ∈ done ∧ r.fo i ∉ o.decoded_bins

/-- A decode is in a bin that has not been tried before. -/
theorem Tried.decode {done : List (Fin n)} {o o' : Output n} (h : Tried r done o) {i : Fin n}
    (hnew : r.fo i ∉ done.map r.fo) (hattempted : o'.attempted = o.attempted ++ [i])
    (hcaptures : ∀ j, (.fail, j) ∈ o'.captures → (.fail, j) ∈ o.captures)
    (hbins : o'.decoded_bins = r.fo i :: o.decoded_bins) : Tried r (done ++ [i]) o' := by
  refine ⟨by rw [hattempted, h.attempted], fun j hj => ?_⟩
  obtain ⟨hdone, hfo⟩ := h.failed j (hcaptures j hj)
  refine ⟨List.mem_append_left _ hdone, ?_⟩
  rw [hbins, List.mem_cons, not_or]
  exact ⟨fun heq => hnew (heq ▸ List.mem_map_of_mem hdone), hfo⟩

/-- A failure is captured only if the bin has no decode. -/
theorem Tried.fallThrough (cfg : Settings) {done : List (Fin n)} {o : Output n}
    (h : Tried r done o) (i : Fin n) :
    Tried r (done ++ [i]) (fallThrough cfg r { o with attempted := o.attempted ++ [i] } i) := by
  have hattempted : o.attempted ++ [i] = done ++ [i] := by rw [h.attempted]
  have hold : ∀ j, (.fail, j) ∈ o.captures → j ∈ done ++ [i] ∧ r.fo j ∉ o.decoded_bins :=
    fun j hj => ⟨List.mem_append_left _ (h.failed j hj).1, (h.failed j hj).2⟩
  rw [OsdGate.fallThrough]
  dsimp only
  by_cases hbin : r.fo i ∈ o.decoded_bins
  · simp only [if_pos hbin]
    -- nothing is captured, whether or not the refine worker gets it
    split_ifs <;> exact ⟨hattempted, hold⟩
  · -- the capture is of a bin without a decode
    have hnew : ∀ j, (.fail, j) ∈ o.captures ++ [(.fail, i)] →
        j ∈ done ++ [i] ∧ r.fo j ∉ o.decoded_bins := by
      intro j hj
      rcases List.mem_append.1 hj with hj | hj
      · exact hold j hj
      · obtain ⟨-, rfl⟩ := Prod.mk.inj (List.mem_singleton.1 hj)
        exact ⟨List.mem_append_right _ List.mem_cons_self, hbin⟩
    simp only [if_neg hbin]
    split_ifs <;> exact ⟨hattempted, hnew⟩

/-- The second pass, over candidates in different bins. -/
theorem tried_foldl {pass2 : Output n → Fin n → Output n}
    (hstep : ∀ {done o} (i), Tried r done o → r.fo i ∉ done.map r.fo →
      Tried r (done ++ [i]) (pass2 o i)) {cands : List (Fin n)} (hnodup : (cands.map r.fo).Nodup)
    {o : Output n} (h : Tried r [] o) : Tried r cands (cands.foldl pass2 o) := by
  induction cands using List.reverseRecOn with
  | nil => exact h
  | append_singleton cands i ih =>
    rw [List.map_append, List.map_singleton, List.nodup_append] at hnodup
    obtain ⟨hnodup, -, hnew⟩ := hnodup
    rw [List.foldl_append]
    -- the bin of the candidate is none of those before it
    exact hstep i (ih hnodup) fun hmem => hnew _ hmem _ List.mem_cons_self rfl

end Pass2

/-! ## The decoders -/

section Decoders

variable {n : ℕ} (cfg : Settings) (lib : Library n) (r : ContScanResult n)

/-- What the best of the failures that are strong enough become. -/
theorem gated_of_best {considered : List (Fin n)} {Failed : Fin n → Prop} {is : List (Fin n)}
    (his : ∀ i, i ∈ is ↔ i ∈ considered ∧ Failed i ∧ cfg.osd_score_floor_ ≤ toFloat (r.score i))
    {best_by_bin : AList fun _ : ℤ => Fin n} (hbest : Best r is best_by_bin) {o : Output n}
    (htried : Tried r (gate cfg lib r best_by_bin) o) : Gated cfg r considered Failed o := by
  have hlength := length_gate hbest cfg lib
  obtain ⟨hnodup, hmem, hstrongest⟩ := gate_spec hbest cfg lib
  obtain ⟨hattempted, hfailed⟩ := htried
  rw [← hattempted] at hlength hnodup hmem hstrongest
  have hfloor : ∀ i ∈ o.attempted, cfg.osd_score_floor_ ≤ toFloat (r.score i) :=
    fun i hi => ((his i).1 (hmem i hi).1).2.2
  refine ⟨hlength.trans_le (Nat.min_le_left _ _), hnodup, fun i hi => ?_, hfloor,
    fun i hi j hj hjfailed hfo => ?_, fun i hi j hj hjfailed hout => ?_,
    fun i hi => (hfailed i hi).2⟩
  · obtain ⟨hconsidered, hifailed, -⟩ := (his i).1 (hmem i hi).1
    exact ⟨hconsidered, hifailed⟩
  · by_cases hstrong : cfg.osd_score_floor_ ≤ toFloat (r.score j)
    · exact (hmem i hi).2 j ((his j).2 ⟨hj, hjfailed, hstrong⟩) hfo
    · -- a failure below the floor is weaker than any candidate let through
      exact le_of_floor_le (hfloor i hi) hstrong
  · by_cases hstrong : cfg.osd_score_floor_ ≤ toFloat (r.score j)
    · exact hstrongest i hi j ((his j).2 ⟨hj, hjfailed, hstrong⟩) hout
    · exact le_of_floor_le (hfloor i hi) hstrong

/-- Where OSD is not tried at all, nothing is promised but that the first pass captures no
failure. -/
theorem gated_of_not_tried {considered : List (Fin n)} {Failed : Fin n → Prop} {o : Output n}
    (h : Tried r [] o) : Gated cfg r considered Failed o := by
  obtain ⟨hattempted, hfailed⟩ := h
  refine ⟨by rw [hattempted]; exact Nat.zero_le _, by rw [hattempted]; exact List.nodup_nil,
    ?_, ?_, ?_, ?_, fun i hi => (hfailed i hi).2⟩
  all_goals
    intro i hi
    rw [hattempted] at hi
    exact absurd hi List.not_mem_nil

/-- A pass that tries nothing and captures no failure. -/
theorem tried_nil_foldl {α : Type*} {pass : α → Fin n → α} (output : α → Output n)
    (hstep : ∀ s i, Tried r [] (output s) → Tried r [] (output (pass s i))) {s : α}
    (h : Tried r [] (output s)) (is : List (Fin n)) : Tried r [] (output (is.foldl pass s)) := by
  induction is generalizing s with
  | nil => exact h
  | cons i is ih => exact ih (hstep s i h)

theorem tried_empty : Tried r [] (.empty n) := ⟨rfl, fun _ hi => absurd hi List.not_mem_nil⟩

/-- A decode in the first pass is no capture of a failure. -/
theorem Tried.decode_nil {o o' : Output n} (h : Tried r [] o)
    (hattempted : o'.attempted = o.attempted)
    (hcaptures : ∀ j, (.fail, j) ∈ o'.captures → (.fail, j) ∈ o.captures) : Tried r [] o' :=
  ⟨hattempted.trans h.attempted,
    fun j hj => absurd (h.failed j (hcaptures j hj)).1 List.not_mem_nil⟩

theorem mem_captures_append {captures : List (Status × Fin n)} {status : Status}
    (hstatus : status ≠ .fail) {i j : Fin n} (h : (.fail, j) ∈ captures ++ [(status, i)]) :
    (.fail, j) ∈ captures := by
  rcases List.mem_append.1 h with h | h
  · exact h
  · exact absurd (Prod.mk.inj (List.mem_singleton.1 h)).1.symm hstatus

namespace Js8

variable (parity : Fin n → Bool) (publish osd : Fin n → Publish)

theorem publishCandidate_spec {status : Status} (hstatus : status ≠ .fail) (o : Output n)
    (i : Fin n) (p : Publish) :
    (publishCandidate r status o i p).attempted = o.attempted ∧
      ∀ j, (.fail, j) ∈ (publishCandidate r status o i p).captures → (.fail, j) ∈ o.captures := by
  cases p with
  | rejected => exact ⟨rfl, fun j hj => hj⟩
  | duplicate => exact ⟨rfl, fun j hj => hj⟩
  | fresh => exact ⟨rfl, fun j hj => mem_captures_append hstatus hj⟩

theorem tried_pass1 (is : List (Fin n)) :
    Tried r [] (is.foldl (pass1 r parity publish) (.empty n)) := by
  refine tried_nil_foldl r id (fun o i h => ?_) (tried_empty r) is
  show Tried r [] (pass1 r parity publish o i)
  rw [pass1]
  split_ifs
  · exact h
  · obtain ⟨hattempted, hcaptures⟩ :=
      publishCandidate_spec r (show Status.pass ≠ .fail by decide) o i (publish i)
    exact h.decode_nil r hattempted hcaptures

theorem tried_pass2 {done : List (Fin n)} {o : Output n} (i : Fin n) (h : Tried r done o)
    (hnew : r.fo i ∉ done.map r.fo) : Tried r (done ++ [i]) (pass2 cfg r osd o i) := by
  rw [pass2]
  cases osd i with
  | rejected => exact h.fallThrough cfg i
  | duplicate => exact h.decode hnew rfl (fun j hj => hj) rfl
  | fresh =>
    exact h.decode hnew rfl (fun j hj => mem_captures_append Status.noConfusion hj) rfl

/-- A candidate is a failure that is strong enough. -/
def strong (i : Fin n) : Bool := !parity i && !decide (toFloat (r.score i) < cfg.osd_score_floor_)

theorem foldl_select : (List.finRange n).foldl (select cfg r parity) ∅ =
    ((List.finRange n).filter (strong cfg r parity)).foldl (keepBest r) ∅ := by
  have hselect : select cfg r parity = fun best_by_bin i =>
      if strong cfg r parity i then keepBest r best_by_bin i else best_by_bin := by
    funext best_by_bin i
    rw [select]
    cases hparity : parity i with
    | true => simp [strong, hparity]
    | false =>
      by_cases hlt : toFloat (r.score i) < cfg.osd_score_floor_ <;> simp [strong, hparity, hlt]
  rw [List.foldl_filter, hselect]

/-- OSD tries what the gate lets through. -/
theorem tried_decode (henable : cfg.osd_enable_ = true) :
    Tried r (gate cfg lib r (((List.finRange n).filter (strong cfg r parity)).foldl (keepBest r) ∅))
      (decodeAndPublishContinuous cfg lib r parity publish osd) := by
  have hbest := best_foldl (r := r) ((List.finRange n).filter (strong cfg r parity))
  have hnodup := (gate_spec hbest cfg lib).1
  rw [decodeAndPublishContinuous, if_neg (by simp [henable]), foldl_select]
  exact tried_foldl (fun i h hnew => tried_pass2 cfg r osd i h hnew) hnodup
    (tried_pass1 r parity publish (List.finRange n))

/-- OSD tries as many bins as have a strong failure, up to the cap. -/
theorem length_attempted (henable : cfg.osd_enable_ = true) :
    (decodeAndPublishContinuous cfg lib r parity publish osd).attempted.length =
      min cfg.osd_max_per_cycle_
        (((List.finRange n).filter (strong cfg r parity)).map r.fo).dedup.length := by
  rw [(tried_decode cfg lib r parity publish osd henable).attempted,
    length_gate (best_foldl (r := r) _)]

theorem gated_of_not_enabled (henable : cfg.osd_enable_ = false) :
    Gated cfg r (List.finRange n) (fun i => parity i = false)
      (decodeAndPublishContinuous cfg lib r parity publish osd) := by
  rw [decodeAndPublishContinuous, if_pos (by simp [henable])]
  exact gated_of_not_tried cfg r (tried_pass1 r parity publish (List.finRange n))

theorem gated_of_number (hfloor : cfg.osd_score_floor_ ≠ .nan) :
    Gated cfg r (List.finRange n) (fun i => parity i = false)
      (decodeAndPublishContinuous cfg lib r parity publish osd) := by
  cases henable : cfg.osd_enable_ with
  | false => exact gated_of_not_enabled cfg lib r parity publish osd henable
  | true =>
    refine gated_of_best cfg lib r (fun i => ?_) (best_foldl _)
      (tried_decode cfg lib r parity publish osd henable)
    simp [strong, ← not_toFloat_lt_iff hfloor]

/-- Where the floor is no number, the first candidate that OSD tries is not at or above it. -/
theorem gated_decode_iff : Gated cfg r (List.finRange n) (fun i => parity i = false)
      (decodeAndPublishContinuous cfg lib r parity publish osd) ↔
    cfg.osd_score_floor_ ≠ .nan ∨ cfg.osd_enable_ = false ∨ cfg.osd_max_per_cycle_ = 0 ∨
      ∀ i, parity i = true := by
  constructor
  · intro h
    by_contra hnot
    obtain ⟨hnan, henable, hmax, hfailed⟩ : cfg.osd_score_floor_ = .nan ∧
        cfg.osd_enable_ = true ∧ cfg.osd_max_per_cycle_ ≠ 0 ∧ ∃ i, parity i = false := by
      simpa using hnot
    obtain ⟨i, hi⟩ := hfailed
    have hstrong : i ∈ (List.finRange n).filter (strong cfg r parity) := by
      simp [strong, hi, hnan]
    have hbin := List.mem_dedup.2 (List.mem_map_of_mem (f := r.fo) hstrong)
    have hlength :
        0 < (decodeAndPublishContinuous cfg lib r parity publish osd).attempted.length := by
      rw [length_attempted cfg lib r parity publish osd henable]
      exact lt_min (Nat.pos_of_ne_zero hmax) (List.length_pos_of_mem hbin)
    obtain ⟨j, hj⟩ := List.exists_mem_of_length_pos hlength
    have hle := h.floor j hj
    rw [hnan] at hle
    exact Score.not_nan_le _ hle
  · intro h
    rcases h with hfloor | henable | hnone
    · exact gated_of_number cfg lib r parity publish osd hfloor
    · exact gated_of_not_enabled cfg lib r parity publish osd henable
    · cases henable : cfg.osd_enable_ with
      | false => exact gated_of_not_enabled cfg lib r parity publish osd henable
      | true =>
        -- the gate lets nothing through
        have htried := tried_decode cfg lib r parity publish osd henable
        have hlength := length_attempted cfg lib r parity publish osd henable
        have hzero : min cfg.osd_max_per_cycle_
            (((List.finRange n).filter (strong cfg r parity)).map r.fo).dedup.length = 0 := by
          rcases hnone with hmax | hok
          · rw [hmax, Nat.zero_min]
          · simp [strong, hok]
        rw [hzero, htried.attempted] at hlength
        rw [List.eq_nil_of_length_eq_zero hlength] at htried
        exact gated_of_not_tried cfg r htried

end Js8

namespace Ft8

variable (bp_ok decode_msg osd : Fin n → Bool)

theorem decoded_spec {status : Status} (hstatus : status ≠ .fail) (o : Output n) (i : Fin n) :
    (decoded r status o i).attempted = o.attempted ∧
      (∀ j, (.fail, j) ∈ (decoded r status o i).captures → (.fail, j) ∈ o.captures) ∧
      (decoded r status o i).decoded_bins = r.fo i :: o.decoded_bins := by
  rw [decoded]
  split_ifs
  · exact ⟨rfl, fun j hj => hj, rfl⟩
  · exact ⟨rfl, fun j hj => mem_captures_append hstatus hj, rfl⟩

theorem tried_pass1 (is : List (Fin n)) :
    Tried r [] (is.foldl (pass1 cfg r bp_ok decode_msg) (.empty n, [])).1 := by
  refine tried_nil_foldl r Prod.fst (fun s i h => ?_) (tried_empty r) is
  rw [pass1]
  split_ifs
  · obtain ⟨hattempted, hcaptures, -⟩ :=
      decoded_spec r (show Status.pass ≠ .fail by decide) s.1 i
    exact h.decode_nil r hattempted hcaptures
  · exact h
  · exact h
  · exact h

/-- A candidate is a failure that is strong enough. -/
def strong (i : Fin n) : Bool :=
  !bp_ok i && decide (cfg.osd_score_floor_ ≤ toFloat (r.score i))

/-- The failures of the first pass that are to be tried again. -/
theorem osd_fail_eq (henable : cfg.osd_enable_ = true) (is : List (Fin n))
    (s : Output n × List (Fin n)) :
    (is.foldl (pass1 cfg r bp_ok decode_msg) s).2 = s.2 ++ is.filter (strong cfg r bp_ok) := by
  induction is generalizing s with
  | nil => exact (List.append_nil _).symm
  | cons i is ih =>
    rw [List.foldl_cons, ih, pass1]
    cases hok : bp_ok i with
    | true =>
      rw [List.filter_cons_of_neg (by simp [strong, hok]), if_pos rfl]
      split_ifs <;> rfl
    | false =>
      by_cases hfloor : cfg.osd_score_floor_ ≤ toFloat (r.score i)
      · rw [List.filter_cons_of_pos (by simp [strong, hok, hfloor])]
        simp [henable, hfloor]
      · rw [List.filter_cons_of_neg (by simp [strong, hok, hfloor])]
        simp [hfloor]

theorem tried_pass2 {done : List (Fin n)} {o : Output n} (i : Fin n) (h : Tried r done o)
    (hnew : r.fo i ∉ done.map r.fo) : Tried r (done ++ [i]) (pass2 cfg r osd o i) := by
  rw [pass2]
  split_ifs
  · obtain ⟨hattempted, hcaptures, hbins⟩ := decoded_spec r (show Status.osd ≠ .fail by decide)
      { o with attempted := o.attempted ++ [i] } i
    exact h.decode hnew hattempted hcaptures hbins
  · exact h.fallThrough cfg i

/-- OSD tries what the gate lets through. -/
theorem tried_decode (henable : cfg.osd_enable_ = true) :
    Tried r (gate cfg lib r (((order lib r).filter (strong cfg r bp_ok)).foldl (keepBest r) ∅))
      (decodeAndPublishContinuous cfg lib r bp_ok decode_msg osd) := by
  have hpass1 := tried_pass1 cfg r bp_ok decode_msg (order lib r)
  have hfail := osd_fail_eq cfg r bp_ok decode_msg henable (order lib r) (.empty n, [])
  have hbest := best_foldl (r := r) ((order lib r).filter (strong cfg r bp_ok))
  have hnodup := (gate_spec hbest cfg lib).1
  have hlength := length_gate hbest cfg lib
  rw [decodeAndPublishContinuous]
  generalize (order lib r).foldl (pass1 cfg r bp_ok decode_msg) (.empty n, []) = s at hpass1 hfail
  obtain ⟨o, osd_fail⟩ := s
  obtain rfl : osd_fail = (order lib r).filter (strong cfg r bp_ok) := hfail
  dsimp only at hpass1 ⊢
  split_ifs with hskip
  · -- nothing failed, and the gate lets nothing through
    have hnil := hskip.resolve_left (by simp [henable])
    rw [hnil, List.map_nil, List.dedup_nil, List.length_nil, Nat.min_zero] at hlength
    rw [hnil, List.eq_nil_of_length_eq_zero hlength]
    exact hpass1
  · exact tried_foldl (fun i h hnew => tried_pass2 cfg r osd i h hnew) hnodup hpass1

/-- OSD tries as many bins as have a strong failure, up to the cap. -/
theorem length_attempted (henable : cfg.osd_enable_ = true) :
    (decodeAndPublishContinuous cfg lib r bp_ok decode_msg osd).attempted.length =
      min cfg.osd_max_per_cycle_
        (((order lib r).filter (strong cfg r bp_ok)).map r.fo).dedup.length := by
  rw [(tried_decode cfg lib r bp_ok decode_msg osd henable).attempted,
    length_gate (best_foldl (r := r) _)]

theorem gated_decode : Gated cfg r (order lib r) (fun i => bp_ok i = false)
    (decodeAndPublishContinuous cfg lib r bp_ok decode_msg osd) := by
  cases henable : cfg.osd_enable_ with
  | false =>
    rw [decodeAndPublishContinuous]
    dsimp only
    rw [if_pos (.inl (by simp [henable]))]
    exact gated_of_not_tried cfg r (tried_pass1 cfg r bp_ok decode_msg (order lib r))
  | true =>
    refine gated_of_best cfg lib r (fun i => ?_) (best_foldl _)
      (tried_decode cfg lib r bp_ok decode_msg osd henable)
    simp [strong]

end Ft8

/-- Of a scan, with any settings and whatever the passes make of the candidates, at most the maximum
number of candidates are tried by OSD, at most one of each bin, each a best failure of its bin with
a score not below the floor, and no bin that is left out has a stronger one. No bin is both captured
as failed and decoded. FT8 keeps to this always, and JS8 exactly if the floor is a number, or OSD is
disabled or has nothing to try. -/
theorem gated_iff :
    (∀ (parity : Fin n → Bool) (publish osd : Fin n → Js8.Publish),
      Gated cfg r (List.finRange n) (fun i => parity i = false)
          (Js8.decodeAndPublishContinuous cfg lib r parity publish osd) ↔
        cfg.osd_score_floor_ ≠ .nan ∨ cfg.osd_enable_ = false ∨ cfg.osd_max_per_cycle_ = 0 ∨
          ∀ i, parity i = true) ∧
      ∀ bp_ok decode_msg osd : Fin n → Bool,
        Gated cfg r (Ft8.order lib r) (fun i => bp_ok i = false)
          (Ft8.decodeAndPublishContinuous cfg lib r bp_ok decode_msg osd) :=
  ⟨Js8.gated_decode_iff cfg lib r, Ft8.gated_decode cfg lib r⟩

end Decoders

/-- One candidate. -/
def oneCandidate : ContScanResult 1 := ⟨fun _ => 200, fun _ => 4⟩

/-- The default settings with a floor that is no number. -/
def nanFloor : Settings := ⟨true, .nan, 64, true⟩

/-- A floor that is no number: OSD tries a candidate that is not at or above it. -/
theorem tries_oneCandidate :
    ¬Gated nanFloor oneCandidate (List.finRange 1) (fun _ => false = false)
      (Js8.decodeAndPublishContinuous nanFloor (.insertion 1) oneCandidate (fun _ => false)
        (fun _ => .rejected) fun _ => .rejected) := by
  intro h
  have hlength : 0 < (Js8.decodeAndPublishContinuous nanFloor (.insertion 1) oneCandidate
      (fun _ => false) (fun _ => .rejected) fun _ => .rejected).attempted.length := by
    decide +kernel
  obtain ⟨i, hi⟩ := List.exists_mem_of_length_pos hlength
  exact Score.not_nan_le _ (h.floor i hi)

/-- Of seven candidates the first pass decodes one, one is below the floor, and the others are in
three bins: OSD is tried on the best of the two strongest bins. -/
example :
    (Js8.decodeAndPublishContinuous ⟨true, toFloat 6, 2, false⟩ (.insertion 7)
      ⟨![10, 10, 20, 30, 40, 20, 50], ![7, 9, 8, 12, 6, 8, 5]⟩ (fun i => i = 3)
      (fun _ => .fresh) fun _ => .rejected).attempted = [1, 2] := by
  decide +kernel

end GranolaSdr.Hf.OsdGate
