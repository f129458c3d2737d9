import GranolaSdr.Cuda.OsdGuarantee

/-!
# The codeword that ordered-statistics decoding returns

With exact sums the decoder returns a codeword that is nearest to the received values among those
that differ from the hard decisions at few positions of the most reliable basis.

## Main definitions

* `softDistance`: the reliabilities at which a vector differs from the hard decisions, summed up.

## Main results

* `Addition.exact_softDistance`: exact sums do not depend on the order;
* `osd_decode_n174_isSome_iff`: the decoder returns a codeword exactly at full rank;
* `osd_decode_n174_spec`: what it returns;
* `osd_decode_n174_optimal`: both together.
-/

namespace GranolaSdr.Cuda.Osd

/-- The reliabilities of the positions where a vector differs from the hard decisions, summed
up. -/
def softDistance (llr : Fin N → ℚ) (x : Fin N → ZMod 2) : ℚ :=
  ∑ p, if x p ≠ hardBit llr p then |llr p| else 0

/-- A loop that adds up what passes a test. -/
theorem foldl_add_ite (test : Fin N → Prop) [DecidablePred test] (rel : Fin N → ℚ)
    (l : List (Fin N)) (d : ℚ) :
    l.foldl (fun d p => if test p then d + rel p else d) d =
      d + (l.map fun p => if test p then rel p else 0).sum := by
  induction l generalizing d with
  | nil => simp
  | cons p l ih =>
    rw [List.foldl_cons, ih, List.map_cons, List.sum_cons, ← add_assoc]
    split_ifs
    · rfl
    · rw [add_zero]

namespace Addition

/-- Exact sums do not depend on the order of the terms. -/
theorem exact_softDistance (llr : Fin N → ℚ) (x : Fin N → ZMod 2) :
    exact.softDistance llr x = Osd.softDistance llr x := by
  have hfold := foldl_add_ite (fun c => x (permEquiv llr c) ≠ hardBit llr (permEquiv llr c))
    (fun c => |llr (permEquiv llr c)|) (List.finRange N) 0
  rw [softDistance, ← map_permEquiv, List.foldl_map, Osd.softDistance,
    ← Equiv.sum_comp (permEquiv llr), Fin.sum_univ_def]
  exact hfold.trans (zero_add _)

end Addition

section Decode

variable (llr : Fin N → ℚ) {K : ℕ} (gen : ℕ → UInt8)

/-- `osd_decode_n174` returns a codeword exactly when the generator has full rank. -/
theorem osd_decode_n174_isSome_iff (K : ℕ) (order : ℤ) :
    (osd_decode_n174 llr K gen order).isSome ↔
      1 ≤ K ∧ K ≤ K_MAX ∧ (generator K gen).rank = K :=
  Addition.exact.osd_decode_n174_isSome_iff llr gen order

/-- What the decoder returns is a codeword, with its soft distance, and no codeword that differs
from the hard decisions at no more positions of the most reliable basis than are flipped is
nearer. -/
theorem osd_decode_n174_spec {order : ℤ} {xhat : Vector Bool N} {dist : ℚ}
    (h : osd_decode_n174 llr K gen order = some (xhat, dist)) :
    wordVec xhat ∈ Submodule.span (ZMod 2) (Set.range (generator K gen).row) ∧
      dist = softDistance llr (wordVec xhat) ∧
      ∀ x ∈ Submodule.span (ZMod 2) (Set.range (generator K gen).row),
        ({p ∈ mrb llr (generator K gen) | x p ≠ hardBit llr p}.ncard : ℤ) ≤ max 0 (min order 2) →
          softDistance llr (wordVec xhat) ≤ softDistance llr x := by
  obtain ⟨hmem, hdist, hmin⟩ := Addition.osd_decode_n174_spec h
  simp only [Addition.exact_softDistance] at hdist hmin
  exact ⟨hmem, hdist, fun x hx hcard => hdist ▸ hmin x hx hcard⟩

/-- If the hard decisions are a codeword, it is returned. -/
theorem osd_decode_n174_hardBit {order : ℤ} {xhat : Vector Bool N} {dist : ℚ}
    (h : osd_decode_n174 llr K gen order = some (xhat, dist))
    (hcode : hardBit llr ∈ Submodule.span (ZMod 2) (Set.range (generator K gen).row)) :
    wordVec xhat = hardBit llr ∧ dist = 0 :=
  Addition.osd_decode_n174_hardBit h hcode

/-- The decoder succeeds exactly on a generator of full rank. What it returns is then a codeword,
with its soft distance, and no codeword is nearer that differs from the hard decisions at no more
of the `K` positions of the most reliable basis than the order, clamped to 0..2. -/
theorem osd_decode_n174_optimal (K : ℕ) (order : ℤ) :
    ((osd_decode_n174 llr K gen order).isSome ↔
      1 ≤ K ∧ K ≤ K_MAX ∧ (generator K gen).rank = K) ∧
    ∀ xhat dist, osd_decode_n174 llr K gen order = some (xhat, dist) →
      (mrb llr (generator K gen)).ncard = K ∧
      wordVec xhat ∈ Submodule.span (ZMod 2) (Set.range (generator K gen).row) ∧
      dist = softDistance llr (wordVec xhat) ∧
      ∀ x ∈ Submodule.span (ZMod 2) (Set.range (generator K gen).row),
        ({p ∈ mrb llr (generator K gen) | x p ≠ hardBit llr p}.ncard : ℤ) ≤ max 0 (min order 2) →
          softDistance llr (wordVec xhat) ≤ softDistance llr x := by
  refine ⟨osd_decode_n174_isSome_iff llr gen K order, fun xhat dist h => ⟨?_, ?_⟩⟩
  · have hsome : (osd_decode_n174 llr K gen order).isSome := by rw [h, Option.isSome_some]
    exact ncard_mrb llr gen ((osd_decode_n174_isSome_iff llr gen K order).1 hsome).2.2
  · exact osd_decode_n174_spec llr gen h

end Decode

end GranolaSdr.Cuda.Osd
