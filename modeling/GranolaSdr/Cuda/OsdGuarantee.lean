import GranolaSdr.Cuda.OsdSearch
import GranolaSdr.Lib.Rounding

/-!
# What ordered-statistics decoding guarantees

The decoder adds distances up in `float`s. Its guarantee does not depend on how sums are rounded, as
long as no sum of distances becomes negative: it is proved of the decoder with any such addition, of
which exact sums are one and sums rounded to `float` another.

## Main definitions

* `Addition.single`: the addition of `float`s;
* `Addition.softDistance`: the distance that the decoder computes for a codeword.

## Main results

* `Addition.osd_decode_n174_eq_some_iff`: what is returned;
* `Addition.dist_le_of_le`: a higher order brings no greater distance;
* `Addition.osd_decode_n174_recovers`: the guarantee.
-/

namespace GranolaSdr.Cuda.Osd

namespace Addition

/-- Sums rounded to a `float`. -/
def single : Addition where
  add a b := Rounding.binary32.round (a + b)
  nonneg a b ha hb := by
    have hzero : Rounding.binary32.Representable 0 := ⟨0, 0, by decide, by decide, by norm_num⟩
    exact Rounding.Format.le_round hzero (add_nonneg ha hb)

variable (s : Addition) {K : ℕ}

/-! ## Distances -/

/-- The reliabilities of the positions where a vector differs from the hard decisions, added up in
the order of reliability. -/
def softDistance (llr : Fin N → ℚ) (x : Fin N → ZMod 2) : ℚ :=
  (perm llr).toList.foldl (fun d p => if x p ≠ hardBit llr p then s.add d |llr p| else d) 0

section Distance

variable (llr : Fin N → ℚ)

/-- The distance computed is that of the word in the natural order of its bits. -/
theorem softDist_eq (c : Bits) :
    s.softDist llr (perm llr) c = s.softDistance llr (c.vec (permEquiv llr)) := by
  rw [softDist, softDistance, ← map_permEquiv, List.foldl_map]
  congr 1
  funext d col
  refine if_congr ?_ rfl rfl
  rw [Bits.vec_apply, ← bit_hard, ne_eq, ne_eq, Gf2.bit_inj]

theorem softDistance_nonneg (x : Fin N → ZMod 2) : 0 ≤ s.softDistance llr x := by
  have hfold : ∀ (l : List (Fin N)) (d : ℚ), 0 ≤ d →
      0 ≤ l.foldl (fun d p => if x p ≠ hardBit llr p then s.add d |llr p| else d) d := by
    intro l
    induction l with
    | nil => exact fun d hd => hd
    | cons p l ih =>
      intro d hd
      rw [List.foldl_cons]
      -- the sum so far is not negative
      apply ih
      split_ifs
      · exact s.nonneg _ _ hd (abs_nonneg _)
      · exact hd
  exact hfold _ 0 le_rfl

/-- Where there is no difference, nothing is added up. -/
theorem softDistance_hardBit : s.softDistance llr (hardBit llr) = 0 := by
  have hfold : ∀ l : List (Fin N),
      l.foldl (fun d p => if hardBit llr p ≠ hardBit llr p then s.add d |llr p| else d) 0 = 0 := by
    intro l
    induction l with
    | nil => rfl
    | cons p l ih => rwa [List.foldl_cons, if_neg (not_not.2 rfl)]
  exact hfold _

end Distance

/-! ## The search -/

/-- The search goes through the patterns and keeps the best one. -/
theorem search_eq (llr : Fin N → ℚ) (perm : Vector (Fin N) N) (rows : Vector Bits K) (order : ℤ)
    (y : Vector Bool K) :
    s.search llr perm rows order y =
      (patterns order y).foldl (fun best yt => best.keep (s.candidate llr perm rows yt))
        (s.candidate llr perm rows y) := by
  rw [patterns, List.foldl_append, search]
  split_ifs <;> simp only [List.foldl_map, List.foldl_flatMap, List.foldl_nil]

end Addition

/-! ## The guarantee -/

/-- The order that is used. -/
def clampOrder (order : ℤ) : ℤ := max 0 (min order 2)

section Decode

variable (s : Addition) (llr : Fin N → ℚ) {K : ℕ} (gen : ℕ → UInt8)

namespace Addition

/-- What the decoder returns, if it returns a codeword. -/
theorem osd_decode_n174_eq_some_iff {order : ℤ} {result : Vector Bool N × ℚ} :
    s.osd_decode_n174 llr K gen order = some result ↔
      (1 ≤ K ∧ K ≤ K_MAX) ∧ ∃ h : ¬(reduce (buildRows K gen (perm llr))).rank < K,
        let e := reduce (buildRows K gen (perm llr))
        let best := s.search llr (perm llr) e.rows (clampOrder order) (pivotDecisions llr e h)
        result = (mapBack (perm llr) best.word, best.dist) := by
  have horder : (if 2 < if order < 0 then 0 else order then 2 else if order < 0 then 0 else order) =
      clampOrder order := by
    unfold clampOrder
    split_ifs <;> omega
  unfold osd_decode_n174
  dsimp only
  rw [horder]
  by_cases hK : K < 1 ∨ K_MAX < K
  · rw [if_pos hK]
    exact iff_of_false (by simp) fun h => by omega
  rw [if_neg hK]
  by_cases hrank : (reduce (buildRows K gen (perm llr))).rank < K
  · -- the generator has not full rank
    rw [dif_pos hrank]
    exact iff_of_false (by simp) fun ⟨_, h, _⟩ => h hrank
  · rw [dif_neg hrank, Option.some.injEq]
    exact ⟨fun h => ⟨by omega, hrank, h.symm⟩, fun ⟨_, _, h⟩ => h.symm⟩

/-- A codeword is returned exactly when the generator has full rank. -/
theorem osd_decode_n174_isSome_iff (order : ℤ) :
    (s.osd_decode_n174 llr K gen order).isSome ↔
      1 ≤ K ∧ K ≤ K_MAX ∧ (generator K gen).rank = K := by
  have hle : (reduce (buildRows K gen (perm llr))).rank ≤ K := Elimination.rank_le _
  rw [← rank_reduce_eq_iff llr gen, Option.isSome_iff_exists]
  simp only [osd_decode_n174_eq_some_iff]
  constructor
  · rintro ⟨result, ⟨hpos, hmax⟩, hrank, -⟩
    exact ⟨hpos, hmax, by omega⟩
  · rintro ⟨hpos, hmax, hrank⟩
    exact ⟨_, ⟨hpos, hmax⟩, hrank.ge.not_gt, rfl⟩

variable {s llr gen} {order : ℤ} {xhat : Vector Bool N} {dist : ℚ}

/-- What is returned is a codeword, with its soft distance, and no codeword that differs from the
hard decisions at no more positions of the most reliable basis than are flipped is nearer. -/
theorem osd_decode_n174_spec (h : s.osd_decode_n174 llr K gen order = some (xhat, dist)) :
    wordVec xhat ∈ Submodule.span (ZMod 2) (Set.range (generator K gen).row) ∧
      dist = s.softDistance llr (wordVec xhat) ∧
      ∀ c ∈ Submodule.span (ZMod 2) (Set.range (generator K gen).row),
        ({p ∈ mrb llr (generator K gen) | c p ≠ hardBit llr p}.ncard : ℤ) ≤ clampOrder order →
          dist ≤ s.softDistance llr c := by
  have hred := reduced_reduce (K := K) llr gen
  have hpivots := mem_mrb_iff (K := K) llr gen
  obtain ⟨-, hrank, hresult⟩ := (osd_decode_n174_eq_some_iff s llr gen).1 h
  dsimp only at hresult
  set e := reduce (buildRows K gen (perm llr))
  obtain ⟨rfl, rfl⟩ := Prod.mk.inj hresult
  obtain ⟨yt, -, hbest, hmin⟩ := foldl_keep_spec (s.candidate llr (perm llr) e.rows)
    (pivotDecisions llr e hrank) (patterns (clampOrder order) (pivotDecisions llr e hrank))
  rw [← search_eq] at hbest
  rw [hbest, wordVec_mapBack]
  refine ⟨vec_encode_mem llr hred yt, s.softDist_eq llr _, fun c hc hcard => ?_⟩
  have hfull := length_pivots llr hrank
  -- the codeword is among the patterns, since it differs at few pivots
  have hpivotcard := card_pivots_le llr hred hfull hpivots c
  have horder : clampOrder order ≤ 2 := by
    unfold clampOrder
    omega
  obtain ⟨yc, hmem, hyc⟩ :=
    exists_pattern llr hred hfull (bit_pivotDecisions llr hrank) horder hc (by omega)
  calc (s.candidate llr (perm llr) e.rows yt).dist
      ≤ (s.candidate llr (perm llr) e.rows yc).dist := hmin yc hmem
    _ = s.softDistance llr c := by rw [candidate, softDist_eq, hyc]

/-- If the hard decisions are a codeword, it is returned. -/
theorem osd_decode_n174_hardBit (h : s.osd_decode_n174 llr K gen order = some (xhat, dist))
    (hcode : hardBit llr ∈ Submodule.span (ZMod 2) (Set.range (generator K gen).row)) :
    wordVec xhat = hardBit llr ∧ dist = 0 := by
  have hred := reduced_reduce (K := K) llr gen
  obtain ⟨-, hrank, hresult⟩ := (osd_decode_n174_eq_some_iff s llr gen).1 h
  dsimp only at hresult
  set e := reduce (buildRows K gen (perm llr))
  obtain ⟨rfl, rfl⟩ := Prod.mk.inj hresult
  -- the hard decisions at the pivots are encoded first, and their codeword is at no distance
  obtain ⟨y, hy, hvec⟩ := exists_encode_eq llr hred (length_pivots llr hrank) hcode
  obtain rfl : y = pivotDecisions llr e hrank :=
    vector_ext fun i => Gf2.bit_inj.1 ((hy i).trans (bit_pivotDecisions llr hrank i).symm)
  set y := pivotDecisions llr e hrank
  have hdist : (s.candidate llr (perm llr) e.rows y).dist = 0 := by
    rw [candidate, softDist_eq, hvec, softDistance_hardBit]
  have hbest : s.search llr (perm llr) e.rows (clampOrder order) y =
      s.candidate llr (perm llr) e.rows y := by
    rw [search_eq]
    refine foldl_keep_eq_self _ fun yt _ => ?_
    rw [hdist, candidate, softDist_eq]
    exact s.softDistance_nonneg llr _
  rw [hbest, wordVec_mapBack]
  exact ⟨hvec, hdist⟩

/-- A higher order brings no greater distance. -/
theorem dist_le_of_le {order' : ℤ} {xhat' : Vector Bool N} {dist' : ℚ}
    (h : s.osd_decode_n174 llr K gen order = some (xhat, dist))
    (h' : s.osd_decode_n174 llr K gen order' = some (xhat', dist')) (hle : order ≤ order') :
    dist' ≤ dist := by
  obtain ⟨-, hrank, hresult⟩ := (osd_decode_n174_eq_some_iff s llr gen).1 h
  obtain ⟨-, _, hresult'⟩ := (osd_decode_n174_eq_some_iff s llr gen).1 h'
  dsimp only at hresult hresult'
  set e := reduce (buildRows K gen (perm llr))
  set y := pivotDecisions llr e hrank
  obtain ⟨rfl, rfl⟩ := Prod.mk.inj hresult
  obtain ⟨rfl, rfl⟩ := Prod.mk.inj hresult'
  have hclamp : clampOrder order ≤ clampOrder order' := by
    unfold clampOrder
    omega
  obtain ⟨yt, hmem, hbest, -⟩ := foldl_keep_spec (s.candidate llr (perm llr) e.rows) y
    (patterns (clampOrder order) y)
  obtain ⟨yt', -, hbest', hmin⟩ := foldl_keep_spec (s.candidate llr (perm llr) e.rows) y
    (patterns (clampOrder order') y)
  rw [search_eq, search_eq, hbest, hbest']
  -- the best pattern of the lower order is one of the higher order
  apply hmin yt
  rcases List.mem_cons.1 hmem with rfl | hmem
  · exact List.mem_cons_self
  · exact List.mem_cons_of_mem _ (patterns_subset hclamp y hmem)

end Addition

/-- A codeword is returned exactly at full rank. It is then at no greater distance than any codeword
that differs from the hard decisions at no more positions of the most reliable basis than the order;
if a codeword has the signs of all received values, it is that one, at distance zero; and at a
higher order the distance is no greater. -/
theorem osd_decode_n174_recovers (K : ℕ) :
    (∀ order, (s.osd_decode_n174 llr K gen order).isSome ↔
      1 ≤ K ∧ K ≤ K_MAX ∧ (generator K gen).rank = K) ∧
    ∀ order xhat dist, s.osd_decode_n174 llr K gen order = some (xhat, dist) →
      (wordVec xhat ∈ Submodule.span (ZMod 2) (Set.range (generator K gen).row) ∧
        dist = s.softDistance llr (wordVec xhat)) ∧
      (∀ c ∈ Submodule.span (ZMod 2) (Set.range (generator K gen).row),
        ({p ∈ mrb llr (generator K gen) | c p ≠ hardBit llr p}.ncard : ℤ) ≤ clampOrder order →
          s.softDistance llr (wordVec xhat) ≤ s.softDistance llr c) ∧
      (∀ c ∈ Submodule.span (ZMod 2) (Set.range (generator K gen).row),
        (∀ p, (c p = 1 → 0 < llr p) ∧ (c p = 0 → llr p < 0)) → wordVec xhat = c ∧ dist = 0) ∧
      ∀ order' xhat' dist', order ≤ order' →
        s.osd_decode_n174 llr K gen order' = some (xhat', dist') → dist' ≤ dist := by
  refine ⟨s.osd_decode_n174_isSome_iff llr gen, fun order xhat dist h => ?_⟩
  obtain ⟨hmem, hdist, hmin⟩ := Addition.osd_decode_n174_spec h
  refine ⟨⟨hmem, hdist⟩, fun c hc hcard => hdist ▸ hmin c hc hcard, fun c hc hsigns => ?_, ?_⟩
  · -- such a codeword is the hard decisions themselves
    obtain rfl := eq_hardBit_of_signs llr hsigns
    exact Addition.osd_decode_n174_hardBit h hc
  · intro order' xhat' dist' hle h'
    exact Addition.dist_le_of_le h h' hle

end Decode

end GranolaSdr.Cuda.Osd
