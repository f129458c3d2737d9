import GranolaSdr.Cuda.OsdCore

/-!
# The search of ordered-statistics decoding

What is searched, and what a codeword has to do with it: the most reliable basis is stated without
an elimination, a position belongs to it when its column of the generator is no combination of the
columns at more reliable positions. A codeword that differs from the hard decisions at few positions
of the basis is one of those that are tried.

## Main definitions

* `hardBit`: the hard decisions;
* `patterns`: the hard decisions that are re-encoded;
* `mrb`: the most reliable basis.

## Main results

* `foldl_keep_spec`: the best of some candidates is kept;
* `mem_mrb_iff`: the pivots of the elimination are the most reliable basis;
* `exists_pattern`: which codewords are tried.
-/

namespace GranolaSdr.Cuda.Osd

variable {K : ℕ}

/-! ## Words -/

/-- The hard decision at a position. -/
def hardBit (llr : Fin N → ℚ) (p : Fin N) : ZMod 2 := Gf2.bit (0 < llr p)

/-- The vector of a word. -/
def wordVec (x : Vector Bool N) (p : Fin N) : ZMod 2 := Gf2.bit (x.get p)

@[simp]
theorem get_zeros (p : Fin N) : (Vector.replicate N false).get p = false :=
  Vector.getElem_replicate p.isLt

@[simp]
theorem wordVec_zeros : wordVec (Vector.replicate N false) = 0 := by
  funext p
  rw [wordVec, get_zeros, Gf2.bit_false, Pi.zero_apply]

section Words

variable (llr : Fin N → ℚ)

theorem bit_hard (col : Fin N) :
    Gf2.bit (hard llr (perm llr) col) = hardBit llr (permEquiv llr col) := rfl

/-- A vector with the signs of the received values is the vector of the hard decisions. -/
theorem eq_hardBit_of_signs {c : Fin N → ZMod 2}
    (hsigns : ∀ p, (c p = 1 → 0 < llr p) ∧ (c p = 0 → llr p < 0)) : c = hardBit llr := by
  ext p
  obtain ⟨hone, hzero⟩ := hsigns p
  rw [hardBit]
  by_cases hp : 0 < llr p
  · rw [decide_eq_true hp, Gf2.bit_true]
    by_contra hne
    exact lt_asymm hp (hzero ((Gf2.eq_zero_or_one (c p)).resolve_right hne))
  · rw [decide_eq_false hp, Gf2.bit_false]
    by_contra hne
    exact hp (hone ((Gf2.eq_zero_or_one (c p)).resolve_left hne))

/-- The loop of `mapBack` sets the bits of the columns it has passed. -/
theorem get_foldl_set (c : Bits) (l : List (Fin N)) (xhat : Vector Bool N) (col : Fin N) :
    (l.foldl (fun xhat col => xhat.set (permEquiv llr col) (c.get col)) xhat).get
      (permEquiv llr col) = if col ∈ l then c.get col else xhat.get (permEquiv llr col) := by
  induction l generalizing xhat with
  | nil => simp
  | cons d l ih =>
    rw [List.foldl_cons, ih]
    by_cases hl : col ∈ l
    · rw [if_pos hl, if_pos (List.mem_cons_of_mem d hl)]
    · rw [if_neg hl]
      by_cases hd : col = d
      · subst hd
        rw [if_pos List.mem_cons_self]
        exact Vector.getElem_set_self _
      · -- another column has another place in the natural order
        have hne : permEquiv llr d ≠ permEquiv llr col := fun h =>
          hd ((permEquiv llr).injective h).symm
        rw [if_neg (by simp [hd, hl])]
        exact Vector.getElem_set_ne _ _ (fun h => hne (Fin.ext h))

/-- A codeword in the natural order of its bits. -/
theorem wordVec_mapBack (c : Bits) :
    wordVec (mapBack (perm llr) c) = c.vec (permEquiv llr) := by
  ext p
  obtain ⟨col, rfl⟩ := (permEquiv llr).surjective p
  have hmap : mapBack (perm llr) c = (List.finRange N).foldl
      (fun xhat col => xhat.set (permEquiv llr col) (c.get col)) (Vector.replicate N false) := rfl
  rw [wordVec, Bits.vec_apply, hmap, get_foldl_set, if_pos (List.mem_finRange col)]

end Words

/-! ## The patterns -/

/-- The flipped hard decisions that are re-encoded. -/
def patterns (order : ℤ) (y : Vector Bool K) : List (Vector Bool K) :=
  (if 1 ≤ order then (List.finRange K).map (flip y) else []) ++
    if 2 ≤ order then
      (List.finRange K).flatMap fun i =>
        ((List.finRange K).filter (i < ·)).map fun j => flip (flip y i) j
    else []

/-- The first of some candidates is kept if no other one is better. -/
theorem foldl_keep_eq_self (cand : Vector Bool K → Best) {best : Best}
    {ps : List (Vector Bool K)} (h : ∀ yt ∈ ps, best.dist ≤ (cand yt).dist) :
    ps.foldl (fun best yt => best.keep (cand yt)) best = best := by
  induction ps with
  | nil => rfl
  | cons yt ps ih =>
    obtain ⟨hfirst, hrest⟩ := List.forall_mem_cons.1 h
    rw [List.foldl_cons, Best.keep, if_neg (not_lt.2 hfirst)]
    exact ih hrest

/-- The best of some candidates is one of them, and none of them is better. -/
theorem foldl_keep_spec (cand : Vector Bool K → Best) (y : Vector Bool K)
    (ps : List (Vector Bool K)) :
    ∃ yt ∈ y :: ps, ps.foldl (fun best yt => best.keep (cand yt)) (cand y) = cand yt ∧
      ∀ yt' ∈ y :: ps, (cand yt).dist ≤ (cand yt').dist := by
  induction ps using List.reverseRecOn with
  | nil =>
    refine ⟨y, List.mem_singleton_self y, rfl, fun yt' hyt' => ?_⟩
    rw [List.mem_singleton.1 hyt']
  | append_singleton ps z ih =>
    obtain ⟨yt, hmem, heq, hmin⟩ := ih
    rw [List.foldl_append, List.foldl_cons, List.foldl_nil, heq, Best.keep, ← List.cons_append]
    split_ifs with hlt
    · -- the last pattern is better than the best one so far
      refine ⟨z, List.mem_append_right _ List.mem_cons_self, rfl, fun yt' hyt' => ?_⟩
      rcases List.mem_append.1 hyt' with hyt' | hyt'
      · exact hlt.le.trans (hmin yt' hyt')
      · rw [List.mem_singleton.1 hyt']
    · refine ⟨yt, List.mem_append_left _ hmem, rfl, fun yt' hyt' => ?_⟩
      rcases List.mem_append.1 hyt' with hyt' | hyt'
      · exact hmin yt' hyt'
      · rw [List.mem_singleton.1 hyt']
        exact not_lt.1 hlt

theorem get_flip (y : Vector Bool K) (i k : Fin K) :
    (flip y i).get k = if k = i then !y.get k else y.get k := by
  by_cases h : k = i
  · subst h
    rw [if_pos rfl]
    exact Vector.getElem_set_self _
  · rw [if_neg h]
    exact Vector.getElem_set_ne _ _ fun hval => h (Fin.ext hval.symm)

/-- Two vectors of bits that agree everywhere are the same. -/
theorem vector_ext {x y : Vector Bool K} (h : ∀ i : Fin K, x.get i = y.get i) : x = y :=
  Vector.ext fun i hi => h ⟨i, hi⟩

theorem get_ofFn (f : Fin K → Bool) (i : Fin K) : (Vector.ofFn f).get i = f i :=
  Vector.getElem_ofFn i.isLt

section Differ

variable {x y : Vector Bool K} {i j : Fin K}

theorem flip_eq_of_differ (hdiff : ∀ k, k = i ↔ x.get k ≠ y.get k) : flip y i = x := by
  refine vector_ext fun k => ?_
  rw [get_flip]
  split_ifs with hk
  · exact (Bool.eq_not_of_ne ((hdiff k).1 hk)).symm
  · by_contra hne
    exact hk ((hdiff k).2 (Ne.symm hne))

theorem flip_flip_eq_of_differ (hij : i ≠ j) (hdiff : ∀ k, k = i ∨ k = j ↔ x.get k ≠ y.get k) :
    flip (flip y i) j = x := by
  refine flip_eq_of_differ fun k => ?_
  rw [get_flip]
  split_ifs with hki
  · -- flipped already
    have hx : x.get k = !y.get k := Bool.eq_not_of_ne ((hdiff k).1 (Or.inl hki))
    rw [hx, ne_self_iff_false, iff_false]
    exact fun hkj => hij (hki.symm.trans hkj)
  · rw [← hdiff, or_iff_right hki]

end Differ

/-- Every vector that differs from `y` in at most `order` places is re-encoded. -/
theorem mem_patterns {order : ℤ} {x y : Vector Bool K} (horder : order ≤ 2)
    (h : ((Finset.univ.filter fun i : Fin K => x.get i ≠ y.get i).card : ℤ) ≤ order) :
    x ∈ y :: patterns order y := by
  have hdiff : ∀ i, i ∈ Finset.univ.filter (fun i : Fin K => x.get i ≠ y.get i) ↔
      x.get i ≠ y.get i := by
    simp
  have hcard : (Finset.univ.filter fun i : Fin K => x.get i ≠ y.get i).card ≤ 2 := by omega
  generalize Finset.univ.filter (fun i : Fin K => x.get i ≠ y.get i) = D at *
  rw [List.mem_cons, patterns, List.mem_append]
  interval_cases hD : D.card
  · refine Or.inl (vector_ext fun i => ?_)
    by_contra hi
    rw [Finset.card_eq_zero.1 hD] at hdiff
    exact Finset.notMem_empty i ((hdiff i).2 hi)
  · obtain ⟨i, rfl⟩ := Finset.card_eq_one.1 hD
    refine Or.inr (Or.inl ?_)
    rw [if_pos (by omega), List.mem_map]
    simp only [Finset.mem_singleton] at hdiff
    exact ⟨i, List.mem_finRange i, flip_eq_of_differ hdiff⟩
  · obtain ⟨i, j, hij, rfl⟩ := Finset.card_eq_two.1 hD
    refine Or.inr (Or.inr ?_)
    -- name the two places in order
    wlog hlt : i < j generalizing i j
    · rw [Finset.pair_comm] at hdiff hD
      exact this j i (Ne.symm hij) hdiff hD (lt_of_le_of_ne (not_lt.1 hlt) (Ne.symm hij))
    rw [if_pos (by omega), List.mem_flatMap]
    simp only [Finset.mem_insert, Finset.mem_singleton] at hdiff
    exact ⟨i, List.mem_finRange i,
      List.mem_map.2 ⟨j, by simpa using hlt, flip_flip_eq_of_differ hij hdiff⟩⟩

/-- A higher order re-encodes more patterns. -/
theorem patterns_subset {order order' : ℤ} (hle : order ≤ order') (y : Vector Bool K) :
    patterns order y ⊆ patterns order' y := by
  unfold patterns
  apply List.append_subset.2
  constructor
  · by_cases h : 1 ≤ order
    · rw [if_pos h, if_pos (h.trans hle)]
      exact List.subset_append_left _ _
    · rw [if_neg h]
      exact List.nil_subset _
  · by_cases h : 2 ≤ order
    · rw [if_pos h, if_pos (h.trans hle)]
      exact List.subset_append_right _ _
    · rw [if_neg h]
      exact List.nil_subset _

/-! ## The basis -/

/-- The most reliable basis: the positions whose column is no combination of the columns at more
reliable positions. -/
def mrb (llr : Fin N → ℚ) (G : Matrix (Fin K) (Fin N) (ZMod 2)) : Set (Fin N) :=
  {p | G.col p ∉ Submodule.span (ZMod 2) (G.col '' {q | MoreReliable llr q p})}

section Basis

variable (llr : Fin N → ℚ) (gen : ℕ → UInt8)

/-- The pivots of the elimination are the most reliable basis. -/
theorem mem_mrb_iff (p : Fin N) :
    p ∈ mrb llr (generator K gen) ↔
      p ∈ (reduce (buildRows K gen (perm llr))).pivot_col.map (permEquiv llr) := by
  have hmem : p ∈ (perm llr).toList := (List.mergeSort_perm _ _).mem_iff.2 (List.mem_finRange p)
  obtain ⟨l, l', hsplit⟩ := List.append_of_mem hmem
  have hprefix : {q | q ∈ l} = {q | MoreReliable llr q p} :=
    Set.ext fun q => mem_prefix_perm_iff llr hsplit q
  rw [(reduced_reduce llr gen).greedy l p l' hsplit, RowReduction.determines_span_iff, hprefix]
  rfl

theorem rank_reduce_eq_iff :
    (reduce (buildRows K gen (perm llr))).rank = K ↔ (generator K gen).rank = K := by
  rw [Matrix.rank_eq_finrank_span_row, (reduced_reduce llr gen).finrank_eq_iff fun p =>
    (List.mergeSort_perm _ _).mem_iff.2 (List.mem_finRange p), List.length_map]
  rfl

theorem ncard_mrb (hrank : (generator K gen).rank = K) :
    (mrb llr (generator K gen)).ncard = K := by
  have hset : mrb llr (generator K gen) =
      ((reduce (buildRows K gen (perm llr))).pivot_col.map (permEquiv llr)).toFinset := by
    ext p
    rw [mem_mrb_iff, Finset.mem_coe, List.mem_toFinset]
  rw [hset, Set.ncard_coe_finset, List.toFinset_card_of_nodup (reduced_reduce llr gen).nodup,
    List.length_map]
  exact (rank_reduce_eq_iff llr gen).2 hrank

/-- A codeword is the encoding of its bits at the pivots. -/
theorem exists_encode_eq {C : Submodule (ZMod 2) (Fin N → ZMod 2)} {rows : Vector Bits K}
    {scanned piv : List (Fin N)}
    (hred : RowReduction.Reduced C (rowsVec (permEquiv llr) rows) scanned piv)
    (hfull : piv.length = K) {x : Fin N → ZMod 2} (hx : x ∈ C) :
    ∃ yx : Vector Bool K, (∀ i, Gf2.bit (yx.get i) = x (piv.get (i.cast hfull.symm))) ∧
      (encode rows yx).vec (permEquiv llr) = x := by
  let yx : Vector Bool K := Vector.ofFn fun i => decide (x (piv.get (i.cast hfull.symm)) = 1)
  have hyx : ∀ i, Gf2.bit (yx.get i) = x (piv.get (i.cast hfull.symm)) := by
    intro i
    rw [get_ofFn, Gf2.bit_decide]
  refine ⟨yx, hyx, ?_⟩
  rw [vec_encode]
  refine Eq.trans (Finset.sum_congr rfl fun i _ => ?_) (hred.eq_sum hfull hx).symm
  rw [← hyx]
  rfl

theorem length_pivots {e : Elimination K} (h : ¬e.rank < K) :
    (e.pivot_col.map (permEquiv llr)).length = K :=
  (List.length_map ..).trans (le_antisymm e.rank_le (not_lt.1 h))

theorem bit_pivotDecisions {e : Elimination K} (h : ¬e.rank < K) (i : Fin K) :
    Gf2.bit ((pivotDecisions llr e h).get i) =
      hardBit llr ((e.pivot_col.map (permEquiv llr)).get (i.cast (length_pivots llr h).symm)) := by
  rw [pivotDecisions, get_ofFn, bit_hard]
  simp

section Pivots

variable {C : Submodule (ZMod 2) (Fin N → ZMod 2)} {rows : Vector Bits K}
  {scanned piv : List (Fin N)}

theorem vec_encode_mem (hred : RowReduction.Reduced C (rowsVec (permEquiv llr) rows) scanned piv)
    (yt : Vector Bool K) : (encode rows yt).vec (permEquiv llr) ∈ C := by
  rw [vec_encode, ← hred.span]
  exact Submodule.sum_mem _ fun i _ =>
    Submodule.smul_mem _ _ (Submodule.subset_span ⟨i, rfl⟩)

/-- A codeword that differs from the hard decisions at up to `order` pivots is re-encoded. -/
theorem exists_pattern (hred : RowReduction.Reduced C (rowsVec (permEquiv llr) rows) scanned piv)
    (hfull : piv.length = K) {y : Vector Bool K}
    (hy : ∀ i : Fin K, Gf2.bit (y.get i) = hardBit llr (piv.get (i.cast hfull.symm))) {order : ℤ}
    (horder : order ≤ 2) {x : Fin N → ZMod 2} (hx : x ∈ C)
    (hcard : ((Finset.univ.filter fun i : Fin K =>
      x (piv.get (i.cast hfull.symm)) ≠ hardBit llr (piv.get (i.cast hfull.symm))).card : ℤ) ≤
        order) :
    ∃ yx ∈ y :: patterns order y, (encode rows yx).vec (permEquiv llr) = x := by
  -- a codeword is encoded from its bits at the pivots, and these are a pattern of the search
  obtain ⟨yx, hyx, hx'⟩ := exists_encode_eq llr hred hfull hx
  have hne : ∀ i : Fin K, yx.get i ≠ y.get i ↔
      x (piv.get (i.cast hfull.symm)) ≠ hardBit llr (piv.get (i.cast hfull.symm)) := by
    intro i
    rw [← hyx, ← hy, ne_eq, ne_eq, Gf2.bit_inj]
  refine ⟨yx, mem_patterns horder (le_of_eq_of_le ?_ hcard), hx'⟩
  simp only [hne]

/-- The pivots where a vector differs from the hard decisions are as many as the positions of the
basis where it does. -/
theorem card_pivots_le (hred : RowReduction.Reduced C (rowsVec (permEquiv llr) rows) scanned piv)
    (hfull : piv.length = K) {basis : Set (Fin N)} (hbasis : ∀ p, p ∈ basis ↔ p ∈ piv)
    (x : Fin N → ZMod 2) :
    (Finset.univ.filter fun i : Fin K =>
      x (piv.get (i.cast hfull.symm)) ≠ hardBit llr (piv.get (i.cast hfull.symm))).card ≤
        {p ∈ basis | x p ≠ hardBit llr p}.ncard := by
  refine (Set.ncard_coe_finset _).symm.le.trans (Set.ncard_le_ncard_of_injOn
    (fun i : Fin K => piv.get (i.cast hfull.symm)) ?_ ?_ (Set.toFinite _))
  · intro i hi
    exact ⟨(hbasis _).2 (List.get_mem _ _), by simpa using hi⟩
  · intro i _ j _ hij
    exact Fin.cast_injective _ ((List.nodup_iff_injective_get.1 hred.nodup) hij)

end Pivots

end Basis

end GranolaSdr.Cuda.Osd
