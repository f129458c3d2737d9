import GranolaSdr.Lib.BinaryField
import GranolaSdr.Lib.RowReduction
import Mathlib.Algebra.Order.Group.Abs
import Mathlib.Algebra.Order.Ring.Rat
import Mathlib.Data.List.FinRange
import Mathlib.Data.Set.Card

/-!
# Ordered-statistics decoding

`osd_decode_n174`: the positions are sorted by reliability, the generator is row-reduced in that
order, the hard decisions at the pivots are re-encoded, and so are those with up to two of them
flipped; the codeword at the smallest soft distance wins. Log-likelihood ratios are rational
numbers, which finite floats are, and any addition may sum up the distances.

## Main definitions

* `Bits`: a row of the generator, packed into three words;
* `perm`: the positions by reliability;
* `Elimination`: the row reduction;
* `Addition`: an addition of distances, `Addition.exact`;
* `Addition.osd_decode_n174`, `osd_decode_n174`: the decoder with an addition, and with exact sums;
* `Bits.vec`: the vector a packed row stands for.

## Main results

* `reduced_reduce`: the elimination is a row reduction along the positions by reliability;
* `mem_prefix_perm_iff`: the positions sorted before another one are those more reliable.
-/

namespace GranolaSdr.Cuda.Osd

/-- The length of a codeword. -/
abbrev N : ℕ := 174

/-- The largest number of rows of a generator. -/
def K_MAX : ℕ := 91

/-- The number of words of a packed row. -/
abbrev WORDS : ℕ := 3

/-! ## Packed rows -/

/-- A row of 174 bits. -/
structure Bits where
  w : Vector (BitVec 64) WORDS

/-- The word of a bit. -/
def word (i : Fin N) : Fin WORDS :=
  ⟨(i : ℕ) >>> 6, Nat.shiftRight_eq_div_pow i 6 ▸ Nat.div_lt_of_lt_mul (i.isLt.trans (by decide))⟩

namespace Bits

/-- The row of zeros. -/
def zero : Bits := ⟨Vector.replicate WORDS 0⟩

def get (b : Bits) (i : Fin N) : Bool := (b.w[word i] >>> ((i : ℕ) &&& 63) &&& 1#64) == 1#64

def set (b : Bits) (i : Fin N) : Bits :=
  ⟨b.w.set (word i) (b.w[word i] ||| 1#64 <<< ((i : ℕ) &&& 63))⟩

def xorRow (b o : Bits) : Bits := ⟨Vector.zipWith (· ^^^ ·) b.w o.w⟩

theorem get_eq (b : Bits) (i : Fin N) : b.get i = b.w[word i].getLsbD ((i : ℕ) &&& 63) := by
  have hbit : ∀ (x : BitVec 64) (k : ℕ), (x >>> k &&& 1#64 == 1#64) = x.getLsbD k := by
    intro x k
    rw [BitVec.and_one_eq_setWidth_ofBool_getLsbD, BitVec.getLsbD_ushiftRight, Nat.add_zero]
    cases x.getLsbD k <;> rfl
  exact hbit _ _

/-- A position is told by its word and its place there. -/
theorem word_inj {i j : Fin N} (hword : word i = word j) (hmod : (i : ℕ) &&& 63 = (j : ℕ) &&& 63) :
    i = j := by
  have hdiv : (i : ℕ) / 64 = (j : ℕ) / 64 := by
    have h := congrArg Fin.val hword
    simpa [word, Nat.shiftRight_eq_div_pow] using h
  have hand : ∀ n : ℕ, n &&& 63 = n % 64 := fun n => Nat.and_two_pow_sub_one_eq_mod n 6
  rw [hand, hand] at hmod
  exact Fin.ext (by omega)

@[simp]
theorem get_zero (i : Fin N) : zero.get i = false := by
  rw [get_eq]
  simp [zero]

@[simp]
theorem get_set (b : Bits) (i j : Fin N) : (b.set i).get j = (decide (i = j) || b.get j) := by
  have hlt : ∀ n : ℕ, n &&& 63 < 64 := fun n => Nat.lt_succ_of_le Nat.and_le_right
  -- only the word that holds the bit changes
  have hset : ∀ k : Fin WORDS, (b.set i).w[k] =
      if word i = k then b.w[k] ||| 1#64 <<< ((i : ℕ) &&& 63) else b.w[k] := by
    intro k
    by_cases hk : word i = k
    · subst hk
      simp [set]
    · have hval : (word i : ℕ) ≠ k := fun h => hk (Fin.ext h)
      simp [set, hk, Vector.getElem_set_ne _ _ hval]
  rw [get_eq, get_eq, hset]
  by_cases hword : word i = word j
  · -- in that word, only the place of the bit
    have hone : (1#64 <<< ((i : ℕ) &&& 63)).getLsbD ((j : ℕ) &&& 63) =
        decide ((i : ℕ) &&& 63 = (j : ℕ) &&& 63) := by
      rw [← BitVec.twoPow_eq, BitVec.getLsbD_twoPow]
      simp [hlt]
    rw [if_pos hword, BitVec.getLsbD_or, hone, Bool.or_comm]
    congr 1
    exact decide_eq_decide.2 ⟨word_inj hword, fun h => by rw [h]⟩
  · have hij : i ≠ j := fun h => hword (by rw [h])
    rw [if_neg hword, decide_eq_false hij, Bool.false_or]

@[simp]
theorem get_xorRow (b o : Bits) (i : Fin N) : (b.xorRow o).get i = xor (b.get i) (o.get i) := by
  rw [get_eq, get_eq, get_eq]
  simp [xorRow]

end Bits

/-! ## The decoder -/

/-- The positions by reliability, the most reliable first: `perm[newcol] = oldcol`. -/
def perm (llr : Fin N → ℚ) : Vector (Fin N) N :=
  ⟨((List.finRange N).mergeSort fun a b => decide (|llr b| ≤ |llr a|)).toArray, by simp⟩

/-- The generator with its columns in the order of reliability. -/
def buildRows (K : ℕ) (gen : ℕ → UInt8) (perm : Vector (Fin N) N) : Vector Bits K :=
  Vector.ofFn fun r => (List.finRange N).foldl
    (fun row c => if gen (r * N + (perm[c] : Fin N)) ≠ 0 then row.set c else row) Bits.zero

variable {K : ℕ}

/-- Clear a column from all rows but the pivot row. -/
def eliminateColumn (rows : Vector Bits K) (rank : Fin K) (col : Fin N) : Vector Bits K :=
  Vector.ofFn fun r =>
    if r ≠ rank ∧ rows[r].get col then rows[r].xorRow rows[rank] else rows[r]

/-- The rows and the pivot columns found so far; the rank is the number of these. -/
structure Elimination (K : ℕ) where
  rows : Vector Bits K
  pivot_col : List (Fin N)
  rank_le : pivot_col.length ≤ K

namespace Elimination

def rank (e : Elimination K) : ℕ := e.pivot_col.length

/-- The first row without a pivot that has a bit in the column. -/
def sel (e : Elimination K) (col : Fin N) : Option (Fin K) :=
  (List.finRange K).find? fun r => decide (e.rank ≤ r) && e.rows[r].get col

/-- The elimination of one column. -/
def step (e : Elimination K) (col : Fin N) : Elimination K :=
  if h : e.rank < K then
    match e.sel col with
    | none => e
    | some sel =>
      { rows := eliminateColumn (e.rows.swap e.rank sel) ⟨e.rank, h⟩ col
        pivot_col := e.pivot_col ++ [col]
        rank_le := by simpa [rank] using h }
  else e

end Elimination

/-- The elimination of all columns. -/
def reduce (rows : Vector Bits K) : Elimination K :=
  (List.finRange N).foldl Elimination.step ⟨rows, [], K.zero_le⟩

section Search

variable (llr : Fin N → ℚ) (perm : Vector (Fin N) N) (rows : Vector Bits K)

/-- The hard decision in a column. -/
def hard (permcol : Fin N) : Bool := 0 < llr perm[permcol]

/-- The sum of the rows whose bit is set. -/
def encode (yv : Vector Bool K) : Bits :=
  (List.finRange K).foldl (fun out i => if yv[i] then out.xorRow rows[i] else out) Bits.zero

/-- A codeword and its soft distance. -/
structure Best where
  word : Bits
  dist : ℚ

/-- Keep the better of two codewords, the first one when they are at the same distance. -/
def Best.keep (best c : Best) : Best := if c.dist < best.dist then c else best

/-- The other bit at one place. -/
def flip (y : Vector Bool K) (i : Fin K) : Vector Bool K := y.set i (!y[i])

/-- A codeword in the natural order of its bits. -/
def mapBack (c : Bits) : Vector Bool N :=
  (List.finRange N).foldl (fun xhat col => xhat.set (perm[col] : Fin N) (c.get col))
    (Vector.replicate N false)

end Search

/-- The hard decisions at the pivots. -/
def pivotDecisions (llr : Fin N → ℚ) (e : Elimination K) (h : ¬e.rank < K) : Vector Bool K :=
  Vector.ofFn fun i : Fin K =>
    hard llr (perm llr) (e.pivot_col.get ⟨i, i.isLt.trans_le (Nat.le_of_not_lt h)⟩)

/-- An addition of distances. -/
structure Addition where
  add : ℚ → ℚ → ℚ
  nonneg : ∀ a b, 0 ≤ a → 0 ≤ b → 0 ≤ add a b

namespace Addition

/-- Exact sums. -/
def exact : Addition := ⟨(· + ·), fun _ _ => add_nonneg⟩

variable (s : Addition)

section Search

variable (llr : Fin N → ℚ) (perm : Vector (Fin N) N) (rows : Vector Bits K)

/-- The reliabilities of the columns where a codeword differs from the hard decisions, summed
up. -/
def softDist (c : Bits) : ℚ :=
  (List.finRange N).foldl
    (fun d p => if c.get p ≠ hard llr perm p then s.add d |llr (perm.get p)| else d) 0

/-- A test codeword with its soft distance. -/
def candidate (yt : Vector Bool K) : Best :=
  let c := encode rows yt
  ⟨c, s.softDist llr perm c⟩

/-- The best codeword with up to `order` bits of `y` flipped. -/
def search (order : ℤ) (y : Vector Bool K) : Best :=
  let best := s.candidate llr perm rows y
  let best :=
    if 1 ≤ order then
      (List.finRange K).foldl (fun best i => best.keep (s.candidate llr perm rows (flip y i))) best
    else best
  if 2 ≤ order then
    (List.finRange K).foldl (fun best i =>
      ((List.finRange K).filter (i < ·)).foldl (fun best j =>
        best.keep (s.candidate llr perm rows (flip (flip y i) j))) best) best
  else best

end Search

/-- `osd_decode_n174`: the codeword and its soft distance, or `none` where `false` is returned. -/
def osd_decode_n174 (llr : Fin N → ℚ) (K : ℕ) (gen : ℕ → UInt8) (order : ℤ) :
    Option (Vector Bool N × ℚ) :=
  if K < 1 ∨ K_MAX < K then none
  else
    let order := if order < 0 then 0 else order
    let order := if 2 < order then 2 else order
    let perm := perm llr
    let e := reduce (buildRows K gen perm)
    if h : e.rank < K then none
    else
      let y := pivotDecisions llr e h
      let best := s.search llr perm e.rows order y
      some (mapBack perm best.word, best.dist)

end Addition

/-- The decoder with exact sums. -/
def osd_decode_n174 (llr : Fin N → ℚ) (K : ℕ) (gen : ℕ → UInt8) (order : ℤ) :
    Option (Vector Bool N × ℚ) := Addition.exact.osd_decode_n174 llr K gen order

/-! ## The sorted positions -/

/-- A position is more reliable than another one, or as reliable and in front of it. -/
def MoreReliable (llr : Fin N → ℚ) (q p : Fin N) : Prop :=
  |llr p| < |llr q| ∨ |llr q| = |llr p| ∧ q < p

section perm

variable (llr : Fin N → ℚ)

theorem nodup_perm : (perm llr).toList.Nodup :=
  (List.mergeSort_perm _ _).nodup_iff.2 (List.nodup_finRange N)

/-- The positions are sorted by reliability, and those of the same reliability stay in order. -/
theorem pairwise_perm : (perm llr).toList.Pairwise (MoreReliable llr) := by
  have htrans : ∀ a b c : Fin N, decide (|llr b| ≤ |llr a|) = true →
      decide (|llr c| ≤ |llr b|) = true → decide (|llr c| ≤ |llr a|) = true := by
    intro a b c hab hbc
    exact decide_eq_true ((of_decide_eq_true hbc).trans (of_decide_eq_true hab))
  have htotal : ∀ a b : Fin N,
      (decide (|llr b| ≤ |llr a|) || decide (|llr a| ≤ |llr b|)) = true := by
    intro a b
    rw [Bool.or_eq_true, decide_eq_true_eq, decide_eq_true_eq]
    exact le_total _ _
  have hindex : (perm llr).toList.Pairwise fun a b =>
      (perm llr).toList.idxOf a < (perm llr).toList.idxOf b := by
    rw [List.pairwise_iff_getElem]
    intro i j hi hj hij
    rwa [(nodup_perm llr).idxOf_getElem, (nodup_perm llr).idxOf_getElem]
  rw [List.pairwise_iff_forall_sublist] at hindex ⊢
  intro a b hab
  have hsorted := List.pairwise_iff_forall_sublist.1
    (List.pairwise_mergeSort htrans htotal (List.finRange N)) hab
  rcases (of_decide_eq_true hsorted).lt_or_eq with hlt | heq
  · exact Or.inl hlt
  · refine Or.inr ⟨heq.symm, ?_⟩
    -- were they out of order, the stable sort would have kept them so
    by_contra hnot
    have hne : a ≠ b := by
      rintro rfl
      exact lt_irrefl _ (hindex hab)
    have hba : b < a := lt_of_le_of_ne (not_lt.1 hnot) hne.symm
    have hsub : [b, a].Sublist (List.finRange N) := by
      refine List.sublist_of_subperm_of_pairwise ?_ ?_ (List.pairwise_lt_finRange N)
      · exact (List.nodup_cons.2 ⟨by simpa using hne.symm, by simp⟩ : [b, a].Nodup).subperm
          fun x _ => List.mem_finRange x
      · simpa using hba
    have hback := List.pair_sublist_mergeSort htrans htotal (decide_eq_true heq.ge) hsub
    exact lt_asymm (hindex hab) (hindex hback)

/-- The positions sorted before another one are those more reliable. -/
theorem mem_prefix_perm_iff {l l' : List (Fin N)} {p : Fin N}
    (h : (perm llr).toList = l ++ p :: l') (q : Fin N) : q ∈ l ↔ MoreReliable llr q p := by
  have hpairwise := pairwise_perm llr
  rw [h, List.pairwise_append, List.pairwise_cons] at hpairwise
  obtain ⟨-, ⟨hafter, -⟩, hbefore⟩ := hpairwise
  refine ⟨fun hq => hbefore q hq p List.mem_cons_self, fun hq => ?_⟩
  have hmem : q ∈ (perm llr).toList := (List.mergeSort_perm _ _).mem_iff.2 (List.mem_finRange q)
  rw [h, List.mem_append, List.mem_cons] at hmem
  rcases hmem with hmem | rfl | hmem
  · exact hmem
  · rcases hq with hlt | ⟨-, hlt⟩ <;> exact absurd hlt (lt_irrefl _)
  · rcases hq with hlt | ⟨heq, hlt⟩ <;> rcases hafter q hmem with hlt' | ⟨heq', hlt'⟩
    · exact absurd hlt' (lt_asymm hlt)
    · exact absurd heq' hlt.ne
    · exact absurd heq hlt'.ne
    · exact absurd hlt' (lt_asymm hlt)

theorem perm_injective : Function.Injective fun c : Fin N => ((perm llr)[c] : Fin N) := by
  intro c d hcd
  have hc : (c : ℕ) < (perm llr).toList.length := by simp
  have hd : (d : ℕ) < (perm llr).toList.length := by simp
  have heq : (perm llr).toList[(c : ℕ)] = (perm llr).toList[(d : ℕ)] := by simpa using hcd
  exact Fin.ext ((nodup_perm llr).getElem_inj_iff.1 heq)

/-- The sorting as a permutation of the positions. -/
noncomputable def permEquiv : Equiv.Perm (Fin N) :=
  Equiv.ofBijective _ (Finite.injective_iff_bijective.1 (perm_injective llr))

theorem permEquiv_apply (c : Fin N) : permEquiv llr c = (perm llr)[c] := rfl

theorem map_permEquiv : (List.finRange N).map (permEquiv llr) = (perm llr).toList := by
  refine List.ext_getElem (by simp) fun i hi hi' => ?_
  simp [permEquiv_apply]

end perm

/-! ## Packed rows as vectors -/

/-- The generator as a matrix. -/
def generator (K : ℕ) (gen : ℕ → UInt8) : Matrix (Fin K) (Fin N) (ZMod 2) :=
  .of fun r c => Gf2.bit (gen (r * N + c) ≠ 0)

variable (σ : Equiv.Perm (Fin N))

/-- The vector of a packed row whose columns have been permuted. -/
def Bits.vec (b : Bits) : Fin N → ZMod 2 := fun p => Gf2.bit (b.get (σ.symm p))

theorem Bits.vec_apply (b : Bits) (c : Fin N) : b.vec σ (σ c) = Gf2.bit (b.get c) := by
  rw [vec, Equiv.symm_apply_apply]

@[simp]
theorem Bits.vec_zero : Bits.zero.vec σ = 0 := by
  funext p
  simp [vec]

@[simp]
theorem Bits.vec_xorRow (b o : Bits) : (b.xorRow o).vec σ = b.vec σ + o.vec σ := by
  funext p
  simp [vec]

/-- The vectors of packed rows. -/
def rowsVec (rows : Vector Bits K) (r : Fin K) : Fin N → ZMod 2 := rows[r].vec σ

/-- The loop of `encode` adds up the rows it has passed whose bit is set. -/
theorem vec_foldl_encode (rows : Vector Bits K) (yv : Vector Bool K) (l : List (Fin K))
    (out : Bits) :
    (l.foldl (fun out i => if yv[i] then out.xorRow rows[i] else out) out).vec σ =
      out.vec σ + (l.map fun i => Gf2.bit yv[i] • rowsVec σ rows i).sum := by
  induction l generalizing out with
  | nil => simp
  | cons i l ih =>
    rw [List.foldl_cons, ih, List.map_cons, List.sum_cons, ← add_assoc]
    congr 1
    by_cases hi : yv[i]
    · rw [if_pos hi, hi, Bits.vec_xorRow, Gf2.bit_true, one_smul]
      rfl
    · rw [if_neg hi, Bool.eq_false_of_not_eq_true hi, Gf2.bit_false, zero_smul, add_zero]

/-- The word encoded is the sum of the rows whose bit is set. -/
theorem vec_encode (rows : Vector Bits K) (yv : Vector Bool K) :
    (encode rows yv).vec σ = ∑ i : Fin K, Gf2.bit yv[i] • rowsVec σ rows i := by
  rw [encode, vec_foldl_encode, Bits.vec_zero, zero_add, Fin.sum_univ_def]

/-- A loop that sets the bits that pass a test. -/
theorem get_foldl_set_of (test : Fin N → Prop) [DecidablePred test] (l : List (Fin N)) (row : Bits)
    (j : Fin N) :
    (l.foldl (fun row c => if test c then row.set c else row) row).get j =
      (decide (j ∈ l ∧ test j) || row.get j) := by
  induction l generalizing row with
  | nil => simp
  | cons c l ih =>
    rw [List.foldl_cons, ih]
    by_cases hjc : j = c
    · subst hjc
      by_cases hj : test j <;> simp [hj]
    · have hcj : c ≠ j := Ne.symm hjc
      split_ifs <;> simp [hjc, hcj]

/-- The rows the elimination starts from are those of the generator. -/
theorem rowsVec_buildRows (llr : Fin N → ℚ) (gen : ℕ → UInt8) :
    rowsVec (permEquiv llr) (buildRows K gen (perm llr)) = (generator K gen).row := by
  ext r p
  obtain ⟨c, rfl⟩ := (permEquiv llr).surjective p
  rw [rowsVec, Bits.vec_apply]
  simp only [buildRows, Fin.getElem_fin, Vector.getElem_ofFn, get_foldl_set_of, List.mem_finRange,
    true_and, Bits.get_zero, Bool.or_false]
  rfl

theorem rowsVec_swap (rows : Vector Bits K) (p q : Fin K) :
    rowsVec σ (rows.swap p q) = rowsVec σ rows ∘ Equiv.swap p q := by
  funext r
  simp only [rowsVec, Function.comp_apply, Fin.getElem_fin, Vector.getElem_swap,
    Equiv.swap_apply_def, Fin.val_inj]
  split_ifs <;> rfl

theorem rowsVec_eliminateColumn (rows : Vector Bits K) (rank : Fin K) (col : Fin N) :
    rowsVec σ (eliminateColumn rows rank col) =
      RowReduction.addRow rank (fun r => -rowsVec σ rows r (σ col)) (rowsVec σ rows) := by
  funext r
  by_cases hr : r = rank
  · subst hr
    simp [rowsVec, eliminateColumn]
  · rw [RowReduction.addRow_of_ne hr]
    simp only [rowsVec, eliminateColumn, Fin.getElem_fin, Vector.getElem_ofFn, Bits.vec_apply,
      Gf2.neg_eq, ne_eq, hr, not_false_eq_true, true_and]
    by_cases hget : rows[(r : ℕ)].get col
    · rw [if_pos hget, hget, Bits.vec_xorRow, Gf2.bit_true, one_smul]
    · rw [if_neg hget, Bool.eq_false_of_not_eq_true hget, Gf2.bit_false, zero_smul, add_zero]

/-! ## The elimination -/

section Elimination

variable {σ} {C : Submodule (ZMod 2) (Fin N → ZMod 2)} {e : Elimination K} {cols : List (Fin N)}

/-- A column that no row without a pivot has is passed. -/
theorem Elimination.reduced_of_sel_eq_none {col : Fin N}
    (h : RowReduction.Reduced C (rowsVec σ e.rows) (cols.map σ) (e.pivot_col.map σ))
    (hnew : σ col ∉ cols.map σ) (hsel : e.sel col = none) :
    RowReduction.Reduced C (rowsVec σ e.rows) (cols.map σ ++ [σ col]) (e.pivot_col.map σ) := by
  refine h.skip hnew fun r hr => ?_
  rw [List.length_map] at hr
  have hbit : e.rows[r].get col = false := by
    have hmiss := List.find?_eq_none.1 hsel r (List.mem_finRange r)
    simpa [rank, hr] using hmiss
  rw [rowsVec, Bits.vec_apply, hbit, Gf2.bit_false]

/-- The row selected for a column is swapped into place and cleared from the other rows. -/
theorem Elimination.reduced_of_sel_eq_some {col : Fin N} {sel : Fin K}
    (h : RowReduction.Reduced C (rowsVec σ e.rows) (cols.map σ) (e.pivot_col.map σ))
    (hlt : e.rank < K) (hsel : e.sel col = some sel) :
    RowReduction.Reduced C
      (rowsVec σ (eliminateColumn (e.rows.swap (⟨e.rank, hlt⟩ : Fin K) sel) ⟨e.rank, hlt⟩ col))
      (cols.map σ ++ [σ col]) (e.pivot_col.map σ ++ [σ col]) := by
  have hrank : (e.pivot_col.map σ).length = e.rank := List.length_map ..
  obtain ⟨hle, hget⟩ : e.rank ≤ sel ∧ e.rows[sel].get col = true := by
    simpa using List.find?_some hsel
  have hfin : (⟨(e.pivot_col.map σ).length, hrank ▸ hlt⟩ : Fin K) = ⟨e.rank, hlt⟩ :=
    Fin.ext hrank
  have hswap := h.swap (p := ⟨e.rank, hlt⟩) (q := sel) hrank.le (hrank.le.trans hle)
  -- after the exchange the pivot row holds a one in the column
  have hone : (rowsVec σ e.rows ∘ Equiv.swap ⟨e.rank, hlt⟩ sel)
      ⟨(e.pivot_col.map σ).length, hrank ▸ hlt⟩ (σ col) = 1 := by
    rw [hfin, Function.comp_apply, Equiv.swap_apply_left, rowsVec, Bits.vec_apply, hget,
      Gf2.bit_true]
  have hpivot := hswap.pivot (hrank ▸ hlt) hone
  rw [hfin] at hpivot
  rw [rowsVec_eliminateColumn, rowsVec_swap]
  exact hpivot

/-- The elimination of a column is a step of a row reduction. -/
theorem Elimination.reduced_step {col : Fin N}
    (h : RowReduction.Reduced C (rowsVec σ e.rows) (cols.map σ) (e.pivot_col.map σ))
    (hcol : col ∉ cols) :
    RowReduction.Reduced C (rowsVec σ (e.step col).rows) ((cols ++ [col]).map σ)
      ((e.step col).pivot_col.map σ) := by
  have hnew : σ col ∉ cols.map σ := by simpa using hcol
  rw [List.map_append, List.map_singleton]
  by_cases hlt : e.rank < K
  · cases hsel : e.sel col with
    | none =>
      have hstep : e.step col = e := by
        rw [step, dif_pos hlt, hsel]
      rw [hstep]
      exact Elimination.reduced_of_sel_eq_none h hnew hsel
    | some sel =>
      have hstep : (e.step col).rows =
          eliminateColumn (e.rows.swap (⟨e.rank, hlt⟩ : Fin K) sel) ⟨e.rank, hlt⟩ col ∧
          (e.step col).pivot_col = e.pivot_col ++ [col] := by
        rw [step, dif_pos hlt, hsel]
        exact ⟨rfl, rfl⟩
      rw [hstep.1, hstep.2, List.map_append, List.map_singleton]
      exact Elimination.reduced_of_sel_eq_some h hlt hsel
  · -- the loop has been left
    have hstep : e.step col = e := by rw [step, dif_neg hlt]
    have hfull : (e.pivot_col.map σ).length = K :=
      (List.length_map ..).trans (le_antisymm e.rank_le (not_lt.1 hlt))
    rw [hstep]
    exact h.skip_of_full hnew hfull

/-- Any number of columns. -/
theorem Elimination.reduced_foldl (h : RowReduction.Reduced C (rowsVec σ e.rows) [] [])
    (hpivot : e.pivot_col = []) (hcols : cols.Nodup) :
    RowReduction.Reduced C (rowsVec σ (cols.foldl Elimination.step e).rows) (cols.map σ)
      ((cols.foldl Elimination.step e).pivot_col.map σ) := by
  induction cols using List.reverseRecOn with
  | nil => simpa [hpivot] using h
  | append_singleton cols col ih =>
    rw [List.foldl_append]
    refine Elimination.reduced_step (ih hcols.of_append_left) fun hmem => ?_
    exact List.disjoint_of_nodup_append hcols hmem (List.mem_singleton_self col)

/-- The elimination is a row reduction along the positions by reliability. -/
theorem reduced_reduce (llr : Fin N → ℚ) (gen : ℕ → UInt8) :
    RowReduction.Reduced (Submodule.span (ZMod 2) (Set.range (generator K gen).row))
      (rowsVec (permEquiv llr) (reduce (buildRows K gen (perm llr))).rows)
      (perm llr).toList ((reduce (buildRows K gen (perm llr))).pivot_col.map (permEquiv llr)) := by
  rw [← map_permEquiv]
  refine Elimination.reduced_foldl (e := ⟨buildRows K gen (perm llr), [], K.zero_le⟩) ?_ rfl
    (List.nodup_finRange N)
  rw [rowsVec_buildRows llr gen]
  exact RowReduction.Reduced.nil (generator K gen).row

end Elimination

end GranolaSdr.Cuda.Osd
