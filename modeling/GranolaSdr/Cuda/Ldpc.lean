import GranolaSdr.Cuda.OsdOptimal
import GranolaSdr.Lib.BinaryCode
import Mathlib.Data.List.GetD

/-!
# The parity checks of the sum-product decoders

The test at the end of an iteration of the two sum-product kernels, over the constant tables of a
decoder: which variables a check reads, how many, and for each variable the three places where it
is read. The kernels for JS8 and FT8 differ in the tables only.

What the tables and a generator must satisfy to describe one code is a finite list of facts about
them; from these it follows that a word passes the checks exactly when it is a codeword of the
generator.

## Main definitions

* `Tables`: the tables;
* `Tables.Check`, `Tables.accepts`: one parity check, and the test of a word;
* `Tables.Inverse`: the adjacency of the variables is that of the checks;
* `Tables.Agree`: the tables agree with a systematic generator.

## Main results

* `Tables.Agree.check_iff`: the words that pass the checks are the codewords;
* `Tables.Agree.accepts_iff`: the accepted words are the codewords other than zero;
* `Tables.Agree.exists_osd_iff`: and the words that ordered-statistics decoding returns are the
  codewords.
-/

namespace GranolaSdr.Cuda.Ldpc

open Osd

/-- The row of an entry in row-major order. -/
theorem row_div (r : ℕ) (p : Fin N) : (r * N + p) / N = r := by
  rw [Nat.mul_comm, Nat.mul_add_div (by decide), Nat.div_eq_of_lt p.isLt, Nat.add_zero]

/-- The column of an entry in row-major order. -/
theorem row_mod (r : ℕ) (p : Fin N) : (r * N + p) % N = p := by
  rw [Nat.mul_comm, Nat.mul_add_mod, Nat.mod_eq_of_lt p.isLt]

theorem ofNat_eq_mk {i : ℕ} (hi : i < N) : Fin.ofNat N i = ⟨i, hi⟩ := Fin.ext (Nat.mod_eq_of_lt hi)

/-- The constant tables of a decoder. -/
structure Tables where
  M : ℕ
  /-- The variables of each check, padded with -1. -/
  k_check_var_j : List (List ℤ)
  k_check_deg : List ℕ
  /-- The checks that read each variable, with the slot they read it in. -/
  k_var_adj : List (List (ℕ × ℕ))

namespace Tables

variable (T : Tables)

/-- `k_check_deg[i]` -/
def deg (i : ℕ) : ℕ := T.k_check_deg.getD i 0

/-- `k_check_var_j[i][k]` -/
def var (i k : ℕ) : ℤ := (T.k_check_var_j.getD i []).getD k (-1)

/-- `k_var_adj[v][e]` -/
def adj (v e : ℕ) : ℕ × ℕ := (T.k_var_adj.getD v []).getD e (0, 0)

/-- The hard decision of a variable. There is none outside of the word; the tables name none. -/
def decision (x : Vector Bool N) (j : ℤ) : Bool :=
  if 0 ≤ j then x.toList.getD j.toNat false else false

/-- The number of variables of a check that are decided as 1. -/
def ones (i : ℕ) (x : Vector Bool N) : ℕ :=
  ((List.range (T.deg i)).map fun k => (decision x (T.var i k)).toNat).sum

/-- A check is satisfied. -/
def Check (i : ℕ) (x : Vector Bool N) : Prop := T.ones i x &&& 1 = 0

instance (i : ℕ) (x : Vector Bool N) : Decidable (T.Check i x) :=
  inferInstanceAs (Decidable (_ = _))

/-- The test of the hard decisions after an iteration, which the word of zeros fails. -/
def accepts (x : Vector Bool N) : Bool :=
  let plain_sum := ((List.finRange N).map fun j => (x.get j).toNat).sum
  decide (0 < plain_sum) && (List.range T.M).all fun i => T.Check i x

/-- Every slot of a check is listed exactly once among the variables' places, at the variable it
names, and nothing else is listed. -/
structure Inverse : Prop where
  edge : ∀ v < N, ∀ e < 3, (T.adj v e).1 < T.M ∧ (T.adj v e).2 < T.deg (T.adj v e).1 ∧
    T.var (T.adj v e).1 (T.adj v e).2 = v
  unique : ∀ i < T.M, ∀ k < T.deg i, ∃! p : Fin N × Fin 3, T.adj p.1 p.2 = (i, k)

/-- What can be looked up in the tables: the slots of the checks name variables at which they are
listed, and no variable lists a slot twice. -/
abbrev InverseTest : Prop :=
  (∀ v < N, ∀ e < 3, (T.adj v e).1 < T.M ∧ (T.adj v e).2 < T.deg (T.adj v e).1 ∧
    T.var (T.adj v e).1 (T.adj v e).2 = v) ∧
  (∀ i < T.M, ∀ k < T.deg i, 0 ≤ T.var i k ∧ T.var i k < N ∧
    ∃ e : Fin 3, T.adj (T.var i k).toNat e = (i, k)) ∧
  ∀ v < N, ∀ e : Fin 3, ∀ f : Fin 3, T.adj v e = T.adj v f → e = f

theorem inverse_of_test (h : T.InverseTest) : T.Inverse where
  edge := h.1
  unique := by
    obtain ⟨hedge, hslot, hinj⟩ := h
    intro i hi k hk
    obtain ⟨hnonneg, hlt, e, he⟩ := hslot i hi k hk
    refine ⟨(⟨(T.var i k).toNat, by omega⟩, e), he, fun ⟨v, f⟩ hf => ?_⟩
    -- the place lists a slot that names its variable
    have hv : (v : ℤ) = T.var i k := by
      have hvar := (hedge v v.isLt f f.isLt).2.2
      rw [hf] at hvar
      exact hvar.symm
    have hval : (v : ℕ) = (T.var i k).toNat := by omega
    have hfe : f = e := by
      refine hinj v v.isLt f e (hf.trans ?_)
      rw [hval, he]
    exact Prod.ext (Fin.ext hval) hfe

/-! ## Checks as vectors -/

/-- The variables of a check. -/
def slots (i : ℕ) : List (Fin N) :=
  (List.range (T.deg i)).map fun k => Fin.ofNat N (T.var i k).toNat

/-- The sum of some bit vectors over the variables of a check. -/
def sumSlots {n : ℕ} (i : ℕ) (f : Fin N → BitVec n) : BitVec n :=
  ((List.range (T.deg i)).map fun k =>
    Gf2.withValue (T.var i k).toNat fun v => f (Fin.ofNat N v)).foldr (· ^^^ ·) 0#n

/-- The variables of a check as a bit vector. -/
def mask (i : ℕ) : BitVec N := T.sumSlots i fun p => BitVec.twoPow N p

/-- The matrix of the parity checks. -/
def parity : Matrix (Fin T.M) (Fin N) (ZMod 2) := .of fun i => Gf2.vec (T.mask i)

theorem vec_sumSlots {n : ℕ} (i : ℕ) (f : Fin N → BitVec n) :
    Gf2.vec (T.sumSlots i f) = ((T.slots i).map fun p => Gf2.vec (f p)).sum := by
  rw [sumSlots, Gf2.vec_foldr_xor, slots, List.map_map, List.map_map]
  congr 1
  refine List.map_congr_left fun k _ => ?_
  simp only [Function.comp_apply, Gf2.withValue_eq]

/-- A check adds up the entries of a vector at its variables. -/
theorem parity_mulVec (y : Fin N → ZMod 2) (i : Fin T.M) :
    (T.parity.mulVec y) i = ((T.slots i).map y).sum := by
  have hdot : ∀ l : List (Fin N),
      (l.map fun p => (Pi.single p 1 : Fin N → ZMod 2)).sum ⬝ᵥ y = (l.map y).sum := by
    intro l
    induction l with
    | nil => simp
    | cons p l ih => simp [add_dotProduct, ih]
  -- a row of the matrix adds up the unit vectors of the variables of its check
  have hrow : T.parity i = ((T.slots i).map fun p => (Pi.single p 1 : Fin N → ZMod 2)).sum := by
    have hmask : T.parity i = Gf2.vec (T.mask i) := rfl
    rw [hmask, mask, vec_sumSlots]
    simp only [Gf2.vec_twoPow]
  rw [Matrix.mulVec, hrow, hdot]

/-- A check only reads variables of the word. -/
theorem decision_var (hT : T.Inverse) {i : ℕ} (hi : i < T.M) {k : ℕ} (hk : k < T.deg i)
    (x : Vector Bool N) : decision x (T.var i k) = x.get (Fin.ofNat N (T.var i k).toNat) := by
  -- the slot is listed at the variable it names
  obtain ⟨p, hp, -⟩ := hT.unique i hi k hk
  have hvar := (hT.edge p.1 p.1.isLt p.2 p.2.isLt).2.2
  rw [hp] at hvar
  have hval : Fin.ofNat N (T.var i k).toNat = p.1 := by
    rw [hvar]
    exact ofNat_eq_mk p.1.isLt
  have hget : x.get (Fin.ofNat N (T.var i k).toNat) = x.get p.1 :=
    congrArg x.get hval
  rw [hget, decision, hvar, if_pos (by omega), Int.toNat_natCast,
    List.getD_eq_getElem _ _ (by simp)]
  rfl

/-- Within the word a check is satisfied exactly when its row of the matrix is orthogonal to the
word. -/
theorem check_iff (hT : T.Inverse) {i : ℕ} (hi : i < T.M) (x : Vector Bool N) :
    T.Check i x ↔ (T.parity.mulVec (wordVec x)) ⟨i, hi⟩ = 0 := by
  have hones : T.ones i x = (((T.slots i).map fun p => x.get p).map Bool.toNat).sum := by
    rw [ones, slots, List.map_map, List.map_map]
    congr 1
    exact List.map_congr_left fun k hk =>
      congrArg Bool.toNat (T.decision_var hT hi (List.mem_range.1 hk) x)
  rw [Check, hones, Gf2.sum_toNat_and_one_eq_zero_iff, parity_mulVec, List.map_map]
  rfl

/-! ## Agreement with a generator -/

/-- The tables describe the code of a generator whose message stands from the position `info` on.
The generator is given by its columns as bit vectors. -/
structure Agree {K : ℕ} (gen : ℕ → UInt8) (column : Fin N → BitVec K) (info : ℕ) : Prop where
  entry : ∀ (r : Fin K) (p : Fin N), (column p).getLsbD r = decide (gen (r * N + p) ≠ 0)
  inverse : T.InverseTest
  /-- The rows of the generator pass the checks. -/
  orthogonal : ∀ i < T.M, T.sumSlots i column = 0#K
  independent : Gf2.independentCheck T.M (List.ofFn fun i : Fin T.M => T.mask i)
  systematic : ∀ s < K, column (Fin.ofNat N (info + s)) = BitVec.twoPow K s
  dim : T.M + K = N
  info_le : info + K ≤ N

/-- The test accepts the words that pass all checks, but for the word of zeros. -/
theorem accepts_iff_check (x : Vector Bool N) :
    T.accepts x ↔ x ≠ Vector.replicate N false ∧ ∀ i < T.M, T.Check i x := by
  have hzero : 0 < ((List.finRange N).map fun j => (x.get j).toNat).sum ↔
      x ≠ Vector.replicate N false := by
    rw [← not_iff_not, not_lt, Nat.le_zero, List.sum_eq_zero_iff, not_ne_iff]
    constructor
    · intro hall
      refine Vector.ext fun j hj => ?_
      have hj0 := hall _ (List.mem_map_of_mem (List.mem_finRange (⟨j, hj⟩ : Fin N)))
      rw [Vector.getElem_replicate]
      exact Bool.toNat_eq_zero.1 hj0
    · rintro rfl n hn
      obtain ⟨j, -, rfl⟩ := List.mem_map.1 hn
      rw [get_zeros, Bool.toNat_false]
  rw [accepts, Bool.and_eq_true, decide_eq_true_eq, hzero, List.all_eq_true]
  simp only [List.mem_range, decide_eq_true_eq]

namespace Agree

variable {T} {K : ℕ} {gen : ℕ → UInt8} {column : Fin N → BitVec K} {info : ℕ}
  (h : T.Agree gen column info)

include h

theorem vec_column (p : Fin N) (r : Fin K) : Gf2.vec (column p) r = generator K gen r p :=
  congrArg Gf2.bit (h.entry r p)

/-- Every row of the generator passes the checks. -/
theorem mulVec_generator (r : Fin K) : T.parity.mulVec (generator K gen r) = 0 := by
  funext i
  have hsum : (((T.slots i).map fun p => Gf2.vec (column p)).sum) r =
      ((T.slots i).map (generator K gen r)).sum := by
    rw [Pi.list_sum_apply, List.map_map]
    exact congrArg List.sum (List.map_congr_left fun p _ => h.vec_column p r)
  rw [parity_mulVec, ← hsum, ← vec_sumSlots, h.orthogonal i i.isLt, Gf2.vec_zero]
  rfl

theorem generator_systematic (r s : Fin K) :
    generator K gen r (Fin.ofNat N (info + s)) = if r = s then 1 else 0 := by
  rw [← h.vec_column, h.systematic s s.isLt, Gf2.vec_twoPow, Pi.single_apply]

theorem linearIndependent_generator : LinearIndependent (ZMod 2) (generator K gen).row :=
  LinearCode.linearIndependent_of_systematic h.generator_systematic

/-- The generator has full rank. -/
theorem rank_generator : (generator K gen).rank = K := by
  rw [h.linearIndependent_generator.rank_matrix, Fintype.card_fin]

/-- A word passes the checks exactly when it is a codeword of the generator. -/
theorem check_iff (x : Vector Bool N) :
    (∀ i < T.M, T.Check i x) ↔
      wordVec x ∈ Submodule.span (ZMod 2) (Set.range (generator K gen).row) := by
  -- with independent checks the dimensions leave no room for other words
  have hparity : LinearIndependent (ZMod 2) T.parity.row :=
    Gf2.linearIndependent_vec (Gf2.independent_of_check h.independent)
  rw [← LinearCode.mulVec_eq_zero_iff h.mulVec_generator hparity h.linearIndependent_generator
    (by rw [h.dim, Fintype.card_fin])]
  constructor
  · intro hcheck
    funext i
    exact (T.check_iff (T.inverse_of_test h.inverse) i.isLt x).1 (hcheck i i.isLt)
  · intro hzero i hi
    exact (T.check_iff (T.inverse_of_test h.inverse) hi x).2 (congrFun hzero _)

/-- A codeword is the combination of the generator's rows with the coefficients that stand in its
message positions. -/
theorem mem_span_iff (x : Vector Bool N) :
    wordVec x ∈ Submodule.span (ZMod 2) (Set.range (generator K gen).row) ↔
      wordVec x = ∑ r : Fin K, Gf2.bit (x.get (Fin.ofNat N (info + r))) • generator K gen r := by
  constructor
  · exact LinearCode.eq_sum_of_mem h.generator_systematic
  · intro hx
    rw [hx]
    exact Submodule.sum_mem _ fun r _ =>
      Submodule.smul_mem _ _ (Submodule.subset_span ⟨r, rfl⟩)

/-- The test accepts the codewords of the generator, but for zero. -/
theorem accepts_iff (x : Vector Bool N) :
    T.accepts x ↔ x ≠ Vector.replicate N false ∧
      wordVec x ∈ Submodule.span (ZMod 2) (Set.range (generator K gen).row) := by
  rw [accepts_iff_check, h.check_iff]

/-- Ordered-statistics decoding returns a codeword from values that point to it everywhere. -/
theorem osd_decode_n174_codeword (hK : 1 ≤ K ∧ K ≤ K_MAX) (order : ℤ) {x : Vector Bool N}
    (hx : wordVec x ∈ Submodule.span (ZMod 2) (Set.range (generator K gen).row)) :
    osd_decode_n174 (fun p => if x.get p then 1 else -1) K gen order = some (x, 0) := by
  set llr : Fin N → ℚ := fun p => if x.get p then 1 else -1
  have hllr : ∀ p, llr p = if x.get p then 1 else -1 := fun _ => rfl
  have hhard : hardBit llr = wordVec x := by
    ext p
    rw [hardBit, wordVec, Gf2.bit_inj, hllr]
    cases x.get p <;> simp
  have hsome : (osd_decode_n174 llr K gen order).isSome :=
    (osd_decode_n174_isSome_iff llr gen K order).2 ⟨hK.1, hK.2, h.rank_generator⟩
  obtain ⟨⟨xhat, dist⟩, hosd⟩ := Option.isSome_iff_exists.1 hsome
  obtain ⟨hword, rfl⟩ := osd_decode_n174_hardBit llr gen hosd (hhard ▸ hx)
  have heq : xhat = x := by
    apply vector_ext
    intro p
    exact Gf2.bit_inj.1 (congrFun (hword.trans hhard) p)
  rw [hosd, heq]

/-- The words that ordered-statistics decoding can return are the codewords. -/
theorem exists_osd_iff (hK : 1 ≤ K ∧ K ≤ K_MAX) (x : Vector Bool N) :
    (∃ llr order dist, osd_decode_n174 llr K gen order = some (x, dist)) ↔
      wordVec x ∈ Submodule.span (ZMod 2) (Set.range (generator K gen).row) := by
  constructor
  · rintro ⟨llr, order, dist, hosd⟩
    exact (osd_decode_n174_spec llr gen hosd).1
  · intro hx
    exact ⟨_, 0, 0, h.osd_decode_n174_codeword hK 0 hx⟩

end Agree

end Tables

end GranolaSdr.Cuda.Ldpc
