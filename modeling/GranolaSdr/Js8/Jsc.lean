import GranolaSdr.Lib.DenseCode

/-!
# JSC word compression

`jsc_decompress` reads the word-compressed bit stream of a JS8 data frame. Each group of four bits
ends a codeword when it is below `s = 7` and continues it otherwise, and one separator bit follows
every ending group. The codewords are the `(7, 9)`-dense code of `DenseCode`.

The function makes two passes, as in the source. The first cuts the bits into groups and collects
the groups that carry a set separator bit; the second walks the groups and looks up the words.
The bit positions, group counts and code values are natural numbers: a code value has at most
seven base-9 digits (`walk_lt`), far below the range of the source's `uint32_t`.

## Main results

* `jsc_decompress_encode`: decompression inverts compression, also on every truncation of the
  stream.
-/

namespace GranolaSdr.Jsc

/-- The number of entries of the word table. -/
def kJscSize : ℕ := 262144

/-- The number of ending groups. -/
def s : ℕ := 7

/-- The number of continuation groups, `(1 << 4) - s`. -/
def c : ℕ := 9

/-- The offset table: `base[0] = 0` and `base[k] = base[k - 1] + s * c ^ (k - 1)`. -/
def base (k : ℕ) : ℕ := DenseCode.base s c k

/-- A group of four bits, most significant first. -/
def group (b₃ b₂ b₁ b₀ : Bool) : ℕ := b₃.toNat * 8 + b₂.toNat * 4 + b₁.toNat * 2 + b₀.toNat

theorem group_lt (b₃ b₂ b₁ b₀ : Bool) : group b₃ b₂ b₁ b₀ < 16 := by
  revert b₃ b₂ b₁ b₀
  decide

/-- Pass 1 on the bits from position `i` on: append each group to `grps`, and to `seps` the index
of each ending group whose separator bit is present and set. -/
def pass1 : List Bool → List ℕ → List ℕ → List ℕ × List ℕ
  | b₃ :: b₂ :: b₁ :: b₀ :: bits, grps, seps =>
    let g := group b₃ b₂ b₁ b₀
    if g < s then
      match bits with
      | [] => (grps ++ [g], seps)
      | b :: bits => pass1 bits (grps ++ [g]) (if b then seps ++ [grps.length] else seps)
    else
      pass1 bits (grps ++ [g]) seps
  | _, grps, seps => (grps, seps)

/-- The inner loop of pass 2: accumulate continuation groups into `j`, counting them in `k`, and
stop at an ending group, at the end of the groups, after seven groups or once the value can no
longer lie in the table. Returns `k`, `j` and the groups from index `start + k` on. -/
def walk : List ℕ → ℕ → ℕ → ℕ × ℕ × List ℕ
  | [], k, j => (k, j, [])
  | g :: grps, k, j =>
    if s ≤ g then
      let j := j * c + (g - s)
      let k := k + 1
      if 7 ≤ k ∨ kJscSize ≤ base k + j * s then (k, j, grps) else walk grps k j
    else
      (k, j, g :: grps)

theorem walk_length_le (grps : List ℕ) (k j : ℕ) :
    (walk grps k j).2.2.length ≤ grps.length := by
  induction grps generalizing k j with
  | nil => simp [walk]
  | cons g grps ih =>
    simp only [walk]
    split
    · split
      · simp
      · exact (ih _ _).trans (by simp)
    · simp

/-- The accumulated value of `k` groups of four bits has at most `k` base-9 digits, and the loop
reads at most seven. -/
theorem walk_lt {grps : List ℕ} (hg : ∀ g ∈ grps, g < 16) {k j : ℕ} (hk : k < 7)
    (hj : j < c ^ k) :
    (walk grps k j).1 ≤ 7 ∧ (walk grps k j).2.1 < c ^ (walk grps k j).1 := by
  induction grps generalizing k j with
  | nil => exact ⟨hk.le, hj⟩
  | cons g grps ih =>
    have hnext : j * c + (g - s) < c ^ (k + 1) := by
      have h16 := hg g (by simp)
      rw [Nat.pow_succ]
      simp only [c, s] at hj ⊢
      omega
    simp only [walk]
    split
    · split
      · exact ⟨by omega, hnext⟩
      · exact ih (fun g' h => hg g' (by simp [h])) (by omega) hnext
    · exact ⟨hk.le, hj⟩

/-- Pass 2 on the groups from index `start` on, with the separator positions not yet used:
look up one word per codeword, and append a blank after it when its ending group is the next
separator position. -/
def pass2 (jsc_map : Fin kJscSize → List Char) (grps : List ℕ) (start : ℕ) (seps : List ℕ)
    (out : List Char) : List Char :=
  match h : walk grps 0 0 with
  | (_, _, []) => out
  | (k, j, g :: rest) =>
    if hj : j * s + g + base k < kJscSize then
      let out := out ++ jsc_map ⟨j * s + g + base k, hj⟩
      if seps.head? = some (start + k) then
        pass2 jsc_map rest (start + k + 1) seps.tail (out ++ [' '])
      else
        pass2 jsc_map rest (start + k + 1) seps out
    else out
termination_by grps.length
decreasing_by
  all_goals
    have := walk_length_le grps 0 0
    rw [h] at this
    simpa [Nat.succ_le_iff] using this

/-- `jsc_decompress(bits, nbits)`, with `bits` the first `nbits` bits of the array. -/
def jsc_decompress (jsc_map : Fin kJscSize → List Char) (bits : List Bool) : List Char :=
  let p := pass1 bits [] []
  pass2 jsc_map p.1 0 p.2 []

/-! ## The encoder -/

/-- The groups of the codeword of index `x`. -/
def codeword (x : ℕ) : List ℕ := DenseCode.codeword (s := s) (c := c) (by decide) (by decide) x

/-- The number of continuation groups of index `x`. -/
def depth (x : ℕ) : ℕ := DenseCode.depth (s := s) (c := c) (by decide) (by decide) x

/-- The four bits of a group, most significant first. -/
def groupBits (g : ℕ) : List Bool := [g.testBit 3, g.testBit 2, g.testBit 1, g.testBit 0]

/-- One word of a stream: its index in the table and its separator flag. -/
abbrev Word := Fin kJscSize × Bool

/-- The bits of one word: its codeword, then the separator bit. -/
def wordBits (w : Word) : List Bool := (codeword w.1).flatMap groupBits ++ [w.2]

/-- The bit stream of a sequence of words. -/
def compress (ws : List Word) : List Bool := ws.flatMap wordBits

/-- The text of one word, followed by a blank when its flag is set. -/
def wordText (jsc_map : Fin kJscSize → List Char) (w : Word) : List Char :=
  jsc_map w.1 ++ if w.2 then [' '] else []

/-- The words whose last group lies within the first `n` bits of the stream. The separator flag
of a word whose separator bit is cut off counts as not set. -/
def wholeWords : List Word → ℕ → List Word
  | [], _ => []
  | w :: ws, n =>
    let len := 4 * (codeword w.1).length
    if len ≤ n then (w.1, w.2 && decide (len < n)) :: wholeWords ws (n - (len + 1)) else []

/-! ## Pass 1 on a compressed stream -/

theorem group_groupBits {g : ℕ} (hg : g < 16) :
    group (g.testBit 3) (g.testBit 2) (g.testBit 1) (g.testBit 0) = g := by
  revert g
  decide

/-- A continuation group is appended and no separator bit is read. -/
theorem pass1_cont {g : ℕ} (hs : s ≤ g) (hg : g < 16) (bits : List Bool) (grps seps : List ℕ) :
    pass1 (groupBits g ++ bits) grps seps = pass1 bits (grps ++ [g]) seps := by
  rw [groupBits, List.cons_append, List.cons_append, List.cons_append, List.singleton_append,
    pass1.eq_def]
  simp only [group_groupBits hg, Nat.not_lt.2 hs, ↓reduceIte]

/-- An ending group takes the separator bit after it. -/
theorem pass1_end {g : ℕ} (hs : g < s) (b : Bool) (bits : List Bool) (grps seps : List ℕ) :
    pass1 (groupBits g ++ b :: bits) grps seps =
      pass1 bits (grps ++ [g]) (if b then seps ++ [grps.length] else seps) := by
  have hg : g < 16 := hs.trans (by decide)
  simp only [groupBits, List.cons_append, List.nil_append, pass1, group_groupBits hg, hs,
    ↓reduceIte]

/-- An ending group at the very end of the bits carries no separator. -/
theorem pass1_end_cut {g : ℕ} (hs : g < s) (grps seps : List ℕ) :
    pass1 (groupBits g) grps seps = (grps ++ [g], seps) := by
  have hg : g < 16 := hs.trans (by decide)
  simp only [groupBits, pass1, group_groupBits hg, hs, ↓reduceIte]

/-- Fewer than four bits make no group. -/
theorem pass1_short {bits : List Bool} (h : bits.length < 4) (grps seps : List ℕ) :
    pass1 bits grps seps = (grps, seps) := by
  match bits with
  | [] | [_] | [_, _] | [_, _, _] => rfl
  | _ :: _ :: _ :: _ :: _ => simp at h; omega

theorem pass1_conts {gs : List ℕ} (hgs : ∀ g ∈ gs, s ≤ g ∧ g < 16) (bits : List Bool)
    (grps seps : List ℕ) :
    pass1 (gs.flatMap groupBits ++ bits) grps seps = pass1 bits (grps ++ gs) seps := by
  induction gs generalizing grps with
  | nil => simp
  | cons g gs ih =>
    have hg := hgs g (by simp)
    rw [List.flatMap_cons, List.append_assoc, pass1_cont hg.1 hg.2,
      ih fun g' h => hgs g' (by simp [h]), List.append_assoc, List.singleton_append]

/-- The continuation groups of index `x`. -/
def contGroups (x : ℕ) : List ℕ :=
  (DenseCode.contDigits (s := s) (c := c) (by decide) (by decide) x).map (· + s)

/-- The ending group of index `x`. -/
def endGroup (x : ℕ) : ℕ := (x - base (depth x)) % s

theorem codeword_eq (x : ℕ) : codeword x = contGroups x ++ [endGroup x] := rfl

theorem length_contGroups (x : ℕ) : (contGroups x).length = depth x := by
  simp [contGroups, depth]

theorem contGroups_mem {x g : ℕ} (hg : g ∈ contGroups x) : s ≤ g ∧ g < 16 := by
  obtain ⟨d, hd, rfl⟩ := List.mem_map.1 hg
  have hlt : d < 9 := DenseCode.digits_lt (by decide) hd
  exact ⟨Nat.le_add_left _ _, Nat.add_lt_add_right hlt 7⟩

theorem endGroup_lt (x : ℕ) : endGroup x < s := Nat.mod_lt _ (by decide)

theorem length_groupBits (gs : List ℕ) : (gs.flatMap groupBits).length = 4 * gs.length := by
  induction gs with
  | nil => rfl
  | cons g gs ih => rw [List.flatMap_cons, List.length_append, ih]; simp [groupBits]; omega

/-- Cutting a string of groups after `n` bits keeps `n / 4` groups and fewer than four bits. -/
theorem take_groupBits (gs : List ℕ) (n : ℕ) (hn : n < 4 * gs.length) :
    ∃ bits : List Bool, bits.length < 4 ∧
      (gs.flatMap groupBits).take n = (gs.take (n / 4)).flatMap groupBits ++ bits := by
  induction gs generalizing n with
  | nil => simp at hn
  | cons g gs ih =>
    rcases Nat.lt_or_ge n 4 with hlt | hge
    · refine ⟨((g :: gs).flatMap groupBits).take n, ?_, ?_⟩
      · exact (List.length_take_le _ _).trans_lt hlt
      · simp [Nat.div_eq_of_lt hlt]
    · obtain ⟨m, rfl⟩ := Nat.exists_eq_add_of_le hge
      obtain ⟨bits, hlen, htake⟩ := ih m (by simp only [List.length_cons] at hn; omega)
      refine ⟨bits, hlen, ?_⟩
      have hdiv : (4 + m) / 4 = m / 4 + 1 := by omega
      rw [hdiv, List.take_succ_cons, List.flatMap_cons, List.flatMap_cons, List.append_assoc,
        ← htake, List.take_append, List.take_of_length_le (by simp [groupBits])]
      simp [groupBits]

theorem length_codeword (x : ℕ) : (codeword x).length = depth x + 1 :=
  DenseCode.length_codeword _ _ x

/-- The groups of a codeword and its separator bit are read one after the other. -/
theorem pass1_word (x : ℕ) (sep : Bool) (bits : List Bool) (grps seps : List ℕ) :
    pass1 ((codeword x).flatMap groupBits ++ sep :: bits) grps seps =
      pass1 bits (grps ++ codeword x) (if sep then seps ++ [grps.length + depth x] else seps) := by
  rw [codeword_eq, List.flatMap_append, List.append_assoc, List.flatMap_singleton,
    pass1_conts fun g hg => contGroups_mem hg, pass1_end (endGroup_lt _)]
  rw [List.append_assoc, List.length_append, length_contGroups]

/-- A codeword whose separator bit is cut off has none. -/
theorem pass1_word_end (x : ℕ) (grps seps : List ℕ) :
    pass1 ((codeword x).flatMap groupBits) grps seps = (grps ++ codeword x, seps) := by
  rw [codeword_eq, List.flatMap_append, List.flatMap_singleton,
    pass1_conts fun g hg => contGroups_mem hg, pass1_end_cut (endGroup_lt _), List.append_assoc]

/-- A cut inside a codeword leaves some of its continuation groups. -/
theorem pass1_word_cut {x n : ℕ} (hlt : n < 4 * (codeword x).length) (grps seps : List ℕ) :
    n / 4 ≤ depth x ∧ pass1 (((codeword x).flatMap groupBits).take n) grps seps =
      (grps ++ (contGroups x).take (n / 4), seps) := by
  obtain ⟨bits, hshort, htake⟩ := take_groupBits _ _ hlt
  have hq : n / 4 ≤ depth x := by
    rw [length_codeword] at hlt
    omega
  have hcont : (codeword x).take (n / 4) = (contGroups x).take (n / 4) := by
    rw [codeword_eq, List.take_append_of_le_length (by rwa [length_contGroups])]
  refine ⟨hq, ?_⟩
  rw [htake, hcont, pass1_conts fun g hg => contGroups_mem (List.mem_of_mem_take hg),
    pass1_short hshort]

/-- The groups left over by a cut inside a codeword: some of its continuation groups. -/
def Dangling (tail : List ℕ) : Prop :=
  ∃ x < kJscSize, ∃ i ≤ depth x, tail = (contGroups x).take i

theorem dangling_nil : Dangling [] := ⟨0, by decide, 0, Nat.zero_le _, by simp⟩

/-- The separator positions of a sequence of words whose first group has index `start`. -/
def sepPositions : ℕ → List Word → List ℕ
  | _, [] => []
  | start, w :: ws =>
    let pos := start + depth w.1
    if w.2 then pos :: sepPositions (pos + 1) ws else sepPositions (pos + 1) ws

theorem wholeWords_zero (ws : List Word) : wholeWords ws 0 = [] := by
  cases ws with
  | nil => rfl
  | cons w ws => simp [wholeWords, codeword_eq]

/-- Pass 1 on a truncated stream finds the groups of the whole words with their separators, and
some continuation groups of the word that was cut. -/
theorem pass1_take_compress (ws : List Word) (n : ℕ) (grps seps : List ℕ) :
    ∃ tail, Dangling tail ∧
      pass1 ((compress ws).take n) grps seps =
        (grps ++ ((wholeWords ws n).flatMap (fun w => codeword w.1) ++ tail),
          seps ++ sepPositions grps.length (wholeWords ws n)) := by
  induction ws generalizing n grps seps with
  | nil => exact ⟨[], dangling_nil, by simp [compress, wholeWords, pass1, sepPositions]⟩
  | cons w ws ih =>
    have hlen := length_groupBits (codeword w.1)
    have hstream : compress (w :: ws) =
        (codeword w.1).flatMap groupBits ++ w.2 :: compress ws := by
      simp [compress, wordBits]
    rw [hstream, wholeWords]
    rcases Nat.lt_trichotomy n (4 * (codeword w.1).length) with hlt | heq | hgt
    -- the cut lies inside the codeword
    · obtain ⟨hq, hpass⟩ := pass1_word_cut hlt grps seps
      refine ⟨(contGroups w.1).take (n / 4), ⟨w.1, w.1.isLt, n / 4, hq, rfl⟩, ?_⟩
      rw [List.take_append_of_le_length (by omega), hpass]
      simp [Nat.not_le.2 hlt, sepPositions]
    -- the cut falls between the ending group and its separator bit
    · refine ⟨[], dangling_nil, ?_⟩
      subst heq
      rw [← hlen, List.take_left, pass1_word_end]
      simp [wholeWords_zero, sepPositions]
    -- the word is whole, and the cut lies behind its separator bit
    · obtain ⟨m, rfl⟩ := Nat.exists_eq_add_of_lt hgt
      obtain ⟨tail, htail, hpass⟩ := ih m (grps ++ codeword w.1)
        (if w.2 then seps ++ [grps.length + depth w.1] else seps)
      refine ⟨tail, htail, ?_⟩
      have htake : ((codeword w.1).flatMap groupBits ++ w.2 :: compress ws).take
          (4 * (codeword w.1).length + m + 1) =
            (codeword w.1).flatMap groupBits ++ w.2 :: (compress ws).take m := by
        rw [List.take_append, List.take_of_length_le (by omega), hlen,
          show 4 * (codeword w.1).length + m + 1 - 4 * (codeword w.1).length = m + 1 by omega,
          List.take_succ_cons]
      have hsub : 4 * (codeword w.1).length + m + 1 - (4 * (codeword w.1).length + 1) = m := by
        omega
      have hindex : (grps ++ codeword w.1).length = grps.length + depth w.1 + 1 := by
        rw [List.length_append, length_codeword, Nat.add_assoc]
      rw [htake, pass1_word, hpass, hindex, hsub]
      cases w.2 <;> simp [sepPositions, Nat.le_of_lt hgt, hgt]

/-! ## Pass 2 on the groups of whole words -/

/-- The inner loop runs through continuation groups as long as neither exit of the loop is
taken. -/
theorem walk_conts (ds grps : List ℕ) (k j : ℕ)
    (hrun : ∀ i, 0 < i → i ≤ ds.length → k + i < 7 ∧
      base (k + i) + (ds.take i).foldl (fun j d => j * c + d) j * s < kJscSize) :
    walk (ds.map (· + s) ++ grps) k j =
      walk grps (k + ds.length) (ds.foldl (fun j d => j * c + d) j) := by
  induction ds generalizing k j with
  | nil => simp
  | cons d ds ih =>
    have hfirst := hrun 1 one_pos (by simp)
    simp only [List.take_succ_cons, List.take_zero, List.foldl_cons, List.foldl_nil] at hfirst
    -- neither exit of the loop of `decompress` is taken at this continuation group
    have hstay : ¬(7 ≤ k + 1 ∨ kJscSize ≤ base (k + 1) + (j * c + d) * s) := by omega
    rw [List.map_cons, List.cons_append, walk, if_pos (Nat.le_add_left _ _),
      Nat.add_sub_cancel]
    simp only [hstay, ↓reduceIte]
    rw [ih (k + 1) (j * c + d), List.foldl_cons, List.length_cons]
    · rw [Nat.add_right_comm, Nat.add_assoc]
    · intro i hi hlen
      have := hrun (i + 1) (Nat.succ_pos i) (by simpa using hlen)
      rw [List.take_succ_cons, List.foldl_cons] at this
      rwa [Nat.add_assoc, Nat.add_comm 1 i]

/-- An index of the table has at most five continuation groups. -/
theorem depth_le_five {x : ℕ} (hx : x < kJscSize) : depth x ≤ 5 :=
  DenseCode.depth_le (by decide) (by decide) (hx.trans (by decide))

/-- No exit of the inner loop is taken inside the codeword of a table index. -/
theorem walk_contGroups {x i : ℕ} (hx : x < kJscSize) (hi : i ≤ depth x) (grps : List ℕ) :
    walk ((contGroups x).take i ++ grps) 0 0 =
      walk grps i (((DenseCode.contDigits (s := s) (c := c) (by decide) (by decide) x).take
        i).foldl (fun j d => j * c + d) 0) := by
  have hlen : ((DenseCode.contDigits (s := s) (c := c) (by decide) (by decide) x).take i).length
      = i := by
    rw [List.length_take, DenseCode.length_contDigits]
    exact Nat.min_eq_left hi
  rw [contGroups, ← List.map_take, walk_conts, hlen, Nat.zero_add]
  intro m _ hm
  rw [hlen] at hm
  have hdepth := depth_le_five hx
  have hvalue := DenseCode.prefix_value_le (s := s) (c := c) (by decide) (by decide) x
    (hm.trans hi)
  rw [List.take_take, Nat.min_eq_left hm, Nat.zero_add]
  exact ⟨by omega, hvalue.trans_lt hx⟩

/-- The inner loop on the codeword of a table index. -/
theorem walk_codeword {x : ℕ} (hx : x < kJscSize) (grps : List ℕ) :
    ∃ j, walk (codeword x ++ grps) 0 0 = (depth x, j, endGroup x :: grps) ∧
      j * s + endGroup x + base (depth x) = x := by
  refine ⟨_, ?_, DenseCode.value_codeword (s := s) (c := c) (by decide) (by decide) x⟩
  have h := walk_contGroups hx (le_refl (depth x)) ([endGroup x] ++ grps)
  have hlen : (DenseCode.contDigits (s := s) (c := c) (by decide) (by decide) x).length =
      depth x := by simp [depth]
  rw [List.take_of_length_le (length_contGroups x).le, List.take_of_length_le hlen.le] at h
  rw [codeword_eq, List.append_assoc, h, List.singleton_append, walk,
    if_neg (Nat.not_le.2 (endGroup_lt x))]

/-- Dangling groups run out before an ending group is met. -/
theorem walk_dangling {tail : List ℕ} (h : Dangling tail) : (walk tail 0 0).2.2 = [] := by
  obtain ⟨x, hx, i, hi, rfl⟩ := h
  have := walk_contGroups hx hi []
  rw [List.append_nil] at this
  rw [this]
  rfl

theorem le_of_mem_sepPositions {ws : List Word} {start p : ℕ} (hp : p ∈ sepPositions start ws) :
    start ≤ p := by
  induction ws generalizing start with
  | nil => simp [sepPositions] at hp
  | cons w ws ih =>
    simp only [sepPositions] at hp
    split at hp
    · rcases List.mem_cons.1 hp with rfl | h
      · exact Nat.le_add_right _ _
      · have := ih h
        omega
    · have := ih hp
      omega

/-- Pass 2 on the groups of whole words followed by dangling groups gives their texts. -/
theorem pass2_words (jsc_map : Fin kJscSize → List Char) (ws : List Word) {tail : List ℕ}
    (htail : Dangling tail) (start : ℕ) (out : List Char) :
    pass2 jsc_map (ws.flatMap (fun w => codeword w.1) ++ tail) start (sepPositions start ws) out =
      out ++ ws.flatMap (wordText jsc_map) := by
  induction ws generalizing start out with
  | nil =>
    rw [List.flatMap_nil, List.nil_append, List.flatMap_nil, List.append_nil, pass2]
    split
    · rfl
    · next h =>
      -- what is left of a cut word never reaches a word's last group
      have hnil := walk_dangling htail
      simp [h] at hnil
  | cons w ws ih =>
    obtain ⟨j, hwalk, hvalue⟩ := walk_codeword w.1.isLt
      (ws.flatMap (fun w => codeword w.1) ++ tail)
    rw [List.flatMap_cons, List.append_assoc, pass2]
    split
    · next h => simp [hwalk] at h
    · next k j' g rest h =>
      obtain ⟨rfl, rfl, rfl, rfl⟩ : depth w.1 = k ∧ j = j' ∧ endGroup w.1 = g ∧
          ws.flatMap (fun w => codeword w.1) ++ tail = rest := by
        simpa [hwalk] using h
      have hlt : j * s + endGroup w.1 + base (depth w.1) < kJscSize := by
        rw [hvalue]
        exact w.1.isLt
      -- the groups read back give the index they were written from
      have hindex : (⟨j * s + endGroup w.1 + base (depth w.1), hlt⟩ : Fin kJscSize) = w.1 :=
        Fin.ext hvalue
      rw [dif_pos hlt, hindex]
      cases hflag : w.2 with
      | true => simp [sepPositions, hflag, ih, wordText]
      | false =>
        -- the next recorded separator, if any, stands in a later word
        have hnext : (sepPositions (start + depth w.1 + 1) ws).head? ≠
            some (start + depth w.1) := by
          intro hhead
          have := le_of_mem_sepPositions (List.mem_of_mem_head? hhead)
          omega
        simp [sepPositions, hflag, hnext, ih, wordText]

/-! ## The round trip -/

theorem decompress_take_compress (jsc_map : Fin kJscSize → List Char) (ws : List Word) (n : ℕ) :
    jsc_decompress jsc_map ((compress ws).take n) =
      (wholeWords ws n).flatMap (wordText jsc_map) := by
  obtain ⟨tail, htail, hpass⟩ := pass1_take_compress ws n [] []
  have hwords := pass2_words jsc_map (wholeWords ws n) htail 0 []
  simp only [jsc_decompress, hpass, List.nil_append, List.length_nil]
  simpa using hwords

/-- All words are whole when the cut lies at or past the end of the stream. -/
theorem wholeWords_of_length_le (ws : List Word) (n : ℕ) (hn : (compress ws).length ≤ n) :
    wholeWords ws n = ws := by
  induction ws generalizing n with
  | nil => rfl
  | cons w ws ih =>
    have hlen : (compress (w :: ws)).length =
        4 * (codeword w.1).length + 1 + (compress ws).length := by
      rw [compress, List.flatMap_cons, List.length_append, wordBits, List.length_append,
        length_groupBits]
      rfl
    rw [hlen] at hn
    rw [wholeWords, if_pos (by omega), ih _ (by omega)]
    simp [show 4 * (codeword w.1).length < n by omega]

/-- Decompression of a compressed stream gives the texts of its words, and decompression of its
first `n` bits gives the texts of the words whose last group lies within them. -/
theorem jsc_decompress_encode (jsc_map : Fin kJscSize → List Char) (ws : List Word) :
    jsc_decompress jsc_map (compress ws) = ws.flatMap (wordText jsc_map) ∧
      ∀ n, jsc_decompress jsc_map ((compress ws).take n) =
        (wholeWords ws n).flatMap (wordText jsc_map) := by
  refine ⟨?_, decompress_take_compress jsc_map ws⟩
  have h := decompress_take_compress jsc_map ws (compress ws).length
  rwa [List.take_length, wholeWords_of_length_le ws _ le_rfl] at h

end GranolaSdr.Jsc
