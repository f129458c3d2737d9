import GranolaSdr.Lib.KeyedFold
import GranolaSdr.Uploader.Packet
import Mathlib.Data.Prod.Lex

/-!
# One report for each callsign, mode and band

`_dedup_reports` of `src/psk_uploader.py` keeps the report with the best signal of each callsign,
mode and band, in the place of the first. Nothing is greater than what is no number, so an SNR that
is no number stays once it is the first of its group. Whether some of the reports have been through
the loop before makes no difference, in any case.

## Main definitions

* `Number.rank`: the order of `>`, with what is no number below all others;
* `Report.bucket`: the key of a report whose frequency is finite;
* `IsDedup`: what the loop is for.

## Main results

* `dedup_reports_spec`: when it does that, and that early and late deduplication agree.
-/

namespace GranolaSdr.Uploader

open KeyedFold

/-! ## The order of the SNRs -/

/-- The place of a number among all: what is no number is the least. -/
def Number.rank : Number → ℕ ×ₗ ℚ
  | .nan => toLex (0, 0)
  | .infinity negative => toLex (if negative then 1 else 3, 0)
  | .int n => toLex (2, n)
  | .float x => toLex (2, x)

namespace Number

variable {x y : Number}

theorem gt_nan (x : Number) : x.gt nan = false := by
  cases x <;> rfl

theorem nan_gt (x : Number) : nan.gt x = false := by
  cases x <;> rfl

/-- The comparison is that of the ranks, unless the right side is no number. -/
theorem gt_iff (hy : y ≠ nan) : x.gt y = true ↔ y.rank < x.rank := by
  obtain n | a | (_ | _) | _ := x <;> obtain m | b | (_ | _) | _ := y <;>
    first
    | exact absurd rfl hy
    | simp [gt, rank, value, Prod.Lex.toLex_lt_toLex]; done
    | simp only [gt, rank, value, Prod.Lex.toLex_lt_toLex, lt_irrefl, false_or, true_and]
      exact decide_eq_true_iff

theorem eq_nan_of_rank_le (h : x.rank ≤ nan.rank) : x = nan := by
  obtain n | a | (_ | _) | _ := x
  all_goals simp_all [rank, Prod.Lex.toLex_le_toLex]

end Number

/-! ## The loop as a fold -/

/-- Callsign, mode and band of a report whose frequency is finite. -/
def Report.bucket (r : Report) : Key := (r.call, r.mode.getD [], truncate r.freq.value / 1000000)

theorem Report.key_of_finite {r : Report} (h : r.freq.Finite) : r.key = .ok r.bucket := by
  rw [Report.key, Number.toInt_eq_ok_iff.2 ⟨h, rfl⟩]
  rfl

theorem Report.finite_of_key {r : Report} {key : Key} (h : r.key = .ok key) : r.freq.Finite := by
  obtain ⟨freq, hfreq, -⟩ := bind_eq_ok_iff.1 h
  exact (Number.toInt_eq_ok_iff.1 hfreq).1

/-- The report that stays of two with the same key. -/
def better (old new : Report) : Report := if new.snr.gt old.snr then new else old

variable {reports xs ys : List Report} {best best' : List (Key × Report)}

/-- All entries of a key hold the same report, and each is replaced by the better one. -/
theorem keep_best_of_find {key : Key} {old : Key × Report}
    (hold : (best.find? fun entry => entry.1 = key) = some old)
    (hsame : ∀ d ∈ best, d.1 = key → d.2 = old.2) (r : Report) :
    keep_best best key r = best.map fun e => if e.1 = key then (key, better e.2 r) else e := by
  rw [keep_best, hold]
  dsimp only
  -- the loop writes to all entries of the key, or to none
  by_cases hgt : r.snr.gt old.2.snr
  · rw [if_pos hgt]
    apply List.map_congr_left
    intro d hd
    by_cases hkey : d.1 = key
    · rw [if_pos hkey, if_pos hkey, hsame d hd hkey, better, if_pos hgt]
    · rw [if_neg hkey, if_neg hkey]
  · rw [if_neg hgt]
    conv_lhs => rw [← List.map_id best]
    apply List.map_congr_left
    intro d hd
    by_cases hkey : d.1 = key
    · rw [if_pos hkey, hsame d hd hkey, better, if_neg hgt, ← hsame d hd hkey, ← hkey]
      rfl
    · rw [if_neg hkey]
      rfl

/-- A turn of the loop folds the report into the entry of its key. -/
theorem folded_keep_best (h : Folded Report.bucket better xs best) (r : Report) :
    Folded Report.bucket better (xs ++ [r]) (keep_best best r.bucket r) := by
  by_cases hmem : r.bucket ∈ best.map Prod.fst
  · obtain ⟨e, he, hkey⟩ := List.mem_map.1 hmem
    obtain ⟨old, hold⟩ : ∃ old, (best.find? fun entry => entry.1 = r.bucket) = some old := by
      rw [← Option.isSome_iff_exists, List.find?_isSome]
      exact ⟨e, he, by simpa using hkey⟩
    have holdkey : old.1 = r.bucket := by simpa using List.find?_some hold
    rw [keep_best_of_find hold fun d hd hdkey =>
      h.value_eq hd (List.mem_of_find?_eq_some hold) (hdkey.trans holdkey.symm)]
    exact h.append_old (h.mem_keys.1 hmem)
  · rw [keep_best_of_notMem r hmem]
    exact h.append_new (fun hold => hmem (h.mem_keys.2 hold))

theorem folded_foldl (reports : List Report) :
    Folded Report.bucket better reports
      (reports.foldl (fun best r => keep_best best r.bucket r) []) := by
  induction reports using List.reverseRecOn with
  | nil => exact folded_nil
  | append_singleton reports r ih =>
    rw [List.foldl_append]
    exact folded_keep_best ih r

/-- The loop raises no exception exactly for finite frequencies. -/
theorem dedup_loop_eq_ok_iff :
    dedup_loop best reports = .ok best' ↔
      (∀ r ∈ reports, r.freq.Finite) ∧
        reports.foldl (fun best r => keep_best best r.bucket r) best = best' := by
  induction reports generalizing best with
  | nil => simp [dedup_loop]
  | cons r reports ih =>
    rw [dedup_loop, bind_eq_ok_iff, List.forall_mem_cons, List.foldl_cons]
    constructor
    · rintro ⟨key, hkey, hrest⟩
      have hfinite := Report.finite_of_key hkey
      obtain rfl := Except.ok.inj (hkey.symm.trans (Report.key_of_finite hfinite))
      obtain ⟨hreports, hfold⟩ := ih.1 hrest
      exact ⟨⟨hfinite, hreports⟩, hfold⟩
    · rintro ⟨⟨hfinite, hreports⟩, hfold⟩
      exact ⟨r.bucket, Report.key_of_finite hfinite, ih.2 ⟨hreports, hfold⟩⟩

theorem dedup_reports_eq_ok_iff {kept : List Report} :
    dedup_reports reports = .ok kept ↔
      (∀ r ∈ reports, r.freq.Finite) ∧
        (reports.foldl (fun best r => keep_best best r.bucket r) []).map Prod.snd = kept := by
  rw [dedup_reports, bind_eq_ok_iff]
  constructor
  · rintro ⟨best, hloop, hkept⟩
    obtain ⟨hfinite, rfl⟩ := dedup_loop_eq_ok_iff.1 hloop
    exact ⟨hfinite, Except.ok.inj hkept⟩
  · rintro ⟨hfinite, rfl⟩
    exact ⟨_, dedup_loop_eq_ok_iff.2 ⟨hfinite, rfl⟩, rfl⟩

/-! ## The first of the best -/

/-- The rank of a report is that of its SNR. -/
def Report.rank (r : Report) : ℕ ×ₗ ℚ := r.snr.rank

/-- One report for each key, in the order in which the keys first arrive: of each group the first
with the largest SNR. -/
structure IsDedup (reports kept : List Report) : Prop where
  keys : kept.map Report.bucket = firstKeys Report.bucket reports
  best : ∀ r ∈ kept, IsFirstMax Report.rank (group Report.bucket r.bucket reports) r

/-- A group whose first SNR is no number has no number at all. -/
def NanStays (reports : List Report) : Prop :=
  ∀ key first rest, group Report.bucket key reports = first :: rest → first.snr = .nan →
    ∀ r ∈ rest, r.snr = .nan

theorem foldl_better_of_nan {first : Report} (h : first.snr = .nan) (rest : List Report) :
    rest.foldl better first = first := by
  induction rest with
  | nil => rfl
  | cons r rest ih => rw [List.foldl_cons, better, h, Number.gt_nan, if_neg Bool.false_ne_true, ih]

/-- The report that stays is the first of the best, unless the first SNR is no number and there is
one behind it. -/
theorem isFirstMax_foldl_better (first : Report) (rest : List Report) :
    IsFirstMax Report.rank (first :: rest) (rest.foldl better first) ↔
      (first.snr = .nan → ∀ r ∈ rest, r.snr = .nan) := by
  by_cases hnan : first.snr = .nan
  · -- nothing is better than a report without a number, so it stays
    rw [foldl_better_of_nan hnan]
    constructor
    · intro hmax _ r hr
      have hle := hmax.le (List.mem_cons_of_mem first hr)
      rw [Report.rank, Report.rank, hnan] at hle
      exact Number.eq_nan_of_rank_le hle
    · intro hall
      apply isFirstMax_head
      intro r hr
      rw [Report.rank, Report.rank, hall hnan r hr, hnan]
  · apply iff_of_true _ (fun h => absurd h hnan)
    -- from a number on, only numbers are stored, and they are compared
    apply (isFirstMax_foldl (fun r => r.snr ≠ .nan) _ hnan).1
    intro old new hold
    by_cases hgt : new.snr.gt old.snr
    · left
      refine ⟨(Number.gt_iff hold).1 hgt, if_pos hgt, ?_⟩
      intro hnew
      rw [hnew, Number.nan_gt] at hgt
      exact Bool.false_ne_true hgt
    · exact Or.inr ⟨not_lt.1 fun hlt => hgt ((Number.gt_iff hold).2 hlt), if_neg hgt⟩

theorem foldl_better_mem (first : Report) (rest : List Report) :
    rest.foldl better first ∈ first :: rest := by
  induction rest using List.reverseRecOn with
  | nil => exact List.mem_cons_self
  | append_singleton rest r ih =>
    rw [List.foldl_append, List.foldl_cons, List.foldl_nil, better, ← List.cons_append]
    split
    · exact List.mem_append_right _ (List.mem_singleton.2 rfl)
    · exact List.mem_append_left _ ih

/-- The report of an entry is one of its group. -/
theorem mem_group_of_mem (h : Folded Report.bucket better reports best) {e : Key × Report}
    (he : e ∈ best) : e.2 ∈ reports ∧ e.2.bucket = e.1 := by
  obtain ⟨first, rest, hgroup, hvalue⟩ := h.value e he
  rw [← mem_group, hgroup, hvalue]
  exact foldl_better_mem first rest

theorem map_bucket_kept (h : Folded Report.bucket better reports best) :
    (best.map Prod.snd).map Report.bucket = best.map Prod.fst := by
  rw [List.map_map]
  exact List.map_congr_left fun e he => (mem_group_of_mem h he).2

/-- What the loop keeps is what it is for, unless an SNR that is no number has stayed. -/
theorem isDedup_iff (h : Folded Report.bucket better reports best) :
    IsDedup reports (best.map Prod.snd) ↔ NanStays reports := by
  constructor
  · rintro ⟨-, hbest⟩ key first rest hgroup
    have hfirst : first ∈ reports ∧ first.bucket = key := by
      rw [← mem_group, hgroup]
      exact List.mem_cons_self
    obtain ⟨e, he, rfl⟩ := List.mem_map.1 (h.mem_keys.2 (List.mem_map.2 ⟨first, hfirst⟩))
    obtain ⟨first', rest', hgroup', hvalue⟩ := h.value e he
    obtain ⟨rfl, rfl⟩ := List.cons.inj (hgroup.symm.trans hgroup')
    have hmax := hbest e.2 (List.mem_map_of_mem he)
    rw [(mem_group_of_mem h he).2, hgroup, hvalue] at hmax
    exact (isFirstMax_foldl_better first rest).1 hmax
  · intro hnan
    refine ⟨(map_bucket_kept h).trans h.keys, ?_⟩
    intro r hr
    obtain ⟨e, he, rfl⟩ := List.mem_map.1 hr
    obtain ⟨first, rest, hgroup, hvalue⟩ := h.value e he
    rw [(mem_group_of_mem h he).2, hgroup, hvalue]
    exact (isFirstMax_foldl_better first rest).2 (hnan e.1 first rest hgroup)

theorem exists_isDedup_iff (reports : List Report) :
    (∃ kept, dedup_reports reports = .ok kept ∧ IsDedup reports kept) ↔
      (∀ r ∈ reports, r.freq.Finite) ∧ NanStays reports := by
  constructor
  · rintro ⟨kept, hkept, hdedup⟩
    obtain ⟨hfinite, rfl⟩ := dedup_reports_eq_ok_iff.1 hkept
    exact ⟨hfinite, (isDedup_iff (folded_foldl reports)).1 hdedup⟩
  · rintro ⟨hfinite, hnan⟩
    exact ⟨_, dedup_reports_eq_ok_iff.2 ⟨hfinite, rfl⟩, (isDedup_iff (folded_foldl reports)).2 hnan⟩

/-! ## Early and late -/

theorem dedup_loop_append (best : List (Key × Report)) (xs ys : List Report) :
    dedup_loop best (xs ++ ys) = dedup_loop best xs >>= fun best => dedup_loop best ys := by
  induction xs generalizing best with
  | nil => rfl
  | cons r xs ih =>
    rw [List.cons_append, dedup_loop, dedup_loop, bind_assoc]
    exact bind_congr fun key => ih _

/-- The loop over the reports that it has kept leads to the same entries again. -/
theorem dedup_loop_kept (h : dedup_loop [] xs = .ok best) :
    dedup_loop [] (best.map Prod.snd) = .ok best := by
  obtain ⟨hfinite, hfold⟩ := dedup_loop_eq_ok_iff.1 h
  have hfolded : Folded Report.bucket better xs best := hfold ▸ folded_foldl xs
  have hkey : ∀ r ∈ best.map Prod.snd, r.key = .ok r.bucket := by
    intro r hr
    obtain ⟨e, he, rfl⟩ := List.mem_map.1 hr
    exact Report.key_of_finite (hfinite e.2 (mem_group_of_mem hfolded he).1)
  -- what is kept has different keys, so nothing is dropped from it
  have hentries : (best.map Prod.snd).map (fun r => (r.bucket, r)) = best := by
    rw [List.map_map]
    conv_rhs => rw [← List.map_id best]
    apply List.map_congr_left
    intro e he
    exact Prod.ext (mem_group_of_mem hfolded he).2 rfl
  rw [dedup_loop_of_nodup hkey, List.nil_append, hentries]
  rw [List.map_nil, List.nil_append, map_bucket_kept hfolded]
  exact hfolded.nodup

theorem dedup_reports_append (xs ys : List Report) :
    (dedup_reports xs >>= fun kept => dedup_reports (kept ++ ys)) = dedup_reports (xs ++ ys) := by
  unfold dedup_reports
  rw [dedup_loop_append, bind_assoc, bind_assoc]
  cases hloop : dedup_loop [] xs with
  | error e => rfl
  | ok best =>
    show (dedup_loop [] (best.map Prod.snd ++ ys) >>= _) = _
    rw [dedup_loop_append, dedup_loop_kept hloop]
    rfl

/-- The loop keeps the first of the best reports of each group exactly if every frequency is finite
and no SNR that is no number comes before a number of its group. Deduplicating some of the reports
before never makes a difference. -/
theorem dedup_reports_spec (reports further : List Report) :
    ((∃ kept, dedup_reports reports = .ok kept ∧ IsDedup reports kept) ↔
      (∀ r ∈ reports, r.freq.Finite) ∧ NanStays reports) ∧
      (dedup_reports reports >>= fun kept => dedup_reports (kept ++ further)) =
        dedup_reports (reports ++ further) :=
  ⟨exists_isDedup_iff reports, dedup_reports_append reports further⟩

/-- Two reports of a station on 20 m. The SNR of the first is no number. -/
def nanFirst : List Report :=
  [⟨['K', '1', 'A', 'B', 'C'], .int 14074000, .nan, some ['F', 'T', '8'], .int 1700000000⟩,
    ⟨['K', '1', 'A', 'B', 'C'], .int 14074000, .int (-5), some ['F', 'T', '8'], .int 1700000015⟩]

/-- The report without a number is kept, and the one with a number is lost. -/
theorem nanFirst_not_best :
    dedup_reports nanFirst = .ok (nanFirst.take 1) ∧
      ¬∃ kept, dedup_reports nanFirst = .ok kept ∧ IsDedup nanFirst kept := by
  have hkept : dedup_reports nanFirst = .ok (nanFirst.take 1) := by rfl
  refine ⟨hkept, ?_⟩
  rintro ⟨kept, hok, hdedup⟩
  obtain rfl := Except.ok.inj (hkept.symm.trans hok)
  have hmax := hdedup.best _ List.mem_cons_self
  have hle : Number.rank (.int (-5)) ≤ Number.rank .nan := hmax.le (List.mem_of_mem_getLast? rfl)
  exact Number.noConfusion (Number.eq_nan_of_rank_le hle)

end GranolaSdr.Uploader
