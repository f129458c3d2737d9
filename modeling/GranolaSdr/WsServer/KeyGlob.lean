import GranolaSdr.WsServer.Protocol
import Mathlib.Tactic.MkIffOfInductiveProp

/-!
# The language of subscription patterns

`key_matches` tests the special forms of a pattern one after the other, each by a suffix of the
pattern. The forms exclude each other but for the ones of a single segment, so the order of the
tests does not matter and the patterns are those of a small glob language.

## Main definitions

* `Globs`: the keys that a pattern stands for.

## Main results

* `key_matches_iff_globs`: these are the keys that match it;
* `key_matches_globs`: and what follows for patterns without a wildcard and for `p/*` and `p/**`.
-/

namespace GranolaSdr.WsServer

/-- The keys that a pattern stands for. -/
@[mk_iff]
inductive Globs : Text → Text → Prop
  /-- A pattern stands for itself. -/
  | literal (key : Text) : Globs key key
  /-- `**` stands for every key. -/
  | all (key : Text) : Globs ['*', '*'] key
  /-- `p/**` stands for the keys below `p`. -/
  | below (p rest : Text) : Globs (p ++ ['/', '*', '*']) (p ++ '/' :: rest)
  /-- `p/*` stands for the keys one segment below `p`. -/
  | child (p r : Text) (hne : r ≠ []) (hr : '/' ∉ r) : Globs (p ++ ['/', '*']) (p ++ '/' :: r)
  /-- `q*` stands for the keys of one segment that begin with `q`. -/
  | segment (q r : Text) (hq : '/' ∉ q) (hr : '/' ∉ r) : Globs (q ++ ['*']) (q ++ r)

/-! ## Suffixes -/

theorem stripSuffix_eq_some_iff {suf text stem : Text} :
    stripSuffix suf text = some stem ↔ text = stem ++ suf := by
  unfold stripSuffix
  split_ifs with h
  · obtain ⟨front, rfl⟩ := List.isSuffixOf_iff_suffix.1 h
    simp
  · refine iff_of_false nofun ?_
    rintro rfl
    exact h (List.isSuffixOf_iff_suffix.2 (List.suffix_append stem suf))

theorem stripSuffix_eq_none_iff {suf text : Text} :
    stripSuffix suf text = none ↔ ∀ stem, text ≠ stem ++ suf := by
  rw [Option.eq_none_iff_forall_ne_some]
  simp only [ne_eq, stripSuffix_eq_some_iff]

/-! ## The forms of a pattern -/

theorem globs_below_iff {p key : Text} :
    Globs (p ++ ['/', '*', '*']) key ↔ (p ++ ['/']) <+: key := by
  rw [globs_iff]
  constructor
  · rintro (rfl | h | ⟨p', rest, h, rfl⟩ | ⟨p', r, hne, hr, h, rfl⟩ | ⟨q, r, hq, hr, h, rfl⟩)
    · exact ⟨['*', '*'], by simp⟩
    · simpa using congrArg List.length h
    · obtain rfl := List.append_cancel_right h
      exact ⟨rest, by simp⟩
    · simpa using congrArg List.reverse h
    · -- the slash would be in the segment
      have hq' : p ++ ['/', '*'] = q := by simpa using congrArg List.dropLast h
      exact absurd (hq' ▸ by simp) hq
  · rintro ⟨rest, rfl⟩
    exact .inr (.inr (.inl ⟨p, rest, rfl, by simp⟩))

theorem globs_child_iff {p key : Text} :
    Globs (p ++ ['/', '*']) key ↔ ∃ r, r ≠ [] ∧ '/' ∉ r ∧ key = p ++ '/' :: r := by
  rw [globs_iff]
  constructor
  · rintro (rfl | h | ⟨p', rest, h, rfl⟩ | ⟨p', r, hne, hr, h, rfl⟩ | ⟨q, r, hq, hr, h, rfl⟩)
    · exact ⟨['*'], by simp⟩
    · simpa using congrArg List.reverse h
    · simpa using congrArg List.reverse h
    · obtain rfl := List.append_cancel_right h
      exact ⟨r, hne, hr, rfl⟩
    · have hq' : p ++ ['/'] = q := by simpa using congrArg List.dropLast h
      exact absurd (hq' ▸ by simp) hq
  · rintro ⟨r, hne, hr, rfl⟩
    exact .inr (.inr (.inr (.inl ⟨p, r, hne, hr, rfl, rfl⟩)))

theorem globs_segment_iff {q key : Text} (hall : q ≠ ['*']) (hq : '/' ∉ q) :
    Globs (q ++ ['*']) key ↔ ∃ r, '/' ∉ r ∧ key = q ++ r := by
  rw [globs_iff]
  constructor
  · rintro (rfl | h | ⟨p, rest, h, rfl⟩ | ⟨p, r, hne, hr, h, rfl⟩ | ⟨q', r, hq', hr, h, rfl⟩)
    · exact ⟨['*'], by simp⟩
    · exact absurd (by simpa using congrArg List.dropLast h) hall
    · have hp : q = p ++ ['/', '*'] := by simpa using congrArg List.dropLast h
      exact absurd (hp ▸ by simp) hq
    · have hp : q = p ++ ['/'] := by simpa using congrArg List.dropLast h
      exact absurd (hp ▸ by simp) hq
    · obtain rfl := List.append_cancel_right h
      exact ⟨r, hr, rfl⟩
  · rintro ⟨r, hr, rfl⟩
    exact .inr (.inr (.inr (.inr ⟨q, r, hq, hr, rfl, rfl⟩)))

/-- A pattern of none of the forms stands for itself alone. -/
theorem globs_literal_iff {pattern key : Text} (hall : pattern ≠ ['*', '*'])
    (hbelow : ∀ p, pattern ≠ p ++ ['/', '*', '*']) (hchild : ∀ p, pattern ≠ p ++ ['/', '*'])
    (hsegment : ∀ q, '/' ∉ q → pattern ≠ q ++ ['*']) : Globs pattern key ↔ pattern = key := by
  rw [globs_iff]
  constructor
  · rintro (rfl | h | ⟨p, rest, h, rfl⟩ | ⟨p, r, hne, hr, h, rfl⟩ | ⟨q, r, hq, hr, h, rfl⟩)
    · rfl
    · exact absurd h hall
    · exact absurd h (hbelow p)
    · exact absurd h (hchild p)
    · exact absurd h (hsegment q hq)
  · rintro rfl
    exact .inl rfl

/-! ## The tests -/

/-- The test of the text behind the stem of `p/*`. -/
theorem one_segment_iff {stem key : Text} :
    (!((stripPrefix (stem ++ ['/']) key).getD []).isEmpty &&
      !((stripPrefix (stem ++ ['/']) key).getD []).contains '/') = true ↔
        ∃ r, r ≠ [] ∧ '/' ∉ r ∧ key = stem ++ '/' :: r := by
  by_cases hpre : stem ++ ['/'] <+: key
  · obtain ⟨r, rfl⟩ := hpre
    rw [stripPrefix_eq_some_iff.2 rfl]
    simp
  · rw [stripPrefix_eq_none_iff.2 hpre]
    refine iff_of_false (by simp) ?_
    rintro ⟨r, -, -, rfl⟩
    exact hpre ⟨r, by simp⟩

/-- The test of a key of one segment. -/
theorem within_segment_iff {stem key : Text} :
    (!stem.contains '/' && stem.isPrefixOf key && !(key.drop stem.length).contains '/') = true ↔
      '/' ∉ stem ∧ ∃ r, '/' ∉ r ∧ key = stem ++ r := by
  rw [Bool.and_eq_true, Bool.and_eq_true, List.isPrefixOf_iff_prefix, and_assoc]
  refine and_congr (by simp) ⟨?_, ?_⟩
  · rintro ⟨⟨r, rfl⟩, hr⟩
    exact ⟨r, by simpa using hr, rfl⟩
  · rintro ⟨r, hr, rfl⟩
    exact ⟨List.prefix_append stem r, by simpa using hr⟩

/-- The keys that match a pattern are those it stands for. -/
theorem key_matches_iff_globs (key pattern : Text) :
    key_matches key pattern = true ↔ Globs pattern key := by
  unfold key_matches
  by_cases heq : pattern = key
  · rw [if_pos heq, heq]
    exact iff_of_true rfl (.literal key)
  rw [if_neg heq]
  by_cases hbelow : ∃ p, pattern = p ++ ['/', '*', '*']
  · -- a pattern of this form returns, so it is none of those below
    obtain ⟨p, rfl⟩ := hbelow
    rw [stripSuffix_eq_some_iff.2 rfl, globs_below_iff]
    exact List.isPrefixOf_iff_prefix
  have hbelow : ∀ p, pattern ≠ p ++ ['/', '*', '*'] := fun p hp => hbelow ⟨p, hp⟩
  simp only [stripSuffix_eq_none_iff.2 hbelow]
  by_cases hall : pattern = ['*', '*']
  · rw [if_pos hall, hall]
    exact iff_of_true rfl (.all key)
  rw [if_neg hall]
  -- the other forms in the order in which the server tries them
  by_cases hchild : ∃ p, pattern = p ++ ['/', '*']
  · obtain ⟨p, rfl⟩ := hchild
    rw [stripSuffix_eq_some_iff.2 rfl, globs_child_iff]
    exact one_segment_iff
  have hchild : ∀ p, pattern ≠ p ++ ['/', '*'] := fun p hp => hchild ⟨p, hp⟩
  simp only [stripSuffix_eq_none_iff.2 hchild]
  by_cases hstar : ∃ q, pattern = q ++ ['*']
  · obtain ⟨q, rfl⟩ := hstar
    rw [stripSuffix_eq_some_iff.2 rfl]
    refine within_segment_iff.trans ?_
    by_cases hq : '/' ∈ q
    · -- a wildcard behind several segments is none
      refine iff_of_false (fun h => h.1 hq) fun h => heq ?_
      refine (globs_literal_iff hall hbelow hchild fun q' hq' h' => hq' ?_).1 h
      rwa [← List.append_cancel_right h']
    · rw [and_iff_right hq, globs_segment_iff (fun h => hall (by rw [h]; rfl)) hq]
  have hstar : ∀ q, pattern ≠ q ++ ['*'] := fun q hq => hstar ⟨q, hq⟩
  simp only [stripSuffix_eq_none_iff.2 hstar]
  rw [globs_literal_iff hall hbelow hchild fun q _ => hstar q]
  exact iff_of_false Bool.false_ne_true heq

/-- A key matches a pattern exactly if it is one of those the pattern stands for. So a pattern that
does not end in a wildcard matches itself only, and what `p/*` matches `p/**` matches too. -/
theorem key_matches_globs :
    (∀ key pattern, key_matches key pattern = true ↔ Globs pattern key) ∧
      (∀ key pattern, pattern.getLast? ≠ some '*' →
        (key_matches key pattern = true ↔ key = pattern)) ∧
      ∀ key p, key_matches key (p ++ ['/', '*']) = true →
        key_matches key (p ++ ['/', '*', '*']) = true := by
  refine ⟨key_matches_iff_globs, fun key pattern hlast => ?_, fun key p h => ?_⟩
  · have hstar : ∀ q, pattern ≠ q ++ ['*'] := by
      rintro q rfl
      exact hlast (by simp)
    rw [key_matches_iff_globs, eq_comm]
    refine globs_literal_iff (hstar ['*']) (fun p hp => ?_) (fun p hp => ?_) fun q _ => hstar q
    · exact hstar (p ++ ['/', '*']) (by rw [hp, List.append_assoc]; rfl)
    · exact hstar (p ++ ['/']) (by rw [hp, List.append_assoc]; rfl)
  · rw [key_matches_iff_globs, globs_child_iff] at h
    obtain ⟨r, -, -, rfl⟩ := h
    rw [key_matches_iff_globs]
    exact .below p r

example : key_matches "plot_data".toList "plot_*".toList = true ∧
    key_matches "plot/data".toList "plot_*".toList = false := by decide

end GranolaSdr.WsServer
