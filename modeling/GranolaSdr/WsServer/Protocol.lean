import Mathlib.Algebra.GroupWithZero.Nat
import Mathlib.Data.List.Basic

/-!
# Messages of the dictionary server

The requests and answers of `protocol.rs`, the check of keys and the subscription patterns of
`subs.rs`. Frames are modelled by the messages they carry; values are of an arbitrary type.

## Main definitions

* `ClientMessage`, `ServerMessage`: what the frames carry;
* `validate_key`: the check every key of a request must pass;
* `key_matches`, `key_matches_any`: when a key matches a pattern.
-/

namespace GranolaSdr.WsServer

/-- A text: a key, a pattern or an error message. -/
abbrev Text := List Char

instance : LawfulBEq Text := inferInstanceAs (LawfulBEq (List Char))

/-- The messages a client sends. -/
inductive ClientMessage (V : Type*) where
  | subscribe (keys : List Text) (id : Option V)
  | set (key : Text) (value : V) (ttl_ms : Option ℕ)
  | list
  | get (key : Text) (id : Option V)
  | delete (key : Text) (id : Option V)

/-- The messages the server sends. -/
inductive ServerMessage (V : Type*) where
  | subscribed (keys : List Text) (id : Option V)
  | update (key : Text) (value : V)
  | key_deleted (key : Text)
  | key_expired (key : Text)
  | keys (keys : List Text)
  | value (key : Text) (value : V) (id : Option V)
  | error (message : Text) (key : Text) (id : Option V)
  deriving DecidableEq

/-! ## Keys -/

/-- The characters `str::trim` removes. -/
def isWhitespace (c : Char) : Bool :=
  let n := c.toNat
  (0x9 ≤ n && n ≤ 0xD) || n == 0x20 || n == 0x85 || n == 0xA0 || n == 0x1680 ||
    (0x2000 ≤ n && n ≤ 0x200A) || n == 0x2028 || n == 0x2029 || n == 0x202F || n == 0x205F ||
    n == 0x3000

/-- The length of a text in UTF-8. -/
def byteLength (text : Text) : ℕ := (text.map Char.utf8Size).sum

/-- The check of a key, with the reason for which it is refused. -/
def validate_key (key : Text) : Except Text Unit :=
  if key.isEmpty then .error "empty key".toList
  else if key.all isWhitespace then .error "whitespace-only key".toList
  else if key.contains (Char.ofNat 0) then .error "null byte in key".toList
  else if 1024 < byteLength key then .error "key too long (max 1024 bytes)".toList
  else .ok ()

/-- The check of a list of keys, up to the first one refused. -/
def validate_keys (keys : List Text) : Except Text Unit := keys.forM validate_key

/-! ## Patterns -/

/-- `str::strip_prefix` -/
def stripPrefix (pre text : Text) : Option Text :=
  if pre.isPrefixOf text then some (text.drop pre.length) else none

theorem stripPrefix_eq_some_iff {pre text rest : Text} :
    stripPrefix pre text = some rest ↔ text = pre ++ rest := by
  unfold stripPrefix
  split_ifs with h
  · obtain ⟨tail, rfl⟩ := List.isPrefixOf_iff_prefix.1 h
    simp
  · simp only [false_iff]
    rintro rfl
    exact h (List.isPrefixOf_iff_prefix.2 (List.prefix_append pre rest))

theorem stripPrefix_eq_none_iff {pre text : Text} :
    stripPrefix pre text = none ↔ ¬pre <+: text := by
  unfold stripPrefix
  split_ifs with h
  · simp [List.isPrefixOf_iff_prefix.1 h]
  · simp [mt List.isPrefixOf_iff_prefix.2 h]

/-- `str::strip_suffix` -/
def stripSuffix (suf text : Text) : Option Text :=
  if suf.isSuffixOf text then some (text.take (text.length - suf.length)) else none

/-- Whether a key matches a pattern: the key itself, `p/**` for the keys below `p`, `**` for all,
`p/*` for the keys one segment below `p`, and `p*` for the keys of one segment that start with
`p`. -/
def key_matches (key pattern : Text) : Bool :=
  if pattern = key then true
  else
    match stripSuffix ['/', '*', '*'] pattern with
    | some stem => (stem ++ ['/']).isPrefixOf key
    | none =>
      if pattern = ['*', '*'] then true
      else
        match stripSuffix ['/', '*'] pattern with
        | some stem =>
          let rest := (stripPrefix (stem ++ ['/']) key).getD []
          !rest.isEmpty && !rest.contains '/'
        | none =>
          match stripSuffix ['*'] pattern with
          | some stem =>
            !stem.contains '/' && stem.isPrefixOf key && !(key.drop stem.length).contains '/'
          | none => false

/-- Whether a key matches one of the patterns. -/
def key_matches_any (key : Text) (patterns : List Text) : Bool := patterns.any (key_matches key)

/-- Matching is monotone in the patterns. -/
theorem key_matches_any_mono {key : Text} {patterns more : List Text} (hsub : patterns ⊆ more)
    (h : key_matches_any key patterns) : key_matches_any key more := by
  obtain ⟨pattern, hmem, hmatch⟩ := List.any_eq_true.1 h
  exact List.any_eq_true.2 ⟨pattern, hsub hmem, hmatch⟩

end GranolaSdr.WsServer
