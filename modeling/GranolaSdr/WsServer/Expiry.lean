import GranolaSdr.Lib.Run
import GranolaSdr.WsServer.Server

/-!
# Expired entries

An entry stays in the dictionary after its expiry until a sweep removes it. `get` and `keys` test
the expiry and leave such an entry out. `delete` does not: it removes the entry, reports that the
key was there, and the deletion is broadcast.

## Main definitions

* `Dict.Live`, `Dict.Stale`: a key with an entry that has not expired, or has;
* `State.TreatsExpiredAsAbsent`: a step of a request finds exactly the live keys.

## Main results

* `treatsExpiredAsAbsent_along_iff`: the requests of a run find exactly the live keys when no stale
  key is deleted.
-/

namespace GranolaSdr.WsServer

variable {V : Type*}

namespace Dict

/-- The key has an entry that has not expired. -/
def Live (d : Dict V) (now : ℕ) (key : Text) : Prop := ∃ e, d.lookup key = some e ∧ ¬e.Expired now

/-- The key has an entry that has expired and has not been swept. -/
def Stale (d : Dict V) (now : ℕ) (key : Text) : Prop := ∃ e, d.lookup key = some e ∧ e.Expired now

variable {d : Dict V} {now : ℕ} {key : Text}

theorem mem_keys_iff_live : key ∈ d.keys now ↔ d.Live now key := mem_keys

theorem get_isSome_iff_live : (d.get now key).isSome ↔ d.Live now key := by
  rw [get, Live]
  cases d.lookup key with
  | none => simp
  | some e => by_cases h : e.Expired now <;> simp [h]

/-- `delete` reports the live keys as long as it is not used on a stale one. -/
theorem delete_iff_live : ((d.delete key).2 = true ↔ d.Live now key) ↔ ¬d.Stale now key := by
  rw [delete, Live, Stale]
  cases d.lookup key with
  | none => simp
  | some e => by_cases h : e.Expired now <;> simp [h]

end Dict

namespace State

/-- The step of a request finds exactly the live keys: the value is answered, the key is listed,
or the deletion reported and broadcast, for a key that is live when the request reads the clock. -/
structure TreatsExpiredAsAbsent (s : State V) (a : Action V) : Prop where
  get : ∀ c key id t, a = .run c → (s.conns c).task = .get key id → s.step a = some t →
    ((∃ value, (t.conns c).task = .reply (.value key value id)) ↔ s.dict.Live s.now key)
  list : ∀ c order now t, a = .listing c order → (s.conns c).task = .listKeys now →
    s.step a = some t → ∀ key, key ∈ order ↔ s.dict.Live now key
  delete : ∀ c key id t, a = .run c → (s.conns c).task = .delete key id → s.step a = some t →
    ((s.dict.delete key).2 = true ↔ s.dict.Live s.now key) ∧
      ((∃ stamp, t.fansOut (.run c) = some (key, ⟨.key_deleted key, stamp⟩)) ↔
        s.dict.Live s.now key)

/-- The step deletes a key whose entry has expired. -/
def DeletesExpired (s : State V) (a : Action V) : Prop :=
  ∃ c key id, a = .run c ∧ (s.conns c).task = .delete key id ∧ s.dict.Stale s.now key

variable {s t : State V} {c : ConnectionId} {key : Text} {id : Option V}

theorem get_step (htask : (s.conns c).task = .get key id) (hstep : s.run c = some t) :
    (∃ value, (t.conns c).task = .reply (.value key value id)) ↔ s.dict.Live s.now key := by
  rw [← Dict.get_isSome_iff_live]
  simp only [run, htask] at hstep
  cases hget : s.dict.get s.now key with
  | none =>
    rw [hget] at hstep
    obtain rfl := Option.some.inj hstep
    simp [Conn.goto]
  | some value =>
    rw [hget] at hstep
    obtain rfl := Option.some.inj hstep
    simp [Conn.goto]

theorem listing_step {order : List Text} {now : ℕ} (htask : (s.conns c).task = .listKeys now)
    (hstep : s.listing c order = some t) : key ∈ order ↔ s.dict.Live now key := by
  rw [← Dict.mem_keys_iff_live]
  simp only [listing, htask] at hstep
  split_ifs at hstep with hperm
  exact hperm.mem_iff

/-- A deletion is broadcast exactly when the dictionary reports it. -/
theorem delete_step (htask : (s.conns c).task = .delete key id) (hstep : s.run c = some t) :
    (∃ stamp, t.fansOut (.run c) = some (key, ⟨.key_deleted key, stamp⟩)) ↔
      (s.dict.delete key).2 = true := by
  simp only [run, htask] at hstep
  split at hstep
  · next dict hdelete =>
    obtain rfl := Option.some.inj hstep
    simp [hdelete, fansOut, Conn.goto]
  · next dict hdelete =>
    obtain rfl := Option.some.inj hstep
    simp [hdelete, fansOut, Conn.goto]

/-- A step treats expired entries as absent exactly when it deletes no stale key. -/
theorem treatsExpiredAsAbsent_iff {a : Action V} :
    s.TreatsExpiredAsAbsent a ↔ ¬s.DeletesExpired a := by
  constructor
  · rintro h ⟨c, key, id, rfl, htask, hstale⟩
    obtain ⟨t, ht⟩ : ∃ t, s.run c = some t := by
      simp only [run, htask]
      split
      · exact ⟨_, rfl⟩
      · exact ⟨_, rfl⟩
    -- the deletion answers success for a stale key, and a read would not have found it
    exact Dict.delete_iff_live.1 (h.delete c key id t rfl htask ht).1 hstale
  · intro h
    refine ⟨?_, ?_, ?_⟩
    · rintro c key id t rfl htask hstep
      exact get_step htask hstep
    · rintro c order now t rfl htask hstep key
      exact listing_step htask hstep
    · rintro c key id t rfl htask hstep
      have hlive := Dict.delete_iff_live.2 fun hstale => h ⟨c, key, id, rfl, htask, hstale⟩
      exact ⟨hlive, (delete_step htask hstep).trans hlive⟩

end State

/-- `get` and `keys` find exactly the live keys, and the requests of a run all do exactly when no
step of the run deletes a stale key. -/
theorem treatsExpiredAsAbsent_along_iff (as : List (Action V)) :
    (∀ (d : Dict V) (now : ℕ) (key : Text),
      ((d.get now key).isSome ↔ d.Live now key) ∧ (key ∈ d.keys now ↔ d.Live now key)) ∧
    (Run.Along State.step State.TreatsExpiredAsAbsent init as ↔
      Run.Along State.step (fun s a => ¬s.DeletesExpired a) init as) := by
  refine ⟨fun d now key => ⟨Dict.get_isSome_iff_live, Dict.mem_keys_iff_live⟩, ?_⟩
  exact Run.along_congr fun s a => State.treatsExpiredAsAbsent_iff

/-- A value of `k` expires, and the key is deleted before the next sweep. -/
def staleRun : List (Action ℕ) :=
  [.request 0 (.set ['k'] 1 (some 5)), .run 0, .run 0, .tick 5, .request 0 (.delete ['k'] none)]

/-- The expired value cannot be got and the key is not listed, but its deletion is reported and
broadcast. -/
theorem staleRun_broadcasts :
    (Run.exec State.step init staleRun).map (fun s =>
      (s.dict.get s.now ['k'], s.dict.keys s.now, (s.dict.delete ['k']).2)) =
        some (none, [], true) ∧
    (Run.exec State.step init (staleRun ++ [.run 0])).map (fun t =>
      (t.fansOut (.run 0)).map fun notification => (notification.1, notification.2.msg)) =
        some (some (['k'], .key_deleted ['k'])) ∧
    ¬Run.Along State.step State.TreatsExpiredAsAbsent init (staleRun ++ [.run 0]) := by
  refine ⟨by decide, by decide, fun h => ?_⟩
  obtain ⟨s, hs⟩ := Option.isSome_iff_exists.1
    (by decide : (Run.exec State.step init staleRun).isSome)
  have htask : (Run.exec State.step init staleRun).map (fun s => (s.conns 0).task) =
      some (.delete ['k'] none) := rfl
  have hget : (Run.exec State.step init staleRun).all (fun s =>
      (s.dict.get s.now ['k']).isNone && (s.dict.delete ['k']).2 && (s.run 0).isSome) := by
    decide
  rw [hs, Option.map_some, Option.some.injEq] at htask
  rw [hs, Option.all_some, Bool.and_eq_true, Bool.and_eq_true, Option.isNone_iff_eq_none] at hget
  obtain ⟨t, ht⟩ := Option.isSome_iff_exists.1 hget.2
  -- the last step deletes `k`, which has expired and has not been swept
  have hagrees := Run.along_iff.1 h staleRun (.run 0) List.prefix_rfl s hs
  have hlive := (hagrees.delete 0 ['k'] none t rfl htask ht).1.1 hget.1.2
  have hsome := Dict.get_isSome_iff_live.2 hlive
  rw [hget.1.1] at hsome
  cases hsome

end GranolaSdr.WsServer
