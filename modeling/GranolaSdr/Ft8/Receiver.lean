import GranolaSdr.Ft8.CallsignCount
import GranolaSdr.Ft8.MessageCodec

/-!
# What a receiver decodes

A receiver decodes payload after payload with one hash table of callsigns, and cleans the table up
from time to time. The payloads are what has passed the checksum, and so they are arbitrary.

## Main definitions

* `RxOp`, `receive`: the steps of a receiver, and its table after some of them.

## Main results

* `exists_run`: the table is one that additions and cleanups lead to, and each callsign is added
  under its own hash;
* `received_bounded`: the texts and their fields fit into their buffers;
* `lookup_right`: a callsign that is shown for a hash has that hash;
* `resolved`: once a callsign has been heard in full, its hash is resolved, until the next cleanup.
-/

namespace GranolaSdr.Ft8

open LinearProbing HashTable

/-- The steps of a receiver. -/
inductive RxOp where
  | init
  | decode (payload : List UInt8)
  | cleanup (max_age : Fin 256)

/-- The table after a step. -/
def HashTable.rx (t : HashTable) : RxOp → HashTable
  | .init => hashtable_init
  | .decode payload => (ftx_message_decode HashInterface.table payload t).2
  | .cleanup max_age => hashtable_cleanup max_age t

/-- The table after some steps. -/
def receive (ops : List RxOp) : HashTable := ops.foldl HashTable.rx hashtable_init

/-! ## Buffers -/

/-- The stored callsigns have at most eleven characters. -/
def HashTable.Short (t : HashTable) : Prop := ∀ i, (t.slots i).callsign.length ≤ 11

theorem bounded_table : HashInterface.table.Bounded HashTable.Short where
  lookup := by
    intro t ht hash_type hash callsign h
    obtain ⟨_, ⟨i, -, rfl, -⟩, -⟩ := stored_of_lookup h
    exact ht i
  save := by
    intro t ht callsign hash i
    change ((hashtable_add callsign hash t).slots i).callsign.length ≤ 11
    -- an addition writes one slot at most, and cuts the callsign to eleven characters
    cases added_add callsign hash t with
    | refreshed j before after _ others _ =>
      rcases eq_or_ne i j with rfl | hne
      · rw [after.2.1, ← before.2.1]
        exact ht i
      · rw [others i hne]
        exact ht i
    | filled j _ after others _ =>
      rcases eq_or_ne i j with rfl | hne
      · rw [after]
        exact (List.length_take_le _ _)
      · rw [others i hne]
        exact ht i
    | full _ _ same =>
      rw [same]
      exact ht i

theorem short_receive (ops : List RxOp) : (receive ops).Short := by
  refine List.foldlRecOn ops HashTable.rx (fun _ => Nat.zero_le _) fun t ht op _ => ?_
  cases op with
  | init => exact fun _ => Nat.zero_le _
  | decode payload => exact (decode_bounded bounded_table ht payload).1
  | cleanup max_age =>
    intro i
    change (cleanupSlot max_age (t.slots i)).callsign.length ≤ 11
    unfold cleanupSlot
    split_ifs
    · exact Nat.zero_le _
    · rw [callsign_aged]
      exact ht i
    · exact ht i

/-- Whatever a receiver has decoded before, the text of a payload has at most 34 characters, and its
fields at most 13, 13 and 6. -/
theorem received_bounded (ops : List RxOp) (payload : List UInt8) :
    (∀ text, (ftx_message_decode HashInterface.table payload (receive ops)).1 = .ok text →
      text.length ≤ 34) ∧
    (∀ f, (ftx_message_decode_std HashInterface.table payload (receive ops)).1 = .ok f →
      f.1.length ≤ 13 ∧ f.2.1.length ≤ 13 ∧ f.2.2.length ≤ 6) ∧
    let f := (ftx_message_decode_nonstd HashInterface.table payload (receive ops)).1
    f.1.length ≤ 13 ∧ f.2.1.length ≤ 13 ∧ f.2.2.length ≤ 6 :=
  ⟨(decode_bounded bounded_table (short_receive ops) payload).2,
    (decode_std_bounded bounded_table (short_receive ops) payload).2,
    (decode_nonstd_bounded bounded_table (short_receive ops) payload).2⟩

/-! ## Hashes -/

/-- An addition of a callsign under its own hash, or no addition. -/
def Op.Own : Op → Prop
  | .add callsign hash => ∃ n58, callsign58 callsign.chars = some n58 ∧ (hash : ℕ) = hash22 n58
  | _ => True

/-- A table that another one leads to by additions of callsigns under their own hashes. -/
def HashTable.Adds (t t' : HashTable) : Prop :=
  ∃ adds : List (Callsign × Fin (2 ^ 22)), t' = (adds.map fun a => Op.add a.1 a.2).foldl apply t ∧
    ∀ a ∈ adds, Op.Own (.add a.1 a.2)

theorem HashTable.Adds.refl (t : HashTable) : t.Adds t := ⟨[], rfl, by simp⟩

theorem HashTable.Adds.trans {t t' t'' : HashTable} (h : t.Adds t') (h' : t'.Adds t'') :
    t.Adds t'' := by
  obtain ⟨adds, rfl, hadds⟩ := h
  obtain ⟨adds', rfl, hadds'⟩ := h'
  refine ⟨adds ++ adds', by rw [List.map_append, List.foldl_append], fun a ha => ?_⟩
  exact (List.mem_append.1 ha).elim (hadds a) (hadds' a)

/-- A callsign is saved under its own hash. -/
theorem adds_save_callsign {callsign : List Char} (hne : callsign ≠ [])
    (hlen : callsign.length ≤ 11) (t : HashTable) :
    t.Adds (save_callsign HashInterface.table callsign t).2 := by
  unfold save_callsign
  cases hn58 : callsign58 callsign with
  | none => exact .refl t
  | some n58 =>
    refine ⟨[(⟨callsign, hne, hlen⟩, ⟨hash22 n58, hash22_lt_max n58⟩)], rfl, fun a ha => ?_⟩
    obtain rfl := List.mem_singleton.1 ha
    exact ⟨n58, hn58, rfl⟩

theorem adds_appendSuffix {base : List Char} (hbase : base.length ≤ 7) (ip : Bool) (i3 : ℕ)
    (t : HashTable) : t.Adds (appendSuffix HashInterface.table base ip i3 t).2 := by
  unfold appendSuffix
  split_ifs with hshort
  · exact .refl t
  · split
    · exact .refl t
    · next suf hsuf =>
      have hsuffix := length_suffix hsuf
      have hne : base ++ suf ≠ [] := by
        rw [← List.length_pos_iff, List.length_append]
        omega
      have hle : (base ++ suf).length ≤ 11 := by
        rw [List.length_append]
        omega
      exact adds_save_callsign hne hle t

theorem adds_unpack28 (n28 : ℕ) (ip : Bool) (i3 : ℕ) (t : HashTable) :
    t.Adds (unpack28 HashInterface.table n28 ip i3 t).2 := by
  unfold unpack28
  by_cases htoken : n28 < NTOKENS
  · rw [if_pos htoken]
    exact .refl t
  · rw [if_neg htoken]
    by_cases hhash : n28 - NTOKENS < MAX22
    · rw [if_pos hhash]
      exact .refl t
    · rw [if_neg hhash]
      exact adds_appendSuffix (length_basecallText (length_unpackBasecall _)) ip i3 t

theorem adds_unpack58 (n58 : ℕ) (t : HashTable) :
    t.Adds (unpack58 HashInterface.table n58 t).2 := by
  unfold unpack58
  have hlen := length_trim_copy_le (unpackChars (List.replicate 11 .alphanumSpaceSlash) n58)
  rw [length_unpackChars, List.length_replicate] at hlen
  generalize trim_copy (unpackChars (List.replicate 11 .alphanumSpaceSlash) n58) = callsign
    at hlen ⊢
  dsimp only
  split_ifs with hlong
  · exact adds_save_callsign (List.ne_nil_of_length_pos (by omega)) hlen t
  · exact .refl t

theorem adds_decode_std (payload : List UInt8) (t : HashTable) :
    t.Adds (ftx_message_decode_std HashInterface.table payload t).2 := by
  unfold ftx_message_decode_std
  obtain ⟨n29a, n29b, ir, igrid4⟩ := unpackStd payload
  generalize ftx_message_get_i3 payload = i3
  dsimp only
  have hfirst := adds_unpack28 (n29a >>> 1) (n29a &&& 1 != 0) i3 t
  generalize unpack28 HashInterface.table (n29a >>> 1) (n29a &&& 1 != 0) i3 t = first at hfirst ⊢
  rcases first with ⟨_ | call_to, t₁⟩
  · exact hfirst
  · have hsecond := hfirst.trans (adds_unpack28 (n29b >>> 1) (n29b &&& 1 != 0) i3 t₁)
    dsimp only at hsecond ⊢
    generalize unpack28 HashInterface.table (n29b >>> 1) (n29b &&& 1 != 0) i3 t₁ = second
      at hsecond ⊢
    rcases second with ⟨_ | call_de, t₂⟩
    · exact hsecond
    · exact hsecond

/-- A message with a callsign in full changes the table as reading the callsign does. -/
theorem decode_nonstd_snd (payload : List UInt8) (t : HashTable) :
    (ftx_message_decode_nonstd HashInterface.table payload t).2 =
      (unpack58 HashInterface.table (unpackNonstd payload).n58 t).2 := by
  unfold ftx_message_decode_nonstd
  dsimp only

/-- A payload of any kind only adds callsigns to the table. -/
theorem adds_decode (payload : List UInt8) (t : HashTable) :
    t.Adds (ftx_message_decode HashInterface.table payload t).2 := by
  unfold ftx_message_decode
  split
  · exact adds_decode_std payload t
  · have hadds := adds_unpack58 (unpackNonstd payload).n58 t
    rw [← decode_nonstd_snd] at hadds
    generalize ftx_message_decode_nonstd HashInterface.table payload t = decoded at hadds ⊢
    exact hadds
  · exact .refl t
  · exact .refl t
  · exact .refl t

/-- Each step of a receiver is made up of operations on the table. -/
theorem exists_ops (t : HashTable) (op : RxOp) :
    ∃ ops : List Op, t.rx op = ops.foldl apply t ∧ ∀ op ∈ ops, op.Own := by
  cases op with
  | init => exact ⟨[.init], rfl, by simp [Op.Own]⟩
  | decode payload =>
    obtain ⟨adds, hadds, hown⟩ := adds_decode payload t
    refine ⟨adds.map fun a => Op.add a.1 a.2, ?_, fun op hop => ?_⟩
    · exact hadds
    · obtain ⟨a, ha, rfl⟩ := List.mem_map.1 hop
      exact hown a ha
  | cleanup max_age => exact ⟨[.cleanup max_age], rfl, by simp [Op.Own]⟩

/-- The table of a receiver is one that additions and cleanups lead to, and each callsign is added
under its own hash. -/
theorem exists_run (rx : List RxOp) :
    ∃ ops, receive rx = run ops ∧ ∀ op ∈ ops, op.Own := by
  induction rx using List.reverseRecOn with
  | nil => exact ⟨[], rfl, by simp⟩
  | append_singleton rx op ih =>
    obtain ⟨ops, hrun, hown⟩ := ih
    obtain ⟨more, hmore, hown'⟩ := exists_ops (receive rx) op
    refine ⟨ops ++ more, ?_, fun op hop => (List.mem_append.1 hop).elim (hown op) (hown' op)⟩
    rw [receive, List.foldl_append, run, List.foldl_append, ← run, ← hrun]
    exact hmore

/-- Every callsign is stored under its own hash. -/
def HashTable.OwnHashes (t : HashTable) : Prop :=
  ∀ callsign hash, t.Stored callsign hash →
    ∃ n58, callsign58 callsign = some n58 ∧ hash = hash22 n58

theorem ownHashes_apply {t : HashTable} (ht : t.OwnHashes) {op : Op} (hop : op.Own) :
    (t.apply op).OwnHashes := by
  have hinit : hashtable_init.OwnHashes := by
    rintro callsign hash ⟨i, hocc, -, -⟩
    exact absurd rfl hocc
  intro callsign hash hstored
  -- what is stored now was stored before, or has just been added with its own hash
  obtain ⟨i, hi⟩ : ∃ i, (t.apply op).entries i = some (callsign, hash) := by
    obtain ⟨i, hocc, hc, hh⟩ := hstored
    exact ⟨i, entries_eq_some_iff.2 ⟨hocc, hc, hh⟩⟩
  have hold : t.entries i = some (callsign, hash) →
      ∃ n58, callsign58 callsign = some n58 ∧ hash = hash22 n58 := by
    intro h
    exact ht callsign hash ⟨i, entries_eq_some_iff.1 h⟩
  cases op with
  | init => exact hinit callsign hash hstored
  | cleanup max_age =>
    change (hashtable_cleanup max_age t).entries i = _ at hi
    rw [entries_cleanup, Table.erase] at hi
    split_ifs at hi
    exact hold hi
  | add call h =>
    change (hashtable_add call.chars h t).entries i = _ at hi
    obtain ⟨n58, hn58, hh⟩ := hop
    rcases entries_add (t := t) call.chars h.isLt with hsame | ⟨d, -, -, -, -, hnew⟩
    · exact hold (hsame ▸ hi)
    · rw [hnew] at hi
      by_cases hslot : i = slot (slotOf h) d
      · rw [hslot, Function.update_self] at hi
        obtain ⟨rfl, rfl⟩ := Prod.mk.inj (Option.some.inj hi)
        rw [List.take_of_length_le call.length_le]
        exact ⟨n58, hn58, hh⟩
      · rw [Function.update_of_ne hslot] at hi
        exact hold hi

theorem ownHashes_receive (rx : List RxOp) : (receive rx).OwnHashes := by
  obtain ⟨ops, hrun, hown⟩ := exists_run rx
  rw [hrun]
  refine List.foldlRecOn ops apply ?_ fun t ht op hop => ownHashes_apply ht (hown op hop)
  rintro callsign hash ⟨i, hocc, -, -⟩
  exact absurd rfl hocc

/-- A callsign that is found for a hash of any width has a hash with these leading bits. -/
theorem hash_of_lookup (rx : List RxOp) {hash_type : ftx_callsign_hash_type_t} {hash : ℕ}
    {callsign : List Char} (h : hashtable_lookup hash_type hash (receive rx) = some callsign) :
    ∃ n58, callsign58 callsign = some n58 ∧ hash22 n58 >>> hash_shift hash_type = hash := by
  obtain ⟨h22, hstored, hshift⟩ := stored_of_lookup h
  obtain ⟨n58, hn58, rfl⟩ := ownHashes_receive rx callsign h22 hstored
  exact ⟨n58, hn58, hshift⟩

theorem lookup_callsign_eq {hash_type : ftx_callsign_hash_type_t} {hash : ℕ} {t : HashTable}
    {call : List Char} (h : hashtable_lookup hash_type hash t = some call) :
    lookup_callsign HashInterface.table hash_type hash t = add_brackets call := by
  have htable : HashInterface.table.lookup_hash hash_type hash t = some call := h
  rw [lookup_callsign, htable]

theorem lookup_callsign_of_none {hash_type : ftx_callsign_hash_type_t} {hash : ℕ} {t : HashTable}
    (h : hashtable_lookup hash_type hash t = none) :
    lookup_callsign HashInterface.table hash_type hash t = ['<', '.', '.', '.', '>'] := by
  have htable : HashInterface.table.lookup_hash hash_type hash t = none := h
  rw [lookup_callsign, htable]

/-- What a receiver shows for a hash of any width, whatever it has received and cleaned up: three
dots, or a callsign whose own hash has these leading bits. -/
theorem lookup_right (rx : List RxOp) (hash_type : ftx_callsign_hash_type_t) (hash : ℕ) :
    lookup_callsign HashInterface.table hash_type hash (receive rx) = ['<', '.', '.', '.', '>'] ∨
      ∃ callsign n58, lookup_callsign HashInterface.table hash_type hash (receive rx) =
          add_brackets callsign ∧
        callsign58 callsign = some n58 ∧ hash22 n58 >>> hash_shift hash_type = hash := by
  cases hlookup : hashtable_lookup hash_type hash (receive rx) with
  | none => exact Or.inl (lookup_callsign_of_none hlookup)
  | some callsign =>
    obtain ⟨n58, hn58, hhash⟩ := hash_of_lookup rx hlookup
    exact Or.inr ⟨callsign, n58, lookup_callsign_eq hlookup, hn58, hhash⟩

/-! ## Callsigns that have been heard -/

/-- A table that keeps what another one has stored, where it is. -/
def HashTable.Grows (t t' : HashTable) : Prop :=
  ∀ i callsign hash, Holds (t.slots i) callsign hash → Holds (t'.slots i) callsign hash

theorem HashTable.Grows.refl (t : HashTable) : t.Grows t := fun _ _ _ h => h

theorem HashTable.Grows.trans {t t' t'' : HashTable} (h : t.Grows t') (h' : t'.Grows t'') :
    t.Grows t'' := fun i callsign hash hi => h' i callsign hash (h i callsign hash hi)

theorem HashTable.Grows.occupied {t t' : HashTable} (h : t.Grows t')
    {i : Fin CALLSIGN_HASHTABLE_SIZE} (hi : (t.slots i).Occupied) : (t'.slots i).Occupied :=
  (h i _ _ ⟨hi, rfl, rfl⟩).1

theorem grows_add (t : HashTable) (callsign : List Char) (hash : ℕ) :
    t.Grows (hashtable_add callsign hash t) := by
  intro i c h hi
  cases added_add callsign hash t with
  | refreshed j before after _ others _ =>
    rcases eq_or_ne i j with rfl | hne
    · rwa [← hi.2.1, ← hi.2.2, before.2.1, before.2.2]
    · rwa [others i hne]
  | filled j before _ others _ =>
    rcases eq_or_ne i j with rfl | hne
    · exact absurd hi.1 before
    · rwa [others i hne]
  | full _ _ same => rwa [same]

theorem HashTable.Adds.grows {t t' : HashTable} (h : t.Adds t') : t.Grows t' := by
  obtain ⟨adds, rfl, -⟩ := h
  refine List.foldlRecOn _ apply (.refl t) fun t' ht' op hop => ?_
  obtain ⟨a, -, rfl⟩ := List.mem_map.1 hop
  exact ht'.trans (grows_add t' a.1.chars a.2)

/-- A callsign is stored on the way that a search for its hash takes through occupied slots. -/
def HashTable.Reached (t : HashTable) (callsign : List Char) (hash : ℕ) : Prop :=
  ∃ d < CALLSIGN_HASHTABLE_SIZE, Holds (t.slots (slot (slotOf hash) d)) callsign hash ∧
    ∀ e < d, (t.slots (slot (slotOf hash) e)).Occupied

namespace HashTable.Reached

variable {t t' : HashTable} {callsign : List Char} {hash : ℕ}

theorem mono (h : t.Reached callsign hash) (hgrows : t.Grows t') : t'.Reached callsign hash := by
  obtain ⟨d, hd, hholds, hpath⟩ := h
  exact ⟨d, hd, hgrows _ _ _ hholds, fun e he => hgrows.occupied (hpath e he)⟩

theorem stored (h : t.Reached callsign hash) : t.Stored callsign hash := by
  obtain ⟨d, -, hholds, -⟩ := h
  exact ⟨slot (slotOf hash) d, hholds⟩

theorem isSome_lookup (h : t.Reached callsign hash) :
    (hashtable_lookup .FTX_CALLSIGN_HASH_22_BITS hash t).isSome := by
  obtain ⟨d, hd, ⟨hocc, -, hhash⟩, hpath⟩ := h
  refine isSome_lookup22_of_slot hd hhash fun e he => ?_
  rcases Nat.lt_or_eq_of_le he with hlt | rfl
  · exact hpath e hlt
  · exact hocc

end HashTable.Reached

/-- An added callsign is reached, whatever the table is like, unless it is full. -/
theorem reached_add {callsign : List Char} (hne : callsign ≠ []) (hlen : callsign.length ≤ 11)
    {hash : ℕ} (hhash : hash < 2 ^ 22) (t : HashTable) :
    (hashtable_add callsign hash t).Reached callsign hash ∨
      ∀ i, ((hashtable_add callsign hash t).slots i).Occupied := by
  have hgrows := grows_add t callsign hash
  obtain ⟨d, -, hbefore, hend⟩ := probe_spec (fun i => (t.slots i).Occupied)
    (fun i => (t.slots i).hash &&& hashMask = hash ∧ (t.slots i).callsign = callsign)
    CALLSIGN_HASHTABLE_SIZE (slotOf hash)
  have hpath : ∀ e < d, ((hashtable_add callsign hash t).slots (slot (slotOf hash) e)).Occupied :=
    fun e he => hgrows.occupied (hbefore e he).1
  rcases hend with ⟨hd, hocc, hmatch, -⟩ | ⟨hd, hfree, hprobe⟩ | ⟨rfl, -⟩
  · -- it has been there before
    exact Or.inl ⟨d, hd, hgrows _ _ _ ⟨hocc, hmatch.2, hmatch.1⟩, hpath⟩
  · refine Or.inl ⟨d, hd, ?_, hpath⟩
    rw [hashtable_add, HashTable.probe, hprobe]
    dsimp only
    rw [store, if_neg hfree, List.take_of_length_le hlen]
    dsimp only
    rw [Function.update_self]
    exact ⟨hne, rfl, (hash22_eq_mod _).trans (Nat.mod_eq_of_lt hhash)⟩
  · -- the search has seen all slots
    refine Or.inr fun i => ?_
    rw [← slot_dist (slotOf hash) i]
    exact hpath _ (dist_lt _ _)

/-- Payloads that are decoded one after the other. -/
def decodeAll (payloads : List (List UInt8)) (t : HashTable) : HashTable :=
  payloads.foldl (fun t payload => t.rx (.decode payload)) t

theorem grows_decodeAll (payloads : List (List UInt8)) (t : HashTable) :
    t.Grows (decodeAll payloads t) :=
  List.foldlRecOn payloads _ (.refl t) fun _ ht payload _ => ht.trans (adds_decode payload _).grows

theorem decodeAll_receive (payloads : List (List UInt8)) (ops : List RxOp) :
    decodeAll payloads (receive ops) = receive (ops ++ payloads.map .decode) := by
  rw [receive, receive, List.foldl_append, List.foldl_map]
  rfl

/-- The callsign that a message has in full. -/
def fullCall (payload : List UInt8) : List Char :=
  trim_copy (unpackChars (List.replicate 11 .alphanumSpaceSlash) (unpackNonstd payload).n58)

theorem length_fullCall_le (payload : List UInt8) : (fullCall payload).length ≤ 11 := by
  have hlen := length_trim_copy_le
    (unpackChars (List.replicate 11 .alphanumSpaceSlash) (unpackNonstd payload).n58)
  rwa [length_unpackChars, List.length_replicate] at hlen

/-- A callsign that has been read has a hash. -/
theorem isSome_callsign58_fullCall (payload : List UInt8) :
    (callsign58 (fullCall payload)).isSome := by
  have hchars : ∀ c ∈ fullCall payload, (nchar c .alphanumSpaceSlash).isSome := by
    intro c hc
    have hmem :
        c ∈ unpackChars (List.replicate 11 .alphanumSpaceSlash) (unpackNonstd payload).n58 :=
      (List.dropWhile_sublist _).subset ((List.rdropWhile_prefix _ _).subset hc)
    obtain ⟨table, htable, k, hk⟩ := exists_nchar_of_packChars (length_unpackChars _ _).symm
      (packChars_unpackChars _ _) hmem
    rw [List.eq_of_mem_replicate htable] at hk
    rw [hk]
    rfl
  rw [callsign58, List.take_of_length_le (length_fullCall_le payload), Option.isSome_map]
  exact isSome_packChars_replicate hchars

/-- A message with a callsign in full adds it to the table. -/
theorem rx_fullCall {payload : List UInt8}
    (htype : ftx_message_get_type payload = .FTX_MESSAGE_TYPE_NONSTD_CALL)
    (hlen : 3 ≤ (fullCall payload).length) {n58 : ℕ}
    (hn58 : callsign58 (fullCall payload) = some n58) (t : HashTable) :
    t.rx (.decode payload) = hashtable_add (fullCall payload) (hash22 n58) t := by
  have hdecode : t.rx (.decode payload) =
      (unpack58 HashInterface.table (unpackNonstd payload).n58 t).2 := by
    rw [rx, ftx_message_decode, htype, ← decode_nonstd_snd]
  unfold fullCall at hlen hn58 ⊢
  rw [hdecode, unpack58]
  generalize trim_copy (unpackChars (List.replicate 11 .alphanumSpaceSlash)
    (unpackNonstd payload).n58) = callsign at hlen hn58 ⊢
  dsimp only
  rw [if_pos hlen, save_callsign, hn58]
  rfl

/-- Once a callsign has been heard in full, it is stored and its hash is resolved to a callsign with
this hash, as long as the table has a free slot and has not been cleaned up since. What the receiver
has decoded and cleaned up before does not matter. -/
theorem resolved (before : List RxOp) (after : List (List UInt8)) {payload : List UInt8}
    (htype : ftx_message_get_type payload = .FTX_MESSAGE_TYPE_NONSTD_CALL)
    (hlen : 3 ≤ (fullCall payload).length)
    (hfree : ∃ i, ¬ ((decodeAll (payload :: after) (receive before)).slots i).Occupied) :
    ∃ n58, callsign58 (fullCall payload) = some n58 ∧
      (decodeAll (payload :: after) (receive before)).Stored (fullCall payload) (hash22 n58) ∧
      ∃ call, lookup_callsign HashInterface.table .FTX_CALLSIGN_HASH_22_BITS (hash22 n58)
          (decodeAll (payload :: after) (receive before)) = add_brackets call ∧
        ∃ n58', callsign58 call = some n58' ∧ hash22 n58' = hash22 n58 := by
  obtain ⟨n58, hn58⟩ := Option.isSome_iff_exists.1 (isSome_callsign58_fullCall payload)
  have hgrows := grows_decodeAll after ((receive before).rx (.decode payload))
  change HashTable.Grows _ (decodeAll (payload :: after) (receive before)) at hgrows
  have hne : fullCall payload ≠ [] := List.ne_nil_of_length_pos (by omega)
  have hadd := reached_add hne (length_fullCall_le payload) (hash22_lt_max n58) (receive before)
  rw [← rx_fullCall htype hlen hn58] at hadd
  have hreached : (decodeAll (payload :: after) (receive before)).Reached (fullCall payload)
      (hash22 n58) := by
    rcases hadd with h | hfull
    · exact h.mono hgrows
    · obtain ⟨i, hi⟩ := hfree
      exact absurd (hgrows.occupied (hfull i)) hi
  obtain ⟨call, hcall⟩ := Option.isSome_iff_exists.1 hreached.isSome_lookup
  refine ⟨n58, hn58, hreached.stored, call, lookup_callsign_eq hcall, ?_⟩
  rw [decodeAll_receive] at hcall
  exact hash_of_lookup _ hcall

/-- The messages `CQ PJ4/K1ABC`, `CQ YW18FIFA` and `CQ VE3/W9XYZ`. -/
def cqNonstd : List UInt8 := packNonstd 0 115348937549825 0 0 1

def cqFifa : List UInt8 := packNonstd 0 225199321060198248 0 0 1

def cqPortable : List UInt8 := packNonstd 0 203402745425795256 0 0 1

/-- A receiver that has cleaned up twice, the first time everything. -/
def cleanedUp : List RxOp :=
  [.decode cqFifa, .cleanup ⟨0, by decide⟩, .decode cqPortable, .cleanup ⟨5, by decide⟩]

theorem resolved_cqNonstd :
    ∃ n58, callsign58 (fullCall cqNonstd) = some n58 ∧
      (decodeAll [cqNonstd, cqFifa] (receive cleanedUp)).Stored (fullCall cqNonstd)
        (hash22 n58) ∧
      ∃ call, lookup_callsign HashInterface.table .FTX_CALLSIGN_HASH_22_BITS (hash22 n58)
          (decodeAll [cqNonstd, cqFifa] (receive cleanedUp)) = add_brackets call ∧
        ∃ n58', callsign58 call = some n58' ∧ hash22 n58' = hash22 n58 :=
  resolved cleanedUp [cqFifa] (by decide) (by decide +kernel) ⟨0, by decide +kernel⟩

end GranolaSdr.Ft8
