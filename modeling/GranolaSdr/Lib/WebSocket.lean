import Mathlib.Data.Fin.Basic
import Mathlib.Data.List.Basic
import Mathlib.Tactic.Ring

/-!
# WebSocket framing

The frame format of RFC 6455: a byte with the final flag and the opcode, the mask flag and the
length in one of three forms, the masking key if there is one, and the payload, masked if there is a
key. The length forms are the shortest that fit, as the format demands.

## Main definitions

* `SelfDelimiting`: a code whose reader takes exactly what was written, whatever follows;
* `SelfDelimiting.Complete`: a sequence of letters is made of whole codewords;
* `bigEndian`, `applyMask`: numbers in network byte order, and masking;
* `Frame`, `Frame.encode`, `Frame.decode`: frames, and how they are written and read.

## Main results

* `SelfDelimiting.complete_append_iff`: whole codewords in front do not matter;
* `frames`: frames are a self-delimiting code.
-/

namespace WebSocket

/-! ## Self-delimiting codes -/

/-- A writer and a reader that takes exactly what was written, whatever follows. -/
structure SelfDelimiting (α β : Type*) where
  encode : α → List β
  decode : List β → Option (α × List β)
  decode_encode : ∀ a rest, decode (encode a ++ rest) = some (a, rest)
  decode_nil : decode [] = none

namespace SelfDelimiting

variable {α β : Type*} (code : SelfDelimiting α β) {P : α → Prop}

/-- The letters are those of whole codewords, of symbols with a property. -/
def Complete (P : α → Prop) (letters : List β) : Prop :=
  ∃ symbols : List α, (∀ a ∈ symbols, P a) ∧ letters = symbols.flatMap code.encode

variable {code}

theorem encode_ne_nil (a : α) : code.encode a ≠ [] := by
  intro hnil
  have h := code.decode_encode a []
  rw [hnil, List.append_nil, code.decode_nil] at h
  cases h

theorem complete_nil : code.Complete P [] := ⟨[], by simp, rfl⟩

theorem complete_encode {a : α} (ha : P a) : code.Complete P (code.encode a) :=
  ⟨[a], by simpa using ha, by simp⟩

theorem Complete.append {letters more : List β} (h : code.Complete P letters)
    (hmore : code.Complete P more) : code.Complete P (letters ++ more) := by
  obtain ⟨symbols, hsymbols, rfl⟩ := h
  obtain ⟨others, hothers, rfl⟩ := hmore
  refine ⟨symbols ++ others, ?_, List.flatMap_append.symm⟩
  rw [List.forall_mem_append]
  exact ⟨hsymbols, hothers⟩

/-- Letters that are no beginning of a codeword are not complete. -/
theorem not_complete_of_decode_eq_none {letters : List β} (hne : letters ≠ [])
    (h : code.decode letters = none) : ¬code.Complete P letters := by
  rintro ⟨symbols, -, rfl⟩
  cases symbols with
  | nil => exact hne rfl
  | cons a symbols =>
    rw [List.flatMap_cons, code.decode_encode] at h
    cases h

/-- Whole codewords in front do not matter: where one codeword ends the next begins. -/
theorem complete_append_iff {letters more : List β} (h : code.Complete P letters) :
    code.Complete P (letters ++ more) ↔ code.Complete P more := by
  refine ⟨?_, h.append⟩
  obtain ⟨symbols, -, rfl⟩ := h
  induction symbols with
  | nil => exact id
  | cons a symbols ih =>
    rintro ⟨others, hothers, heq⟩
    rw [List.flatMap_cons, List.append_assoc] at heq
    cases others with
    | nil => exact absurd (List.append_eq_nil_iff.1 heq).1 (encode_ne_nil a)
    | cons b others =>
      rw [List.flatMap_cons] at heq
      have hdecode := congrArg code.decode heq
      rw [code.decode_encode, code.decode_encode, Option.some.injEq, Prod.mk.injEq] at hdecode
      exact ih ⟨others, (List.forall_mem_cons.1 hothers).2, hdecode.2⟩

end SelfDelimiting

/-! ## Bytes -/

/-- The last bytes of a number, the most significant first. -/
def bigEndian : ℕ → ℕ → List UInt8
  | 0, _ => []
  | k + 1, n => UInt8.ofNat (n / 256 ^ k) :: bigEndian k n

/-- The number some bytes stand for. -/
def ofBigEndian (bytes : List UInt8) : ℕ := bytes.foldl (fun n b => n * 256 + b.toNat) 0

@[simp]
theorem length_bigEndian (k n : ℕ) : (bigEndian k n).length = k := by
  induction k with
  | zero => rfl
  | succ k ih => rw [bigEndian, List.length_cons, ih]

theorem foldl_bigEndian (k n acc : ℕ) :
    (bigEndian k n).foldl (fun n b => n * 256 + b.toNat) acc = acc * 256 ^ k + n % 256 ^ k := by
  induction k generalizing acc with
  | zero => simp [bigEndian, Nat.mod_one]
  | succ k ih =>
    have hsplit : n % (256 ^ k * 256) = n % 256 ^ k + 256 ^ k * (n / 256 ^ k % 256) :=
      Nat.mod_mul
    have hbyte : (UInt8.ofNat (n / 256 ^ k)).toNat = n / 256 ^ k % 256 := UInt8.toNat_ofNat'
    rw [bigEndian, List.foldl_cons, ih, hbyte, Nat.pow_succ 256, hsplit]
    ring

theorem ofBigEndian_bigEndian {k n : ℕ} (h : n < 256 ^ k) : ofBigEndian (bigEndian k n) = n := by
  rw [ofBigEndian, foldl_bigEndian, Nat.zero_mul, Nat.zero_add, Nat.mod_eq_of_lt h]

/-- Split off some bytes, if there are as many. -/
def take? (n : ℕ) (bytes : List UInt8) : Option (List UInt8 × List UInt8) :=
  if n ≤ bytes.length then some (bytes.take n, bytes.drop n) else none

theorem take?_append {front : List UInt8} {n : ℕ} (h : front.length = n) (rest : List UInt8) :
    take? n (front ++ rest) = some (front, rest) := by
  subst h
  simp [take?]

theorem take?_eq_none {n : ℕ} {bytes : List UInt8} (h : bytes.length < n) : take? n bytes = none :=
  if_neg (not_le.2 h)

theorem take?_eq_some {n : ℕ} {bytes : List UInt8} {p : List UInt8 × List UInt8}
    (h : take? n bytes = some p) : p.1.length = n ∧ bytes = p.1 ++ p.2 := by
  unfold take? at h
  split_ifs at h with hn
  cases h
  exact ⟨List.length_take_of_le hn, (List.take_append_drop n bytes).symm⟩

theorem length_le_of_take? {n : ℕ} {bytes : List UInt8} {p : List UInt8 × List UInt8}
    (h : take? n bytes = some p) : p.2.length ≤ bytes.length := by
  rw [(take?_eq_some h).2, List.length_append]
  exact Nat.le_add_left ..

/-- A masking key. -/
abbrev Mask := Fin 4 → UInt8

theorem mod_four_lt (i : ℕ) : i % 4 < 4 := Nat.mod_lt i (by decide)

/-- Masking, and unmasking: the key is repeated. -/
def applyMask (mask : Mask) (bytes : List UInt8) : List UInt8 :=
  bytes.mapIdx fun i b => b ^^^ mask ⟨i % 4, mod_four_lt i⟩

theorem length_applyMask (mask : Mask) (bytes : List UInt8) :
    (applyMask mask bytes).length = bytes.length := List.length_mapIdx

theorem applyMask_applyMask (mask : Mask) (bytes : List UInt8) :
    applyMask mask (applyMask mask bytes) = bytes := by
  refine List.ext_getElem (by simp [applyMask]) fun i _ _ => ?_
  simp only [applyMask, List.getElem_mapIdx]
  rw [UInt8.xor_assoc, UInt8.xor_self, UInt8.xor_zero]

theorem applyMask_zero (bytes : List UInt8) : applyMask (fun _ => 0) bytes = bytes := by
  refine List.ext_getElem (by simp [applyMask]) fun i _ _ => ?_
  simp [applyMask]

/-! ## Frames -/

/-- A frame. -/
structure Frame where
  fin : Bool
  opcode : Fin 16
  mask : Option Mask
  payload : List UInt8
  length_lt : payload.length < 2 ^ 63

/-- The payload as it is sent, and the payload that was sent. -/
def xorPayload : Option Mask → List UInt8 → List UInt8
  | none, payload => payload
  | some mask, payload => applyMask mask payload

@[simp]
theorem length_xorPayload (mask : Option Mask) (payload : List UInt8) :
    (xorPayload mask payload).length = payload.length := by
  cases mask with
  | none => rfl
  | some mask => exact length_applyMask mask payload

@[simp]
theorem xorPayload_xorPayload (mask : Option Mask) (payload : List UInt8) :
    xorPayload mask (xorPayload mask payload) = payload := by
  cases mask with
  | none => rfl
  | some mask => exact applyMask_applyMask mask payload

/-- The length in the second byte, with the bytes that follow it. -/
def lengthField (n : ℕ) : ℕ × List UInt8 :=
  if n < 126 then (n, [])
  else if n < 65536 then (126, bigEndian 2 n)
  else (127, bigEndian 8 n)

/-- The bytes of a masking key. -/
def maskBytes : Option Mask → List UInt8
  | none => []
  | some mask => List.ofFn mask

namespace Frame

/-- The first byte: the final flag and the opcode. -/
def byte0 (f : Frame) : UInt8 := UInt8.ofNat ((if f.fin then 128 else 0) + f.opcode)

/-- The second byte: the mask flag and the length, or the form it has. -/
def byte1 (f : Frame) : UInt8 :=
  UInt8.ofNat ((if f.mask.isSome then 128 else 0) + (lengthField f.payload.length).1)

/-- How a frame is written. -/
def encode (f : Frame) : List UInt8 :=
  [f.byte0, f.byte1] ++ (lengthField f.payload.length).2 ++ maskBytes f.mask ++
    xorPayload f.mask f.payload

end Frame

/-- Read the length that the second byte announces. -/
def decodeLength (n : ℕ) (bytes : List UInt8) : Option (ℕ × List UInt8) :=
  if n = 126 then (take? 2 bytes).map fun p => (ofBigEndian p.1, p.2)
  else if n = 127 then (take? 8 bytes).map fun p => (ofBigEndian p.1, p.2)
  else some (n, bytes)

/-- Read the masking key, if there is one. -/
def decodeMask (masked : Bool) (bytes : List UInt8) : Option (Option Mask × List UInt8) :=
  if masked then (take? 4 bytes).map fun p => (some fun i => p.1.getD i 0, p.2)
  else some (none, bytes)

/-- How a frame is read. -/
def Frame.decode (bytes : List UInt8) : Option (Frame × List UInt8) :=
  (take? 2 bytes).bind fun (head, bytes) =>
  let b0 := (head.getD 0 0).toNat
  let b1 := (head.getD 1 0).toNat
  (decodeLength (b1 % 128) bytes).bind fun (n, bytes) =>
  (decodeMask (128 ≤ b1) bytes).bind fun (mask, bytes) =>
  (take? n bytes).bind fun (payload, bytes) =>
  if h : payload.length < 2 ^ 63 then
    some (⟨128 ≤ b0, ⟨b0 % 16, Nat.mod_lt b0 (by decide)⟩, mask, xorPayload mask payload,
      by simpa using h⟩, bytes)
  else none

theorem length_le_of_decodeLength {n : ℕ} {bytes : List UInt8} {p : ℕ × List UInt8}
    (h : decodeLength n bytes = some p) : p.2.length ≤ bytes.length := by
  unfold decodeLength at h
  split_ifs at h
  · obtain ⟨q, hq, rfl⟩ := Option.map_eq_some_iff.1 h
    exact length_le_of_take? hq
  · obtain ⟨q, hq, rfl⟩ := Option.map_eq_some_iff.1 h
    exact length_le_of_take? hq
  · cases h
    exact le_rfl

theorem length_le_of_decodeMask {masked : Bool} {bytes : List UInt8}
    {p : Option Mask × List UInt8} (h : decodeMask masked bytes = some p) :
    p.2.length ≤ bytes.length := by
  unfold decodeMask at h
  split_ifs at h
  · obtain ⟨q, hq, rfl⟩ := Option.map_eq_some_iff.1 h
    exact length_le_of_take? hq
  · cases h
    exact le_rfl

theorem lengthField_short {n : ℕ} (h : n < 126) : lengthField n = (n, []) := if_pos h

theorem lengthField_middle {n : ℕ} (h : 126 ≤ n) (h' : n < 65536) :
    lengthField n = (126, bigEndian 2 n) := by
  rw [lengthField, if_neg (not_lt.2 h), if_pos h']

theorem lengthField_long {n : ℕ} (h : 65536 ≤ n) : lengthField n = (127, bigEndian 8 n) := by
  rw [lengthField, if_neg (by omega), if_neg (not_lt.2 h)]

theorem lengthField_fst_lt (n : ℕ) : (lengthField n).1 < 128 := by
  rcases lt_or_ge n 126 with h | h
  · rw [lengthField_short h]
    exact h.trans (by decide)
  · rcases lt_or_ge n 65536 with h' | h'
    · rw [lengthField_middle h h']
      exact (by decide : 126 < 128)
    · rw [lengthField_long h']
      exact (by decide : 127 < 128)

/-- The length is read back in each of its forms. -/
theorem decodeLength_append {n : ℕ} (h : n < 2 ^ 63) (rest : List UInt8) :
    decodeLength (lengthField n).1 ((lengthField n).2 ++ rest) = some (n, rest) := by
  rcases lt_or_ge n 126 with hshort | hshort
  · rw [lengthField_short hshort, decodeLength, if_neg hshort.ne, if_neg (by omega),
      List.nil_append]
  · rcases lt_or_ge n 65536 with hmiddle | hmiddle
    · rw [lengthField_middle hshort hmiddle, decodeLength, if_pos rfl,
        take?_append (length_bigEndian 2 n), Option.map_some, ofBigEndian_bigEndian (by omega)]
    · have hform : (127 : ℕ) ≠ 126 := by decide
      rw [lengthField_long hmiddle, decodeLength, if_neg hform, if_pos rfl,
        take?_append (length_bigEndian 8 n), Option.map_some, ofBigEndian_bigEndian (by omega)]

theorem decodeMask_append (mask : Option Mask) (rest : List UInt8) :
    decodeMask mask.isSome (maskBytes mask ++ rest) = some (mask, rest) := by
  cases mask with
  | none => rfl
  | some mask =>
    have hmask : (fun i : Fin 4 => (List.ofFn mask).getD i 0) = mask := by
      ext i
      rw [List.getD_eq_getElem?_getD, List.getElem?_ofFn, dif_pos i.isLt, Option.getD_some]
    rw [maskBytes, decodeMask, Option.isSome_some, if_pos rfl, take?_append (List.length_ofFn ..),
      Option.map_some, hmask]

namespace Frame

/-- Reading a frame takes bytes. -/
theorem length_lt_of_decode {bytes : List UInt8} {p : Frame × List UInt8}
    (h : Frame.decode bytes = some p) : p.2.length < bytes.length := by
  unfold Frame.decode at h
  obtain ⟨head, hhead, h⟩ := Option.bind_eq_some_iff.1 h
  obtain ⟨len, hlen, h⟩ := Option.bind_eq_some_iff.1 h
  obtain ⟨mask, hmask, h⟩ := Option.bind_eq_some_iff.1 h
  obtain ⟨payload, hpayload, h⟩ := Option.bind_eq_some_iff.1 h
  obtain ⟨hhead, hbytes⟩ := take?_eq_some hhead
  have hlen := length_le_of_decodeLength hlen
  have hmask := length_le_of_decodeMask hmask
  -- the two bytes of the head are taken, and the rest takes no byte back
  have hrest := congrArg List.length (take?_eq_some hpayload).2
  have hp : p.2 = payload.2 := by
    dsimp only at h
    split_ifs at h
    exact (Option.some.inj h).symm ▸ rfl
  rw [hp, hbytes, List.length_append, hhead]
  rw [List.length_append] at hrest
  omega

theorem toNat_byte0 (f : Frame) : f.byte0.toNat = (if f.fin then 128 else 0) + f.opcode := by
  have hopcode := f.opcode.isLt
  rw [byte0, UInt8.toNat_ofNat']
  split_ifs <;> omega

theorem toNat_byte1 (f : Frame) :
    f.byte1.toNat = (if f.mask.isSome then 128 else 0) + (lengthField f.payload.length).1 := by
  have hlength := lengthField_fst_lt f.payload.length
  rw [byte1, UInt8.toNat_ofNat']
  split_ifs <;> omega

/-- A frame is read back, and exactly its bytes are taken. -/
theorem decode_encode (f : Frame) (rest : List UInt8) :
    Frame.decode (f.encode ++ rest) = some (f, rest) := by
  have hopcode := f.opcode.isLt
  have hlength := lengthField_fst_lt f.payload.length
  -- the fields of the two header bytes
  have hfin : decide (128 ≤ f.byte0.toNat) = f.fin := by
    rw [toNat_byte0]
    cases f.fin <;> simp; omega
  have hlow : f.byte0.toNat % 16 = f.opcode := by
    rw [toNat_byte0]
    split_ifs <;> omega
  have hmask : decide (128 ≤ f.byte1.toNat) = f.mask.isSome := by
    rw [toNat_byte1]
    cases f.mask.isSome <;> simp; omega
  have hseven : f.byte1.toNat % 128 = (lengthField f.payload.length).1 := by
    rw [toNat_byte1]
    split_ifs <;> omega
  -- the pieces in the order they are read
  have hbytes : f.encode ++ rest = [f.byte0, f.byte1] ++ ((lengthField f.payload.length).2 ++
      (maskBytes f.mask ++ (xorPayload f.mask f.payload ++ rest))) := by
    simp only [Frame.encode, List.append_assoc]
  have hhead : [f.byte0, f.byte1].length = 2 := rfl
  have hpayload := length_xorPayload f.mask f.payload
  rw [hbytes, Frame.decode, take?_append hhead, Option.bind_some]
  simp only [List.getD_cons_zero, List.getD_cons_succ]
  rw [hseven, decodeLength_append f.length_lt, Option.bind_some, hmask, decodeMask_append,
    Option.bind_some, take?_append hpayload, Option.bind_some, dif_pos (by
      rw [hpayload]
      exact f.length_lt)]
  simp only [hfin, hlow, xorPayload_xorPayload]

end Frame

/-- A frame that a client may send: it is masked, and a control frame is short and whole. -/
structure Frame.FromClient (f : Frame) : Prop where
  masked : f.mask.isSome
  control : 8 ≤ f.opcode → f.fin ∧ f.payload.length ≤ 125

/-- Frames are a self-delimiting code. -/
def frames : SelfDelimiting Frame UInt8 where
  encode := Frame.encode
  decode := Frame.decode
  decode_encode := Frame.decode_encode
  decode_nil := rfl

end WebSocket
