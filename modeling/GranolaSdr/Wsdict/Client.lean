import GranolaSdr.Lib.WebSocket

/-!
# The dictionary client's frames

`src/wsdict.h` is a blocking WebSocket client. `send_frame` writes one masked text frame, and
`recv_frame` reads one frame, answering pings on the way.

## Main definitions

* `send_frame`, `recv_frame`: the frame writer and the frame reader;
* `written`: what a client's calls write to the socket;
* `WritesWholeFrames`: at every moment the client has written whole masked frames.

## Main results

* `value?_readFrame`: a frame is read as the format says;
* `recv_all_send_frame`: what the writer writes, the reader reads;
* `writesWholeFrames_iff`: only the answer to a ping with a payload is not a whole frame.
-/

namespace GranolaSdr.Wsdict

open WebSocket

/-! ## Writing -/

/-- The bytes of a `std::string`. -/
structure Text where
  bytes : List UInt8
  length_lt : bytes.length < 2 ^ 63

/-- The length in the header that `send_frame` writes. -/
def header (len : ℕ) : List UInt8 :=
  if len < 126 then [0x80 ||| UInt8.ofNat len]
  else if len < 65536 then
    [0x80 ||| 126, UInt8.ofNat ((len >>> 8) &&& 0xff), UInt8.ofNat (len &&& 0xff)]
  else
    (0x80 ||| 127) :: [7, 6, 5, 4, 3, 2, 1, 0].map fun i => UInt8.ofNat ((len >>> (i * 8)) &&& 0xff)

/-- `send_frame`: a text frame, masked with `std::rand`. -/
def send_frame (text : Text) (mask : Mask) : List UInt8 :=
  0x81 :: header text.bytes.length ++ List.ofFn mask ++
    text.bytes.mapIdx fun i b => b ^^^ mask ⟨i % 4, mod_four_lt i⟩

/-- The answer to a ping whose payload has `len` bytes. -/
def pong (len : ℕ) : List UInt8 := [0x8A, 0x80 ||| UInt8.ofNat (min len 125), 0, 0, 0, 0]

/-- The frame that the destructor sends. -/
def closeFrame : List UInt8 := [0x88, 0x80, 0, 0, 0, 0]

/-! ## Reading -/

/-- What `recv_frame` throws. -/
inductive Error
  | recv_failed
  | closed
  | length_error
deriving DecidableEq

/-- A reader of the socket: its state is the bytes that are not read yet. -/
abbrev Recv := EStateM Error (List UInt8)

/-- `read_exact`. -/
def read_exact (n : ℕ) : Recv (List UInt8) := fun unread =>
  if unread.length < n then .error .recv_failed [] else .ok (unread.take n) (unread.drop n)

/-- `len = (len << 8) | ext[i]`. -/
def shiftIn (ext : List UInt8) : ℕ := ext.foldl (fun len b => (len <<< 8) ||| b.toNat) 0

/-- The length that the second header byte announces. -/
def read_length (hdr1 : UInt8) : Recv ℕ :=
  let len := (hdr1 &&& 0x7f).toNat
  if len = 126 then do
    let ext ← read_exact 2
    return shiftIn ext
  else if len = 127 then do
    let ext ← read_exact 8
    return shiftIn ext
  else return len

/-- The masking key, if the frame has one. -/
def read_mask (masked : Bool) : Recv Mask :=
  if masked then do
    let mask ← read_exact 4
    return fun i => mask.getD i 0
  else return fun _ => 0

/-- The payload. No vector is longer than the largest `ptrdiff_t`. -/
def read_payload (len : ℕ) : Recv (List UInt8) :=
  if 2 ^ 63 ≤ len then throw .length_error else read_exact len

/-- Undo the masking, if the frame has a key. -/
def unmask (masked : Bool) (mask : Mask) (payload : List UInt8) : List UInt8 :=
  if masked then payload.mapIdx fun i b => b ^^^ mask ⟨i % 4, mod_four_lt i⟩ else payload

/-- One frame as `recv_frame` reads it: the opcode and the payload. -/
def readFrame : Recv (ℕ × List UInt8) := do
  let hdr ← read_exact 2
  let opcode := (hdr.getD 0 0 &&& 0x0f).toNat
  let masked := decide (hdr.getD 1 0 &&& 0x80 ≠ 0)
  let len ← read_length (hdr.getD 1 0)
  let mask ← read_mask masked
  let payload ← read_payload len
  return (opcode, unmask masked mask payload)

/-- What a reader returned, and the bytes it left. -/
def value? {α : Type} : EStateM.Result Error (List UInt8) α → Option (α × List UInt8)
  | .ok a unread => some (a, unread)
  | .error _ _ => none

theorem value?_bind {α β : Type} (x : Recv α) (f : α → Recv β) (bytes : List UInt8) :
    value? ((x >>= f) bytes) = (value? (x bytes)).bind fun p => value? (f p.1 p.2) := by
  show value? (EStateM.bind x f bytes) = _
  unfold EStateM.bind
  cases x bytes <;> rfl

theorem value?_pure {α : Type} (a : α) (bytes : List UInt8) :
    value? ((pure a : Recv α) bytes) = some (a, bytes) := rfl

theorem value?_read_exact (n : ℕ) (bytes : List UInt8) :
    value? (read_exact n bytes) = take? n bytes := by
  unfold read_exact take?
  split_ifs with h h' h'
  · omega
  · rfl
  · rfl
  · omega

/-! ### Bits -/

theorem shiftIn_eq_ofBigEndian (ext : List UInt8) : shiftIn ext = ofBigEndian ext := by
  have hstep : (fun (len : ℕ) (b : UInt8) => (len <<< 8) ||| b.toNat) =
      fun len b => len * 256 + b.toNat := by
    funext len b
    rw [← Nat.shiftLeft_add_eq_or_of_lt b.toNat_lt, Nat.shiftLeft_eq]
  rw [shiftIn, hstep, ofBigEndian]

theorem toNat_and_mask (b : UInt8) {mask : UInt8} {k : ℕ} (hmask : mask.toNat = 2 ^ k - 1) :
    (b &&& mask).toNat = b.toNat % 2 ^ k := by
  rw [UInt8.toNat_and, hmask, Nat.and_two_pow_sub_one_eq_mod]

theorem and_high_ne_zero (b : UInt8) : b &&& 0x80 ≠ 0 ↔ 128 ≤ b.toNat := by
  have hall : ∀ n < 256, n &&& 128 ≠ 0 ↔ 128 ≤ n := by decide +kernel
  rw [← hall b.toNat b.toNat_lt, Ne, ← UInt8.toNat_inj, UInt8.toNat_and]
  rfl

/-! ### Reading is decoding -/

theorem value?_read_length (hdr1 : UInt8) (bytes : List UInt8) :
    value? (read_length hdr1 bytes) = decodeLength (hdr1.toNat % 128) bytes := by
  have hlength : (hdr1 &&& 0x7f).toNat = hdr1.toNat % 128 := toNat_and_mask hdr1 (k := 7) rfl
  unfold read_length decodeLength
  rw [hlength]
  by_cases h : hdr1.toNat % 128 = 126
  · rw [if_pos h, if_pos h, value?_bind, value?_read_exact]
    simp only [value?_pure, shiftIn_eq_ofBigEndian, Option.map_eq_bind, Function.comp_def]
  · rw [if_neg h, if_neg h]
    by_cases h' : hdr1.toNat % 128 = 127
    · rw [if_pos h', if_pos h', value?_bind, value?_read_exact]
      simp only [value?_pure, shiftIn_eq_ofBigEndian, Option.map_eq_bind, Function.comp_def]
    · rw [if_neg h', if_neg h', value?_pure]

/-- The key is read as zeros where there is none. -/
theorem value?_read_mask (masked : Bool) (bytes : List UInt8) :
    value? (read_mask masked bytes) =
      (decodeMask masked bytes).map fun p => (p.1.getD fun _ => 0, p.2) := by
  cases masked with
  | false => rfl
  | true =>
    show value? ((read_exact 4 >>= fun mask => pure fun i : Fin 4 => mask.getD i 0) bytes) = _
    rw [value?_bind, value?_read_exact, decodeMask, if_pos rfl, Option.map_map]
    simp only [value?_pure, Option.map_eq_bind, Function.comp_def, Option.getD_some]

theorem decodeMask_isSome {masked : Bool} {bytes : List UInt8} {p : Option Mask × List UInt8}
    (h : decodeMask masked bytes = some p) : p.1.isSome = masked := by
  cases masked with
  | false =>
    cases h
    rfl
  | true =>
    obtain ⟨q, -, rfl⟩ := Option.map_eq_some_iff.1 h
    rfl

theorem value?_read_payload (len : ℕ) (bytes : List UInt8) :
    value? (read_payload len bytes) = if len < 2 ^ 63 then take? len bytes else none := by
  unfold read_payload
  by_cases h : len < 2 ^ 63
  · rw [if_neg (not_le.2 h), if_pos h, value?_read_exact]
  · rw [if_pos (not_lt.1 h), if_neg h]
    rfl

theorem unmask_eq_xorPayload {masked : Bool} {mask : Option Mask} (h : mask.isSome = masked)
    (payload : List UInt8) :
    unmask masked (mask.getD fun _ => 0) payload = xorPayload mask payload := by
  subst h
  cases mask <;> rfl

/-- A frame is read as the format says. -/
theorem value?_readFrame (bytes : List UInt8) :
    value? (readFrame bytes) =
      (Frame.decode bytes).map fun p => ((p.1.opcode.val, p.1.payload), p.2) := by
  unfold readFrame Frame.decode
  rw [value?_bind, value?_read_exact]
  -- step by step the reader and the decoder take the same bytes or both fail
  cases hhead : take? 2 bytes with
  | none => rfl
  | some head =>
    simp only [Option.bind_some]
    rw [value?_bind, value?_read_length]
    cases hlen : decodeLength ((head.1.getD 1 0).toNat % 128) head.2 with
    | none => rfl
    | some len =>
      simp only [Option.bind_some]
      rw [value?_bind, value?_read_mask]
      simp only [and_high_ne_zero]
      cases hmask : decodeMask (decide (128 ≤ (head.1.getD 1 0).toNat)) len.2 with
      | none => rfl
      | some mask =>
        simp only [Option.map_some, Option.bind_some]
        -- without a key the reader's mask is zero and is not applied
        have hmasked := decodeMask_isSome hmask
        have hopcode : (head.1.getD 0 0 &&& 0x0f).toNat = (head.1.getD 0 0).toNat % 16 :=
          toNat_and_mask (head.1.getD 0 0) (k := 4) rfl
        rw [value?_bind, value?_read_payload]
        simp only [value?_pure, unmask_eq_xorPayload hmasked, hopcode]
        cases hpayload : take? len.1 mask.2 with
        | none => rw [ite_self, Option.bind_none, Option.bind_none, Option.map_none]
        | some payload =>
          have hlength := (take?_eq_some hpayload).1
          by_cases hlt : len.1 < 2 ^ 63
          · rw [if_pos hlt, Option.bind_some, Option.bind_some, dif_pos (by rwa [hlength])]
            rfl
          · rw [if_neg hlt, Option.bind_none, Option.bind_some, dif_neg (by rwa [hlength])]
            rfl

/-! ### Writing is encoding -/

/-- The frame that `send_frame` writes. -/
def textFrame (text : Text) (mask : Mask) : Frame :=
  ⟨true, ⟨1, by decide⟩, some mask, text.bytes, text.length_lt⟩

theorem ofNat_high_add {n : ℕ} (h : n < 128) : UInt8.ofNat (128 + n) = 0x80 ||| UInt8.ofNat n := by
  have hor : 128 + n = 128 ||| n := Nat.two_pow_add_eq_or_of_lt (i := 7) h 1
  have hbyte : (UInt8.ofNat n).toNat = n := by
    rw [UInt8.toNat_ofNat']
    omega
  have hsum : (UInt8.ofNat (128 + n)).toNat = 128 + n := by
    rw [UInt8.toNat_ofNat']
    omega
  rw [← UInt8.toNat_inj, UInt8.toNat_or, hbyte, hsum, hor]
  rfl

theorem ofNat_shiftRight_and (len i : ℕ) :
    UInt8.ofNat ((len >>> i) &&& 0xff) = UInt8.ofNat (len / 2 ^ i) := by
  have hmod : (len >>> i) &&& 0xff = len / 2 ^ i % 256 := by
    rw [Nat.shiftRight_eq_div_pow]
    exact Nat.and_two_pow_sub_one_eq_mod _ 8
  rw [hmod, ← UInt8.toNat_inj, UInt8.toNat_ofNat', UInt8.toNat_ofNat', Nat.mod_mod]

theorem header_eq (text : Text) (mask : Mask) :
    header text.bytes.length =
      (textFrame text mask).byte1 :: (lengthField text.bytes.length).2 := by
  have hbyte1 : (textFrame text mask).byte1 =
      0x80 ||| UInt8.ofNat (lengthField text.bytes.length).1 :=
    ofNat_high_add (lengthField_fst_lt text.bytes.length)
  rw [hbyte1]
  -- the three forms of the length
  generalize text.bytes.length = len
  unfold header
  by_cases hshort : len < 126
  · rw [if_pos hshort, lengthField_short hshort]
  · rw [if_neg hshort]
    by_cases hmiddle : len < 65536
    · have hlow := ofNat_shiftRight_and len 0
      rw [if_pos hmiddle, lengthField_middle (not_lt.1 hshort) hmiddle, ofNat_shiftRight_and]
      rw [Nat.shiftRight_zero] at hlow
      rw [hlow]
      rfl
    · rw [if_neg hmiddle, lengthField_long (not_lt.1 hmiddle)]
      simp only [List.map_cons, List.map_nil, ofNat_shiftRight_and]
      rfl

theorem send_frame_eq_encode (text : Text) (mask : Mask) :
    send_frame text mask = (textFrame text mask).encode := by
  rw [send_frame, header_eq text mask]
  rfl

/-! ## Calls -/

theorem length_lt_of_readFrame {bytes unread : List UInt8} {frame : ℕ × List UInt8}
    (h : readFrame bytes = .ok frame unread) : unread.length < bytes.length := by
  have hvalue := value?_readFrame bytes
  rw [h] at hvalue
  obtain ⟨p, hp, heq⟩ := Option.map_eq_some_iff.1 hvalue.symm
  cases heq
  exact Frame.length_lt_of_decode hp

/-- What a call of `recv_frame` returns or throws, what it leaves unread and what it sends. -/
structure Received where
  result : Except Error (List UInt8)
  unread : List UInt8
  sent : List UInt8

/-- `recv_frame`: pings are answered until there is a message. -/
def recv_frame (bytes : List UInt8) : Received :=
  match _ : readFrame bytes with
  | .error e unread => ⟨.error e, unread, []⟩
  | .ok (opcode, payload) unread =>
    if opcode = 0x8 then ⟨.error .closed, unread, []⟩
    else if opcode = 0x9 then
      let message := recv_frame unread
      { message with sent := pong payload.length ++ message.sent }
    else ⟨.ok payload, unread, []⟩
termination_by bytes.length
decreasing_by exact length_lt_of_readFrame ‹_›

theorem recv_frame_of_readFrame {bytes unread payload : List UInt8} {opcode : ℕ}
    (h : readFrame bytes = .ok (opcode, payload) unread) :
    recv_frame bytes =
      if opcode = 0x8 then ⟨.error .closed, unread, []⟩
      else if opcode = 0x9 then
        { recv_frame unread with sent := pong payload.length ++ (recv_frame unread).sent }
      else ⟨.ok payload, unread, []⟩ := by
  rw [recv_frame]
  split
  · next h' => cases h'.symm.trans h
  · next h' =>
    cases h'.symm.trans h
    rfl

theorem readFrame_encode (f : Frame) (rest : List UInt8) :
    readFrame (f.encode ++ rest) = .ok (f.opcode.val, f.payload) rest := by
  have hvalue := value?_readFrame (f.encode ++ rest)
  rw [Frame.decode_encode, Option.map_some] at hvalue
  cases hread : readFrame (f.encode ++ rest) with
  | error e unread =>
    rw [hread] at hvalue
    cases hvalue
  | ok frame unread =>
    rw [hread] at hvalue
    cases hvalue
    rfl

/-- A call that returns a message has read something. -/
theorem length_lt_of_recv_frame {bytes payload : List UInt8}
    (h : (recv_frame bytes).result = .ok payload) :
    (recv_frame bytes).unread.length < bytes.length := by
  fun_induction recv_frame bytes with
  | case1 bytes e unread hread => cases h
  | case2 bytes payload unread hread => cases h
  | case3 bytes payload unread message hread _ ih =>
    exact (ih h).trans (length_lt_of_readFrame hread)
  | case4 bytes opcode payload unread hread _ _ => exact length_lt_of_readFrame hread

/-- Call `recv_frame` until everything is read. -/
def recv_all (bytes : List UInt8) : Option (List (List UInt8)) :=
  if bytes = [] then some []
  else
    match _ : (recv_frame bytes).result with
    | .ok payload => (recv_all (recv_frame bytes).unread).map (payload :: ·)
    | .error _ => none
termination_by bytes.length
decreasing_by exact length_lt_of_recv_frame ‹_›

theorem recv_all_of_recv_frame {bytes payload : List UInt8} (hne : bytes ≠ [])
    (h : (recv_frame bytes).result = .ok payload) :
    recv_all bytes = (recv_all (recv_frame bytes).unread).map (payload :: ·) := by
  rw [recv_all, if_neg hne]
  split
  · next h' =>
    cases h'.symm.trans h
    rfl
  · next h' => cases h'.symm.trans h

/-- What the writer writes, the reader reads, and nothing is left. -/
theorem recv_all_send_frame (sent : List (Text × Mask)) :
    recv_all (sent.flatMap fun p => send_frame p.1 p.2) = some (sent.map fun p => p.1.bytes) := by
  induction sent with
  | nil => rw [List.flatMap_nil, recv_all, if_pos rfl, List.map_nil]
  | cons p sent ih =>
    have hread := readFrame_encode (textFrame p.1 p.2) (sent.flatMap fun p => send_frame p.1 p.2)
    rw [← send_frame_eq_encode] at hread
    -- a text frame is neither a close frame nor a ping
    have hmessage : (textFrame p.1 p.2).opcode.val = 1 := rfl
    have hrecv := recv_frame_of_readFrame hread
    rw [hmessage, if_neg (by decide), if_neg (by decide)] at hrecv
    have hresult := congrArg Received.result hrecv
    have hne : send_frame p.1 p.2 ++ sent.flatMap (fun p => send_frame p.1 p.2) ≠ [] :=
      List.cons_ne_nil _ _
    rw [List.flatMap_cons, recv_all_of_recv_frame hne hresult, hrecv, ih]
    rfl

/-- A call of the client: `set`, `set_with_ttl` and `del` send one frame, `get`, `list` and
`subscribe` then wait for messages, as `recv_message` and the constructor do. -/
inductive Call
  | send_frame (text : Text) (mask : Mask)
  | recv_frame
  | destroy

/-- What some calls write to the socket, if these bytes arrive there. The destructor is the last
call. -/
def written : List Call → List UInt8 → List UInt8
  | [], _ => []
  | .send_frame text mask :: calls, arrived => send_frame text mask ++ written calls arrived
  | .recv_frame :: calls, arrived =>
    (recv_frame arrived).sent ++ written calls (recv_frame arrived).unread
  | .destroy :: _, _ => closeFrame

/-- At every moment of the calls, the server has been sent whole frames. -/
def WritesWholeFrames (calls : List Call) (received : List Frame) : Prop :=
  ∀ called, called <+: calls → ∀ arrived, arrived <+: received →
    frames.Complete Frame.FromClient (written called (arrived.flatMap Frame.encode))

/-- The pings among the frames that the calls read. -/
def pingsRead : List Call → List Frame → List Frame
  | [], _ => []
  | .destroy :: _, _ => []
  | .send_frame _ _ :: calls, received => pingsRead calls received
  | .recv_frame :: calls, [] => pingsRead calls []
  | .recv_frame :: calls, f :: received =>
    if f.opcode = 9 then f :: pingsRead (.recv_frame :: calls) received
    else pingsRead calls received
termination_by calls received => calls.length + received.length

/-! ### What the client writes -/

theorem complete_send_frame (text : Text) (mask : Mask) :
    frames.Complete Frame.FromClient (send_frame text mask) := by
  rw [send_frame_eq_encode]
  have htext : ¬8 ≤ (⟨1, by decide⟩ : Fin 16) := by decide
  exact SelfDelimiting.complete_encode ⟨rfl, fun h => absurd h htext⟩

theorem complete_closeFrame : frames.Complete Frame.FromClient closeFrame := by
  have hencode : closeFrame = Frame.encode ⟨true, 8, some fun _ => 0, [], by decide⟩ := by decide
  rw [hencode]
  exact SelfDelimiting.complete_encode ⟨rfl, fun _ => ⟨rfl, by decide⟩⟩

theorem complete_pong_zero : frames.Complete Frame.FromClient (pong 0) := by
  have hencode : pong 0 = Frame.encode ⟨true, 10, some fun _ => 0, [], by decide⟩ := by decide
  rw [hencode]
  exact SelfDelimiting.complete_encode ⟨rfl, fun _ => ⟨rfl, by decide⟩⟩

/-- A pong announces a payload that is not sent: it takes the bytes that are sent next. -/
theorem decode_pong_append (len : ℕ) (more : List UInt8) :
    (Frame.decode (pong len ++ more)).map (fun p => (p.1.payload, p.2)) =
      take? (min len 125) more := by
  have hlen : min len 125 < 126 := by omega
  have hbyte1 : (UInt8.ofNat (128 + min len 125)).toNat = 128 + min len 125 := by
    rw [UInt8.toNat_ofNat']
    omega
  -- a header, a key of zeros and no payload
  have hpong : pong len ++ more = [0x8A, UInt8.ofNat (128 + min len 125)] ++
      (maskBytes (some fun _ => 0) ++ more) := by
    rw [ofNat_high_add (hlen.trans (by decide))]
    rfl
  have hhead : [0x8A, UInt8.ofNat (128 + min len 125)].length = 2 := rfl
  have hmask : decide (128 ≤ 128 + min len 125) = (some fun _ => 0 : Option Mask).isSome :=
    decide_eq_true (Nat.le_add_right ..)
  have hseven : (128 + min len 125) % 128 = min len 125 := by omega
  rw [hpong, Frame.decode, take?_append hhead, Option.bind_some]
  simp only [List.getD_cons_zero, List.getD_cons_succ, hbyte1]
  rw [hseven, decodeLength, if_neg hlen.ne, if_neg (by omega), Option.bind_some, hmask,
    decodeMask_append, Option.bind_some]
  cases hpayload : take? (min len 125) more with
  | none => rfl
  | some payload =>
    have hlength := (take?_eq_some hpayload).1
    rw [Option.bind_some, dif_pos (by omega), Option.map_some]
    -- the bytes that follow are unmasked with zeros, that is taken as they are
    show some (applyMask (fun _ => 0) payload.1, payload.2) = some payload
    rw [applyMask_zero]

theorem decode_pong {len : ℕ} (h : 0 < len) : Frame.decode (pong len) = none := by
  have hdecode := decode_pong_append len []
  rw [List.append_nil, take?_eq_none (lt_min h (by decide))] at hdecode
  exact Option.map_eq_none_iff.1 hdecode

/-- The answer to a ping is a whole frame if the ping has no payload. -/
theorem complete_pong_iff (f : Frame) :
    frames.Complete Frame.FromClient (pong f.payload.length) ↔ f.payload = [] := by
  constructor
  · intro h
    by_contra hne
    exact SelfDelimiting.not_complete_of_decode_eq_none (List.cons_ne_nil _ _)
      (decode_pong (List.length_pos_iff.2 hne)) h
  · intro h
    rw [h]
    exact complete_pong_zero

theorem written_recv_ping {f : Frame} (h : f.opcode = 9) (calls : List Call) (rest : List UInt8) :
    written (.recv_frame :: calls) (f.encode ++ rest) =
      pong f.payload.length ++ written (.recv_frame :: calls) rest := by
  have hopcode : f.opcode.val = 9 := congrArg Fin.val h
  have hread := recv_frame_of_readFrame (readFrame_encode f rest)
  rw [hopcode, if_neg (by decide), if_pos rfl] at hread
  rw [written, written, hread, List.append_assoc]

theorem written_recv_other {f : Frame} (h : f.opcode ≠ 9) (calls : List Call)
    (rest : List UInt8) :
    written (.recv_frame :: calls) (f.encode ++ rest) = written calls rest := by
  have hopcode : f.opcode.val ≠ 9 := fun hval => h (Fin.ext hval)
  have hread := recv_frame_of_readFrame (readFrame_encode f rest)
  rw [if_neg hopcode] at hread
  rw [written, hread]
  split_ifs <;> rfl

/-- Where nothing has arrived, `recv_frame` waits or fails, and writes nothing. -/
theorem written_recv_nil (calls : List Call) :
    written (.recv_frame :: calls) [] = written calls [] := by
  have hread : recv_frame [] = ⟨.error .recv_failed, [], []⟩ := by
    rw [recv_frame]
    rfl
  rw [written, hread]
  rfl

theorem forall_prefix_cons {α : Type*} {P : List α → Prop} {a : α} {as : List α} :
    (∀ l, l <+: a :: as → P l) ↔ P [] ∧ ∀ l, l <+: as → P (a :: l) := by
  constructor
  · intro h
    exact ⟨h [] List.nil_prefix, fun l hl => h (a :: l) ((List.prefix_cons_inj a).2 hl)⟩
  · rintro ⟨hnil, hcons⟩ l hl
    cases l with
    | nil => exact hnil
    | cons b l =>
      obtain ⟨hb, hl⟩ := List.cons_prefix_cons.1 hl
      rw [hb]
      exact hcons l hl

theorem writesWholeFrames_send (text : Text) (mask : Mask) (calls : List Call)
    (received : List Frame) :
    WritesWholeFrames (.send_frame text mask :: calls) received ↔
      WritesWholeFrames calls received := by
  unfold WritesWholeFrames
  rw [forall_prefix_cons]
  constructor
  · rintro ⟨-, h⟩ called hcalled arrived harrived
    exact (SelfDelimiting.complete_append_iff (complete_send_frame text mask)).1
      (h called hcalled arrived harrived)
  · intro h
    refine ⟨fun _ _ => SelfDelimiting.complete_nil, fun called hcalled arrived harrived => ?_⟩
    exact (complete_send_frame text mask).append (h called hcalled arrived harrived)

theorem writesWholeFrames_recv_nil (calls : List Call) :
    WritesWholeFrames (.recv_frame :: calls) [] ↔ WritesWholeFrames calls [] := by
  unfold WritesWholeFrames
  simp only [forall_prefix_cons, List.prefix_nil, forall_eq, List.flatMap_nil, written_recv_nil]
  exact and_iff_right SelfDelimiting.complete_nil

theorem writesWholeFrames_recv_other {f : Frame} (hf : f.opcode ≠ 9) (calls : List Call)
    (received : List Frame) :
    WritesWholeFrames (.recv_frame :: calls) (f :: received) ↔
      WritesWholeFrames calls received := by
  unfold WritesWholeFrames
  rw [forall_prefix_cons]
  simp only [forall_prefix_cons, List.flatMap_nil, List.flatMap_cons, written_recv_nil,
    written_recv_other hf]
  constructor
  · rintro ⟨-, h⟩ called hcalled
    exact (h called hcalled).2
  · intro h
    refine ⟨⟨SelfDelimiting.complete_nil, fun _ _ => SelfDelimiting.complete_nil⟩,
      fun called hcalled => ⟨?_, h called hcalled⟩⟩
    exact h called hcalled [] List.nil_prefix

theorem writesWholeFrames_recv_ping {f : Frame} (hf : f.opcode = 9) (calls : List Call)
    (received : List Frame) :
    WritesWholeFrames (.recv_frame :: calls) (f :: received) ↔
      f.payload = [] ∧ WritesWholeFrames (.recv_frame :: calls) received := by
  unfold WritesWholeFrames
  rw [forall_prefix_cons, forall_prefix_cons, ← complete_pong_iff]
  simp only [forall_prefix_cons, List.flatMap_nil, List.flatMap_cons, written_recv_ping hf]
  constructor
  · rintro ⟨-, h⟩
    -- the moment when the ping is answered and nothing else has happened
    have hpong := (h [] List.nil_prefix).2 [] List.nil_prefix
    rw [List.flatMap_nil, written_recv_nil, written, List.append_nil] at hpong
    refine ⟨hpong, fun _ _ => SelfDelimiting.complete_nil, ?_⟩
    intro called hcalled arrived harrived
    exact (SelfDelimiting.complete_append_iff hpong).1 ((h called hcalled).2 arrived harrived)
  · rintro ⟨hpong, -, h⟩
    refine ⟨⟨SelfDelimiting.complete_nil, fun _ _ => SelfDelimiting.complete_nil⟩,
      fun called hcalled => ⟨h called hcalled [] List.nil_prefix, fun arrived harrived => ?_⟩⟩
    exact hpong.append (h called hcalled arrived harrived)

/-- The client has always written whole frames exactly if no ping that it read had a payload. -/
theorem writesWholeFrames_iff (calls : List Call) (received : List Frame) :
    WritesWholeFrames calls received ↔ ∀ f ∈ pingsRead calls received, f.payload = [] := by
  fun_induction pingsRead calls received with
  | case1 received =>
    refine iff_of_true (fun called hcalled arrived _ => ?_) (List.forall_mem_nil _)
    rw [List.prefix_nil.1 hcalled]
    exact SelfDelimiting.complete_nil
  | case2 received calls =>
    refine iff_of_true (forall_prefix_cons.2 ⟨?_, ?_⟩) (List.forall_mem_nil _)
    · exact fun _ _ => SelfDelimiting.complete_nil
    · exact fun _ _ _ _ => complete_closeFrame
  | case3 received text mask calls ih => rw [writesWholeFrames_send, ih]
  | case4 calls ih => rw [writesWholeFrames_recv_nil, ih]
  | case5 calls f received hping ih =>
    rw [writesWholeFrames_recv_ping hping, ih, List.forall_mem_cons]
  | case6 calls f received hother ih => rw [writesWholeFrames_recv_other hother, ih]

/-- A ping with a payload, and then the request `{"type":"list"}`. -/
theorem ping_not_writesWholeFrames :
    ¬WritesWholeFrames
      [.recv_frame, .send_frame
        ⟨[123, 34, 116, 121, 112, 101, 34, 58, 34, 108, 105, 115, 116, 34, 125], by decide⟩
        fun _ => 0]
      [⟨true, 9, none, [0], by decide⟩] := by
  intro h
  have hping := (writesWholeFrames_recv_ping rfl _ _).1 h
  exact List.cons_ne_nil _ _ hping.1

end GranolaSdr.Wsdict
