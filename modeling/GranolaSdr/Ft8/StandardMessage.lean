import GranolaSdr.Ft8.Callsign
import GranolaSdr.Ft8.Report

/-!
# Standard FT8 messages

Two callsigns and an extra field in the 77 bits of a standard message of
`src/ft8_lib/ft8/message.c`. The type of the message says which suffix the flags of both callsigns
stand for.

## Main definitions

* `ftx_message_encode_std`, `ftx_message_decode_std`: the message and its three fields.

## Main results

* `decode_std_encode_std_iff`: which fields are read back.
-/

namespace GranolaSdr.Ft8

inductive ftx_message_rc_t where
  | FTX_MESSAGE_RC_OK
  | FTX_MESSAGE_RC_ERROR_CALLSIGN1
  | FTX_MESSAGE_RC_ERROR_CALLSIGN2
  | FTX_MESSAGE_RC_ERROR_SUFFIX
  | FTX_MESSAGE_RC_ERROR_GRID
  | FTX_MESSAGE_RC_ERROR_TYPE
  deriving DecidableEq

/-- Pack into (28 + 1) + (28 + 1) + (1 + 15) + 3 bits. -/
def packStd (n29a n29b igrid4 i3 : ℕ) : List UInt8 :=
  [.ofNat (n29a >>> 21), .ofNat (n29a >>> 13), .ofNat (n29a >>> 5),
    .ofNat (n29a <<< 3) ||| .ofNat (n29b >>> 26), .ofNat (n29b >>> 18), .ofNat (n29b >>> 10),
    .ofNat (n29b >>> 2), .ofNat (n29b <<< 6) ||| .ofNat (igrid4 >>> 10), .ofNat (igrid4 >>> 2),
    .ofNat (igrid4 <<< 6) ||| .ofNat (i3 <<< 3)]

/-- A byte of a payload. -/
def byte (payload : List UInt8) (i : ℕ) : ℕ := (payload.getD i 0).toNat

/-- The type in the bits 74 to 76. -/
def ftx_message_get_i3 (payload : List UInt8) : ℕ := byte payload 9 >>> 3 &&& 0x07

/-- The packed fields of a standard message. -/
structure StdFields where
  n29a : ℕ
  n29b : ℕ
  ir : Bool
  igrid4 : ℕ

def unpackStd (payload : List UInt8) : StdFields where
  n29a := byte payload 0 <<< 21 ||| byte payload 1 <<< 13 ||| byte payload 2 <<< 5 |||
    byte payload 3 >>> 3
  n29b := (byte payload 3 &&& 0x07) <<< 26 ||| byte payload 4 <<< 18 ||| byte payload 5 <<< 10 |||
    byte payload 6 <<< 2 ||| byte payload 7 >>> 6
  ir := (byte payload 7 &&& 0x20) >>> 5 != 0
  igrid4 := (byte payload 7 &&& 0x1F) <<< 10 ||| byte payload 8 <<< 2 ||| byte payload 9 >>> 6

section Std

variable {σ : Type*} (hash_if : HashInterface σ)

/-- A callsign of the two has a suffix. -/
def anyEnds (call_to call_de suf : List Char) : Bool :=
  ends_with call_to suf || ends_with call_de suf

def ftx_message_encode_std (call_to call_de extra : List Char) (s : σ) :
    Except ftx_message_rc_t (List UInt8) × σ :=
  let (a, s) := pack28 hash_if call_to s
  let (b, s) := pack28 hash_if call_de s
  (match a, b with
    | none, _ => .error .FTX_MESSAGE_RC_ERROR_CALLSIGN1
    | some _, none => .error .FTX_MESSAGE_RC_ERROR_CALLSIGN2
    | some (n28a, ipa), some (n28b, ipb) =>
      if anyEnds call_to call_de ['/', 'P'] && anyEnds call_to call_de ['/', 'R'] then
        .error .FTX_MESSAGE_RC_ERROR_SUFFIX
      else
        let i3 := if anyEnds call_to call_de ['/', 'P'] then 2 else 1
        let n29a := n28a <<< 1 ||| ipa.toNat
        let n29b := n28b <<< 1 ||| ipb.toNat
        let n29a := if hasSuffix call_to then n29a ||| 1 else n29a
        .ok (packStd n29a n29b (packgrid extra) i3),
    s)

def ftx_message_decode_std (payload : List UInt8) (s : σ) :
    Except ftx_message_rc_t (List Char × List Char × List Char) × σ :=
  let f := unpackStd payload
  let i3 := ftx_message_get_i3 payload
  match unpack28 hash_if (f.n29a >>> 1) (f.n29a &&& 1 != 0) i3 s with
  | (none, s) => (.error .FTX_MESSAGE_RC_ERROR_CALLSIGN1, s)
  | (some call_to, s) =>
    match unpack28 hash_if (f.n29b >>> 1) (f.n29b &&& 1 != 0) i3 s with
    | (none, s) => (.error .FTX_MESSAGE_RC_ERROR_CALLSIGN2, s)
    | (some call_de, s) => (.ok (call_to, call_de, unpackgrid f.igrid4 f.ir), s)

end Std

/-! ## The bits -/

/-- Bits that do not overlap. -/
theorem shiftLeft_or {a b k : ℕ} (h : b < 2 ^ k) : a <<< k ||| b = a * 2 ^ k + b := by
  rw [← Nat.shiftLeft_add_eq_or_of_lt h, Nat.shiftLeft_eq]

/-- A byte below the part of a number that is there already. -/
theorem or_byte {n j k b : ℕ} (hj : j = k + 8) (hb : b = n / 2 ^ k % 2 ^ 8) :
    n / 2 ^ j * 2 ^ j ||| b <<< k = n / 2 ^ k * 2 ^ k := by
  have hhigh : n / 2 ^ j * 2 ^ j = (n / 2 ^ k / 2 ^ 8) <<< 8 <<< k := by
    rw [hj, Nat.shiftLeft_eq, Nat.shiftLeft_eq, Nat.div_div_eq_div_mul, ← Nat.pow_add,
      Nat.mul_assoc, ← Nat.pow_add, Nat.add_comm 8]
  rw [hhigh, hb, ← Nat.shiftLeft_or_distrib, shiftLeft_or (Nat.mod_lt _ (by decide)),
    Nat.shiftLeft_eq, Nat.mul_comm (n / 2 ^ k / 2 ^ 8), Nat.div_add_mod]

/-- The last part of a number below the part that is there already. -/
theorem or_last (n k : ℕ) : n / 2 ^ k * 2 ^ k ||| n % 2 ^ k = n := by
  rw [← Nat.shiftLeft_eq, shiftLeft_or (Nat.mod_lt n (Nat.two_pow_pos k)), Nat.mul_comm,
    Nat.div_add_mod]

/-- The two parts of a byte. -/
theorem high_part {a b k : ℕ} (h : b < 2 ^ k) : (a * 2 ^ k + b) / 2 ^ k = a := by
  rw [Nat.add_comm, Nat.add_mul_div_right b a (Nat.two_pow_pos k), Nat.div_eq_of_lt h, Nat.zero_add]

theorem low_part {a b k : ℕ} (h : b < 2 ^ k) : (a * 2 ^ k + b) % 2 ^ k = b :=
  Nat.mul_add_mod_of_lt h

/-- A byte of two parts. -/
theorem toNat_or {a b k : ℕ} (hk : k ≤ 8) (hb : b < 2 ^ k) :
    (UInt8.ofNat (a <<< k) ||| UInt8.ofNat b).toNat = a % 2 ^ (8 - k) * 2 ^ k + b := by
  have hpow : 2 ^ (8 - k) * 2 ^ k = 2 ^ 8 := by rw [← Nat.pow_add, Nat.sub_add_cancel hk]
  have hlow : b % 2 ^ 8 = b :=
    Nat.mod_eq_of_lt (hb.trans_le (Nat.pow_le_pow_right Nat.zero_lt_two hk))
  have hhigh : a <<< k % 2 ^ 8 = (a % 2 ^ (8 - k)) <<< k := by
    rw [Nat.shiftLeft_eq, Nat.shiftLeft_eq, ← hpow, Nat.mul_mod_mul_right]
  rw [UInt8.toNat_or, UInt8.toNat_ofNat', UInt8.toNat_ofNat', hlow, hhigh, shiftLeft_or hb]

theorem byte_lt (payload : List UInt8) (i : ℕ) : byte payload i < 2 ^ 8 := UInt8.toNat_lt _

theorem ftx_message_get_i3_eq (payload : List UInt8) :
    ftx_message_get_i3 payload = byte payload 9 / 2 ^ 3 % 2 ^ 3 := by
  rw [ftx_message_get_i3, Nat.shiftRight_eq_div_pow]
  exact Nat.and_two_pow_sub_one_eq_mod _ 3

/-- The last byte of a packed message. -/
theorem toNat_last (igrid4 : ℕ) {i3 : ℕ} (hi3 : i3 < 2 ^ 3) :
    (UInt8.ofNat (igrid4 <<< 6) ||| UInt8.ofNat (i3 <<< 3)).toNat =
      igrid4 % 2 ^ 2 * 2 ^ 6 + i3 * 2 ^ 3 := by
  rw [toNat_or (by decide) (by rw [Nat.shiftLeft_eq]; omega), Nat.shiftLeft_eq i3]

/-- The bytes of a packed message. -/
theorem byte_packStd {n29a n29b igrid4 i3 : ℕ} (ha : n29a < 2 ^ 29) (hb : n29b < 2 ^ 29)
    (hg : igrid4 < 2 ^ 16) (hi3 : i3 < 2 ^ 3) :
    (List.range 10).map (byte (packStd n29a n29b igrid4 i3)) =
      [n29a / 2 ^ 21, n29a / 2 ^ 13 % 2 ^ 8, n29a / 2 ^ 5 % 2 ^ 8,
        n29a % 2 ^ 5 * 2 ^ 3 + n29b / 2 ^ 26, n29b / 2 ^ 18 % 2 ^ 8, n29b / 2 ^ 10 % 2 ^ 8,
        n29b / 2 ^ 2 % 2 ^ 8, n29b % 2 ^ 2 * 2 ^ 6 + igrid4 / 2 ^ 10, igrid4 / 2 ^ 2 % 2 ^ 8,
        igrid4 % 2 ^ 2 * 2 ^ 6 + i3 * 2 ^ 3] := by
  have hshift : ∀ n k, (UInt8.ofNat (n >>> k)).toNat = n / 2 ^ k % 2 ^ 8 := by
    intro n k
    rw [UInt8.toNat_ofNat', Nat.shiftRight_eq_div_pow]
  have hfirst : (UInt8.ofNat (n29a >>> 21)).toNat = n29a / 2 ^ 21 := by
    rw [hshift, Nat.mod_eq_of_lt (by omega)]
  have hthird : (UInt8.ofNat (n29a <<< 3) ||| UInt8.ofNat (n29b >>> 26)).toNat =
      n29a % 2 ^ 5 * 2 ^ 3 + n29b / 2 ^ 26 := by
    rw [toNat_or (by decide) (by rw [Nat.shiftRight_eq_div_pow]; omega), Nat.shiftRight_eq_div_pow]
  have hseventh : (UInt8.ofNat (n29b <<< 6) ||| UInt8.ofNat (igrid4 >>> 10)).toNat =
      n29b % 2 ^ 2 * 2 ^ 6 + igrid4 / 2 ^ 10 := by
    rw [toNat_or (by decide) (by rw [Nat.shiftRight_eq_div_pow]; omega), Nat.shiftRight_eq_div_pow]
  rw [← hfirst, ← hthird, ← hseventh, ← toNat_last igrid4 hi3]
  simp only [← hshift]
  rfl

/-- The ten bytes of a payload, one by one. -/
theorem bytes_of_map {payload : List UInt8} {b0 b1 b2 b3 b4 b5 b6 b7 b8 b9 : ℕ}
    (h : (List.range 10).map (byte payload) = [b0, b1, b2, b3, b4, b5, b6, b7, b8, b9]) :
    byte payload 0 = b0 ∧ byte payload 1 = b1 ∧ byte payload 2 = b2 ∧ byte payload 3 = b3 ∧
      byte payload 4 = b4 ∧ byte payload 5 = b5 ∧ byte payload 6 = b6 ∧ byte payload 7 = b7 ∧
      byte payload 8 = b8 ∧ byte payload 9 = b9 := by
  simpa only [List.range_succ, List.range_zero, List.nil_append, List.cons_append, List.map_cons,
    List.map_nil, List.cons.injEq, and_true] using h

/-- The fields are taken from where they were put. -/
theorem unpackStd_packStd {n29a n29b igrid4 i3 : ℕ} (ha : n29a < 2 ^ 29) (hb : n29b < 2 ^ 29)
    (hg : igrid4 < 2 ^ 16) (hi3 : i3 < 2 ^ 3) :
    unpackStd (packStd n29a n29b igrid4 i3) =
        ⟨n29a, n29b, igrid4.testBit 15, igrid4 % 2 ^ 15⟩ ∧
      ftx_message_get_i3 (packStd n29a n29b igrid4 i3) = i3 := by
  have hbytes := byte_packStd ha hb hg hi3
  -- what shifts and masks take from the bytes, in terms of quotients and remainders
  have hhigh : n29b / 2 ^ 26 < 2 ^ 3 := by omega
  have hhigh' : igrid4 / 2 ^ 10 < 2 ^ 6 := by omega
  have hgrid : (n29b % 2 ^ 2 * 2 ^ 6 + igrid4 / 2 ^ 10) % 2 ^ 5 = igrid4 % 2 ^ 15 / 2 ^ 10 := by
    omega
  have hgrid' : igrid4 / 2 ^ 2 % 2 ^ 8 = igrid4 % 2 ^ 15 / 2 ^ 2 % 2 ^ 8 := by omega
  have hgrid'' : igrid4 % 2 ^ 2 = igrid4 % 2 ^ 15 % 2 ^ 2 := by omega
  have hlast : i3 * 2 ^ 3 < 2 ^ 6 := by omega
  generalize hpayload : packStd n29a n29b igrid4 i3 = payload at hbytes ⊢
  obtain ⟨h0, h1, h2, h3, h4, h5, h6, h7, h8, h9⟩ := bytes_of_map hbytes
  have hmask3 : ∀ n, n &&& 0x07 = n % 2 ^ 3 := fun n => Nat.and_two_pow_sub_one_eq_mod n 3
  have hmask5 : ∀ n, n &&& 0x1F = n % 2 ^ 5 := fun n => Nat.and_two_pow_sub_one_eq_mod n 5
  have hn29a : byte payload 0 <<< 21 ||| byte payload 1 <<< 13 ||| byte payload 2 <<< 5 |||
      byte payload 3 >>> 3 = n29a := by
    rw [Nat.shiftRight_eq_div_pow, h0, Nat.shiftLeft_eq, or_byte rfl h1, or_byte rfl h2, h3,
      high_part hhigh, or_last]
  have hn29b : (byte payload 3 &&& 0x07) <<< 26 ||| byte payload 4 <<< 18 |||
      byte payload 5 <<< 10 ||| byte payload 6 <<< 2 ||| byte payload 7 >>> 6 = n29b := by
    rw [Nat.shiftRight_eq_div_pow, hmask3, h3, low_part hhigh, Nat.shiftLeft_eq, or_byte rfl h4,
      or_byte rfl h5, or_byte rfl h6, h7, high_part hhigh', or_last]
  have higrid4 :
      (byte payload 7 &&& 0x1F) <<< 10 ||| byte payload 8 <<< 2 ||| byte payload 9 >>> 6 =
        igrid4 % 2 ^ 15 := by
    rw [Nat.shiftRight_eq_div_pow, hmask5, h7, hgrid, Nat.shiftLeft_eq,
      or_byte rfl (h8.trans hgrid'), h9, high_part hlast, hgrid'', or_last]
  -- the flag in front of the extra field is a bit of its own
  have hir : ((byte payload 7 &&& 0x20) >>> 5 != 0) = igrid4.testBit 15 := by
    have hbit : (byte payload 7).testBit 5 = igrid4.testBit 15 := by
      have hmod : byte payload 7 / 2 ^ 5 % 2 = igrid4 / 2 ^ 15 % 2 := by
        rw [h7]
        omega
      rw [Nat.testBit_eq_decide_div_mod_eq, Nat.testBit_eq_decide_div_mod_eq, hmod]
    have hand : byte payload 7 &&& 0x20 = (igrid4.testBit 15).toNat <<< 5 := by
      rw [Nat.shiftLeft_eq, ← hbit]
      exact Nat.and_two_pow _ 5
    rw [hand, Nat.shiftLeft_shiftRight]
    cases igrid4.testBit 15 <;> rfl
  have htype : ftx_message_get_i3 payload = i3 := by
    rw [ftx_message_get_i3_eq, h9]
    omega
  exact ⟨by rw [unpackStd, hn29a, hn29b, hir, higrid4], htype⟩

/-! ## Which messages are read back -/

section RoundTrip

variable {σ τ : Type*} {hash_if : HashInterface σ} {hash_if' : HashInterface τ}

/-- The 28 bits of a callsign and its flag. -/
theorem shiftLeft_one_or (n : ℕ) (ip : Bool) :
    n <<< 1 ||| ip.toNat = n * 2 + ip.toNat := shiftLeft_or (k := 1) (Bool.toNat_lt ip)

/-- They are taken apart. -/
theorem flag_split (n : ℕ) (ip : Bool) :
    (n * 2 + ip.toNat) >>> 1 = n ∧ ((n * 2 + ip.toNat) &&& 1 != 0) = ip := by
  rw [Nat.shiftRight_eq_div_pow, Nat.and_one_is_mod]
  cases ip
  · simp
  · simp
    omega

/-- What is decoded, by the two callsigns. -/
theorem decode_std_eq {payload : List UInt8} {s : τ} {call_to call_de extra : List Char} :
    (ftx_message_decode_std hash_if' payload s).1 = .ok (call_to, call_de, extra) ↔
      let f := unpackStd payload
      let i3 := ftx_message_get_i3 payload
      let first := unpack28 hash_if' (f.n29a >>> 1) (f.n29a &&& 1 != 0) i3 s
      first.1 = some call_to ∧
        (unpack28 hash_if' (f.n29b >>> 1) (f.n29b &&& 1 != 0) i3 first.2).1 = some call_de ∧
        unpackgrid f.igrid4 f.ir = extra := by
  unfold ftx_message_decode_std
  dsimp only
  rcases unpack28 hash_if' _ _ _ s with ⟨_ | a, s₁⟩
  · exact iff_of_false (fun h => by cases h) (fun h => by cases h.1)
  · dsimp only
    rcases unpack28 hash_if' _ _ _ s₁ with ⟨_ | b, s₂⟩
    · exact iff_of_false (fun h => by cases h) (fun h => by cases h.2.1)
    · simp

/-- The type of a message agrees with the suffixes of its callsigns. -/
theorem suffix_type {call_to call_de : List Char} {i3 : ℕ}
    (hmix : ¬ (anyEnds call_to call_de ['/', 'P'] && anyEnds call_to call_de ['/', 'R']) = true)
    (hi3 : i3 = if anyEnds call_to call_de ['/', 'P'] then 2 else 1) :
    (∀ call ∈ [call_to, call_de], ends_with call ['/', 'P'] = true → i3 = 2) ∧
      ∀ call ∈ [call_to, call_de], ends_with call ['/', 'R'] = true → i3 = 1 := by
  have hany : ∀ suf, ∀ call ∈ [call_to, call_de], ends_with call suf = true →
      anyEnds call_to call_de suf = true := by
    intro suf call hcall hends
    rw [anyEnds, Bool.or_eq_true]
    rcases List.mem_cons.1 hcall with rfl | hcall
    · exact Or.inl hends
    · exact Or.inr (List.mem_singleton.1 hcall ▸ hends)
  constructor
  · intro call hcall hends
    rw [hi3, if_pos (hany _ call hcall hends)]
  · intro call hcall hends
    have hP : ¬ anyEnds call_to call_de ['/', 'P'] = true := fun hP =>
      hmix (Bool.and_eq_true_iff.2 ⟨hP, hany _ call hcall hends⟩)
    rw [hi3, if_neg hP]

/-- The message of two packed callsigns is read back exactly if they are plain and the extra field
survives. -/
theorem decode_std_packStd_iff {call_to call_de extra : List Char} {s₁ s₂ : σ} {n28a n28b : ℕ}
    {ipa ipb : Bool} (ha : (pack28 hash_if call_to s₁).1 = some (n28a, ipa))
    (hb : (pack28 hash_if call_de s₂).1 = some (n28b, ipb)) (hto : ' ' ∉ call_to)
    (hde : ' ' ∉ call_de) {i3 : ℕ}
    (hmix : ¬ (anyEnds call_to call_de ['/', 'P'] && anyEnds call_to call_de ['/', 'R']) = true)
    (hi3 : i3 = if anyEnds call_to call_de ['/', 'P'] then 2 else 1) (s' : τ) :
    (ftx_message_decode_std hash_if' (packStd (n28a * 2 + (ipa || hasSuffix call_to).toNat)
      (n28b * 2 + ipb.toNat) (packgrid extra) i3) s').1 = .ok (call_to, call_de, extra) ↔
      Plain call_to ∧ Plain call_de ∧ Survives extra := by
  obtain ⟨hP, hR⟩ := suffix_type hmix hi3
  have hna := pack28_lt ha
  have hnb := pack28_lt hb
  have hflag : ∀ b : Bool, b.toNat < 2 := Bool.toNat_lt
  -- the fields fit into their bits
  have hthree : i3 < 2 ^ 3 := by
    rw [hi3]
    split_ifs <;> decide
  have hsuffix : ∀ f g : Bool, n28a * 2 + f.toNat < 2 ^ 29 ∧ n28b * 2 + g.toNat < 2 ^ 29 := by
    intro f g
    have hf := hflag f
    have hg := hflag g
    omega
  obtain ⟨hfields, htype⟩ := unpackStd_packStd (hsuffix (ipa || hasSuffix call_to) ipb).1
    (hsuffix false ipb).2 (packgrid_lt extra) hthree
  rw [decode_std_eq, hfields, htype]
  dsimp only
  rw [(flag_split _ _).1, (flag_split _ _).2, (flag_split _ _).1, (flag_split _ _).2,
    unpack28_iff ha hto id (hP _ List.mem_cons_self) (hR _ List.mem_cons_self)]
  -- the second callsign is read from whatever table the first one has left
  have hsecond :
      ∀ s'' : τ, (unpack28 hash_if' n28b ipb i3 s'').1 = some call_de ↔ Plain call_de := by
    intro s''
    have h : (unpack28 hash_if' n28b (ipb || false) i3 s'').1 = some call_de ↔ Plain call_de :=
      unpack28_iff hb hde (fun h => by cases h) (hP call_de (by simp)) (hR call_de (by simp)) s''
    rwa [Bool.or_false] at h
  have hgrid : readgrid (packgrid extra) = extra ↔ Survives extra :=
    ⟨survives_of_readgrid, readgrid_of_survives⟩
  rw [hsecond, ← hgrid]
  rfl

/-- The messages that are encoded. -/
theorem encode_std_eq_ok_iff {call_to call_de extra : List Char} {s : σ} {payload : List UInt8} :
    (ftx_message_encode_std hash_if call_to call_de extra s).1 = .ok payload ↔
      ∃ n28a ipa n28b ipb, (pack28 hash_if call_to s).1 = some (n28a, ipa) ∧
        (pack28 hash_if call_de (pack28 hash_if call_to s).2).1 = some (n28b, ipb) ∧
        ¬ (anyEnds call_to call_de ['/', 'P'] && anyEnds call_to call_de ['/', 'R']) = true ∧
        payload = packStd (n28a * 2 + (ipa || hasSuffix call_to).toNat) (n28b * 2 + ipb.toNat)
          (packgrid extra) (if anyEnds call_to call_de ['/', 'P'] then 2 else 1) := by
  unfold ftx_message_encode_std
  rcases pack28 hash_if call_to s with ⟨_ | ⟨n28a, ipa⟩, s₁⟩
  · exact iff_of_false (fun h => by cases h) (fun ⟨_, _, _, _, h, _⟩ => by cases h)
  · dsimp only
    rcases pack28 hash_if call_de s₁ with ⟨_ | ⟨n28b, ipb⟩, s₂⟩
    · exact iff_of_false (fun h => by cases h) (fun ⟨_, _, _, _, _, h, _⟩ => by cases h)
    · -- the flag of the first callsign is set by its suffix even where it was not packed with one
      have hflag : (if hasSuffix call_to = true then n28a <<< 1 ||| ipa.toNat ||| 1
          else n28a <<< 1 ||| ipa.toNat) = n28a * 2 + (ipa || hasSuffix call_to).toNat := by
        rw [← shiftLeft_one_or]
        cases hasSuffix call_to
        · rw [Bool.or_false, if_neg Bool.false_ne_true]
        · rw [if_pos rfl, Nat.or_assoc]
          cases ipa <;> rfl
      dsimp only
      rw [hflag, shiftLeft_one_or]
      by_cases hmix : (anyEnds call_to call_de ['/', 'P'] &&
          anyEnds call_to call_de ['/', 'R']) = true
      · rw [if_pos hmix]
        exact iff_of_false (fun h => by cases h) (fun ⟨_, _, _, _, _, _, h, _⟩ => h hmix)
      · rw [if_neg hmix, Except.ok.injEq]
        constructor
        · rintro rfl
          exact ⟨n28a, ipa, n28b, ipb, rfl, rfl, hmix, rfl⟩
        · rintro ⟨_, _, _, _, ha, hb, -, rfl⟩
          cases ha
          cases hb
          rfl

/-- The messages have the type 1 or 2, and no bits behind it. -/
theorem encode_std_payload {call_to call_de extra : List Char} {s : σ} {payload : List UInt8}
    (h : (ftx_message_encode_std hash_if call_to call_de extra s).1 = .ok payload) :
    payload.length = 10 ∧ byte payload 9 % 2 ^ 3 = 0 ∧
      (ftx_message_get_i3 payload = 1 ∨ ftx_message_get_i3 payload = 2) := by
  obtain ⟨n28a, ipa, n28b, ipb, -, -, -, rfl⟩ := encode_std_eq_ok_iff.1 h
  have hi3 : ∀ b : Bool, (if b then 2 else 1) < 2 ^ 3 ∧
      ((if b then 2 else 1) = 1 ∨ (if b then 2 else 1) = 2) := by decide
  obtain ⟨hlt, htype⟩ := hi3 (anyEnds call_to call_de ['/', 'P'])
  generalize (if anyEnds call_to call_de ['/', 'P'] = true then 2 else 1) = i3 at hlt htype ⊢
  have hlast := toNat_last (packgrid extra) hlt
  refine ⟨rfl, ?_, ?_⟩
  · change (UInt8.ofNat _ ||| UInt8.ofNat _).toNat % 2 ^ 3 = 0
    rw [hlast]
    omega
  · have hread : ∀ a b, ftx_message_get_i3 (packStd a b (packgrid extra) i3) = i3 := by
      intro a b
      rw [ftx_message_get_i3_eq]
      change (UInt8.ofNat _ ||| UInt8.ofNat _).toNat / 2 ^ 3 % 2 ^ 3 = i3
      rw [hlast]
      omega
    rw [hread]
    exact htype

/-- Plain callsigns and an extra field that survives are read back. -/
theorem exists_decode_std {call_to call_de extra : List Char} (hto : ' ' ∉ call_to)
    (hde : ' ' ∉ call_de) (hpto : Plain call_to) (hpde : Plain call_de) (hextra : Survives extra)
    (hmix : ¬ (anyEnds call_to call_de ['/', 'P'] && anyEnds call_to call_de ['/', 'R']) = true)
    (s : σ) (s' : τ) :
    ∃ payload, (ftx_message_encode_std hash_if call_to call_de extra s).1 = .ok payload ∧
      (ftx_message_decode_std hash_if' payload s').1 = .ok (call_to, call_de, extra) := by
  obtain ⟨n28a, ipa, ha⟩ := exists_pack28_of_plain hash_if hpto s
  obtain ⟨n28b, ipb, hb⟩ := exists_pack28_of_plain hash_if hpde (pack28 hash_if call_to s).2
  exact ⟨_, encode_std_eq_ok_iff.2 ⟨n28a, ipa, n28b, ipb, ha, hb, hmix, rfl⟩,
    (decode_std_packStd_iff ha hb hto hde hmix rfl s').2 ⟨hpto, hpde, hextra⟩⟩

/-- Two callsigns and an extra field are read back from the message that they are encoded to exactly
if both callsigns are plain, the extra field survives, and their suffixes do not exclude each
other. -/
theorem decode_std_encode_std_iff {call_to call_de : List Char} (hto : ' ' ∉ call_to)
    (hde : ' ' ∉ call_de) (extra : List Char) (s : σ) (s' : τ) :
    (∃ payload, (ftx_message_encode_std hash_if call_to call_de extra s).1 = .ok payload ∧
      (ftx_message_decode_std hash_if' payload s').1 = .ok (call_to, call_de, extra)) ↔
      Plain call_to ∧ Plain call_de ∧ Survives extra ∧
        ¬ (anyEnds call_to call_de ['/', 'P'] = true ∧
          anyEnds call_to call_de ['/', 'R'] = true) := by
  rw [← Bool.and_eq_true_iff]
  constructor
  · rintro ⟨payload, hencode, hdecode⟩
    obtain ⟨n28a, ipa, n28b, ipb, ha, hb, hmix, rfl⟩ := encode_std_eq_ok_iff.1 hencode
    obtain ⟨hpto, hpde, hextra⟩ := (decode_std_packStd_iff ha hb hto hde hmix rfl s').1 hdecode
    exact ⟨hpto, hpde, hextra, hmix⟩
  · rintro ⟨hpto, hpde, hextra, hmix⟩
    exact exists_decode_std hto hde hpto hpde hextra hmix s s'

end RoundTrip

/-- A call to all stations. -/
theorem decode_std_encode_std_cq :
    ∃ payload, (ftx_message_encode_std HashInterface.null ['C', 'Q']
        ['K', '1', 'A', 'B', 'C', '/', 'P'] ['F', 'N', '4', '2'] ()).1 = .ok payload ∧
      (ftx_message_decode_std HashInterface.null payload ()).1 =
        .ok (['C', 'Q'], ['K', '1', 'A', 'B', 'C', '/', 'P'], ['F', 'N', '4', '2']) := by
  refine (decode_std_encode_std_iff (by decide) (by decide) _ () ()).2 ⟨?_, ?_, ?_, by decide⟩
  · exact Or.inr (Or.inr (Or.inl rfl))
  · refine Or.inr (Or.inr (Or.inr ⟨by decide, ?_⟩))
    rintro (⟨h, -⟩ | ⟨h, -⟩)
    · exact absurd h (by decide)
    · exact absurd h (by decide)
  · exact Or.inr (Or.inr (Or.inr (Or.inr (Or.inl ⟨rfl, by decide⟩))))

end GranolaSdr.Ft8
