import Mathlib.Algebra.GroupWithZero.Nat
import Mathlib.Data.Fin.Basic
import Mathlib.Data.Nat.Notation
import Mathlib.Logic.Function.Basic

/-!
# Playing a file back

A recorded file is a packed header followed by blocks of samples. The playback constructor of
`BufferFile` reads the header, checks its magic and its version, and divides the length of the body
by the length of a block. `runPlayback` reads a block at a time and publishes it; at the end of the
file it starts again at the first block, or ends.

## Main definitions

* `openPlayback`: the playback constructor, on the bytes of a file;
* `Player`, `Playback.iterate`: the state of `runPlayback` and one iteration of its loop;
* `Plays`: a file is opened and every iteration makes progress.

## Main results

* `plays_iff`: the accepted files that are played.
-/

namespace GranolaSdr.Buffer

/-! ## Files -/

/-- The bytes of a file. -/
abbrev Bytes := List UInt8

/-- The number that some bytes denote, least significant first. -/
def littleEndian (bytes : Bytes) : ℕ := bytes.foldr (fun b n => b.toNat + 256 * n) 0

/-- The position in an open file, and its end-of-file indicator. -/
structure FilePosition where
  offset : ℕ
  eof : Bool
  deriving DecidableEq

/-- `fread`: read up to `count` elements of `size` bytes. A short read goes to the end of the file
and sets the indicator. The result is what was read and the number of complete elements. -/
def fread (file : Bytes) (size count : ℕ) (fp : FilePosition) : Bytes × ℕ × FilePosition :=
  let rest := file.drop fp.offset
  if size * count ≤ rest.length then
    (rest.take (size * count), count, { fp with offset := fp.offset + size * count })
  else (rest, rest.length / size, { offset := file.length, eof := true })

/-- `fseek` from the start of the file, which clears the indicator. -/
def fseek (offset : ℕ) : FilePosition := { offset, eof := false }

section Fread

variable {file : Bytes} {size count offset : ℕ}

/-- Reading what is there. -/
theorem fread_of_le (h : size * count ≤ (file.drop offset).length) :
    fread file size count (fseek offset) =
      ((file.drop offset).take (size * count), count, fseek (offset + size * count)) := by
  rw [fread, fseek, if_pos h, fseek]

/-- Reading past the end. -/
theorem fread_of_not_le (h : ¬size * count ≤ (file.drop offset).length) :
    fread file size count (fseek offset) =
      (file.drop offset, (file.drop offset).length / size, ⟨file.length, true⟩) := by
  rw [fread, fseek, if_neg h]

end Fread

/-! ## The header -/

/-- The packed header of a file. -/
structure BufferFileHeader where
  magic : ℕ
  version : ℕ
  block_samples : ℕ
  element_bytes : ℕ
  block_interval_ns : ℕ
  sample_rate_hz : ℕ
  rx_sample_rate : ℕ
  deriving DecidableEq

/-- `sizeof(BufferFileHeader)`, where the blocks start. -/
def data_start : ℕ := 32

def kBufferFileMagic : ℕ := 0x474E4C48

/-- `sizeof(T)` for `std::complex<float>`. -/
def sizeofT : ℕ := 8

/-- The header of a file that is long enough to hold one. -/
def readHeader (file : Bytes) : Option BufferFileHeader :=
  let field (offset width : ℕ) := littleEndian ((file.drop offset).take width)
  if file.length < data_start then none
  else some
    { magic := field 0 4
      version := field 4 4
      block_samples := field 8 4
      element_bytes := field 12 4
      block_interval_ns := field 16 8
      sample_rate_hz := field 24 4
      rx_sample_rate := field 28 4 }

/-- Why a file is not opened. -/
inductive OpenError where
  | header
  | magic (magic : ℕ)
  | version (version : ℕ)
  /-- The length of a block is zero where the number of blocks is computed. -/
  | divisionByZero
  deriving DecidableEq

/-- What the playback constructor keeps of a file. -/
structure Playback where
  block_samples_ : ℕ
  block_interval_ns_ : ℕ
  total_blocks : ℕ
  deriving DecidableEq

/-- The playback constructor. -/
def openPlayback (file : Bytes) : Except OpenError Playback :=
  match readHeader file with
  | none => .error .header
  | some hdr =>
    if hdr.magic ≠ kBufferFileMagic then .error (.magic hdr.magic)
    else if hdr.version ≠ 1 then .error (.version hdr.version)
    else if hdr.block_samples * sizeofT = 0 then .error .divisionByZero
    else .ok
      { block_samples_ := hdr.block_samples
        block_interval_ns_ := hdr.block_interval_ns
        total_blocks := (file.length - data_start) / (hdr.block_samples * sizeofT) }

/-! ## The loop -/

def ring_slots_ : ℕ := 16

instance : NeZero ring_slots_ := ⟨Nat.succ_ne_zero 15⟩

/-- What `runPlayback` works on. -/
structure Player where
  fp_ : FilePosition
  block_num_ : ℕ
  ring_d_ : Fin ring_slots_ → Bytes
  /-- The position of the buffer, in samples. -/
  buffPosition : ℕ
  finished_ : Bool

/-- How an iteration of the loop ends. -/
inductive Outcome where
  /-- A block has been published. -/
  | publish
  /-- The file is read from its first block again. -/
  | rewind
  /-- Playback has ended. -/
  | finish
  deriving DecidableEq

/-- The player before the first iteration, with a ring that holds `ring`. -/
def Player.init (ring : Fin ring_slots_ → Bytes) : Player where
  fp_ := fseek data_start
  block_num_ := 0
  ring_d_ := ring
  buffPosition := 0
  finished_ := false

namespace Playback

variable (pb : Playback) (file : Bytes) (loop : Bool)

/-- One iteration of the loop of `runPlayback`. -/
def iterate (player : Player) : Outcome × Player :=
  let (block, n, fp) := fread file sizeofT pb.block_samples_ player.fp_
  if n < pb.block_samples_ then
    if fp.eof && loop then (.rewind, { player with fp_ := fseek data_start })
    else (.finish, { player with fp_ := fp, finished_ := true })
  else
    (.publish,
      { player with
        fp_ := fp
        block_num_ := player.block_num_ + 1
        ring_d_ := Function.update player.ring_d_ (Fin.ofNat ring_slots_ player.block_num_) block
        buffPosition := pb.block_samples_ * player.block_num_ })

/-- The player before iteration `k`, unless playback has ended before. -/
def before (ring : Fin ring_slots_ → Bytes) : ℕ → Option Player
  | 0 => some (Player.init ring)
  | k + 1 =>
    (before ring k).bind fun player =>
      match pb.iterate file loop player with
      | (.finish, _) => none
      | (_, next) => some next

/-- The length of a block. -/
def blockBytes : ℕ := sizeofT * pb.block_samples_

/-- The number of complete blocks of the file. -/
def complete : ℕ := (file.length - data_start) / pb.blockBytes

/-- Block `i` of the file. -/
def fileBlock (i : ℕ) : Bytes := (file.drop (data_start + pb.blockBytes * i)).take pb.blockBytes

/-- An iteration publishes the next block of the file, or ends playback, or starts the file again,
and then the iteration after it publishes. -/
def Progresses (player : Player) : Prop :=
  let (outcome, next) := pb.iterate file loop player
  match outcome with
  | .publish =>
    next.ring_d_ (Fin.ofNat ring_slots_ player.block_num_) =
        pb.fileBlock file (player.block_num_ % pb.complete file) ∧
      next.buffPosition = pb.block_samples_ * player.block_num_
  | .rewind => (pb.iterate file loop next).1 = .publish
  | .finish => True

end Playback

/-- A file is played: it is opened without a division by zero, its elements are those of the
reader, and every iteration of the loop makes progress. -/
structure Plays (file : Bytes) (loop : Bool) : Prop where
  opens : ∃ pb, openPlayback file = .ok pb
  element : ∀ hdr, readHeader file = some hdr → hdr.element_bytes = sizeofT
  progresses : ∀ pb, openPlayback file = .ok pb → ∀ ring k player,
    pb.before file loop ring k = some player → pb.Progresses file loop player

namespace Playback

variable {pb : Playback} {file : Bytes} {loop : Bool} {player : Player} {j : ℕ}

/-- A file from whose offset a block can be read has a complete block there. -/
theorem block_le_iff (file : Bytes) (j : ℕ) (hpos : 0 < pb.block_samples_) :
    sizeofT * pb.block_samples_ ≤ (file.drop (data_start + pb.blockBytes * j)).length ↔
      j < pb.complete file := by
  have hblock : 0 < pb.blockBytes := Nat.mul_pos (by decide) hpos
  rw [complete, List.length_drop, ← blockBytes, Nat.lt_iff_add_one_le, Nat.le_div_iff_mul_le hblock,
    Nat.add_one_mul, Nat.mul_comm j]
  omega

/-- An iteration at a complete block publishes it. -/
theorem iterate_of_lt (loop : Bool) (hpos : 0 < pb.block_samples_)
    (hfp : player.fp_ = fseek (data_start + pb.blockBytes * j)) (hj : j < pb.complete file) :
    pb.iterate file loop player =
      (.publish,
        { player with
          fp_ := fseek (data_start + pb.blockBytes * (j + 1))
          block_num_ := player.block_num_ + 1
          ring_d_ := Function.update player.ring_d_ (Fin.ofNat ring_slots_ player.block_num_)
            (pb.fileBlock file j)
          buffPosition := pb.block_samples_ * player.block_num_ }) := by
  have hle := (block_le_iff file j hpos).2 hj
  have hoffset : data_start + pb.blockBytes * j + sizeofT * pb.block_samples_ =
      data_start + pb.blockBytes * (j + 1) := by
    rw [Nat.mul_succ, ← Nat.add_assoc, blockBytes]
  simp only [iterate, hfp, fread_of_le hle, Nat.lt_irrefl, if_false, hoffset]
  rfl

/-- An iteration behind the last complete block starts the file again, or ends. -/
theorem iterate_of_not_lt (loop : Bool) (hpos : 0 < pb.block_samples_)
    (hfp : player.fp_ = fseek (data_start + pb.blockBytes * j)) (hj : ¬j < pb.complete file) :
    pb.iterate file loop player =
      if loop then (.rewind, { player with fp_ := fseek data_start })
      else (.finish,
        { player with fp_ := { offset := file.length, eof := true }, finished_ := true }) := by
  have hshort := mt (block_le_iff file j hpos).1 hj
  have hn : (file.drop (data_start + pb.blockBytes * j)).length / sizeofT < pb.block_samples_ :=
    Nat.div_lt_of_lt_mul (Nat.not_le.1 hshort)
  simp only [iterate, hfp, fread_of_not_le hshort, if_pos hn, Bool.true_and]

/-- The player stands at block `j` of the file, after some passes over all of its blocks. -/
def AtBlock (pb : Playback) (file : Bytes) (player : Player) : Prop :=
  ∃ passes j, player.block_num_ = passes * pb.complete file + j ∧ j ≤ pb.complete file ∧
    player.fp_ = fseek (data_start + pb.blockBytes * j)

theorem atBlock_init (ring : Fin ring_slots_ → Bytes) : pb.AtBlock file (Player.init ring) :=
  ⟨0, 0, by rw [Nat.zero_mul]; rfl, Nat.zero_le _, rfl⟩

/-- An iteration leads from a block of the file to the next one, or to the first. -/
theorem AtBlock.iterate (loop : Bool) (hpos : 0 < pb.block_samples_) (h : pb.AtBlock file player)
    (hne : (pb.iterate file loop player).1 ≠ .finish) :
    pb.AtBlock file (pb.iterate file loop player).2 := by
  obtain ⟨passes, j, hnum, hle, hfp⟩ := h
  by_cases hj : j < pb.complete file
  · rw [iterate_of_lt loop hpos hfp hj]
    exact ⟨passes, j + 1, congrArg Nat.succ hnum, hj, rfl⟩
  · rw [iterate_of_not_lt loop hpos hfp hj] at hne ⊢
    cases loop with
    | false => exact absurd rfl hne
    | true =>
      obtain rfl := le_antisymm hle (Nat.not_lt.1 hj)
      refine ⟨passes + 1, 0, ?_, Nat.zero_le _, rfl⟩
      change player.block_num_ = _
      rw [hnum, Nat.add_zero, Nat.add_one_mul]

theorem atBlock_before (hpos : 0 < pb.block_samples_) {ring : Fin ring_slots_ → Bytes} {k : ℕ}
    (h : pb.before file loop ring k = some player) : pb.AtBlock file player := by
  induction k generalizing player with
  | zero =>
    obtain rfl := Option.some.inj h
    exact atBlock_init ring
  | succ k ih =>
    rw [before, Option.bind_eq_some_iff] at h
    obtain ⟨previous, hprevious, h⟩ := h
    have hnext := (ih hprevious).iterate loop hpos
    split at h
    · cases h
    · next outcome next hne hiterate =>
      obtain rfl := Option.some.inj h
      rw [hiterate] at hnext
      exact hnext hne

/-- From a block of the file every iteration makes progress, when a file that is looped has a
complete block. -/
theorem AtBlock.progresses (hpos : 0 < pb.block_samples_) (h : pb.AtBlock file player)
    (hloop : loop = true → 0 < pb.complete file) : pb.Progresses file loop player := by
  obtain ⟨passes, j, hnum, hle, hfp⟩ := h
  by_cases hj : j < pb.complete file
  · rw [Progresses, iterate_of_lt loop hpos hfp hj]
    refine ⟨?_, rfl⟩
    change Function.update _ _ _ _ = _
    rw [Function.update_self, hnum, Nat.mul_comm, Nat.mul_add_mod, Nat.mod_eq_of_lt hj]
  · rw [Progresses, iterate_of_not_lt loop hpos hfp hj]
    cases loop with
    | false => trivial
    | true =>
      -- the rewound player stands at the first block
      have hfirst : pb.iterate file true { player with fp_ := fseek data_start } = _ :=
        iterate_of_lt true hpos rfl (hloop rfl)
      exact congrArg Prod.fst hfirst

end Playback

/-- A file whose header passes the checks of its magic and its version. -/
structure Accepted (file : Bytes) (hdr : BufferFileHeader) : Prop where
  header : readHeader file = some hdr
  magic : hdr.magic = kBufferFileMagic
  version : hdr.version = 1

namespace Accepted

variable {file : Bytes} {hdr : BufferFileHeader} {loop : Bool}

theorem openPlayback_eq (h : Accepted file hdr) :
    openPlayback file =
      if hdr.block_samples * sizeofT = 0 then .error .divisionByZero
      else .ok ⟨hdr.block_samples, hdr.block_interval_ns,
        (file.length - data_start) / (hdr.block_samples * sizeofT)⟩ := by
  rw [openPlayback, h.header]
  simp only [h.magic, h.version, ne_eq, not_true_eq_false, if_false]

/-- A file that is opened has blocks that are not empty. -/
theorem block_samples_pos (h : Accepted file hdr) {pb : Playback}
    (hopen : openPlayback file = .ok pb) :
    0 < hdr.block_samples ∧ pb.block_samples_ = hdr.block_samples := by
  rw [h.openPlayback_eq] at hopen
  split_ifs at hopen with hzero
  obtain rfl := Except.ok.inj hopen
  exact ⟨Nat.pos_of_mul_pos_right (Nat.pos_of_ne_zero hzero), rfl⟩

/-- A looped file that is played has a complete block: otherwise it is rewound again and again. -/
theorem complete_pos (h : Accepted file hdr) (hplays : Plays file true) :
    hdr.block_samples * sizeofT ≤ file.length - data_start := by
  obtain ⟨pb, hopen⟩ := hplays.opens
  obtain ⟨hpos, hsamples⟩ := h.block_samples_pos hopen
  by_contra hshort
  have hzero : ¬0 < pb.complete file := by
    rw [Playback.complete, Playback.blockBytes, hsamples, Nat.mul_comm, Nat.not_lt, Nat.le_zero]
    exact Nat.div_eq_of_lt (Nat.not_le.1 hshort)
  have hpos' : 0 < pb.block_samples_ := hsamples ▸ hpos
  let player := Player.init fun _ => []
  have hrewind : pb.iterate file true player = (.rewind, player) :=
    Playback.iterate_of_not_lt (j := 0) true hpos' rfl hzero
  have hprogress := hplays.progresses pb hopen _ 0 player rfl
  rw [Playback.Progresses, hrewind] at hprogress
  have hagain : (pb.iterate file true player).1 = .publish := hprogress
  rw [hrewind] at hagain
  cases hagain

end Accepted

/-- An accepted file is played exactly when its blocks are not empty, its elements are those of the
reader and, if it is looped, it holds a complete block. -/
theorem plays_iff {file : Bytes} {hdr : BufferFileHeader} (h : Accepted file hdr) (loop : Bool) :
    Plays file loop ↔
      hdr.block_samples ≠ 0 ∧ hdr.element_bytes = sizeofT ∧
        (loop = true → hdr.block_samples * sizeofT ≤ file.length - data_start) := by
  constructor
  · intro hplays
    obtain ⟨pb, hopen⟩ := hplays.opens
    refine ⟨(h.block_samples_pos hopen).1.ne', hplays.element hdr h.header, ?_⟩
    rintro rfl
    exact h.complete_pos hplays
  · rintro ⟨hne, helement, hcomplete⟩
    -- the division by the block's bytes is safe, and a loop has a whole block to play
    have hzero : ¬hdr.block_samples * sizeofT = 0 := Nat.mul_ne_zero hne (by decide)
    refine ⟨⟨_, by rw [h.openPlayback_eq, if_neg hzero]⟩, fun hdr' hhdr => ?_, ?_⟩
    · obtain rfl := Option.some.inj (h.header.symm.trans hhdr)
      exact helement
    · intro pb hopen ring k player hbefore
      obtain ⟨hpos, hsamples⟩ := h.block_samples_pos hopen
      have hpos' : 0 < pb.block_samples_ := hsamples ▸ hpos
      refine (Playback.atBlock_before hpos' hbefore).progresses hpos' fun hloop => ?_
      rw [Playback.complete, Playback.blockBytes, hsamples, Nat.mul_comm]
      exact Nat.div_pos (hcomplete hloop) (Nat.pos_of_ne_zero hzero)

/-- The `width` bytes of a number, least significant first. -/
def bytesOf : ℕ → ℕ → Bytes
  | 0, _ => []
  | width + 1, n => UInt8.ofNat n :: bytesOf width (n / 256)

/-- A header with the given block size and element size, as the recorder writes it. -/
def headerBytes (block_samples element_bytes : ℕ) : Bytes :=
  bytesOf 4 kBufferFileMagic ++ bytesOf 4 1 ++ bytesOf 4 block_samples ++ bytesOf 4 element_bytes ++
    bytesOf 8 1000 ++ bytesOf 4 48000 ++ bytesOf 4 0

/-- A file of two blocks of one sample and three bytes of a third is looped. -/
theorem plays_iff_truncated :
    Plays (headerBytes 1 8 ++ List.replicate 19 7) true ↔
      (1 : ℕ) ≠ 0 ∧ 8 = sizeofT ∧
        (true = true →
          1 * sizeofT ≤ (headerBytes 1 8 ++ List.replicate 19 7).length - data_start) :=
  have haccepted : Accepted (headerBytes 1 8 ++ List.replicate 19 7)
      ⟨kBufferFileMagic, 1, 1, 8, 1000, 48000, 0⟩ := ⟨by decide +kernel, rfl, rfl⟩
  plays_iff haccepted true

/-- Three accepted files that are not played: one with empty blocks, which divides by zero, one with
elements of four bytes, and a looped one whose body is shorter than a block. -/
theorem accepted_not_plays :
    (Accepted (headerBytes 0 8) ⟨kBufferFileMagic, 1, 0, 8, 1000, 48000, 0⟩ ∧
      openPlayback (headerBytes 0 8) = .error .divisionByZero ∧ ¬Plays (headerBytes 0 8) false) ∧
    (Accepted (headerBytes 1 4) ⟨kBufferFileMagic, 1, 1, 4, 1000, 48000, 0⟩ ∧
      ¬Plays (headerBytes 1 4) false) ∧
    (Accepted (headerBytes 1 8) ⟨kBufferFileMagic, 1, 1, 8, 1000, 48000, 0⟩ ∧
      ¬Plays (headerBytes 1 8) true) := by
  have hzero : openPlayback (headerBytes 0 8) = .error .divisionByZero := by decide +kernel
  have hforeign : readHeader (headerBytes 1 4) =
      some ⟨kBufferFileMagic, 1, 1, 4, 1000, 48000, 0⟩ := by decide +kernel
  have hshort : Accepted (headerBytes 1 8) ⟨kBufferFileMagic, 1, 1, 8, 1000, 48000, 0⟩ :=
    ⟨by decide +kernel, rfl, rfl⟩
  refine ⟨⟨⟨by decide +kernel, rfl, rfl⟩, hzero, fun hplays => ?_⟩, ⟨⟨hforeign, rfl, rfl⟩,
    fun hplays => ?_⟩, hshort, fun hplays => ?_⟩
  · obtain ⟨pb, hopen⟩ := hplays.opens
    cases hzero.symm.trans hopen
  · exact absurd (hplays.element _ hforeign) (by decide)
  · exact absurd (hshort.complete_pos hplays) (by decide +kernel)

end GranolaSdr.Buffer
