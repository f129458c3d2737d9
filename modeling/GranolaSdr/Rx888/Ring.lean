import GranolaSdr.Lib.Memory
import Mathlib.Algebra.Group.Nat.Defs
import Mathlib.Data.List.Basic

/-!
# The receiver's ring

`rx888::handle_samples` copies the samples of a USB chunk into a ring, in two pieces if the chunk
crosses its end, and publishes how many samples there have been. Readers divide that count by the
size of a block.

## Main definitions

* `BufferPosition`: a shape and a position, with `setPosition` and `getNow`;
* `State`, `handle_samples`: the ring, and what a chunk does to it;
* `received`: the state after some chunks.

## Main results

* `State.Inv.handle_samples`: the last samples stay in the cells of their numbers;
* `ring_holds_blocks`: which blocks the ring holds, until the count of samples wraps.
-/

namespace GranolaSdr.Rx888

open Memory

/-! ## Positions -/

/-- The position in a buffer of some shape. -/
structure BufferPosition where
  buffPosition : ℕ
  shape : List ℕ

namespace BufferPosition

/-- The size of the cells of an axis: the last shapes multiplied. -/
def cell (b : BufferPosition) (axis : ℕ) : ℕ := (b.shape.reverse.take axis).foldl (· * ·) 1

/-- Publish a position, counted in cells of an axis. -/
def setPosition (b : BufferPosition) (position : ℕ) (axis : ℕ) : BufferPosition :=
  if axis ≠ 0 ∧ axis < b.shape.length then
    { b with buffPosition := b.cell axis * position % 2 ^ 64 }
  else { b with buffPosition := position }

/-- The position in cells of an axis. -/
def getNow (b : BufferPosition) (axis : ℕ) : ℕ :=
  if axis ≠ 0 ∧ axis < b.shape.length then b.buffPosition / b.cell axis else b.buffPosition

end BufferPosition

/-! ## The ring -/

/-- The samples of a block. -/
def NLARGE : ℕ := 700000

/-- The blocks of the ring. -/
def BUFFERS : ℕ := 16

/-- The samples of the ring. -/
def rx_buffer_size : ℕ := NLARGE * BUFFERS

variable {α : Type*}

/-- The ring, the count of samples and what is published of it. -/
structure State (α : Type*) where
  buf : ℕ → α
  position : ℕ
  rxBufferPosition : BufferPosition

/-- The state before the first chunk. -/
def init (buf : ℕ → α) : State α := ⟨buf, 0, ⟨0, [BUFFERS, NLARGE]⟩⟩

/-- Copy a chunk into the ring, in two pieces if it does not fit in front of the ring's end, and
publish the new count. -/
def handle_samples (s : State α) (data : List α) : State α :=
  let write_pos := s.position % rx_buffer_size
  let space := rx_buffer_size - write_pos
  let buf :=
    if data.length ≤ space then write s.buf write_pos data
    else write (write s.buf write_pos (data.take space)) 0 (data.drop space)
  let position := (s.position + data.length) % 2 ^ 64
  { buf, position, rxBufferPosition := s.rxBufferPosition.setPosition position 0 }

/-- The state after some chunks. -/
def received (buf : ℕ → α) (chunks : List (List α)) : State α :=
  chunks.foldl handle_samples (init buf)

/-- The ring after a stream of samples: each of the last samples is in the cell of its number. -/
structure State.Inv (s : State α) (stream : List α) : Prop where
  position : s.position = stream.length
  published : s.rxBufferPosition = ⟨stream.length, [BUFFERS, NLARGE]⟩
  cells : ∀ n < stream.length, stream.length ≤ n + rx_buffer_size →
    stream[n]? = some (s.buf (n % rx_buffer_size))

theorem inv_init (buf : ℕ → α) : (init buf).Inv [] where
  position := rfl
  published := rfl
  cells := nofun

variable {s : State α} {stream data : List α}

/-- The cell of a sample of the chunk. -/
theorem State.Inv.buf_of_ge (h : s.Inv stream) (hsize : data.length ≤ rx_buffer_size) {k : ℕ}
    (hk : k < data.length) :
    data[k]? = some ((handle_samples s data).buf ((stream.length + k) % rx_buffer_size)) := by
  have hring : rx_buffer_size = 11200000 := rfl
  unfold handle_samples
  rw [h.position, List.getElem?_eq_getElem hk]
  dsimp only
  rw [hring] at hsize ⊢
  split_ifs with hspace
  · have hcell : (stream.length + k) % 11200000 = stream.length % 11200000 + k := by omega
    rw [hcell, write_add, List.getElem?_eq_getElem hk, Option.getD_some]
  · rcases Nat.lt_or_ge k (11200000 - stream.length % 11200000) with hfirst | hsecond
    · have hcell : (stream.length + k) % 11200000 = stream.length % 11200000 + k := by omega
      -- the second piece ends where the chunk began, at most
      have hapart : 0 + (data.drop (11200000 - stream.length % 11200000)).length ≤
          stream.length % 11200000 + k := by
        rw [List.length_drop]
        omega
      rw [hcell, write_of_outside (Or.inr hapart), write_add, List.getElem?_take_of_lt hfirst,
        List.getElem?_eq_getElem hk, Option.getD_some]
    · obtain ⟨j, rfl⟩ := Nat.exists_eq_add_of_le hsecond
      have hcell : (stream.length + (11200000 - stream.length % 11200000 + j)) % 11200000 =
          0 + j := by omega
      rw [hcell, write_add, List.getElem?_drop, List.getElem?_eq_getElem hk, Option.getD_some]

/-- The cell of an earlier sample is left as it is, as long as the ring has room for it. -/
theorem State.Inv.buf_of_lt (h : s.Inv stream) {n : ℕ} (hn : n < stream.length)
    (hroom : stream.length + data.length ≤ n + rx_buffer_size) :
    (handle_samples s data).buf (n % rx_buffer_size) = s.buf (n % rx_buffer_size) := by
  have hring : rx_buffer_size = 11200000 := rfl
  unfold handle_samples
  rw [h.position]
  dsimp only
  rw [hring] at hroom ⊢
  split_ifs with hspace
  · exact write_of_outside (by omega)
  · -- neither piece reaches the cell: the second ends before the chunk began
    have hfirst : n % 11200000 < stream.length % 11200000 ∨ stream.length % 11200000 +
        (data.take (11200000 - stream.length % 11200000)).length ≤ n % 11200000 := by
      rw [List.length_take]
      omega
    have hsecond : n % 11200000 < 0 ∨
        0 + (data.drop (11200000 - stream.length % 11200000)).length ≤ n % 11200000 := by
      rw [List.length_drop]
      omega
    rw [write_of_outside hsecond, write_of_outside hfirst]

/-- A chunk that is no longer than the ring keeps the invariant, until the count wraps. -/
theorem State.Inv.handle_samples (h : s.Inv stream) (hsize : data.length ≤ rx_buffer_size)
    (hcount : stream.length + data.length < 2 ^ 64) :
    (handle_samples s data).Inv (stream ++ data) where
  position := by
    show (s.position + data.length) % 2 ^ 64 = _
    rw [h.position, Nat.mod_eq_of_lt hcount, List.length_append]
  published := by
    show s.rxBufferPosition.setPosition ((s.position + data.length) % 2 ^ 64) 0 = _
    rw [h.position, h.published, Nat.mod_eq_of_lt hcount, List.length_append]
    rfl
  cells := by
    intro n hn hroom
    rw [List.length_append] at hn hroom
    -- a sample is an earlier one, or one of the chunk
    rcases Nat.lt_or_ge n stream.length with hold | hnew
    · rw [h.buf_of_lt hold hroom, List.getElem?_append_left hold]
      exact h.cells n hold (by omega)
    · obtain ⟨k, rfl⟩ := Nat.exists_eq_add_of_le hnew
      rw [List.getElem?_append_right hnew, Nat.add_sub_cancel_left]
      exact h.buf_of_ge hsize (by omega)

/-- The ring after any chunks, by induction over the chunks. -/
theorem inv_received (buf : ℕ → α) {chunks : List (List α)}
    (hsize : ∀ data ∈ chunks, data.length ≤ rx_buffer_size)
    (hcount : chunks.flatten.length < 2 ^ 64) : (received buf chunks).Inv chunks.flatten := by
  -- for the induction the ring may have received samples before
  have hrun : ∀ (chunks : List (List α)) (s : State α) (stream : List α), s.Inv stream →
      (∀ data ∈ chunks, data.length ≤ rx_buffer_size) →
        stream.length + chunks.flatten.length < 2 ^ 64 →
          (chunks.foldl Rx888.handle_samples s).Inv (stream ++ chunks.flatten) := by
    intro chunks
    induction chunks with
    | nil =>
      intro s stream h _ _
      rw [List.flatten_nil, List.append_nil]
      exact h
    | cons data chunks ih =>
      intro s stream h hsize hcount
      obtain ⟨hdata, hrest⟩ := List.forall_mem_cons.1 hsize
      rw [List.flatten_cons, List.length_append] at hcount
      rw [List.flatten_cons, ← List.append_assoc]
      refine ih _ _ (h.handle_samples hdata (by omega)) hrest ?_
      rw [List.length_append]
      omega
  exact hrun chunks (init buf) [] (inv_init buf) hsize (by rwa [List.length_nil, Nat.zero_add])

/-- A whole block that the last samples have not overwritten is in its slot. -/
theorem State.Inv.slot (h : s.Inv stream) {b : ℕ} (hlow : (b + 1) * NLARGE ≤ stream.length)
    (hhigh : stream.length ≤ (b + BUFFERS) * NLARGE) {i : ℕ} (hi : i < NLARGE) :
    stream[b * NLARGE + i]? = some (s.buf (b % BUFFERS * NLARGE + i)) := by
  -- the ring is a whole number of blocks, so a block does not cross its end
  have hcell : (b * NLARGE + i) % rx_buffer_size = b % BUFFERS * NLARGE + i := by
    simp only [rx_buffer_size, NLARGE, BUFFERS] at hi ⊢
    omega
  rw [← hcell]
  refine h.cells _ ?_ ?_
  · rw [Nat.succ_mul] at hlow
    omega
  · rw [Nat.add_mul] at hhigh
    show _ ≤ b * NLARGE + i + NLARGE * BUFFERS
    rw [Nat.mul_comm NLARGE]
    omega

/-- For all chunks no longer than the ring, of fewer than `2 ^ 64` samples in all: the published
block count is that of the whole blocks received, and each block that the last samples have not
overwritten is in its slot of the ring. -/
theorem ring_holds_blocks (buf : ℕ → α) {chunks : List (List α)}
    (hsize : ∀ data ∈ chunks, data.length ≤ rx_buffer_size)
    (hcount : chunks.flatten.length < 2 ^ 64) :
    (received buf chunks).rxBufferPosition.getNow 1 = chunks.flatten.length / NLARGE ∧
      ∀ b, (b + 1) * NLARGE ≤ chunks.flatten.length →
        chunks.flatten.length ≤ (b + BUFFERS) * NLARGE →
          ∀ i < NLARGE, chunks.flatten[b * NLARGE + i]? =
            some ((received buf chunks).buf (b % BUFFERS * NLARGE + i)) := by
  have h := inv_received buf hsize hcount
  constructor
  · rw [h.published]
    rfl
  · exact fun b hlow hhigh i hi => h.slot hlow hhigh hi

/-- Two chunks of 17 blocks in all, the second one across the end of the ring. -/
def crossing : List (List ℤ) := [List.replicate 11000000 1, List.replicate 900000 2]

theorem ring_holds_blocks_crossing :
    (received (fun _ => 0) crossing).rxBufferPosition.getNow 1 = 17 ∧
      ∀ b, 1 ≤ b → b ≤ 16 → ∀ i < NLARGE, crossing.flatten[b * NLARGE + i]? =
        some ((received (fun _ => 0) crossing).buf (b % BUFFERS * NLARGE + i)) := by
  have hlength : crossing.flatten.length = 17 * NLARGE := by
    rw [crossing, List.flatten_cons, List.flatten_singleton, List.length_append,
      List.length_replicate, List.length_replicate]
    rfl
  have hsize : ∀ data ∈ crossing, data.length ≤ rx_buffer_size := by
    intro data hdata
    rcases List.mem_cons.1 hdata with rfl | hdata
    · rw [List.length_replicate]
      decide
    · rw [List.mem_singleton.1 hdata, List.length_replicate]
      decide
  have hcount : crossing.flatten.length < 2 ^ 64 := by
    rw [hlength]
    decide
  obtain ⟨hnow, hblocks⟩ := ring_holds_blocks (fun _ => 0) hsize hcount
  rw [hlength] at hnow hblocks
  refine ⟨hnow, fun b hlow hhigh => hblocks b ?_ ?_⟩
  · exact Nat.mul_le_mul_right _ (by omega)
  · -- the first block has been overwritten by the last one
    exact Nat.mul_le_mul_right _ (by rw [BUFFERS]; omega)

/-- The count is kept in 64 bits. -/
theorem position_received (buf : ℕ → α) (chunks : List (List α)) :
    (received buf chunks).rxBufferPosition =
      ⟨chunks.flatten.length % 2 ^ 64, [BUFFERS, NLARGE]⟩ := by
  have hrun : ∀ (chunks : List (List α)) (s : State α),
      s.rxBufferPosition = ⟨s.position % 2 ^ 64, [BUFFERS, NLARGE]⟩ →
        (chunks.foldl handle_samples s).rxBufferPosition =
          ⟨(s.position + chunks.flatten.length) % 2 ^ 64, [BUFFERS, NLARGE]⟩ := by
    intro chunks
    induction chunks with
    | nil => exact fun s h => h
    | cons data chunks ih =>
      intro s h
      have hnext : (handle_samples s data).rxBufferPosition =
          ⟨(handle_samples s data).position % 2 ^ 64, [BUFFERS, NLARGE]⟩ := by
        show s.rxBufferPosition.setPosition ((s.position + data.length) % 2 ^ 64) 0 =
          ⟨(s.position + data.length) % 2 ^ 64 % 2 ^ 64, _⟩
        rw [h, Nat.mod_mod]
        rfl
      rw [List.foldl_cons, ih _ hnext, List.flatten_cons, List.length_append]
      -- the remainder may be taken after each chunk or once at the end
      show (⟨((s.position + data.length) % 2 ^ 64 + chunks.flatten.length) % 2 ^ 64, _⟩ :
        BufferPosition) = _
      rw [Nat.mod_add_mod, Nat.add_assoc]
  have hinit := hrun chunks (init buf) rfl
  rwa [init, Nat.zero_add] at hinit

/-- After `2 ^ 64` samples the count is zero again. -/
theorem count_wraps :
    ∃ chunks : List (List ℤ), (∀ data ∈ chunks, data.length ≤ rx_buffer_size) ∧
      (received (fun _ => 0) chunks).rxBufferPosition.getNow 1 ≠
        chunks.flatten.length / NLARGE := by
  refine ⟨List.replicate (2 ^ 44) (List.replicate (2 ^ 20) 0), ?_, ?_⟩
  · intro data hdata
    rw [List.eq_of_mem_replicate hdata, List.length_replicate]
    decide
  · have hlength :
        (List.replicate (2 ^ 44) (List.replicate (2 ^ 20) (0 : ℤ))).flatten.length = 2 ^ 64 := by
      calc _ = 2 ^ 44 * 2 ^ 20 := by
            rw [List.length_flatten, List.map_replicate, List.length_replicate,
              List.sum_replicate_nat]
        _ = 2 ^ 64 := by decide
    rw [position_received, hlength]
    decide

end GranolaSdr.Rx888
