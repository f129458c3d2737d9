import GranolaSdr.Rx888.Ring

/-!
# The input of the front-end FFT

`HFChannelizer::doCopy` keeps the receiver's blocks in a staging area of one block more than the
ring has: a block is converted to floating point and stored behind the place that its slot has, and
at the first slot of each lap the block behind the last place is copied to the front. The FFT reads
two blocks from the place of the slot.

## Main definitions

* `State`, `doCopy`: the two device buffers, and what a call does to them;
* `stateAt`, `fftInput`: the state before a call, and what the FFT of the call reads.

## Main results

* `holds_doCopy`: what the FFT reads after a call for the block before;
* `block_eq_stream`: a block in the receiver's ring is one of the stream received;
* `overlap_save`: from the second call on the FFT reads the block before and the block.
-/

namespace GranolaSdr.Channelizer.Staging

open Memory Rx888

variable {σ β : Type*}

/-- The buffers on the device: the blocks as they are received, and the staging area. -/
structure State (σ β : Type*) where
  inData_d : ℕ → σ
  fftInData_d : ℕ → β

/-- Where the samples of a block are in the receiver's ring. -/
def in_position (now : ℕ) : ℕ := now % Rx888.BUFFERS * NLARGE

variable (convert : σ → β)

/-- The staging part of a call, with the receiver's ring as it is then. The stream runs the copies
in this order, before the FFT. -/
def doCopy (s : State σ β) (now : ℕ) (inData : ℕ → σ) : State σ β :=
  let inData_d := copy s.inData_d (in_position now) inData (in_position now) NLARGE
  let fftInData_d := copy s.fftInData_d (in_position now + NLARGE)
    (fun i => convert (inData_d i)) (in_position now) NLARGE
  let fftInData_d :=
    if now % Rx888.BUFFERS = 0 then copy fftInData_d 0 fftInData_d (Rx888.BUFFERS * NLARGE) NLARGE
    else fftInData_d
  { inData_d, fftInData_d }

/-- The state before call `n`, where the first call is for some block and the others for the blocks
after it. The receiver's ring is `ring b` when the call for block `b` copies from it. -/
def stateAt (ring : ℕ → ℕ → σ) (first : ℕ) (s : State σ β) : ℕ → State σ β
  | 0 => s
  | n + 1 => doCopy convert (stateAt ring first s n) (first + n) (ring (first + n))

/-- What the FFT of call `n` reads: two blocks of the staging area. -/
def fftInput (ring : ℕ → ℕ → σ) (first : ℕ) (s : State σ β) (n : ℕ) : List β :=
  (List.range (2 * NLARGE)).map fun i =>
    (stateAt convert ring first s (n + 1)).fftInData_d (in_position (first + n) + i)

/-- A block as it is in the receiver's ring. -/
def block (ring : ℕ → ℕ → σ) (b : ℕ) : List σ :=
  (List.range NLARGE).map fun i => ring b (in_position b + i)

variable {convert} {s : State σ β} {ring : ℕ → ℕ → σ} {now first n : ℕ}

/-- The places of two blocks are within the staging area. -/
theorem in_position_add_le (now : ℕ) :
    in_position now + 2 * NLARGE ≤ (Rx888.BUFFERS + 1) * NLARGE := by
  have hslot : now % Rx888.BUFFERS < Rx888.BUFFERS := Nat.mod_lt now (by decide)
  simp only [in_position, Rx888.BUFFERS, NLARGE] at hslot ⊢
  omega

/-- The place behind a block's slot is the place of the next slot, or the one that is copied to the
front. -/
theorem in_position_succ (now : ℕ) :
    in_position (now + 1) = in_position now + NLARGE ∧ (now + 1) % Rx888.BUFFERS ≠ 0 ∨
      in_position (now + 1) = 0 ∧ (now + 1) % Rx888.BUFFERS = 0 ∧
        in_position now + NLARGE = Rx888.BUFFERS * NLARGE := by
  simp only [in_position, Rx888.BUFFERS, NLARGE]
  omega

/-- The staging area with the block of a call, before a copy to the front. -/
def converted (convert : σ → β) (s : State σ β) (now : ℕ) (inData : ℕ → σ) : ℕ → β :=
  copy s.fftInData_d (in_position now + NLARGE)
    (fun i => convert (copy s.inData_d (in_position now) inData (in_position now) NLARGE i))
    (in_position now) NLARGE

theorem fftInData_doCopy (s : State σ β) (now : ℕ) (inData : ℕ → σ) :
    (doCopy convert s now inData).fftInData_d =
      if now % Rx888.BUFFERS = 0 then
        copy (converted convert s now inData) 0 (converted convert s now inData)
          (Rx888.BUFFERS * NLARGE) NLARGE
      else converted convert s now inData := rfl

theorem holds_converted (s : State σ β) (now : ℕ) (inData : ℕ → σ) :
    Holds (converted convert s now inData) (in_position now + NLARGE)
      (fun i => convert (inData i)) (in_position now) NLARGE := by
  have hinput : Holds (copy s.inData_d (in_position now) inData (in_position now) NLARGE)
      (in_position now) inData (in_position now) NLARGE :=
    (Holds.refl inData (in_position now) NLARGE).copy
  exact (hinput.comp convert).copy

/-- After a call the block is behind the place of its slot: the copy to the front ends there. -/
theorem holds_doCopy (s : State σ β) (now : ℕ) (inData : ℕ → σ) :
    Holds (doCopy convert s now inData).fftInData_d (in_position now + NLARGE)
      (fun i => convert (inData i)) (in_position now) NLARGE := by
  rw [fftInData_doCopy]
  split_ifs with hlap
  · apply (holds_converted s now inData).copy_of_disjoint
    exact Or.inr (Nat.add_comm .. |>.trans_le (Nat.le_add_left ..))
  · exact holds_converted s now inData

/-- After a call the block before is in the place of the slot, if it was behind the place of its own
slot. It is there, or it was copied to the front. -/
theorem holds_doCopy_previous {stream : ℕ → β} {start : ℕ} (inData : ℕ → σ)
    (h : Holds s.fftInData_d (in_position now + NLARGE) stream start NLARGE) :
    Holds (doCopy convert s (now + 1) inData).fftInData_d (in_position (now + 1)) stream start
      NLARGE := by
  rw [fftInData_doCopy]
  rcases in_position_succ now with ⟨hplace, hlap⟩ | ⟨hplace, hlap, hend⟩
  · rw [if_neg hlap, hplace]
    exact h.copy_of_disjoint (Or.inl (by rw [hplace]))
  · rw [if_pos hlap, hplace]
    rw [hend] at h
    -- the block behind the last place is not overwritten before it is copied
    have hkept : Holds (converted convert s (now + 1) inData) (Rx888.BUFFERS * NLARGE) stream start
        NLARGE := by
      refine h.copy_of_disjoint (Or.inr ?_)
      rw [hplace]
      decide
    exact hkept.copy

theorem fftInput_eq (h : Holds (stateAt convert ring first s (n + 1)).fftInData_d
      (in_position (first + n)) (fun i => convert (ring now i)) (in_position now) NLARGE)
    (h' : Holds (stateAt convert ring first s (n + 1)).fftInData_d
      (in_position (first + n) + NLARGE) (fun i => convert (ring (first + n) i))
      (in_position (first + n)) NLARGE) :
    fftInput convert ring first s n = (block ring now ++ block ring (first + n)).map convert := by
  unfold fftInput block
  -- the two halves of the window are the two blocks
  rw [Nat.two_mul, List.range_add, List.map_append, List.map_append, List.map_map, List.map_map,
    List.map_map]
  refine congrArg₂ (· ++ ·) ?_ ?_
  · exact List.map_congr_left fun i hi => h i (List.mem_range.1 hi)
  · refine List.map_congr_left fun i hi => ?_
    have hcell := h' i (List.mem_range.1 hi)
    rwa [Nat.add_assoc] at hcell

/-- A block in the receiver's ring is that of the samples received, as long as the receiver has not
overwritten it. -/
theorem block_eq_stream {receiver : Rx888.State σ} {stream : List σ} (h : receiver.Inv stream)
    {b : ℕ} (hring : ring b = receiver.buf) (hlow : (b + 1) * NLARGE ≤ stream.length)
    (hhigh : stream.length ≤ (b + Rx888.BUFFERS) * NLARGE) :
    block ring b = (stream.drop (b * NLARGE)).take NLARGE := by
  have hlength : NLARGE ≤ (stream.drop (b * NLARGE)).length := by
    rw [Nat.succ_mul] at hlow
    rw [List.length_drop]
    omega
  apply List.ext_getElem
  · rw [block, List.length_map, List.length_range, List.length_take_of_le hlength]
  · intro i hi _
    rw [block, List.length_map, List.length_range] at hi
    have hslot := h.slot hlow hhigh hi
    rw [← List.getElem?_drop, List.getElem?_eq_getElem (by omega), Option.some.injEq] at hslot
    simp only [block, List.getElem_map, List.getElem_range, List.getElem_take, hring]
    exact hslot.symm

/-- For calls for consecutive blocks, from any block and any state on: from the second call on the
FFT reads the block before and the block, one behind the other, from within the staging area. -/
theorem overlap_save (convert : σ → β) (ring : ℕ → ℕ → σ) (first : ℕ) (s : State σ β) (n : ℕ) :
    fftInput convert ring first s (n + 1) =
        (block ring (first + n) ++ block ring (first + n + 1)).map convert ∧
      in_position (first + n + 1) + 2 * NLARGE ≤ (Rx888.BUFFERS + 1) * NLARGE := by
  refine ⟨?_, in_position_add_le _⟩
  have hbefore : Holds (stateAt convert ring first s (n + 1)).fftInData_d
      (in_position (first + n) + NLARGE) (fun i => convert (ring (first + n) i))
      (in_position (first + n)) NLARGE := holds_doCopy _ _ _
  exact fftInput_eq (holds_doCopy_previous _ hbefore) (holds_doCopy _ _ _)

end GranolaSdr.Channelizer.Staging
