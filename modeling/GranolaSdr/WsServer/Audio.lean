import GranolaSdr.Lib.SampleStream
import GranolaSdr.WsServer.Tci

/-!
# TCI audio

How `tci.rs` gathers the samples of each receiver, cuts them into frames and builds their bytes, and
how `audio_router.py` takes a frame apart again. A sample is the bits of an `f32`; the product of
two is a parameter.

## Main definitions

* `build_audio_frame`: the bytes of a frame;
* `AudioState.push_audio_impl`, `AudioState.push_all`: one call, and a sequence of calls;
* `route`: what the router reads from a message.

## Main results

* `push_all_eq_regroup`: each receiver regroups the pieces pushed to it, and sees no others;
* `route_build_audio_frame`: the router reads back the samples of a frame;
* `audio_conserved`: what the frames of a receiver carry is what was pushed to it.
-/

namespace GranolaSdr.Tci

open SampleStream

/-- The samples of a frame. -/
def AUDIO_FRAME : ℕ := 480

/-- The bits of an `f32`. -/
abbrev F32 := UInt32

/-! ## Frames -/

section Frames

variable (mul : F32 → F32 → F32)

/-- The header of a frame. -/
def audio_header (trx : UInt32) (float_count : ℕ) : List UInt32 :=
  [trx, 48000, 3, 0, 0, UInt32.ofNat float_count, 1, 0, 0, 0, 0, 0, 0, 0, 0, 0]

/-- `build_audio_frame` -/
def build_audio_frame (trx : UInt32) (samples : List F32) (gain : F32) : List UInt8 :=
  let float_count := samples.length * 2
  (audio_header trx float_count).flatMap toLittleEndian ++
    samples.flatMap fun s =>
      let v := mul s gain
      toLittleEndian v ++ toLittleEndian v

/-- What a frame carries after its header. -/
def payload (frame : List UInt8) : List F32 := words (frame.drop 64)

/-- The left channel of a frame. -/
def left (frame : List UInt8) : List F32 := evens (payload frame)

/-- The right channel of a frame. -/
def right (frame : List UInt8) : List F32 := odds (payload frame)

theorem length_audio_header_bytes (trx : UInt32) (float_count : ℕ) :
    ((audio_header trx float_count).flatMap toLittleEndian).length = 64 := by
  rw [length_flatMap_toLittleEndian]
  rfl

/-- A sample is sent twice, for the left and the right channel. -/
theorem build_audio_frame_eq (trx : UInt32) (samples : List F32) (gain : F32) :
    build_audio_frame mul trx samples gain =
      (audio_header trx (samples.length * 2)).flatMap toLittleEndian ++
        ((samples.map (mul · gain)).flatMap fun v => [v, v]).flatMap toLittleEndian := by
  unfold build_audio_frame
  rw [List.flatMap_assoc, List.flatMap_map]
  simp only [List.flatMap_cons, List.flatMap_nil, List.append_nil]

theorem length_build_audio_frame (trx : UInt32) (samples : List F32) (gain : F32) :
    (build_audio_frame mul trx samples gain).length = 64 + samples.length * 2 * 4 := by
  rw [build_audio_frame_eq, List.length_append, length_audio_header_bytes,
    length_flatMap_toLittleEndian, length_flatMap_pair, List.length_map]
  omega

theorem payload_build_audio_frame (trx : UInt32) (samples : List F32) (gain : F32) :
    payload (build_audio_frame mul trx samples gain) =
      (samples.map (mul · gain)).flatMap fun v => [v, v] := by
  rw [payload, build_audio_frame_eq, List.drop_left' (length_audio_header_bytes _ _),
    words_flatMap]

theorem left_build_audio_frame (trx : UInt32) (samples : List F32) (gain : F32) :
    left (build_audio_frame mul trx samples gain) = samples.map (mul · gain) := by
  rw [left, payload_build_audio_frame, evens_flatMap]

theorem right_build_audio_frame (trx : UInt32) (samples : List F32) (gain : F32) :
    right (build_audio_frame mul trx samples gain) = samples.map (mul · gain) := by
  rw [right, payload_build_audio_frame, odds_flatMap]

end Frames

/-! ## The router -/

/-- `TCI_HEADER.unpack_from` -/
def unpack_header (data : List UInt8) : List UInt32 := words (data.take 64)

/-- `run_router`, for one binary message: the sink and the samples it is sent, if any. -/
def route (num_sinks : ℕ) (data : List UInt8) : Option (ℕ × List F32) :=
  if data.length < 64 then none
  else
    let hdr := unpack_header data
    if hdr.getD 6 0 ≠ 1 then none
    else
      let trx := (hdr.getD 0 0).toNat
      if num_sinks ≤ trx then none
      else
        let float_count := (hdr.getD 5 0).toNat
        let expected := 64 + float_count * 4
        if data.length < expected then none
        else
          let stereo := words ((data.take expected).drop 64)
          some (trx, evens stereo)

theorem unpack_header_build_audio_frame (mul : F32 → F32 → F32) (trx : UInt32)
    (samples : List F32) (gain : F32) :
    unpack_header (build_audio_frame mul trx samples gain) =
      audio_header trx (samples.length * 2) := by
  rw [unpack_header, build_audio_frame_eq, List.take_left' (length_audio_header_bytes _ _),
    words_flatMap]

/-- The router reads back the samples of a frame whose length fits its header. -/
theorem route_build_audio_frame (mul : F32 → F32 → F32) (num_sinks : ℕ) (trx : UInt32)
    {samples : List F32} (hlength : samples.length * 2 < 2 ^ 32) (gain : F32) :
    route num_sinks (build_audio_frame mul trx samples gain) =
      if trx.toNat < num_sinks then some (trx.toNat, samples.map (mul · gain)) else none := by
  have hframe := length_build_audio_frame mul trx samples gain
  have hcount : (UInt32.ofNat (samples.length * 2)).toNat = samples.length * 2 :=
    UInt32.toNat_ofNat_of_lt' hlength
  unfold route
  rw [if_neg (by omega), unpack_header_build_audio_frame]
  -- the words of the header that are looked at are known
  show (if (1 : UInt32) ≠ 1 then none
    else if num_sinks ≤ trx.toNat then none
    else if (build_audio_frame mul trx samples gain).length <
        64 + (UInt32.ofNat (samples.length * 2)).toNat * 4 then none
    else some (trx.toNat, evens (words (((build_audio_frame mul trx samples gain).take
        (64 + (UInt32.ofNat (samples.length * 2)).toNat * 4)).drop 64)))) = _
  -- the frame ends where its length field says
  rw [if_neg (not_not.2 rfl), hcount, ← hframe, if_neg (lt_irrefl _), List.take_length]
  by_cases htrx : trx.toNat < num_sinks
  · rw [if_neg (not_le.2 htrx), if_pos htrx]
    exact congrArg (fun mono => some (trx.toNat, mono))
      (left_build_audio_frame mul trx samples gain)
  · rw [if_pos (not_lt.1 htrx), if_neg htrx]

/-! ## The accumulators -/

/-- The part of `TciState` that carries audio. -/
structure AudioState where
  /-- The samples of each receiver not yet sent. -/
  audio_accum : Sink → List F32
  /-- What every sample is multiplied with. -/
  gain : F32
  /-- The number of pushes to any receiver. -/
  audio_push_count : UInt64

namespace AudioState

variable (mul : F32 → F32 → F32)

/-- `TciState::new` -/
def new (gain : F32) : AudioState where
  audio_accum _ := []
  gain := gain
  audio_push_count := 0

/-- `push_audio_impl`: the frame is what `broadcast_audio` sends to the subscribers of the
receiver. -/
def push_audio_impl (state : AudioState) (trx : UInt32) (pcm : List F32) :
    AudioState × Option (Sink × List UInt8) :=
  if h : trx.toNat < NUM_SINKS then
    let trx_idx : Sink := ⟨trx.toNat, h⟩
    let audio_push_count := state.audio_push_count + 1
    let accum := state.audio_accum trx_idx ++ pcm
    if AUDIO_FRAME ≤ accum.length then
      let samples := accum.take AUDIO_FRAME
      let audio_accum := Function.update state.audio_accum trx_idx (accum.drop AUDIO_FRAME)
      ({ state with audio_accum, audio_push_count },
        some (trx_idx, build_audio_frame mul trx samples state.gain))
    else
      let audio_accum := Function.update state.audio_accum trx_idx accum
      ({ state with audio_accum, audio_push_count }, none)
  else (state, none)

/-- A sequence of calls, and the frames they broadcast. -/
def push_all (state : AudioState) :
    List (UInt32 × List F32) → AudioState × List (Sink × List UInt8)
  | [] => (state, [])
  | (trx, pcm) :: calls =>
    let (next, frame) := push_audio_impl mul state trx pcm
    let (final, frames) := push_all next calls
    (final, frame.toList ++ frames)

end AudioState

/-- The frames broadcast for a receiver. -/
def framesOf (k : Sink) (frames : List (Sink × List UInt8)) : List (List UInt8) :=
  (frames.filter (·.1 = k)).map Prod.snd

/-- The pieces pushed to a receiver. -/
def piecesOf (k : Sink) (calls : List (UInt32 × List F32)) : List (List F32) :=
  (calls.filter (·.1.toNat = k.val)).map Prod.snd

namespace AudioState

variable (mul : F32 → F32 → F32)

theorem push_audio_impl_gain (state : AudioState) (trx : UInt32) (pcm : List F32) :
    (state.push_audio_impl mul trx pcm).1.gain = state.gain := by
  unfold push_audio_impl
  dsimp only
  split_ifs <;> rfl

/-- A push to one receiver changes nothing for another. -/
theorem push_audio_impl_of_ne {k : Sink} (state : AudioState) {trx : UInt32}
    (htrx : trx.toNat ≠ k) (pcm : List F32) :
    (state.push_audio_impl mul trx pcm).1.audio_accum k = state.audio_accum k ∧
      framesOf k (state.push_audio_impl mul trx pcm).2.toList = [] := by
  unfold push_audio_impl
  split_ifs with hsink
  · have hne : k ≠ ⟨trx.toNat, hsink⟩ := fun h => htrx (congrArg Fin.val h).symm
    dsimp only
    split_ifs with hfull
    · -- the frame is broadcast for the other receiver
      refine ⟨Function.update_of_ne hne _ _, ?_⟩
      simp [framesOf, hne.symm]
    · exact ⟨Function.update_of_ne hne _ _, rfl⟩
  · exact ⟨rfl, rfl⟩

/-- A push to a receiver appends, and cuts one frame off if there are enough samples. -/
theorem push_audio_impl_self (k : Sink) (state : AudioState) {trx : UInt32}
    (htrx : trx.toNat = k) (pcm : List F32) :
    (state.push_audio_impl mul trx pcm).1.audio_accum k =
        (regroup AUDIO_FRAME (state.audio_accum k) [pcm]).2 ∧
      framesOf k (state.push_audio_impl mul trx pcm).2.toList =
        (regroup AUDIO_FRAME (state.audio_accum k) [pcm]).1.map
          (build_audio_frame mul trx · state.gain) := by
  have hsink : trx.toNat < NUM_SINKS := htrx ▸ k.isLt
  obtain rfl : k = ⟨trx.toNat, hsink⟩ := Fin.ext htrx.symm
  unfold push_audio_impl
  rw [dif_pos hsink, regroup, regroup, regroup]
  dsimp only
  split_ifs with hfull
  · refine ⟨Function.update_self .., ?_⟩
    simp [framesOf]
  · exact ⟨Function.update_self .., rfl⟩

theorem push_all_gain (state : AudioState) (calls : List (UInt32 × List F32)) :
    (state.push_all mul calls).1.gain = state.gain := by
  induction calls generalizing state with
  | nil => rfl
  | cons call calls ih => exact (ih _).trans (push_audio_impl_gain mul state call.1 call.2)

theorem framesOf_push_all_cons (k : Sink) (state : AudioState) (call : UInt32 × List F32)
    (calls : List (UInt32 × List F32)) :
    framesOf k (state.push_all mul (call :: calls)).2 =
      framesOf k (state.push_audio_impl mul call.1 call.2).2.toList ++
        framesOf k ((state.push_audio_impl mul call.1 call.2).1.push_all mul calls).2 := by
  show framesOf k (_ ++ _) = _
  rw [framesOf, List.filter_append, List.map_append]
  rfl

/-- Each receiver regroups the pieces pushed to it, and sees no others. -/
theorem push_all_eq_regroup (k : Sink) (state : AudioState) (calls : List (UInt32 × List F32)) :
    (state.push_all mul calls).1.audio_accum k =
        (regroup AUDIO_FRAME (state.audio_accum k) (piecesOf k calls)).2 ∧
      framesOf k (state.push_all mul calls).2 =
        (regroup AUDIO_FRAME (state.audio_accum k) (piecesOf k calls)).1.map
          (build_audio_frame mul (UInt32.ofNat k) · state.gain) := by
  induction calls generalizing state with
  | nil => exact ⟨rfl, rfl⟩
  | cons call calls ih =>
    obtain ⟨hrest, hframes⟩ := ih (state.push_audio_impl mul call.1 call.2).1
    rw [push_audio_impl_gain] at hframes
    rw [framesOf_push_all_cons]
    -- a call for another receiver, or for none, is as if it had not been made
    by_cases htrx : call.1.toNat = k
    · obtain ⟨hheld, hframe⟩ := push_audio_impl_self mul k state htrx call.2
      have hpieces : piecesOf k (call :: calls) = call.2 :: piecesOf k calls := by
        rw [piecesOf, List.filter_cons_of_pos (by simpa using htrx), List.map_cons, piecesOf]
      have hnumber : call.1 = UInt32.ofNat k := by rw [← htrx, UInt32.ofNat_toNat]
      rw [hheld] at hrest hframes
      rw [hpieces, regroup_cons]
      refine ⟨hrest, ?_⟩
      rw [hframe, hframes, List.map_append, hnumber]
    · obtain ⟨hheld, hframe⟩ := push_audio_impl_of_ne mul state htrx call.2
      have hpieces : piecesOf k (call :: calls) = piecesOf k calls := by
        rw [piecesOf, List.filter_cons_of_neg (by simpa using htrx), piecesOf]
      rw [hheld] at hrest hframes
      rw [hpieces, hframe, List.nil_append]
      exact ⟨hrest, hframes⟩

end AudioState

theorem piecesOf_filter (k : Sink) (calls : List (UInt32 × List F32)) :
    piecesOf k (calls.filter (·.1.toNat = k.val)) = piecesOf k calls := by
  rw [piecesOf, List.filter_filter]
  simp only [Bool.and_self, piecesOf]

section Runs

variable (mul : F32 → F32 → F32) (gain : F32) (calls : List (UInt32 × List F32)) (k : Sink)

/-- The frames broadcast for a receiver in a sequence of calls. -/
def broadcasts : List (List UInt8) := framesOf k ((AudioState.new gain).push_all mul calls).2

/-- The samples of a receiver not yet sent after a sequence of calls. -/
def residual : List F32 := ((AudioState.new gain).push_all mul calls).1.audio_accum k

theorem residual_eq : residual mul gain calls k =
    (regroup AUDIO_FRAME [] (piecesOf k calls)).2 :=
  (AudioState.push_all_eq_regroup mul k (.new gain) calls).1

theorem broadcasts_eq : broadcasts mul gain calls k =
    (regroup AUDIO_FRAME [] (piecesOf k calls)).1.map
      (build_audio_frame mul (UInt32.ofNat k) · gain) :=
  (AudioState.push_all_eq_regroup mul k (.new gain) calls).2

variable {mul gain calls k} in
/-- A frame that is broadcast has the samples of one block. -/
theorem exists_of_mem_broadcasts {frame : List UInt8}
    (hframe : frame ∈ broadcasts mul gain calls k) :
    ∃ samples : List F32, samples.length = AUDIO_FRAME ∧
      frame = build_audio_frame mul (UInt32.ofNat k) samples gain := by
  rw [broadcasts_eq] at hframe
  obtain ⟨samples, hsamples, rfl⟩ := List.mem_map.1 hframe
  exact ⟨samples, length_of_mem_regroup hsamples, rfl⟩

theorem flatMap_left_broadcasts :
    (broadcasts mul gain calls k).flatMap left ++ (residual mul gain calls k).map (mul · gain) =
      (piecesOf k calls).flatten.map (mul · gain) := by
  have hleft : ∀ blocks : List (List F32),
      (blocks.map (build_audio_frame mul (UInt32.ofNat k) · gain)).flatMap left =
        blocks.flatten.map (mul · gain) := by
    intro blocks
    rw [List.flatMap_map, List.map_flatten, List.flatMap_def]
    simp only [left_build_audio_frame]
  rw [broadcasts_eq, residual_eq, hleft, ← List.map_append, flatten_regroup, List.nil_append]

/-- What the frames of a receiver carry, followed by what is not yet sent, is what was pushed to it.
The other receivers have no part in it, and the router reads every frame back. -/
theorem audio_conserved :
    (broadcasts mul gain calls k).flatMap left ++ (residual mul gain calls k).map (mul · gain) =
        (piecesOf k calls).flatten.map (mul · gain) ∧
      (∀ frame ∈ broadcasts mul gain calls k, right frame = left frame) ∧
      broadcasts mul gain (calls.filter (·.1.toNat = k.val)) k = broadcasts mul gain calls k ∧
      residual mul gain (calls.filter (·.1.toNat = k.val)) k = residual mul gain calls k ∧
      ((∀ piece ∈ piecesOf k calls, piece.length ≤ AUDIO_FRAME) →
        (residual mul gain calls k).length < AUDIO_FRAME) ∧
      ∀ frame ∈ broadcasts mul gain calls k, ∃ samples : List F32,
        samples.length = AUDIO_FRAME ∧
        frame = build_audio_frame mul (UInt32.ofNat k) samples gain ∧
        ∀ num_sinks, route num_sinks frame =
          if k.val < num_sinks then some (k.val, samples.map (mul · gain)) else none := by
  refine ⟨flatMap_left_broadcasts mul gain calls k, ?_, ?_, ?_, ?_, ?_⟩
  · intro frame hframe
    obtain ⟨samples, -, rfl⟩ := exists_of_mem_broadcasts hframe
    rw [right_build_audio_frame, left_build_audio_frame]
  · rw [broadcasts_eq, broadcasts_eq, piecesOf_filter]
  · rw [residual_eq, residual_eq, piecesOf_filter]
  · intro hpieces
    rw [residual_eq]
    exact length_regroup_lt (by decide) hpieces
  · intro frame hframe
    obtain ⟨samples, hlength, rfl⟩ := exists_of_mem_broadcasts hframe
    refine ⟨samples, hlength, rfl, fun num_sinks => ?_⟩
    -- a frame of this size fits its header
    have hfits : samples.length * 2 < 2 ^ 32 := by
      rw [hlength]
      decide
    have hnumber : (UInt32.ofNat k).toNat = k :=
      UInt32.toNat_ofNat_of_lt' (k.isLt.trans (by decide))
    rw [route_build_audio_frame mul num_sinks _ hfits, hnumber]

end Runs

end GranolaSdr.Tci
