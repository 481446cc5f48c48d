import Lz4Frame.Proofs.Block.Expansion
import Lz4Frame.Proofs.Decoder.Reading

/-!
# How far a frame expands

Content is paid for by the input: 255 bytes for each byte that a decoder holds of a compressed block
or has yet to read, besides what it has decoded but not handed out (`read_length`).
-/

namespace Lz4Frame

/-- Filling a field moves bytes from the input to the field. -/
theorem Partial.size_fill {n : Nat} (held : Partial n) (input : Input) :
    (match (held.fill input).1 with
      | .short held' => held'.bytes.size
      | .full bytes _ => bytes.size) + (held.fill input).2.rest.length
        = held.bytes.size + input.rest.length := by
  rcases input with ⟨bytes, used⟩
  by_cases hshort : bytes.length < held.missing
  · rw [held.fill_of_lt _ hshort]
    simp [size_append_list]
  · rcases held.fill_of_le bytes used (by omega) with ⟨_, hfull⟩
    rw [hfull]
    simp only [size_append_list, List.length_take, List.length_drop]
    omega

namespace Decoder

/-- Content that a decoder can give without further input. -/
def owed : Decoder → Nat
  | .compressed _ held => 255 * held.bytes.size
  | decoder => decoder.pendingLength

/-- Content that comes out of a step, or can come out behind it. -/
def Step.worth : Step → Nat
  | .go next input out => out.length + next.owed + 255 * input.rest.length
  | .stop next input out _ => out.length + next.owed + 255 * input.rest.length
  | .fail _ => 0

theorem worth_rest (next : Decoder) (input : Input) (out : Bytes) :
    (rest next input out).worth = out.length + next.owed + 255 * input.rest.length := rfl

theorem worth_nextBlock (body : Body) (input : Input) (out : Bytes) :
    (nextBlock body input out).worth = out.length + 255 * input.rest.length := by
  simp [nextBlock, beforeBlock, Step.worth, owed, pendingLength]

theorem worth_afterStored (body : Body) (sum : Xxh32) (input : Input) (out : Bytes) :
    (afterStored body sum input out).worth = out.length + 255 * input.rest.length := by
  unfold afterStored
  split
  · simp [Step.worth, owed, pendingLength]
  · exact worth_nextBlock ..

theorem worth_afterHeader (bytes : Bytes) (input : Input) :
    (afterHeader bytes input).worth ≤ 255 * input.rest.length := by
  unfold afterHeader
  split
  · exact Nat.zero_le _
  · rw [worth_nextBlock]
    simp

theorem worth_afterOpening (bytes : Array UInt8) (size_eq : bytes.size = Header.minLength)
    (input : Input) : (afterOpening bytes size_eq input).worth ≤ 255 * input.rest.length := by
  unfold afterOpening
  split
  · exact Nat.zero_le _
  · simp [Step.worth, owed, pendingLength]
  · split
    · simp [Step.worth, owed, pendingLength]
    · exact worth_afterHeader ..

theorem worth_afterBlocks (body : Body) (input : Input) :
    (afterBlocks body input).worth ≤ 255 * input.rest.length := by
  unfold afterBlocks
  split
  · exact Nat.zero_le _
  · split <;> simp [Step.worth, owed, pendingLength, new]

theorem worth_afterBlockSize (body : Body) (number : Nat) (input : Input) (room : Nat) :
    (afterBlockSize body number input room).worth ≤ 255 * input.rest.length := by
  unfold afterBlockSize
  simp only
  split
  · exact worth_afterBlocks ..
  · split
    · exact Nat.zero_le _
    · split
      · rw [worth_afterStored]
        simp
      · split
        · simp [Step.worth, owed, pendingLength]
        · split <;> simp [Step.worth, owed, Partial.empty]

variable [Platform]

/-- A compressed block gives no more than its bytes are worth. -/
theorem worth_afterCompressed (body : Body) (bytes : Bytes) (input : Input) :
    (afterCompressed body bytes input).worth ≤ 255 * bytes.length + 255 * input.rest.length := by
  unfold afterCompressed
  simp only
  split
  · exact Nat.zero_le _
  · split
    · exact Nat.zero_le _
    · rename_i next content hexpand
      have hcontent : content.length ≤ 255 * bytes.length := by
        rcases body with ⟨header, remaining, digest, history⟩
        unfold Body.expand? at hexpand
        simp only at hexpand
        split at hexpand
        · cases hexpand
        · rename_i out hdecode
          have hsize := Block.decode_size hdecode
          simp only [Option.some.injEq, Prod.mk.injEq] at hexpand
          rw [← hexpand.2, Array.length_toList, Array.size_extract]
          rw [List.length_take] at hsize
          omega
      split
      · rw [worth_nextBlock]
        simp
      · simp only [Step.worth, owed, pendingLength, List.length_nil]
        omega

theorem worth_field {n : Nat} {place : Partial n → Decoder}
    {after : (bytes : Array UInt8) → bytes.size = n → Input → Nat → Step} {room : Nat}
    (h : Fills place after) (howed : ∀ held, (place held).owed = 0)
    (hafter : ∀ bytes size_eq input,
      (after bytes size_eq input room).worth ≤ 255 * input.rest.length)
    (held : Partial n) (input : Input) :
    ((place held).step input room).worth ≤ (place held).owed + 255 * input.rest.length := by
  rw [howed, Nat.zero_add]
  refine h.step_of (P := fun result => result.worth ≤ 255 * input.rest.length)
    (fun held' input' hfill => ?_) (fun bytes size_eq input' hfill => ?_)
  · simp [worth_rest, howed, Partial.fill_short hfill]
  · have hlt := Partial.fill_full hfill
    calc (after bytes size_eq input' room).worth
        ≤ 255 * input'.rest.length := hafter bytes size_eq input'
      _ ≤ 255 * input.rest.length := Nat.mul_le_mul_left 255 (Nat.le_of_lt hlt)

theorem worth_compressed (body : Body) {length : Nat} (held : Partial length) (input : Input)
    (room : Nat) :
    (step (.compressed body held) input room).worth
      ≤ owed (.compressed body held) + 255 * input.rest.length := by
  -- the bytes of the block move from the input to the decoder, and are worth the same there
  have hsize := held.size_fill input
  refine (compressed_fills body).step_of
    (P := fun result => result.worth ≤ owed (.compressed body held) + 255 * input.rest.length)
    (fun held' input' hfill => ?_) (fun bytes size_eq input' hfill => ?_)
  · rw [hfill] at hsize
    simp only [worth_rest, owed, List.length_nil] at hsize ⊢
    omega
  · rw [hfill] at hsize
    refine Nat.le_trans (worth_afterCompressed ..) ?_
    simp only [owed, Array.length_toList] at hsize ⊢
    omega

/-- No step gives more than what it takes is worth. -/
theorem step_worth (decoder : Decoder) (input : Input) (room : Nat) :
    (decoder.step input room).worth ≤ decoder.owed + 255 * input.rest.length := by
  cases decoder with
  | opening held =>
      apply worth_field opening_fills (fun _ => rfl)
      intro bytes size_eq input
      exact worth_afterOpening ..
  | longHeader held =>
      apply worth_field longHeader_fills (fun _ => rfl)
      intro bytes size_eq input
      exact worth_afterHeader ..
  | blockSize body held =>
      apply worth_field (blockSize_fills body) (fun _ => rfl)
      intro bytes size_eq input
      exact worth_afterBlockSize ..
  | stored body sum left left_pos =>
      have hpiece := input.length_take (min left room)
      have hafter := input.length_take_rest (min left room)
      simp only [step]
      split
      · simp only [worth_rest, owed, pendingLength]
        omega
      · rw [worth_afterStored]
        simp only [owed, pendingLength]
        omega
  | storedChecksum body sum held =>
      apply worth_field (storedChecksum_fills body sum) (fun _ => rfl)
      intro bytes size_eq input
      unfold afterStoredChecksum
      split
      · simp [worth_nextBlock]
      · exact Nat.zero_le _
  | compressed body held => exact worth_compressed body held input room
  | pending body content ne_nil =>
      simp only [step, List.splitAt_eq]
      split
      · rw [worth_nextBlock]
        simp only [owed, pendingLength, List.length_take]
        omega
      · simp only [worth_rest, owed, pendingLength, List.length_take, List.length_drop]
        omega
  | trailer body held =>
      apply worth_field (trailer_fills body) (fun _ => rfl)
      intro bytes size_eq input
      unfold afterTrailer
      split
      · simp [Step.worth, owed, pendingLength, new]
      · exact Nat.zero_le _
  | skipSize held =>
      apply worth_field skipSize_fills (fun _ => rfl)
      intro bytes size_eq input
      simp [afterSkipSize, Step.worth, owed, pendingLength]
  | skip size left =>
      have hafter := input.length_take_rest left
      simp only [step]
      split
      · simp only [worth_rest, owed, pendingLength, List.length_nil]
        omega
      · simp only [Step.worth, owed, pendingLength, new, List.length_nil]
        omega
  | failed code => exact Nat.zero_le _

/-- Reading gives 255 times the length of the input at most, and what was decoded before. -/
theorem read_length (decoder : Decoder) (input : Bytes) :
    (decoder.read input).content.length ≤ decoder.owed + 255 * input.length := by
  have hworth := step_worth decoder ⟨input, 0⟩ (decoder.ample input)
  -- what a step leaves over is worth what the rest of the reading gives
  fun_induction read decoder input with
  | case1 decoder input next input' out hstep hless ih =>
      rw [hstep] at hworth
      have hrest := ih (step_worth next ⟨input'.rest, 0⟩ (next.ample input'.rest))
      simp only [Step.worth] at hworth
      rw [Reading.content_prepend, List.length_append]
      omega
  | case2 decoder input next input' out hstep =>
      rw [hstep] at hworth
      simp only [Step.worth] at hworth ⊢
      omega
  | case3 decoder input next input' out hint hstep hnz =>
      rw [hstep] at hworth
      simp only [Step.worth] at hworth ⊢
      omega
  | case4 => exact Nat.zero_le _

/-- Content is never longer than 255 times the input. -/
theorem read_new_length (input : Bytes) :
    (new.read input).content.length ≤ 255 * input.length := by
  simpa [new, owed, pendingLength] using new.read_length input

end Decoder

end Lz4Frame
