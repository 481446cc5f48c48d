import Lz4Frame.Proofs.Decoder.Standing

/-!
# Counting down a declared length

A frame that declares a length is counted down by what it decodes to, in numbers of 64 bits.  What
a decoder has still to hand out by that count (`Decoder.left`) shrinks by exactly what comes out of
a step (`step_counts`), and it is 0 where a frame ends, so a frame that ends had as much content
left as its count said, up to a multiple of 2^64 (`read_counts`).
-/

namespace Lz4Frame

theorem ofNat_length_append (first second : Bytes) :
    UInt64.ofNat (first ++ second).length
      = UInt64.ofNat first.length + UInt64.ofNat second.length := by
  rw [List.length_append, UInt64.ofNat_add]

namespace Decoder

/-- The content that a frame which declares a length has still to hand out, by its count. -/
def left : Decoder → UInt64
  | .blockSize body _ => body.remaining
  | .stored body _ _ _ => body.remaining
  | .storedChecksum body _ _ => body.remaining
  | .compressed body _ => body.remaining
  | .pending body content _ => body.remaining + UInt64.ofNat content.length
  | _ => 0

/-- What comes out of a step is no longer left behind it. -/
def Step.Counts (count : UInt64) : Step → Prop
  | .go next _ out => count = UInt64.ofNat out.length + next.left
  | .stop next _ out _ => count = UInt64.ofNat out.length + next.left
  | .fail _ => True

section Sized

variable {header : Header} (sized : header.contentSize.getD 0 ≠ 0)
include sized

theorem remaining_account {body : Body} (header_eq : body.header = header) (content : Bytes) :
    UInt64.ofNat content.length + (body.account content).remaining = body.remaining := by
  rw [← header_eq] at sized
  rw [UInt64.add_comm]
  simp [Body.account, sized]

theorem remaining_appended {body : Body} (header_eq : body.header = header) (content : Bytes) :
    UInt64.ofNat content.length + (body.append content).remaining = body.remaining := by
  rw [← header_eq] at sized
  rw [UInt64.add_comm, remaining_append, if_neg sized, UInt64.sub_add_cancel]

variable [Platform]

theorem remaining_expand? {body next : Body} (header_eq : body.header = header)
    {block content : Bytes} :
    body.expand? block = some (next, content) →
      UInt64.ofNat content.length + next.remaining = body.remaining := by
  intro h
  rcases body with ⟨header', remaining, digest, history⟩
  unfold Body.expand? at h
  simp only at h
  split at h
  · cases h
  · rename_i out hdecode
    simp only [Option.some.injEq, Prod.mk.injEq] at h
    rw [← h.1, ← h.2]
    exact remaining_account sized header_eq _

end Sized

theorem counts_afterStored (body : Body) (sum : Xxh32) (input : Input) (out : Bytes) :
    (afterStored body sum input out).Counts (UInt64.ofNat out.length + body.remaining) := by
  unfold afterStored
  split <;> rfl

theorem counts_afterBlocks (body : Body) (input : Input) :
    (afterBlocks body input).Counts body.remaining := by
  unfold afterBlocks
  split
  · trivial
  · rename_i hnone
    have hzero : body.remaining = 0 := Decidable.not_not.mp hnone
    split
    · exact hzero
    · exact hzero

theorem counts_afterBlockSize (body : Body) (number : Nat) (input : Input) (room : Nat) :
    (afterBlockSize body number input room).Counts body.remaining := by
  have hnone : body.remaining = UInt64.ofNat 0 + body.remaining := (UInt64.zero_add _).symm
  unfold afterBlockSize
  simp only
  split
  · exact counts_afterBlocks ..
  · split
    · trivial
    · split
      · rw [hnone]
        exact counts_afterStored ..
      · split
        · exact hnone
        · split <;> exact hnone

variable [Platform]

theorem counts_field {n : Nat} {place : Partial n → Decoder}
    {after : (bytes : Array UInt8) → bytes.size = n → Input → Nat → Step} {count : UInt64}
    {room : Nat} (h : Fills place after) (hplace : ∀ held, (place held).left = count)
    (hafter : ∀ bytes size_eq input, (after bytes size_eq input room).Counts count)
    (held : Partial n) (input : Input) : ((place held).step input room).Counts count := by
  refine h.step_of (P := Step.Counts count) (fun held' input' _ => ?_)
    (fun bytes size_eq input' _ => hafter bytes size_eq input')
  show count = UInt64.ofNat 0 + (place held').left
  rw [hplace]
  exact (UInt64.zero_add _).symm

/-- In a frame that declares a length every step counts what it hands out. -/
theorem step_counts {decoder : Decoder} {header : Header} (h : decoder.header? = some header)
    (sized : header.contentSize.getD 0 ≠ 0) (input : Input) (room : Nat) :
    (decoder.step input room).Counts decoder.left := by
  cases decoder with
  | blockSize body held =>
      apply counts_field (blockSize_fills body) (fun _ => rfl)
      intro bytes size_eq input
      exact counts_afterBlockSize ..
  | stored body sum left left_pos =>
      have hcount := remaining_appended sized (Option.some.inj h) (input.take (min left room)).1
      simp only [step]
      split
      · exact hcount.symm
      · rw [show (stored body sum left left_pos).left = body.remaining from rfl, ← hcount]
        exact counts_afterStored ..
  | storedChecksum body sum held =>
      apply counts_field (storedChecksum_fills body sum) (fun _ => rfl)
      intro bytes size_eq input
      unfold afterStoredChecksum
      split
      · exact (UInt64.zero_add _).symm
      · trivial
  | compressed body held =>
      apply counts_field (compressed_fills body) (fun _ => rfl)
      intro bytes size_eq input
      unfold afterCompressed
      simp only
      split
      · trivial
      · split
        · trivial
        · rename_i next content hexpand
          have hcount := remaining_expand? sized (Option.some.inj h) hexpand
          split
          · rename_i hnil
            rw [hnil] at hcount
            exact hcount.symm
          · show body.remaining = UInt64.ofNat 0 + (next.remaining + UInt64.ofNat content.length)
            rw [← hcount, UInt64.add_comm next.remaining]
            exact (UInt64.zero_add _).symm
  | pending body content ne_nil =>
      -- what comes out and what is left of the content make up the content
      have hsplit := ofNat_length_append (content.take room) (content.drop room)
      rw [List.take_append_drop] at hsplit
      simp only [step, List.splitAt_eq]
      split
      · rename_i hnone
        rw [hnone] at hsplit
        calc body.remaining + UInt64.ofNat content.length
            = body.remaining + UInt64.ofNat (content.take room).length := by
              rw [hsplit]
              exact congrArg _ (UInt64.add_zero _)
          _ = UInt64.ofNat (content.take room).length + body.remaining := UInt64.add_comm ..
      · calc body.remaining + UInt64.ofNat content.length
            = body.remaining + UInt64.ofNat (content.take room).length
                + UInt64.ofNat (content.drop room).length := by rw [hsplit, UInt64.add_assoc]
          _ = UInt64.ofNat (content.take room).length
                + (body.remaining + UInt64.ofNat (content.drop room).length) := by
              rw [UInt64.add_comm body.remaining, UInt64.add_assoc]
  | trailer body held =>
      apply counts_field (trailer_fills body) (fun _ => rfl)
      intro bytes size_eq input
      unfold afterTrailer
      split
      · rfl
      · trivial
  | _ => cases h

/-- A frame that ends had as much content left as its count said. -/
theorem read_counts {decoder : Decoder} {header : Header} (h : decoder.header? = some header)
    (sized : header.contentSize.getD 0 ≠ 0) (input : Bytes) {rest : Bytes} :
    (decoder.read input).verdict = .ended rest →
      decoder.left = UInt64.ofNat (decoder.read input).content.length := by
  intro hends
  have hcounts := step_counts h sized ⟨input, 0⟩ (decoder.ample input)
  have hknows := step_knows h ⟨input, 0⟩ (decoder.ample input)
  have hhalts := step_halts decoder ⟨input, 0⟩ (decoder.ample input)
  fun_induction read decoder input with
  | case1 decoder input next input' out hstep hless ih =>
      rw [hstep] at hcounts hknows
      have hrest := ih hknows hends (step_counts hknows sized ..) (step_knows hknows ..)
        (step_halts ..)
      rw [Reading.content_prepend, ofNat_length_append, ← hrest]
      exact hcounts
  | case2 decoder input next input' out hstep =>
      -- the frame has ended, and before a frame nothing is left
      rw [hstep] at hcounts hhalts
      rcases hhalts with ⟨-, rfl⟩ | ⟨hpos, -⟩
      · exact hcounts.trans (UInt64.add_zero _)
      · exact absurd hpos (Nat.lt_irrefl 0)
  | case3 => cases hends
  | case4 => cases hends

/-- Behind its header a frame that ends has exactly the content that it declares. -/
theorem read_declared {header : Header} {n : Nat} (declares : header.contentSize = some n)
    (hpos : 0 < n) (hlt : n < 0x10000000000000000) {input content rest : Bytes}
    (hcontent : content.length < 0x10000000000000000) :
    (beforeBlock (.ofHeader header)).read input = ⟨content, .ended rest⟩ →
      content.length = n := by
  intro hread
  have hdeclared : header.contentSize.getD 0 = n := by rw [declares, Option.getD_some]
  have hknown : (beforeBlock (.ofHeader header)).header? = some header := rfl
  have hleft : (beforeBlock (.ofHeader header)).left = UInt64.ofNat n := by
    rw [← hdeclared]
    rfl
  have hcount := read_counts hknown (by omega) input (congrArg Reading.verdict hread)
  rw [hleft, hread] at hcount
  -- neither of the two numbers wraps around
  have hsame := congrArg UInt64.toNat hcount
  rw [UInt64.toNat_ofNat', UInt64.toNat_ofNat'] at hsame
  simp only at hsame
  omega

end Decoder

end Lz4Frame
