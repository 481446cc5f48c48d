import Lz4Frame.Platform.Reference
import Lz4Frame.Proofs.Frame.Twins
import Lz4Frame.Proofs.Refusals
import Lz4Frame.Proofs.RoundTrip

/-!
# Too little room

An encoder is told with each request how much room its output has.  For each request whose blocks
can be counted there is a room from which on the answer is always the same, and below it the request
is refused (`Encoder.Threshold`).  A refusal leaves the encoder as it was, with one exception: a
close flushes what waits and then writes the trailer, and it may be refused between the two
(`Encoder.Torn`).  Then the flushed block is gone and closing again gives the trailer alone.  Where
no close is torn a history comes to the same without its refused requests, and every frame that is
closed decodes to all that was taken (`want_of_room`).

An update whose blocks cannot be counted may be granted with too little room, and then it does not
fail but writes past it (`Encoder.Within.overrun`).  Histories here have no such update.
-/

namespace Lz4Frame.Encoder

/-! ## Requests -/

/-- What an encoder can be asked for. -/
inductive Request
  | start (prefs : Preferences)
  | update (input : Bytes)
  | flush
  | finish

namespace Request

/-- The content that a request hands over. -/
def content : Request → Bytes
  | update input => input
  | _ => []

/-- Whether a request begins or ends a frame. -/
def Bounds : Request → Prop
  | start _ => True
  | finish => True
  | _ => False

instance : (request : Request) → Decidable request.Bounds
  | start _ => isTrue trivial
  | finish => isTrue trivial
  | update _ => isFalse id
  | flush => isFalse id

/-- A request whose blocks can be counted, if it is an update. -/
def Fits (prefs : Preferences) : Request → Prop
  | update input => Bound.Countable prefs input.length
  | _ => True

end Request

section

variable [Platform]

/-- Does what is requested, within some room. -/
def answer (encoder : Encoder) (room : Nat) : Request → Encoder × Except ErrorCode Bytes
  | .start prefs => encoder.start room prefs
  | .update input => encoder.update room input
  | .flush => encoder.flush room
  | .finish => encoder.finish room

/-- Does what is requested, within the room that is named with it. -/
def serve (encoder : Encoder) (request : Request × Nat) : Encoder × Except ErrorCode Bytes :=
  encoder.answer request.2 request.1

/-- Whether a request was refused for want of room. -/
def lacksRoom : Except ErrorCode Bytes → Bool
  | .error code => code = .dstMaxSizeTooSmall
  | .ok _ => false

/-- The room that callers are told to have for a request. -/
def recommended (encoder : Encoder) : Request → Nat
  | .start _ => Header.maxLength
  | .update input => (Bound.update encoder.prefs (UInt64.ofNat input.length)).toNat
  | _ => (Bound.update encoder.prefs 0).toNat

/-! ## Flushing and closing, by the room -/

/-- The encoder behind a flush, and the block that is sent. -/
def flushed (encoder : Encoder) : Encoder × Bytes :=
  { encoder with held := #[] }.fillUp encoder.held []

/-- The room that a flush asks for. -/
def flushRoom (encoder : Encoder) : Nat :=
  if encoder.held.size = 0 then 0 else encoder.held.size + 8

/-- What becomes of a frame that is closed, and the answer. -/
def closed (encoder : Encoder) : Encoder × Except ErrorCode Bytes :=
  ({ encoder.flushed.1 with isOpen := false },
    if encoder.prefs.declaredOrZero ≠ 0 ∧ encoder.prefs.declaredOrZero ≠ encoder.total then
      .error .frameSizeWrong
    else .ok (encoder.flushed.2 ++ encoder.trailer))

/-- Whether closing is refused between its two parts: there is room to flush what waits, but not for
the trailer behind it. -/
def Torn (encoder : Encoder) (room : Nat) : Prop :=
  encoder.held.size ≠ 0 ∧ encoder.held.size + 8 ≤ room
    ∧ room < encoder.flushed.2.length + encoder.trailer.length

instance (encoder : Encoder) (room : Nat) : Decidable (encoder.Torn room) :=
  inferInstanceAs (Decidable (_ ∧ _ ∧ _))

/-- Whether a request is refused between two parts; only a close has two. -/
def Tears (encoder : Encoder) (room : Nat) : Request → Prop
  | .finish => encoder.Torn room
  | _ => False

instance (encoder : Encoder) (room : Nat) :
    (request : Request) → Decidable (encoder.Tears room request)
  | .finish => inferInstanceAs (Decidable (encoder.Torn room))
  | .start _ => isFalse id
  | .update _ => isFalse id
  | .flush => isFalse id

/-- A block changes the searcher and the history and nothing else, and it is never empty. -/
theorem makeBlock_keeps (encoder : Encoder) (joined : Bool) (block : Bytes) :
    ∃ searcher history bytes,
      encoder.makeBlock joined block = ({ encoder with searcher, history }, bytes)
        ∧ 4 ≤ bytes.length := by
  cases hlinked : encoder.prefs.linked with
  | false =>
      rw [makeBlock_alone hlinked]
      exact ⟨_, _, _, rfl, Block.Payload.four_le_length_encode ..⟩
  | true =>
      rw [makeBlock_linked hlinked]
      exact ⟨_, _, _, rfl, Block.Payload.four_le_length_encode ..⟩

/-- A flush changes the searcher, the history and what waits, and it sends what waits. -/
theorem flushed_keeps (encoder : Encoder) :
    ∃ searcher history, encoder.flushed.1 = { encoder with searcher, history, held := #[] }
      ∧ (encoder.held.size ≠ 0 → encoder.flushed.2 ≠ []) := by
  unfold flushed fillUp
  split
  · next hempty =>
      have hnone : encoder.held.size = 0 := by simpa [Array.isEmpty_iff] using hempty
      exact ⟨_, _, rfl, absurd hnone⟩
  · rcases makeBlock_keeps { encoder with held := #[] } true (encoder.held.toList ++ [])
        with ⟨searcher, history, bytes, hmake, hlength⟩
    rw [hmake]
    exact ⟨searcher, history, rfl, fun _ => List.ne_nil_of_length_pos (by simp only; omega)⟩

theorem flushed_of_empty {encoder : Encoder} (h : encoder.held.size = 0) :
    encoder.flushed = (encoder, []) := by
  rcases encoder with ⟨isOpen, prefs, searcher, history, held, total, digest⟩
  obtain rfl : held = #[] := Array.eq_empty_of_size_eq_zero h
  rfl

theorem trailer_flushed (encoder : Encoder) : encoder.flushed.1.trailer = encoder.trailer := by
  rcases encoder.flushed_keeps with ⟨searcher, history, hflushed, -⟩
  rw [hflushed]
  rfl

/-- What is left of closing when a flush was granted. -/
theorem finish_of_flush {encoder next : Encoder} {block : Bytes} {room : Nat}
    (h : encoder.flush room = (next, .ok block)) :
    encoder.finish room = if room < block.length + next.trailer.length
      then (next, .error .dstMaxSizeTooSmall)
      else ({ next with isOpen := false },
        if next.prefs.declaredOrZero ≠ 0 ∧ next.prefs.declaredOrZero ≠ next.total then
          .error .frameSizeWrong
        else .ok (block ++ next.trailer)) := by
  have hfour := Bound.four_le next.prefs
  have hroom : room - block.length < next.trailer.length
      ↔ room < block.length + next.trailer.length := by
    rw [length_trailer]
    omega
  rw [finish, h]
  simp only [hroom]
  split
  · rfl
  · split <;> rfl

/-- Behind a flush nothing waits, and closing gives the trailer alone. -/
theorem finish_flushed (encoder : Encoder) {room : Nat} (hroom : encoder.trailer.length ≤ room) :
    encoder.flushed.1.finish room
      = (encoder.closed.1, encoder.closed.2.map fun _ => encoder.trailer) := by
  have htrailer := encoder.trailer_flushed
  rcases encoder.flushed_keeps with ⟨searcher, history, hflushed, -⟩
  have hflush : encoder.flushed.1.flush room = (encoder.flushed.1, .ok []) := by
    rw [hflushed]
    rfl
  rw [finish_of_flush hflush, htrailer, if_neg (by rw [List.length_nil]; omega), hflushed]
  simp only [closed, hflushed, List.nil_append]
  split <;> rfl

/-- A flush sends what waits as one block. -/
theorem Within.flushed {encoder : Encoder} {prefs : Preferences} {content wire : Bytes}
    (h : encoder.Within prefs content wire) :
    encoder.flushed.1.Within prefs content (wire ++ encoder.flushed.2)
      ∧ encoder.flushed.2.length
        ≤ if encoder.held.size = 0 then 0 else Bound.perBlock prefs + encoder.held.size := by
  have hroom : 0 < encoder.held.size → encoder.held.size + 8 ≤ encoder.held.size + 8 :=
    fun _ => Nat.le_refl _
  rcases h.hasSent with ⟨parts, hsent⟩
  rcases flush_sends h hsent _ hroom with ⟨next, bytes, hflush, hwithin, -, -, hlength⟩
  rw [flush_eq encoder h.isOpen hroom, Prod.mk.injEq, Except.ok.injEq] at hflush
  rcases hflush with ⟨rfl, rfl⟩
  exact ⟨hwithin, hlength⟩

/-! ## The invariant -/

/-- An encoder that has come to be by requests is outside any frame, and then holds nothing, or it
is inside a frame; the bytes that it has sent may have been lost. -/
inductive Sound (encoder : Encoder) : Prop
  | outside (not_open : encoder.isOpen = false) (held_eq : encoder.held = #[])
  | inside {prefs : Preferences} {content wire : Bytes}
      (within : encoder.Within prefs content wire)

namespace Sound

variable {encoder : Encoder}

theorem flush_eq (h : encoder.Sound) (room : Nat) :
    encoder.flush room = if room < encoder.flushRoom then (encoder, .error .dstMaxSizeTooSmall)
      else (encoder.flushed.1, .ok encoder.flushed.2) := by
  unfold flushRoom
  by_cases hnone : encoder.held.size = 0
  · have hempty : encoder.held.isEmpty = true := by
      rw [Array.isEmpty_iff, ← Array.size_eq_zero_iff]
      exact hnone
    rw [flushed_of_empty hnone, if_pos hnone, if_neg (Nat.not_lt_zero room), flush, if_pos hempty]
  · rw [if_neg hnone]
    cases h with
    | outside _ held_eq => exact absurd (by rw [held_eq]; rfl) hnone
    | inside within =>
        by_cases hshort : room < encoder.held.size + 8
        · rw [if_pos hshort, flush_refused within.isOpen hnone hshort]
        · rw [if_neg hshort,
            Encoder.flush_eq encoder within.isOpen fun _ => Nat.le_of_not_lt hshort]
          rfl

theorem finish_eq (h : encoder.Sound) (room : Nat) :
    encoder.finish room =
      if room < encoder.flushRoom then (encoder, .error .dstMaxSizeTooSmall)
      else if room < encoder.flushed.2.length + encoder.trailer.length then
        (encoder.flushed.1, .error .dstMaxSizeTooSmall)
      else encoder.closed := by
  have hflush := h.flush_eq room
  by_cases hshort : room < encoder.flushRoom
  · rw [if_pos hshort] at hflush
    rw [if_pos hshort, finish, hflush]
  · rw [if_neg hshort] at hflush
    rw [if_neg hshort, finish_of_flush hflush, trailer_flushed]
    rcases encoder.flushed_keeps with ⟨searcher, history, hflushed, -⟩
    simp only [closed, hflushed]

/-- What a close may need is what the worst case allows for. -/
theorem closing_le (h : encoder.Sound) :
    max encoder.flushRoom (encoder.flushed.2.length + encoder.trailer.length)
      ≤ (Bound.update encoder.prefs 0).toNat := by
  have hfour := Bound.four_le encoder.prefs
  have hupdate : (Bound.update encoder.prefs 0).toNat
      = Bound.worst encoder.prefs 0 (Bound.mostHeld encoder.prefs) :=
    Bound.toNat_update (Bound.countable_zero encoder.prefs)
  rw [hupdate, length_trailer]
  unfold flushRoom
  by_cases hnone : encoder.held.size = 0
  · rw [if_pos hnone, flushed_of_empty hnone, List.length_nil, Nat.zero_add, Nat.zero_max]
    exact Nat.le_add_left ..
  cases h with
  | outside _ held_eq => exact absurd (by rw [held_eq]; rfl) hnone
  | inside within =>
      have hblock := within.flushed.2
      have hroom := within.finishRoom_le
      rw [finishRoom, within.prefs_eq] at hroom
      rw [within.prefs_eq] at hfour ⊢
      rw [if_neg hnone] at hblock hroom ⊢
      omega

omit [Platform] in
theorem new : Encoder.new.Sound := .outside rfl rfl

theorem flushed (h : encoder.Sound) : encoder.flushed.1.Sound := by
  cases h with
  | outside not_open held_eq =>
      rw [flushed_of_empty (by rw [held_eq]; rfl)]
      exact .outside not_open held_eq
  | inside within => exact .inside within.flushed.1

theorem closed (encoder : Encoder) : encoder.closed.1.Sound := by
  rcases encoder.flushed_keeps with ⟨searcher, history, hflushed, -⟩
  exact .outside rfl (by rw [Encoder.closed, hflushed])

/-- A request leaves a sound encoder sound, in whatever room. -/
theorem answer (h : encoder.Sound) (room : Nat) (request : Request) :
    (encoder.answer room request).1.Sound := by
  cases request with
  | start prefs =>
      by_cases hshort : room < Header.maxLength
      · rw [Encoder.answer, start, if_pos hshort]
        exact h
      · rcases start_within encoder (Nat.le_of_not_lt hshort) prefs with ⟨next, hstart, hwithin⟩
        rw [Encoder.answer, hstart]
        exact .inside hwithin
  | update input =>
      rw [Encoder.answer]
      cases h with
      | outside not_open held_eq =>
          rw [update, if_pos (by simp [not_open])]
          exact .outside not_open held_eq
      | inside within =>
          rcases update_cases within room input with hrefused | ⟨next, bytes, hupdate, hwithin⟩
          · rw [hrefused]
            exact .inside within
          · rw [hupdate]
            exact .inside hwithin
  | flush =>
      rw [Encoder.answer, h.flush_eq]
      split
      · exact h
      · exact h.flushed
  | finish =>
      rw [Encoder.answer, h.finish_eq]
      split
      · exact h
      · split
        · exact h.flushed
        · exact closed encoder

end Sound

/-! ## How much room is enough -/

/-- The room from which on a request is granted, always with the same answer.  With less it is
refused, and if it is not refused between two parts, nothing has happened.  No room is written past,
and callers are told to have enough. -/
structure Threshold (encoder : Encoder) (request : Request) (enough : Nat) : Prop where
  steady : ∀ room, enough ≤ room → encoder.answer room request = encoder.answer enough request
  granted : lacksRoom (encoder.answer enough request).2 = false
  refused : ∀ room, room < enough →
    (encoder.answer room request).2 = .error .dstMaxSizeTooSmall
  unchanged : ∀ room, room < enough → ¬ encoder.Tears room request →
    (encoder.answer room request).1 = encoder
  spared : ∀ room, ¬ Overrun room (encoder.answer room request).2
  enough_le : enough ≤ encoder.recommended request

namespace Threshold

variable {encoder : Encoder} {request : Request} {enough : Nat}

/-- Most requests look at their room once, before anything else. -/
theorem of_eq (whole : Encoder × Except ErrorCode Bytes)
    (heq : ∀ room, encoder.answer room request
      = if room < enough then (encoder, .error .dstMaxSizeTooSmall) else whole)
    (hgranted : lacksRoom whole.2 = false) (hspared : ¬ Overrun enough whole.2)
    (hle : enough ≤ encoder.recommended request) :
    encoder.Threshold request enough := by
  have henough : encoder.answer enough request = whole := by
    rw [heq, if_neg (Nat.lt_irrefl enough)]
  exact {
    steady := fun room hroom => by rw [henough, heq, if_neg (Nat.not_lt.mpr hroom)]
    granted := by rw [henough, hgranted]
    refused := fun room hroom => by rw [heq, if_pos hroom]
    unchanged := fun room hroom _ => by rw [heq, if_pos hroom]
    spared := fun room => by
      rw [heq]
      split
      · exact id
      · next hroom => exact fun hover => hspared (hover.of_le (Nat.le_of_not_lt hroom))
    enough_le := hle }

theorem lt_of_lacksRoom (h : encoder.Threshold request enough) {room : Nat}
    (hlacks : lacksRoom (encoder.answer room request).2 = true) : room < enough := by
  refine Nat.lt_of_not_le fun hroom => ?_
  rw [h.steady room hroom, h.granted] at hlacks
  cases hlacks

end Threshold

namespace Sound

variable {encoder : Encoder}

theorem threshold_update (h : encoder.Sound) {input : Bytes} :
    Bound.Countable encoder.prefs input.length →
      ∃ enough, encoder.Threshold (.update input) enough := by
  intro hcount
  cases h with
  | outside not_open held_eq =>
      -- outside a frame the room is not looked at
      refine ⟨0, .of_eq (encoder, .error .compressionStateUninitialized) ?_ rfl id
        (Nat.zero_le _)⟩
      intro room
      rw [if_neg (Nat.not_lt_zero room), Encoder.answer, update, if_pos (by simp [not_open])]
  | @inside prefs content wire within =>
      generalize hneeded : (Bound.withHeld encoder.prefs (UInt64.ofNat input.length)
        (UInt64.ofNat encoder.held.size)).toNat = needed
      refine ⟨needed, .of_eq (encoder.update needed input) ?_ ?_ ?_ ?_⟩
      · intro room
        by_cases hshort : room < needed
        · rw [if_pos hshort, Encoder.answer, update_refused within.isOpen (by rwa [hneeded])]
        · rw [if_neg hshort, Encoder.answer, update_eq encoder within.isOpen (Nat.le_of_eq hneeded),
            update_eq encoder within.isOpen (hneeded ▸ Nat.le_of_not_lt hshort)]
      · rw [within.prefs_eq] at hneeded
        rcases update_within within needed input (Nat.le_of_eq hneeded)
          with ⟨next, bytes, hupdate, -⟩
        rw [hupdate]
        rfl
      · rw [within.prefs_eq] at hcount
        exact within.not_overrun needed hcount
      · have hheld : encoder.held.size ≤ Bound.mostHeld encoder.prefs := by
          rw [within.prefs_eq]
          exact within.held_le
        calc needed = Bound.worst encoder.prefs input.length encoder.held.size := by
              rw [← hneeded, Bound.toNat_withHeld hcount hheld]
          _ ≤ Bound.worst encoder.prefs input.length (Bound.mostHeld encoder.prefs) :=
              Bound.worst_mono input.length hheld
          _ = encoder.recommended (.update input) := (Bound.toNat_update hcount).symm

/-- The block that is flushed has the room that is asked for. -/
theorem flushed_le (h : encoder.Sound) : encoder.flushed.2.length ≤ encoder.flushRoom := by
  unfold flushRoom
  by_cases hnone : encoder.held.size = 0
  · rw [flushed_of_empty hnone]
    exact Nat.zero_le _
  · rw [if_neg hnone]
    cases h with
    | outside _ held_eq => exact absurd (by rw [held_eq]; rfl) hnone
    | inside within =>
        have hblock := within.flushed.2
        rw [if_neg hnone] at hblock
        unfold Bound.perBlock at hblock
        split at hblock <;> omega

theorem threshold_flush (h : encoder.Sound) : encoder.Threshold .flush encoder.flushRoom :=
  .of_eq _ h.flush_eq rfl (Nat.not_lt.mpr h.flushed_le)
    (Nat.le_trans (Nat.le_max_left ..) h.closing_le)

theorem threshold_finish (h : encoder.Sound) :
    encoder.Threshold .finish
      (max encoder.flushRoom (encoder.flushed.2.length + encoder.trailer.length)) := by
  have henough (room : Nat) :
      max encoder.flushRoom (encoder.flushed.2.length + encoder.trailer.length) ≤ room →
        encoder.finish room = encoder.closed := by
    intro hroom
    rw [h.finish_eq, if_neg (by omega), if_neg (by omega)]
  exact {
    steady := fun room hroom => (henough room hroom).trans (henough _ (Nat.le_refl _)).symm
    granted := by
      rw [Encoder.answer, henough _ (Nat.le_refl _), Encoder.closed]
      split <;> rfl
    refused := fun room hshort => by
      rw [Encoder.answer, h.finish_eq]
      split
      · rfl
      · rw [if_pos (by omega)]
    unchanged := fun room hshort huntorn => by
      rw [Encoder.answer, h.finish_eq]
      split
      · rfl
      · next hflush =>
          -- nothing was flushed, or else the close was refused between its parts
          have hnone : encoder.held.size = 0 := by
            refine Decidable.byContradiction fun hsome => huntorn ⟨hsome, ?_, by omega⟩
            rwa [flushRoom, if_neg hsome, Nat.not_lt] at hflush
          rw [if_pos (by omega), flushed_of_empty hnone]
    spared := fun room hover => by
      rw [Encoder.answer] at hover
      cases hfinish : encoder.finish room with
      | mk next answer =>
          rw [hfinish] at hover
          cases answer with
          | error code => exact hover
          | ok bytes => exact Nat.not_lt.mpr (finish_length_le hfinish).1 hover
    enough_le := h.closing_le }

theorem threshold_start (encoder : Encoder) (prefs : Preferences) :
    encoder.Threshold (.start prefs) Header.maxLength :=
  .of_eq _ (fun _ => rfl) rfl (Nat.not_lt.mpr (Header.encode_length_le _)) (Nat.le_refl _)

/-- For each request that fits there is a room that is enough, wherever the encoder stands. -/
theorem threshold (h : encoder.Sound) {request : Request} :
    request.Fits encoder.prefs → ∃ enough, encoder.Threshold request enough := by
  intro hfits
  cases request with
  | start prefs => exact ⟨_, threshold_start encoder prefs⟩
  | update input => exact h.threshold_update hfits
  | flush => exact ⟨_, h.threshold_flush⟩
  | finish => exact ⟨_, h.threshold_finish⟩

/-- A request that is refused for want of room, and not between two parts, changes nothing. -/
theorem answer_refused (h : encoder.Sound) {room : Nat} {request : Request}
    (hlacks : lacksRoom (encoder.answer room request).2 = true)
    (huntorn : ¬ encoder.Tears room request) :
    encoder.answer room request = (encoder, .error .dstMaxSizeTooSmall) := by
  have hshort {enough : Nat} (hthreshold : encoder.Threshold request enough) :=
    hthreshold.lt_of_lacksRoom hlacks
  have hrefused {enough : Nat} (hthreshold : encoder.Threshold request enough) :
      encoder.answer room request = (encoder, .error .dstMaxSizeTooSmall) :=
    Prod.ext (hthreshold.unchanged room (hshort hthreshold) huntorn)
      (hthreshold.refused room (hshort hthreshold))
  cases request with
  | start prefs => exact hrefused (threshold_start encoder prefs)
  | flush => exact hrefused h.threshold_flush
  | finish => exact hrefused h.threshold_finish
  | update input =>
      -- here it makes no difference whether the blocks can be counted
      rw [Encoder.answer] at hlacks ⊢
      cases h with
      | outside not_open held_eq =>
          rw [update, if_pos (by simp [not_open])] at hlacks
          cases hlacks
      | inside within =>
          rcases update_cases within room input with heq | ⟨next, bytes, heq, -⟩
          · exact heq
          · rw [heq] at hlacks
            cases hlacks

end Sound

/-! ## Closes that are torn -/

/-- What a close that is refused between its parts comes to: it was a flush, whose block nobody gets
to see, and what can still be had is the trailer. -/
structure Loses (encoder : Encoder) (room : Nat) : Prop where
  finish_eq : encoder.finish room = (encoder.flushed.1, .error .dstMaxSizeTooSmall)
  flush_eq : encoder.flush room = (encoder.flushed.1, .ok encoder.flushed.2)
  ne_nil : encoder.flushed.2 ≠ []
  /-- The room of the flush is enough for the trailer too, unless there are checksums. -/
  checksum : encoder.prefs.blockChecksum = true ∨ encoder.prefs.contentChecksum = true
  again : ∀ later, encoder.trailer.length ≤ later →
    encoder.flushed.1.finish later
      = (encoder.closed.1, encoder.closed.2.map fun _ => encoder.trailer)

theorem Sound.loses {encoder : Encoder} (h : encoder.Sound) {room : Nat}
    (htorn : encoder.Torn room) : encoder.Loses room := by
  rcases htorn with ⟨hsome, hflush, hshort⟩
  rcases encoder.flushed_keeps with ⟨searcher, history, hflushed, hne⟩
  have hroom : ¬ room < encoder.flushRoom := by
    rw [flushRoom, if_neg hsome]
    omega
  refine ⟨?_, by rw [h.flush_eq, if_neg hroom], hne hsome, ?_,
    fun later => encoder.finish_flushed⟩
  · rw [h.finish_eq, if_neg hroom, if_pos hshort]
  · -- four bytes in front of the block and four behind it are no more than the flush asks for
    cases h with
    | outside _ held_eq => exact absurd (by rw [held_eq]; rfl) hsome
    | inside within =>
        have hblock := within.flushed.2
        rw [if_neg hsome] at hblock
        rw [length_trailer, within.prefs_eq] at hshort
        unfold Bound.perBlock at hblock
        unfold Bound.trailerLength at hshort
        rw [within.prefs_eq]
        split at hblock
        · next hchecksum => exact .inl hchecksum
        · split at hshort
          · next hchecksum => exact .inr hchecksum
          · omega

/-! ## Histories -/

/-- Whether no request of a history writes past its room. -/
def Spared : Encoder → List (Request × Nat) → Prop
  | _, [] => True
  | encoder, request :: requests =>
      ¬ Overrun request.2 (encoder.serve request).2 ∧ Spared (encoder.serve request).1 requests

instance decidableSpared :
    (encoder : Encoder) → (row : List (Request × Nat)) → Decidable (encoder.Spared row)
  | _, [] => isTrue trivial
  | encoder, request :: requests =>
      have := decidableSpared (encoder.serve request).1 requests
      inferInstanceAs (Decidable (_ ∧ _))

/-- What a new encoder may have been asked before something is known of it: anything, as long as no
update wrote past its room. -/
structure Past where
  requests : List (Request × Nat)
  spared : new.Spared requests

/-- The encoder behind a past. -/
def Past.encoder (past : Past) : Encoder := (served serve new past.requests).1

/-- Whether no close of a history is torn and no update in it writes past its room. -/
def Clean : Encoder → List (Request × Nat) → Prop
  | _, [] => True
  | encoder, request :: requests =>
      (¬ encoder.Tears request.2 request.1 ∧ ¬ Overrun request.2 (encoder.serve request).2)
        ∧ Clean (encoder.serve request).1 requests

instance decidableClean :
    (encoder : Encoder) → (row : List (Request × Nat)) → Decidable (encoder.Clean row)
  | _, [] => isTrue trivial
  | encoder, request :: requests =>
      have := decidableClean (encoder.serve request).1 requests
      inferInstanceAs (Decidable (_ ∧ _))

/-- Whether a history begins and ends no frame: such requests are refused. -/
def Stays : Encoder → List (Request × Nat) → Prop
  | _, [] => True
  | encoder, request :: requests =>
      (request.1.Bounds → lacksRoom (encoder.serve request).2 = true)
        ∧ Stays (encoder.serve request).1 requests

instance decidableStays :
    (encoder : Encoder) → (row : List (Request × Nat)) → Decidable (encoder.Stays row)
  | _, [] => isTrue trivial
  | encoder, request :: requests =>
      have := decidableStays (encoder.serve request).1 requests
      inferInstanceAs (Decidable (_ ∧ _))

/-- What a request has handed over; one that is refused has handed over nothing. -/
def Request.taken (request : Request) : Except ErrorCode Bytes → Bytes
  | .ok _ => request.content
  | .error _ => []

/-- What an answer brings. -/
def sent : Except ErrorCode Bytes → Bytes
  | .ok bytes => bytes
  | .error _ => []

/-- What a history hands over. -/
def taken (encoder : Encoder) (row : List (Request × Nat)) : Bytes :=
  (row.zip (served serve encoder row).2).flatMap fun pair => pair.1.1.taken pair.2

/-- What its answers bring. -/
def brought (encoder : Encoder) (row : List (Request × Nat)) : Bytes :=
  (served serve encoder row).2.flatMap sent

/-- Where no close is torn, a history comes to the same without the requests that are refused. -/
theorem Sound.served_granted {encoder : Encoder} (h : encoder.Sound) {later : List (Request × Nat)}
    (hclean : encoder.Clean later) :
    served serve encoder (granted serve lacksRoom encoder later)
      = ((served serve encoder later).1,
          (served serve encoder later).2.filter (!lacksRoom ·)) := by
  refine served_granted_of (fun encoder later => encoder.Sound ∧ encoder.Clean later)
    (fun encoder request requests hallowed => ?_)
    (fun encoder request requests hallowed hlacks => ?_) ⟨h, hclean⟩
  · exact ⟨hallowed.1.answer request.2 request.1, hallowed.2.2⟩
  · exact congrArg Prod.fst (hallowed.1.answer_refused hlacks hallowed.2.1.1)

/-- A request inside a frame takes its content and brings its bytes, or it is refused and does
neither. -/
theorem Within.serve {encoder : Encoder} {prefs : Preferences} {content wire : Bytes}
    (h : encoder.Within prefs content wire) {request : Request × Nat}
    (huntorn : ¬ encoder.Tears request.2 request.1)
    (hstays : request.1.Bounds → lacksRoom (encoder.serve request).2 = true) :
    (encoder.serve request).1.Within prefs
      (content ++ request.1.taken (encoder.serve request).2)
      (wire ++ sent (encoder.serve request).2) := by
  -- what is refused leaves everything as it is
  have hrefused (heq : encoder.serve request = (encoder, .error .dstMaxSizeTooSmall)) :
      (encoder.serve request).1.Within prefs
        (content ++ request.1.taken (encoder.serve request).2)
        (wire ++ sent (encoder.serve request).2) := by
    rw [heq]
    simpa [Request.taken, sent] using h
  rcases request with ⟨request, room⟩
  cases request with
  | start prefs => exact hrefused ((Sound.inside h).answer_refused (hstays trivial) huntorn)
  | finish => exact hrefused ((Sound.inside h).answer_refused (hstays trivial) huntorn)
  | update input =>
      rcases update_cases h room input with heq | ⟨next, bytes, heq, hwithin⟩
      · exact hrefused heq
      · rw [show encoder.serve (.update input, room) = (next, .ok bytes) from heq]
        exact hwithin
  | flush =>
      rcases flush_cases h room with heq | ⟨next, bytes, heq, hwithin⟩
      · exact hrefused heq
      · rw [show encoder.serve (.flush, room) = (next, .ok bytes) from heq]
        simpa [Request.taken, Request.content, sent] using hwithin

/-- A history that stays inside a frame takes what it takes and brings what it brings. -/
theorem Within.served {encoder : Encoder} {prefs : Preferences} {content wire : Bytes}
    (h : encoder.Within prefs content wire) {row : List (Request × Nat)}
    (hclean : encoder.Clean row) (hstays : encoder.Stays row) :
    (Lz4Frame.served Encoder.serve encoder row).1.Within prefs (content ++ encoder.taken row)
      (wire ++ encoder.brought row) := by
  -- on the row; the encoder is within the frame of what was taken and brought so far
  induction row generalizing encoder content wire with
  | nil => simpa [Lz4Frame.served, taken, brought] using h
  | cons request row ih =>
      have hrest := ih (h.serve hclean.1.1 hstays.1) hclean.2 hstays.2
      simpa [Lz4Frame.served, taken, brought] using hrest

/-- Whether content comes back from a frame, in pieces and chunks of any lengths and whatever
follows. -/
def Restores (frame content : Bytes) : Prop :=
  ∀ (decompressor : Decompressor) (portions : List Portion) (tail : Bytes),
    decompressor.Ready → (∀ portion ∈ portions, portion.Fits) →
    joined portions = frame ++ tail →
    (∀ last ∈ portions.getLast?, tail.length < last.bytes.length) →
    Decompressor.Delivers portions (decompressor.updates portions) content tail

/-- Whatever was refused in between, a frame can be closed, and then it is a frame of all that was
taken. -/
theorem Within.closes {encoder : Encoder} {prefs : Preferences} {content wire : Bytes}
    (h : encoder.Within prefs content wire)
    (hsize : prefs.declaredOrZero < 0x10000000000000000)
    (hdeclared : prefs.declaredOrZero = 0 ∨ prefs.declaredOrZero = content.length) :
    ∃ enough rest, encoder.Threshold .finish enough ∧ (encoder.finish enough).2 = .ok rest
      ∧ IsFrame (.ofPreferences prefs) content (wire ++ rest) := by
  -- with enough room the close is granted, so it is not the case that it wants room
  have hthreshold := (Sound.inside h).threshold_finish
  generalize max encoder.flushRoom (encoder.flushed.2.length + encoder.trailer.length) = enough
    at hthreshold
  rcases finish_cases h enough with ⟨-, next, hrefused⟩ | ⟨next, bytes, -, -, -, hfinish, hframe⟩
  · have hgranted := hthreshold.granted
    rw [answer, hrefused] at hgranted
    cases hgranted
  · exact ⟨enough, bytes, hthreshold, by rw [hfinish, if_neg (by omega)], hframe hsize hdeclared⟩

/-- Wherever an encoder stands, a request that is refused for want of room has changed nothing,
unless it is a close that is torn, and for each request that fits there is a room that is enough,
with less it is refused, and none is written past.  So where no close is torn a history comes to the
same without what is refused in it, and a frame that is closed in the end is one of all that was
taken. -/
theorem want_of_room (past : Past) :
    let encoder := past.encoder
    (∀ room request, lacksRoom (encoder.answer room request).2 = true →
        ¬ encoder.Tears room request →
          encoder.answer room request = (encoder, .error .dstMaxSizeTooSmall))
      ∧ (∀ request, request.Fits encoder.prefs → ∃ enough, encoder.Threshold request enough)
      ∧ (∀ room, encoder.Torn room → encoder.Loses room)
      ∧ (∀ later, encoder.Clean later →
          served serve encoder (granted serve lacksRoom encoder later)
            = ((served serve encoder later).1,
                (served serve encoder later).2.filter (!lacksRoom ·)))
      ∧ ∀ (prefs : Preferences) (room : Nat) (row : List (Request × Nat)),
          Header.maxLength ≤ room → prefs.declaredOrZero < 0x10000000000000000 →
          let started := (encoder.start room prefs).1
          started.Clean row → started.Stays row →
          prefs.declaredOrZero = 0 ∨ prefs.declaredOrZero = (started.taken row).length →
          ∃ header enough rest, (encoder.start room prefs).2 = .ok header
            ∧ (served serve started row).1.Threshold .finish enough
            ∧ ((served serve started row).1.finish enough).2 = .ok rest
            ∧ IsFrame (.ofPreferences prefs) (started.taken row)
              (header ++ started.brought row ++ rest)
            ∧ Restores (header ++ started.brought row ++ rest) (started.taken row) := by
  have hkeeps (encoder : Encoder) (h : encoder.Sound) (request : Request × Nat) :
      (encoder.serve request).1.Sound := h.answer request.2 request.1
  have hsound : past.encoder.Sound := served_keeps hkeeps Sound.new past.requests
  refine ⟨fun room request => hsound.answer_refused, fun request => hsound.threshold,
    fun room => hsound.loses, fun later => hsound.served_granted, ?_⟩
  intro prefs room row hroom hsize started hclean hstays hdeclared
  rcases start_within past.encoder hroom prefs with ⟨next, hstart, hwithin⟩
  obtain rfl : started = next := congrArg Prod.fst hstart
  rcases (hwithin.served hclean hstays).closes hsize hdeclared
      with ⟨enough, rest, hthreshold, hfinish, hframe⟩
  exact ⟨_, enough, rest, congrArg Prod.snd hstart, hthreshold, hfinish, hframe,
    fun decompressor portions tail hready => hframe.delivers hready⟩

end

open Reference in
/-- Three bytes in a frame with a checksum: asked for with too little room and again with enough,
and a close that would be torn. -/
theorem want_of_room_three_bytes :
    let prefs : Preferences := { contentChecksum := true }
    let encoder := (served serve new [(.start prefs, 19), (.update [1, 2, 3], 100)]).1
    let later : List (Request × Nat) := [(.flush, 10), (.finish, 10), (.finish, 15)]
    let row := [(.update [1, 2, 3], 7), (.update [1, 2, 3], 8), (.flush, 10), (.finish, 10)]
    let started := (encoder.start 19 prefs).1
    encoder.answer 10 .flush = (encoder, .error .dstMaxSizeTooSmall)
      ∧ (∃ enough, encoder.Threshold (.update [4, 5]) enough)
      ∧ encoder.Loses 11
      ∧ served serve encoder (granted serve lacksRoom encoder later)
        = ((served serve encoder later).1, (served serve encoder later).2.filter (!lacksRoom ·))
      ∧ ∃ header enough rest, (encoder.start 19 prefs).2 = .ok header
        ∧ (served serve started row).1.Threshold .finish enough
        ∧ ((served serve started row).1.finish enough).2 = .ok rest
        ∧ IsFrame (.ofPreferences prefs) [1, 2, 3] (header ++ started.brought row ++ rest)
        ∧ Restores (header ++ started.brought row ++ rest) [1, 2, 3] := by
  intro prefs encoder later row started
  have hfits : Request.Fits encoder.prefs (.update [4, 5]) := by
    show (2 + (encoder.prefs.maxBlock - 1)) / encoder.prefs.maxBlock < 0x100000000
    decide +kernel
  rcases want_of_room ⟨[(.start prefs, 19), (.update [1, 2, 3], 100)], by decide +kernel⟩
      with ⟨hrefused, henough, hloses, herased, hframes⟩
  have htaken : started.taken row = [1, 2, 3] := by decide +kernel
  have hframe := hframes prefs 19 row (by decide) (by decide) (by decide +kernel)
    (by decide +kernel) (.inl rfl)
  unfold Past.encoder at hframe
  rw [htaken] at hframe
  exact ⟨hrefused 10 .flush (by decide +kernel) (by decide), henough (.update [4, 5]) hfits,
    hloses 11 (by decide +kernel), herased later (by decide +kernel), hframe⟩

open Reference in
/-- A close that is torn is not as if it had not been made: closing again brings the trailer, and
the three bytes are gone. -/
theorem torn_close_loses :
    let encoder := (served serve new
      [(.start { contentChecksum := true }, 19), (.update [1, 2, 3], 100)]).1
    lacksRoom (encoder.finish 11).2 = true
      ∧ (encoder.finish 100).2.toOption
        = some [0x03, 0x00, 0x00, 0x80, 1, 2, 3, 0, 0, 0, 0, 0xc4, 0x78, 0x9c, 0xf5]
      ∧ ((encoder.finish 11).1.finish 100).2.toOption
        = some [0, 0, 0, 0, 0xc4, 0x78, 0x9c, 0xf5] := by
  decide +kernel

end Lz4Frame.Encoder
