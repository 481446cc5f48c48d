import Lz4Frame.Proofs.Decompressor.Session

/-!
# Asking a decompressor anything

A decompressor may be asked about its frame at any time: inside the header, between two blocks, in
front of a checksum, with content that still waits to be handed out.  Behind the header that runs
the decoder, but every call leaves a decoder where running it with nothing leads nowhere
(`Decoder.Settled`), so the questions can be left out of any history of requests without a change in
what the other requests come to (`unobserved`).
-/

namespace Lz4Frame

namespace Decoder

/-! ## Asking a decoder -/

/-- Places where a call can leave a decoder: it waits, or it has failed. -/
def Settled (decoder : Decoder) : Prop :=
  decoder.Waits ∨ ∃ code, decoder = .failed code

theorem new_settled : new.Settled := .inl trivial

variable [Platform]

/-- A settled decoder tells what it knows and stays where it is. -/
theorem frameInfo_settled {decoder : Decoder} (h : decoder.Settled) :
    decoder.frameInfo [] = (decoder, (decoder.info? decoder.idleHint).map (·, 0)) := by
  rcases h with hwaits | ⟨code, rfl⟩
  · have hrun := run_nothing hwaits
    cases decoder with
    | opening held =>
        by_cases hnone : held.bytes.isEmpty = true
        · simp only [frameInfo, info?, hnone, ↓reduceIte]
          rfl
        · simp only [frameInfo, info?, hnone, Bool.false_eq_true, ↓reduceIte]
          rfl
    | longHeader held => rfl
    | failed code => exact hwaits.elim
    | _ => simp only [frameInfo, hrun]
  · have hrun : (failed code).run [] 0 = (.failed code, .error code) := by
      rw [run, runFrom]
      rfl
    simp only [frameInfo, hrun]
    rfl

end Decoder

namespace Decompressor

variable [Platform]

/-- Asking a decompressor about its frame leaves it as it is. -/
theorem frameInfo_eq {decompressor : Decompressor} (h : decompressor.decoder.Settled) :
    decompressor.frameInfo.1 = decompressor := by
  simp only [frameInfo, Decoder.frameInfo_settled h]

/-- What a decompressor tells whose decoder waits. -/
theorem frameInfo_value {decompressor : Decompressor} (h : decompressor.decoder.Waits) :
    decompressor.frameInfo.2.value
      = (decompressor.decoder.info? decompressor.decoder.idleHint).mapError .frame := by
  simp only [frameInfo, Decoder.frameInfo_settled (.inl h), Traced.ofCall]
  cases decompressor.decoder.info? decompressor.decoder.idleHint <;> rfl

theorem frameInfo_of_new {decompressor : Decompressor} (h : decompressor.decoder = .new) :
    decompressor.frameInfo.2.value = .error (.frame .frameHeaderIncomplete) := by
  have hwaits : decompressor.decoder.Waits := by
    rw [h]
    trivial
  rw [frameInfo_value hwaits, h]
  rfl

theorem feed_settled (gate : Gate) {chunkLength : Nat} (hchunk : 0 < chunkLength)
    {decoder : Decoder} (h : decoder.Settled) (piece : Bytes) (out : Array UInt8)
    (hint consumed : Nat) (events : Array LockEvent) :
    (feed gate chunkLength hchunk decoder piece out hint consumed events).decoder.Settled := by
  fun_induction feed gate chunkLength hchunk decoder piece out hint consumed events with
  | case1 => exact h
  | case2 => exact h
  | case3 decoder piece out hint consumed events hpiece hasked room events₁ next code hrun =>
      exact .inr ⟨code, Decoder.run_error hrun⟩
  | case4 decoder piece out hint consumed events hpiece hasked room events₁ next progress hrun
      grown used hzero =>
      rcases Decoder.run_halts hrun with ⟨-, rfl⟩ | ⟨-, hwaits, -⟩
      · exact Decoder.new_settled
      · exact .inl hwaits
  | case5 decoder piece out hint consumed events hpiece hasked room events₁ next progress hrun
      grown used hnz hroom hlex ih =>
      rcases Decoder.run_halts hrun with ⟨hzero, -⟩ | ⟨-, hwaits, -⟩
      · exact absurd hzero hnz
      · exact ih (.inl hwaits)

/-- A call leaves its decoder settled, whether it succeeds or not. -/
theorem update_settled {decompressor : Decompressor} (h : decompressor.decoder.Settled)
    (piece : Bytes) (chunkLength : Nat) :
    (decompressor.update piece chunkLength).1.decoder.Settled := by
  rcases hupdate : decompressor.update piece chunkLength with ⟨next, value, events⟩
  rcases update_cases hupdate with ⟨hfits, result, events', hfeed, -⟩ | ⟨-, rfl, -⟩
  · -- what feeding leaves is the decoder, with either answer
    have hfed := feed_settled decompressor.gate hfits.chunk_pos h piece #[] 1 0 #[]
    rwa [hfeed] at hfed
  · exact h

/-- A call that succeeds leaves its decoder settled, wherever it was. -/
theorem update_ok_settled {decompressor next : Decompressor} {piece : Bytes} {chunkLength : Nat}
    {decoded : Decoded} {events : List LockEvent} :
    decompressor.update piece chunkLength = (next, ⟨.ok decoded, events⟩) →
      next.decoder.Settled := by
  intro h
  rcases update_ok h with ⟨_, _, _, _, ⟨-, hnew, -⟩ | ⟨-, -, hwaits, -⟩⟩
  · exact hnew ▸ Decoder.new_settled
  · exact .inl hwaits

/-! ## Requests -/

/-- What can be asked of a decompressor. -/
inductive Operation
  | update (piece : Bytes) (chunkLength : Nat)
  | frameInfo
  | reset

/-- What a decompressor answers. -/
inductive Reply
  | decoded (result : Except Error Decoded)
  | info (result : Except Error FrameInfo)
  | done

/-- Whether a request only looks at the frame. -/
def Operation.isLook : Operation → Bool
  | .frameInfo => true
  | _ => false

/-- Whether an answer tells about the frame. -/
def Reply.isInfo : Reply → Bool
  | .info _ => true
  | _ => false

/-- Does what is asked. -/
def perform (decompressor : Decompressor) : Operation → Decompressor × Reply
  | .update piece chunkLength =>
      let (next, answer) := decompressor.update piece chunkLength
      (next, .decoded answer.value)
  | .frameInfo =>
      let (next, answer) := decompressor.frameInfo
      (next, .info answer.value)
  | .reset => (decompressor.reset.1, .done)

/-- Does what is asked, one request after another. -/
def after (decompressor : Decompressor) (history : List Operation) : Decompressor :=
  history.foldl (fun decompressor operation => (decompressor.perform operation).1) decompressor

/-- The answers to a history of requests. -/
def replies (decompressor : Decompressor) : List Operation → List Reply
  | [] => []
  | operation :: history =>
      let (next, reply) := decompressor.perform operation
      reply :: next.replies history

/-! ## What a history leaves behind -/

theorem perform_settled {decompressor : Decompressor} (h : decompressor.decoder.Settled)
    (operation : Operation) : (decompressor.perform operation).1.decoder.Settled := by
  cases operation with
  | update piece chunkLength => exact update_settled h piece chunkLength
  | frameInfo => exact (frameInfo_eq h).symm ▸ h
  | reset => exact Decoder.new_settled

theorem after_settled {decompressor : Decompressor} (h : decompressor.decoder.Settled)
    (history : List Operation) : (decompressor.after history).decoder.Settled := by
  induction history generalizing decompressor with
  | nil => exact h
  | cons operation history ih => exact ih (perform_settled h operation)

/-! ## Questions leave no trace -/

/-- The kind of an answer is that of its request. -/
theorem perform_isInfo (decompressor : Decompressor) (operation : Operation) :
    (decompressor.perform operation).2.isInfo = operation.isLook := by
  cases operation <;> rfl

/-- A look leaves everything as it is. -/
theorem perform_look {decompressor : Decompressor} (h : decompressor.decoder.Settled)
    {operation : Operation} (hlook : operation.isLook = true) :
    (decompressor.perform operation).1 = decompressor := by
  cases operation with
  | frameInfo => exact frameInfo_eq h
  | update piece chunkLength => cases hlook
  | reset => cases hlook

/-- Without its looks a history comes to the same. -/
theorem replies_filter {decompressor : Decompressor} (h : decompressor.decoder.Settled)
    (history : List Operation) :
    (decompressor.replies history).filter (!·.isInfo)
        = decompressor.replies (history.filter (!·.isLook))
      ∧ decompressor.after history = decompressor.after (history.filter (!·.isLook)) := by
  induction history generalizing decompressor with
  | nil => exact ⟨rfl, rfl⟩
  | cons operation history ih =>
      have hkind := decompressor.perform_isInfo operation
      rcases ih (perform_settled h operation) with ⟨hreplies, hafter⟩
      cases hlook : operation.isLook with
      | true =>
          -- the look drops out on both sides, and the others find what they would have found
          have hsame := perform_look h hlook
          rw [hsame] at hreplies hafter
          rw [hlook] at hkind
          simp only [replies, after, List.foldl_cons, hkind, hlook, hsame, Bool.not_true,
            Bool.false_eq_true, not_false_eq_true, List.filter_cons_of_neg]
          exact ⟨hreplies, hafter⟩
      | false =>
          rw [hlook] at hkind
          simp only [replies, after, List.foldl_cons, hkind, hlook, Bool.not_false,
            List.filter_cons_of_pos]
          exact ⟨congrArg _ hreplies, hafter⟩

/-- Whatever a decompressor has been through, and wherever the pieces of its frames were cut, its
updates and resets come to what they come to without the questions that were asked in between,
answered or refused. -/
theorem unobserved (gate : Gate) (past history : List Operation) :
    let decompressor := (new gate).after past
    (decompressor.replies history).filter (!·.isInfo)
        = decompressor.replies (history.filter (!·.isLook))
      ∧ decompressor.after history = decompressor.after (history.filter (!·.isLook)) :=
  replies_filter (after_settled Decoder.new_settled past) history

end Decompressor

end Lz4Frame
