import Lz4Frame.Frame.Decoder.Progress

/-!
# Reading frames, piece by piece

`Decoder.run` steps until input or room runs out, or the frame ends.  Two of its laws are what
callers build their own loops on: `run_ahead`, a run with input and room at hand gets ahead unless
it ends a frame, and `run_written_size`, it never writes more than there is room for.
-/

namespace Lz4Frame.Decoder

/-- What a run has done. -/
structure Progress where
  /-- Input bytes that were read. -/
  consumed : Nat
  /-- The content that was handed out. -/
  written : Array UInt8
  /-- Input bytes that the decoder would like to see next, 0 at the end of a frame. -/
  hint : Nat
  /-- The input that was not read. -/
  rest : Bytes

variable [Platform]

/-- Steps on, with what was handed out so far. -/
def runFrom (decoder : Decoder) (input : Input) (room : Nat) (out : Array UInt8) :
    Decoder × Except ErrorCode Progress :=
  match hstep : decoder.step input room with
  | .go next input' piece =>
      have := (step_go hstep).lex
      runFrom next input' (room - piece.length) (out ++ piece)
  | .stop next input' piece hint =>
      (next, .ok ⟨input'.used, out ++ piece, hint, input'.rest⟩)
  | .fail code => (.failed code, .error code)
termination_by (input.rest.length, decoder.pendingLength)
decreasing_by assumption

/-- Decodes a piece of input into at most `room` bytes. -/
def run (decoder : Decoder) (input : Bytes) (room : Nat) :
    Decoder × Except ErrorCode Progress :=
  runFrom decoder ⟨input, 0⟩ room #[]

theorem runFrom_notBehind {decoder next : Decoder} {input : Input} {room : Nat}
    {out : Array UInt8} {progress : Progress}
    (h : decoder.runFrom input room out = (next, .ok progress)) :
    NotBehind next progress.rest decoder input.rest := by
  fun_induction runFrom decoder input room out with
  | case1 decoder input room out next' input' piece hstep _ ih =>
      exact ((ih h).ahead (step_go hstep)).notBehind
  | case2 decoder input room out next' input' piece hint hstep =>
      have hstop := step_advances decoder input room
      rw [hstep] at hstop
      simp only [Prod.mk.injEq, Except.ok.injEq] at h
      rw [← h.1, ← h.2]
      exact hstop.1
  | case3 => simp at h

/-- A run with input and room at hand gets ahead, unless it ends a frame. -/
theorem run_ahead {decoder next : Decoder} {input : Bytes} {room : Nat} {progress : Progress}
    (h : decoder.run input room = (next, .ok progress)) (hinput : input ≠ []) (hroom : 0 < room) :
    progress.hint = 0 ∨ Ahead next progress.rest decoder input := by
  have hadvances := step_advances decoder ⟨input, 0⟩ room
  unfold run at h
  rw [runFrom] at h
  split at h
  · -- the first step has got ahead, and the others do not fall back
    rename_i hstep
    rw [hstep] at hadvances
    exact .inr ((runFrom_notBehind h).ahead hadvances)
  · rename_i hstep
    rw [hstep] at hadvances
    simp only [Prod.mk.injEq, Except.ok.injEq] at h
    rw [← h.1, ← h.2]
    exact hadvances.2 hinput hroom
  · simp at h

theorem runFrom_written_size {decoder next : Decoder} {input : Input} {room : Nat}
    {out : Array UInt8} {progress : Progress}
    (h : decoder.runFrom input room out = (next, .ok progress)) :
    progress.written.size ≤ out.size + room := by
  fun_induction runFrom decoder input room out with
  | case1 decoder input room out next' input' piece hstep _ ih =>
      have hpiece := step_out_length decoder input room
      rw [hstep] at hpiece
      have hrest := ih h
      simp only [Step.out] at hpiece
      have hsize : (out ++ piece).size = out.size + piece.length := by
        rw [← Array.length_toList]
        simp
      omega
  | case2 decoder input room out next' input' piece hint hstep =>
      have hpiece := step_out_length decoder input room
      rw [hstep] at hpiece
      simp only [Prod.mk.injEq, Except.ok.injEq] at h
      simp only [Step.out] at hpiece
      have hsize : (out ++ piece).size = out.size + piece.length := by
        rw [← Array.length_toList]
        simp
      simp only [← h.2]
      omega
  | case3 => simp at h

/-- A run that leaves input unread had input. -/
theorem run_input_ne_nil {decoder next : Decoder} {input : Bytes} {room : Nat}
    {progress : Progress} (h : decoder.run input room = (next, .ok progress))
    (hrest : progress.rest ≠ []) : input ≠ [] := by
  intro hnil
  have hle := runFrom_notBehind h
  simp only [NotBehind, hnil, List.length_nil] at hle
  exact hrest (List.eq_nil_of_length_eq_zero (by omega))

/-- A run writes no more than there is room for. -/
theorem run_written_size {decoder next : Decoder} {input : Bytes} {room : Nat}
    {progress : Progress} (h : decoder.run input room = (next, .ok progress)) :
    progress.written.size ≤ room := by
  simpa using runFrom_written_size h

end Lz4Frame.Decoder
