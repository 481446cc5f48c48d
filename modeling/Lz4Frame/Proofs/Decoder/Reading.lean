import Lz4Frame.Proofs.Decoder.Places

/-!
# What a decoder makes of its input

`Decoder.read` decodes a byte string with all the room it takes: the content that comes out, and
whether the frame ended, turned out bad, or is still waiting for more.  It is the yardstick for
every loop that feeds a decoder in pieces and with little room.

A step stops only where it has to (`step_halts`), so a reading is one step with ample room and the
reading of what it leaves (`read_eq`).
-/

namespace Lz4Frame.Decoder

/-! ## Readings -/

/-- Where reading a byte string to its end has led. -/
inductive Verdict
  /-- The frame ended in front of these bytes. -/
  | ended (rest : Bytes)
  /-- The frame is bad. -/
  | bad (code : ErrorCode)
  /-- The input ran out inside the frame. -/
  | waiting (next : Decoder)

/-- The content of a byte string, as far as it was decoded. -/
structure Reading where
  content : Bytes
  verdict : Verdict

/-- A reading behind content that came before it. -/
def Reading.prepend (out : Bytes) (reading : Reading) : Reading :=
  { reading with content := out ++ reading.content }

@[simp] theorem Reading.prepend_nil (reading : Reading) : reading.prepend [] = reading := rfl

@[simp] theorem Reading.prepend_prepend (first second : Bytes) (reading : Reading) :
    (reading.prepend second).prepend first = reading.prepend (first ++ second) := by
  simp [Reading.prepend]

@[simp] theorem Reading.content_prepend (out : Bytes) (reading : Reading) :
    (reading.prepend out).content = out ++ reading.content := rfl

@[simp] theorem Reading.verdict_prepend (out : Bytes) (reading : Reading) :
    (reading.prepend out).verdict = reading.verdict := rfl

/-- Room that a single step cannot use up. -/
def ample (decoder : Decoder) (input : Bytes) : Nat :=
  decoder.pendingLength + input.length + 1

theorem lt_ample (decoder : Decoder) (input : Bytes) : input.length < decoder.ample input := by
  unfold ample
  omega

variable [Platform]

/-- Decodes a byte string with all the room it takes. -/
def read (decoder : Decoder) (input : Bytes) : Reading :=
  match hstep : decoder.step ⟨input, 0⟩ (decoder.ample input) with
  | .go next input' out =>
      have := (step_go hstep).lex
      (read next input'.rest).prepend out
  | .stop next input' out hint =>
      if hint = 0 then ⟨out, .ended input'.rest⟩ else ⟨out, .waiting next⟩
  | .fail code => ⟨[], .bad code⟩
termination_by (input.length, decoder.pendingLength)
decreasing_by assumption

/-- Reading is stepping with ample room, as long as there is more to do. -/
theorem read_step (decoder : Decoder) (input : Bytes) :
    decoder.read input =
      match decoder.step ⟨input, 0⟩ (decoder.ample input) with
      | .go next behind out => (next.read behind.rest).prepend out
      | .stop next behind out hint =>
          ⟨out, if hint = 0 then .ended behind.rest else .waiting next⟩
      | .fail code => ⟨[], .bad code⟩ := by
  rw [read]
  split
  · rename_i hstep
    simp only [hstep]
  · rename_i hstep
    simp only [hstep]
    split <;> rfl
  · rename_i hstep
    simp only [hstep]

section

variable {decoder next : Decoder} {input out : Bytes} {behind : Input}

theorem read_go :
    decoder.step ⟨input, 0⟩ (decoder.ample input) = .go next behind out →
      decoder.read input = (next.read behind.rest).prepend out := by
  intro hstep
  rw [read_step, hstep]

theorem read_stop {hint : Nat} :
    decoder.step ⟨input, 0⟩ (decoder.ample input) = .stop next behind out hint →
      decoder.read input = ⟨out, if hint = 0 then .ended behind.rest else .waiting next⟩ := by
  intro hstep
  rw [read_step, hstep]

theorem read_fail {code : ErrorCode} :
    decoder.step ⟨input, 0⟩ (decoder.ample input) = .fail code →
      decoder.read input = ⟨[], .bad code⟩ := by
  intro hstep
  rw [read_step, hstep]

end

/-- What a step leads to if `more` follows the piece of input that it was given. -/
def Step.reading (more : Bytes) : Step → Reading
  | .go next input out => (next.read (input.rest ++ more)).prepend out
  | .stop next input out hint =>
      if hint = 0 then ⟨out, .ended (input.rest ++ more)⟩
      else (next.read (input.rest ++ more)).prepend out
  | .fail code => ⟨[], .bad code⟩

@[simp] theorem reading_go (next : Decoder) (input : Input) (out more : Bytes) :
    (Step.go next input out).reading more = (next.read (input.rest ++ more)).prepend out := rfl

@[simp] theorem reading_fail (code : ErrorCode) (more : Bytes) :
    (Step.fail code).reading more = ⟨[], .bad code⟩ := rfl

/-! ## Where a step stops -/

omit [Platform] in
theorem idleHint_pos {decoder : Decoder} :
    decoder.Waits → 0 < decoder.idleHint := by
  intro h
  cases decoder with
  | opening held =>
      simp only [idleHint]
      split
      · decide
      · omega
  | longHeader held => simp [idleHint]
  | blockSize body held => exact held.missing_pos
  | stored body sum left left_pos => simp [idleHint]
  | storedChecksum body sum held => simp [idleHint]
  | compressed body held => simp [idleHint]
  | pending body content ne_nil => simp [idleHint]
  | trailer body held => exact held.missing_pos
  | skipSize held => exact held.missing_pos
  | skip size left => exact h
  | failed code => exact h.elim

omit [Platform] in
theorem account_nil (body : Body) : body.account [] = body := by
  simp [Body.account]

omit [Platform] in
@[simp] theorem append_nil (body : Body) : body.append [] = body := by
  simp [Body.append, account_nil]

/-- Without input, and with nothing left to hand out, a decoder stays where it is. -/
theorem step_nil {decoder : Decoder} (h : decoder.Waits) (hnone : decoder.pendingLength = 0)
    (used room : Nat) :
    decoder.step ⟨[], used⟩ room = .stop decoder ⟨[], used⟩ [] decoder.idleHint := by
  have hfill {n : Nat} (held : Partial n) : held.fill ⟨[], used⟩ = (.short held, ⟨[], used⟩) := by
    have hshort : ([] : Bytes).length < held.missing := held.missing_pos
    rw [held.fill_of_lt used hshort]
    simp
  cases decoder with
  | stored body sum left left_pos => simp [step, Input.take, rest, left_pos]
  | pending body content ne_nil => exact absurd (List.eq_nil_of_length_eq_zero hnone) ne_nil
  | skip size left =>
      have hleft : 0 < left := h
      simp [step, Input.take, rest, hleft]
  | failed code => exact h.elim
  | _ => simp [step, hfill, rest]

theorem read_nil {decoder : Decoder} :
    decoder.Waits → decoder.pendingLength = 0 → decoder.read [] = ⟨[], .waiting decoder⟩ := by
  intro h hnone
  rw [read_stop (step_nil h hnone 0 (decoder.ample [])), if_neg (Nat.ne_of_gt (idleHint_pos h))]

/-- What a stop tells: the frame has ended, or else the input or the room is used up. -/
def Halts (room : Nat) : Step → Prop
  | .go _ _ _ => True
  | .stop next input out hint =>
      hint = 0 ∧ next = new
        ∨ 0 < hint ∧ next.Waits
          ∧ (input.rest = [] ∧ next.pendingLength = 0 ∨ out.length = room)
  | .fail _ => True

omit [Platform] in
theorem halts_rest {next : Decoder} {input : Input} {room : Nat} {out : Bytes}
    (hwaits : next.Waits)
    (h : input.rest = [] ∧ next.pendingLength = 0 ∨ out.length = room) :
    Halts room (rest next input out) :=
  .inr ⟨idleHint_pos hwaits, hwaits, h⟩

omit [Platform] in
theorem halts_afterHeader (bytes : Bytes) (input : Input) (room : Nat) :
    Halts room (afterHeader bytes input) := by
  unfold afterHeader nextBlock
  split <;> trivial

omit [Platform] in
theorem halts_afterOpening (bytes : Array UInt8) (size_eq : bytes.size = Header.minLength)
    (input : Input) (room : Nat) : Halts room (afterOpening bytes size_eq input) := by
  unfold afterOpening
  split
  · trivial
  · trivial
  · split
    · trivial
    · exact halts_afterHeader ..

omit [Platform] in
theorem halts_afterStored (body : Body) (sum : Xxh32) (input : Input) (out : Bytes) (room : Nat) :
    Halts room (afterStored body sum input out) := by
  unfold afterStored nextBlock
  split <;> trivial

omit [Platform] in
theorem halts_afterBlockSize (body : Body) (number : Nat) (input : Input) (room : Nat) :
    Halts room (afterBlockSize body number input room) := by
  unfold afterBlockSize afterBlocks
  simp only
  repeat' split
  all_goals first
    | trivial
    | exact halts_afterStored ..
    | exact .inl ⟨rfl, rfl⟩
    | skip
  -- the hint of a compressed block that cannot be read yet
  rename_i hroom
  refine .inr ⟨by omega, trivial, ?_⟩
  rcases hroom with hroom | hinput
  · exact .inr hroom.symm
  · exact .inl ⟨List.isEmpty_iff.mp hinput, rfl⟩

theorem halts_afterCompressed (body : Body) (bytes : Bytes) (input : Input) (room : Nat) :
    Halts room (afterCompressed body bytes input) := by
  unfold afterCompressed nextBlock
  simp only
  repeat' split
  all_goals trivial

theorem halts_field {n : Nat} {place : Partial n → Decoder}
    {after : (bytes : Array UInt8) → bytes.size = n → Input → Nat → Step} {room : Nat}
    (h : Fills place after)
    (hafter : ∀ bytes size_eq input, Halts room (after bytes size_eq input room))
    (held : Partial n) (input : Input) : Halts room ((place held).step input room) := by
  -- a field that stays short has used up the input
  exact h.step_of (P := Halts room)
    (fun held' _ hfill =>
      halts_rest (h.waits held') (.inl ⟨Partial.fill_short hfill, h.pending held'⟩))
    (fun bytes size_eq input' _ => hafter bytes size_eq input')

/-- A step stops where it has to, and nowhere else. -/
theorem step_halts (decoder : Decoder) (input : Input) (room : Nat) :
    Halts room (decoder.step input room) := by
  cases decoder with
  | opening held =>
      apply halts_field opening_fills
      intro bytes size_eq input
      exact halts_afterOpening ..
  | longHeader held =>
      apply halts_field longHeader_fills
      intro bytes size_eq input
      exact halts_afterHeader ..
  | blockSize body held =>
      apply halts_field (blockSize_fills body)
      intro bytes size_eq input
      exact halts_afterBlockSize ..
  | stored body sum left left_pos =>
      -- a stored block ends, or else all the input or all the room went into it
      have hpiece := input.length_take (min left room)
      have hafter := input.length_take_rest (min left room)
      simp only [step]
      split
      · refine halts_rest trivial ?_
        by_cases hroom : (input.take (min left room)).1.length = room
        · exact .inr hroom
        · exact .inl ⟨List.eq_nil_of_length_eq_zero (by omega), rfl⟩
      · exact halts_afterStored ..
  | storedChecksum body sum held =>
      apply halts_field (storedChecksum_fills body sum)
      intro bytes size_eq input
      unfold afterStoredChecksum
      split <;> trivial
  | compressed body held =>
      apply halts_field (compressed_fills body)
      intro bytes size_eq input
      exact halts_afterCompressed ..
  | pending body content ne_nil =>
      simp only [step, List.splitAt_eq]
      split
      · trivial
      · -- content is left, so what was handed out has filled the room
        rename_i hleft
        refine halts_rest trivial (.inr ?_)
        have := List.length_pos_iff.mpr hleft
        rw [List.length_drop] at this
        rw [List.length_take]
        omega
  | trailer body held =>
      apply halts_field (trailer_fills body)
      intro bytes size_eq input
      unfold afterTrailer
      split
      · exact .inl ⟨rfl, rfl⟩
      · trivial
  | skipSize held =>
      apply halts_field skipSize_fills
      intro bytes size_eq input
      trivial
  | skip size left =>
      have hpiece := input.length_take left
      have hafter := input.length_take_rest left
      simp only [step]
      split
      · refine halts_rest (show 0 < left - _ by omega) (.inl ⟨?_, rfl⟩)
        exact List.eq_nil_of_length_eq_zero (by omega)
      · exact .inl ⟨rfl, rfl⟩
  | failed code => trivial

theorem out_field {n : Nat} {place : Partial n → Decoder}
    {after : (bytes : Array UInt8) → bytes.size = n → Input → Nat → Step}
    (h : Fills place after)
    (hafter : ∀ bytes size_eq input room, (after bytes size_eq input room).out = [])
    (held : Partial n) (input : Input) (room : Nat) : ((place held).step input room).out = [] := by
  exact h.step_of (P := fun result => result.out = []) (fun _ _ _ => rfl)
    (fun bytes size_eq input' _ => hafter bytes size_eq input' room)

/-- A step hands out no more than it finds. -/
theorem step_out_le (decoder : Decoder) (input : Input) (room : Nat) :
    (decoder.step input room).out.length ≤ decoder.pendingLength + input.rest.length := by
  have hnil {s : Step} (h : s.out = []) :
      s.out.length ≤ decoder.pendingLength + input.rest.length := by simp [h]
  cases decoder with
  | opening held =>
      exact hnil (out_field opening_fills (fun _ _ _ _ => afterOpening_out ..) ..)
  | longHeader held =>
      exact hnil (out_field longHeader_fills (fun _ _ _ _ => afterHeader_out ..) ..)
  | blockSize body held =>
      exact hnil (out_field (blockSize_fills body) (fun _ _ _ _ => afterBlockSize_out ..) ..)
  | stored body sum left left_pos =>
      have hpiece : (input.take (min left room)).1.length ≤ input.rest.length := by
        rw [Input.length_take]
        exact Nat.min_le_right ..
      simp only [step]
      split
      · exact Nat.le_trans hpiece (Nat.le_add_left ..)
      · rw [afterStored_out]
        exact Nat.le_trans hpiece (Nat.le_add_left ..)
  | storedChecksum body sum held =>
      refine hnil (out_field (storedChecksum_fills body sum) ?_ ..)
      intro bytes size_eq input room
      unfold afterStoredChecksum
      split <;> rfl
  | compressed body held =>
      exact hnil (out_field (compressed_fills body) (fun _ _ _ _ => afterCompressed_out ..) ..)
  | pending body content ne_nil =>
      have hpiece : (content.take room).length ≤ content.length := by
        rw [List.length_take]
        omega
      simp only [step, List.splitAt_eq]
      split <;> exact Nat.le_trans hpiece (Nat.le_add_right ..)
  | trailer body held =>
      refine hnil (out_field (trailer_fills body) ?_ ..)
      intro bytes size_eq input room
      unfold afterTrailer
      split <;> rfl
  | skipSize held =>
      exact hnil (out_field skipSize_fills (fun _ _ _ _ => rfl) ..)
  | skip size left =>
      simp only [step]
      split <;> exact hnil rfl
  | failed code => exact hnil rfl

/-- With ample room a step that stops inside a frame has used up its input. -/
theorem step_ample {decoder next : Decoder} {input out : Bytes} {input' : Input} {hint : Nat} :
    decoder.step ⟨input, 0⟩ (decoder.ample input) = .stop next input' out hint → hint ≠ 0 →
      next.Waits ∧ input'.rest = [] ∧ next.pendingLength = 0 := by
  intro hstep hhint
  have hhalts := step_halts decoder ⟨input, 0⟩ (decoder.ample input)
  have hout := step_out_le decoder ⟨input, 0⟩ (decoder.ample input)
  rw [hstep] at hhalts hout
  rcases hhalts with ⟨hzero, -⟩ | ⟨-, hwaits, hused⟩
  · exact absurd hzero hhint
  · -- there was more room than the step could use, so it was input that ran out
    have hroom : out.length ≠ decoder.ample input := by
      simp only [Step.out] at hout
      unfold ample
      omega
    exact ⟨hwaits, hused.resolve_right hroom⟩

/-- Reading is stepping with ample room, and then reading what is left. -/
theorem read_eq (decoder : Decoder) (input : Bytes) :
    decoder.read input = (decoder.step ⟨input, 0⟩ (decoder.ample input)).reading [] := by
  cases hstep : decoder.step ⟨input, 0⟩ (decoder.ample input) with
  | go next behind out => rw [read_go hstep, reading_go, List.append_nil]
  | stop next behind out hint =>
      rw [read_stop hstep]
      by_cases hhint : hint = 0
      · simp [Step.reading, hhint]
      · rcases step_ample hstep hhint with ⟨hwaits, hnil, hnone⟩
        simp [Step.reading, hhint, hnil, read_nil hwaits hnone, Reading.prepend]
  | fail code => rw [read_fail hstep, reading_fail]

end Lz4Frame.Decoder
