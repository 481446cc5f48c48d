import Lz4Frame.Frame.Decoder.Step

/-!
# Every step gets on

A decoder is *ahead* of where it was if less input is left, or as much is left and less decoded
content waits.  `Decoder.step_advances` says that a step after which there is more to do has got
ahead, and that a step which stops with input and room at hand has got ahead too, unless it ended a
frame.  `Decoder.step_out_length` says that a step hands out no more than there is room for.
-/

namespace Lz4Frame.Decoder

/-! ## Order of places -/

/-- One place is ahead of another: less is left to read, or as much is left and less content waits
to be handed out. -/
def Ahead (decoder' : Decoder) (rest' : Bytes) (decoder : Decoder) (rest : Bytes) : Prop :=
  rest'.length < rest.length
    ∨ rest'.length = rest.length ∧ decoder'.pendingLength < decoder.pendingLength

/-- One place is not behind another. -/
def NotBehind (decoder' : Decoder) (rest' : Bytes) (decoder : Decoder) (rest : Bytes) : Prop :=
  rest'.length < rest.length
    ∨ rest'.length = rest.length ∧ decoder'.pendingLength ≤ decoder.pendingLength

theorem Ahead.trans {a b c : Decoder} {as bs cs : Bytes} (h₁ : Ahead a as b bs)
    (h₂ : NotBehind b bs c cs) : Ahead a as c cs := by
  unfold Ahead NotBehind at *
  omega

theorem NotBehind.ahead {a b c : Decoder} {as bs cs : Bytes} (h₁ : NotBehind a as b bs)
    (h₂ : Ahead b bs c cs) : Ahead a as c cs := by
  unfold Ahead NotBehind at *
  omega

theorem Ahead.notBehind {a b : Decoder} {as bs : Bytes} (h : Ahead a as b bs) :
    NotBehind a as b bs := by
  unfold Ahead NotBehind at *
  omega

/-- Getting ahead cannot go on for ever. -/
theorem Ahead.lex {decoder' decoder : Decoder} {rest' rest : Bytes}
    (h : Ahead decoder' rest' decoder rest) :
    Prod.Lex (· < ·) (· < ·) (rest'.length, decoder'.pendingLength)
      (rest.length, decoder.pendingLength) := by
  rcases h with hlt | ⟨heq, hlt⟩
  · exact Prod.Lex.left _ _ hlt
  · rw [heq]
    exact Prod.Lex.right _ hlt

/-- The input behind a step. -/
def Step.input? : Step → Option Input
  | .go _ input _ => some input
  | .stop _ input _ _ => some input
  | .fail _ => none

theorem afterHeader_input {bytes : Bytes} {input input' : Input}
    (h : (afterHeader bytes input).input? = some input') : input' = input := by
  unfold afterHeader nextBlock at h
  split at h <;> simp_all [Step.input?]

theorem afterOpening_input {bytes : Array UInt8} {size_eq : bytes.size = Header.minLength}
    {input input' : Input}
    (h : (afterOpening bytes size_eq input).input? = some input') : input' = input := by
  unfold afterOpening at h
  split at h
  · simp [Step.input?] at h
  · simp_all [Step.input?]
  · split at h
    · simp_all [Step.input?]
    · exact afterHeader_input h

theorem afterStored_input {body : Body} {sum : Xxh32} {input input' : Input} {out : Bytes}
    (h : (afterStored body sum input out).input? = some input') : input' = input := by
  unfold afterStored nextBlock at h
  split at h <;> simp_all [Step.input?]

theorem afterBlockSize_input {body : Body} {number room : Nat} {input input' : Input}
    (h : (afterBlockSize body number input room).input? = some input') : input' = input := by
  unfold afterBlockSize afterBlocks at h
  simp only at h
  repeat' split at h
  all_goals first
    | exact afterStored_input h
    | simp_all [Step.input?]

variable [Platform]

theorem afterCompressed_input {body : Body} {bytes : Bytes} {input input' : Input}
    (h : (afterCompressed body bytes input).input? = some input') : input' = input := by
  unfold afterCompressed nextBlock at h
  simp only at h
  repeat' split at h
  all_goals simp_all [Step.input?]

/-- What a step owes: if there is more to do it has got ahead, and if it stops with input and room
at hand it has got ahead or ended a frame. -/
def Advances (decoder : Decoder) (input : Input) (room : Nat) : Step → Prop
  | .go next input' _ => Ahead next input'.rest decoder input.rest
  | .stop next input' _ hint =>
      NotBehind next input'.rest decoder input.rest
        ∧ (input.rest ≠ [] → 0 < room → hint = 0 ∨ Ahead next input'.rest decoder input.rest)
  | .fail _ => True

omit [Platform] in
theorem advances_of_lt {decoder : Decoder} {input : Input} {room : Nat} {result : Step}
    (h : ∀ input', result.input? = some input' → input'.rest.length < input.rest.length) :
    Advances decoder input room result := by
  cases result with
  | go next input' out => exact .inl (h input' rfl)
  | stop next input' out hint => exact ⟨.inl (h input' rfl), fun _ _ => .inr (.inl (h input' rfl))⟩
  | fail code => trivial

omit [Platform] in
theorem advances_rest_nil {decoder next : Decoder} {input input' : Input} {room : Nat}
    {out : Bytes} (hnil : input'.rest = []) (hnone : next.pendingLength = 0) :
    Advances decoder input room (rest next input' out) := by
  by_cases hrest : input.rest = []
  · exact ⟨.inr (by simp [hnil, hrest, hnone]), fun h => absurd hrest h⟩
  · have hlt : input'.rest.length < input.rest.length := by
      simpa [hnil] using List.length_pos_iff.mpr hrest
    exact ⟨.inl hlt, fun _ _ => .inr (.inl hlt)⟩

theorem step_advances (decoder : Decoder) (input : Input) (room : Nat) :
    Advances decoder input room (decoder.step input room) := by
  unfold step
  -- a field is either short, and then no input is left, or full, and then it took a byte
  split
  · split
    · exact advances_rest_nil (Partial.fill_short ‹_›) rfl
    · exact advances_of_lt fun _ h => afterOpening_input h ▸ Partial.fill_full ‹_›
  · split
    · exact advances_rest_nil (Partial.fill_short ‹_›) rfl
    · exact advances_of_lt fun _ h => afterHeader_input h ▸ Partial.fill_full ‹_›
  · split
    · exact advances_rest_nil (Partial.fill_short ‹_›) rfl
    · exact advances_of_lt fun _ h => afterBlockSize_input h ▸ Partial.fill_full ‹_›
  · -- in a stored block
    rename_i body sum left left_pos
    have hpiece := input.length_take (min left room)
    have hafter := input.length_take_rest (min left room)
    simp only []
    split
    · refine ⟨?_, fun hrest hroom => .inr (.inl ?_)⟩
      · simp only [NotBehind, hafter, pendingLength]
        omega
      · have := List.length_pos_iff.mpr hrest
        omega
    · refine advances_of_lt fun _ h => ?_
      rw [afterStored_input h]
      omega
  · split
    · exact advances_rest_nil (Partial.fill_short ‹_›) rfl
    · split
      · refine advances_of_lt fun _ h => ?_
        simp only [nextBlock, Step.input?, Option.some.injEq] at h
        exact h ▸ Partial.fill_full ‹_›
      · trivial
  · split
    · exact advances_rest_nil (Partial.fill_short ‹_›) rfl
    · exact advances_of_lt fun _ h => afterCompressed_input h ▸ Partial.fill_full ‹_›
  · -- behind a compressed block: nothing is read, but content is handed out
    rename_i body content ne_nil
    have hpos := List.length_pos_iff.mpr ne_nil
    simp only []
    split
    · exact .inr ⟨rfl, by simpa [beforeBlock, pendingLength] using hpos⟩
    · simp only [List.splitAt_eq]
      refine ⟨.inr ⟨rfl, ?_⟩, fun _ hroom => .inr (.inr ⟨rfl, ?_⟩)⟩
      · simp [pendingLength]
      · simp only [pendingLength, List.length_drop]
        omega
  · split
    · exact advances_rest_nil (Partial.fill_short ‹_›) rfl
    · split
      · refine advances_of_lt fun _ h => ?_
        simp only [Step.input?, Option.some.injEq] at h
        exact h ▸ Partial.fill_full ‹_›
      · trivial
  · split
    · exact advances_rest_nil (Partial.fill_short ‹_›) rfl
    · refine advances_of_lt fun _ h => ?_
      simp only [Step.input?, Option.some.injEq] at h
      exact h ▸ Partial.fill_full ‹_›
  · -- in a frame to be skipped
    rename_i size left
    have hpiece := input.length_take left
    have hafter := input.length_take_rest left
    simp only []
    split
    · refine ⟨?_, fun hrest _ => .inr (.inl ?_)⟩
      · simp only [NotBehind, hafter, pendingLength]
        omega
      · have := List.length_pos_iff.mpr hrest
        omega
    · refine ⟨?_, fun _ _ => .inl rfl⟩
      simp only [NotBehind, hafter, new, pendingLength]
      omega
  · trivial

/-- A step after which there is more to do has got ahead. -/
theorem step_go {decoder next : Decoder} {input input' : Input} {room : Nat} {out : Bytes}
    (h : decoder.step input room = .go next input' out) :
    Ahead next input'.rest decoder input.rest := by
  have hadvances := step_advances decoder input room
  rw [h] at hadvances
  exact hadvances

/-! ## Room -/

/-- The content that a step hands out. -/
def Step.out : Step → Bytes
  | .go _ _ out => out
  | .stop _ _ out _ => out
  | .fail _ => []

omit [Platform] in
theorem afterHeader_out (bytes : Bytes) (input : Input) : (afterHeader bytes input).out = [] := by
  unfold afterHeader nextBlock
  split <;> rfl

omit [Platform] in
theorem afterOpening_out (bytes : Array UInt8) (size_eq : bytes.size = Header.minLength)
    (input : Input) : (afterOpening bytes size_eq input).out = [] := by
  unfold afterOpening
  split
  · rfl
  · rfl
  · split
    · rfl
    · exact afterHeader_out ..

omit [Platform] in
theorem afterStored_out (body : Body) (sum : Xxh32) (input : Input) (out : Bytes) :
    (afterStored body sum input out).out = out := by
  unfold afterStored nextBlock
  split <;> rfl

omit [Platform] in
theorem afterBlockSize_out (body : Body) (number : Nat) (input : Input) (room : Nat) :
    (afterBlockSize body number input room).out = [] := by
  unfold afterBlockSize afterBlocks
  simp only
  repeat' split
  all_goals first
    | exact afterStored_out ..
    | rfl

theorem afterCompressed_out (body : Body) (bytes : Bytes) (input : Input) :
    (afterCompressed body bytes input).out = [] := by
  unfold afterCompressed nextBlock
  simp only
  repeat' split
  all_goals rfl

/-- A step hands out no more than there is room for. -/
theorem step_out_length (decoder : Decoder) (input : Input) (room : Nat) :
    (decoder.step input room).out.length ≤ room := by
  have hnil {s : Step} (h : s.out = []) : s.out.length ≤ room := by simp [h]
  unfold step
  split
  · split
    · exact hnil rfl
    · exact hnil (afterOpening_out ..)
  · split
    · exact hnil rfl
    · exact hnil (afterHeader_out ..)
  · split
    · exact hnil rfl
    · exact hnil (afterBlockSize_out ..)
  · rename_i body sum left left_pos
    have hpiece : (input.take (min left room)).1.length ≤ room := by
      rw [Input.length_take]
      omega
    simp only []
    split
    · exact hpiece
    · rw [afterStored_out]
      exact hpiece
  · split
    · exact hnil rfl
    · split <;> exact hnil rfl
  · split
    · exact hnil rfl
    · exact hnil (afterCompressed_out ..)
  · simp only [List.splitAt_eq]
    split
    · simp only [nextBlock, Step.out, List.length_take]
      omega
    · simp only [rest, Step.out, List.length_take]
      omega
  · split
    · exact hnil rfl
    · split <;> exact hnil rfl
  · split <;> exact hnil rfl
  · simp only []
    split <;> exact hnil rfl
  · exact hnil rfl

end Lz4Frame.Decoder
