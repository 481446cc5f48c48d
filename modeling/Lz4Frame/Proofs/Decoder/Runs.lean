import Lz4Frame.Proofs.Decoder.Cutting

/-!
# Runs with little room

A run stops at the end of the frame, where its input ends, or where its room ends
(`run_halts`); it has read the front of its input (`run_rest`).  What it has handed out, and what
the decoder makes of everything behind it, is the reading of the whole input (`run_read`), so the
room of a run and the length of its piece show in nothing but the moment at which content comes.
-/

namespace Lz4Frame

/-! ## Input that is left -/

/-- One input is what another leaves after some bytes were read. -/
def Input.Leaves (input input' : Input) : Prop :=
  ∃ taken, input.rest = taken ++ input'.rest ∧ input'.used = input.used + taken.length

theorem Input.leaves_refl (input : Input) : input.Leaves input := ⟨[], by simp⟩

theorem Input.Leaves.trans {a b c : Input} :
    a.Leaves b → b.Leaves c → a.Leaves c := by
  intro h₁ h₂
  rcases h₁ with ⟨first, hfirst, hused⟩
  rcases h₂ with ⟨second, hsecond, hused'⟩
  refine ⟨first ++ second, ?_, ?_⟩
  · rw [hfirst, hsecond, List.append_assoc]
  · rw [hused', hused, List.length_append, Nat.add_assoc]

theorem Input.leaves_take (input : Input) (n : Nat) : input.Leaves (input.take n).2 :=
  ⟨input.rest.take n, by simp [Input.take, List.splitAt_eq], by simp [Input.take, List.splitAt_eq]⟩

theorem Partial.leaves_fill {n : Nat} (held : Partial n) (input : Input) :
    input.Leaves (held.fill input).2 := by
  rcases input with ⟨bytes, used⟩
  by_cases hshort : bytes.length < held.missing
  · rw [held.fill_of_lt _ hshort]
    exact ⟨bytes, by simp⟩
  · rcases held.fill_of_le bytes used (by omega) with ⟨_, hfull⟩
    rw [hfull]
    refine ⟨bytes.take held.missing, (List.take_append_drop ..).symm, ?_⟩
    rw [List.length_take]
    simp only
    omega

namespace Decoder

theorem leaves_rest {next : Decoder} {input input' input'' : Input} {out : Bytes} :
    input.Leaves input' → (rest next input' out).input? = some input'' → input.Leaves input'' := by
  intro hleaves h
  simp only [rest, Step.input?, Option.some.injEq] at h
  exact h ▸ hleaves

variable [Platform]

theorem leaves_field {n : Nat} {place : Partial n → Decoder}
    {after : (bytes : Array UInt8) → bytes.size = n → Input → Nat → Step} {room : Nat}
    (h : Fills place after)
    (hafter : ∀ bytes size_eq input input',
      (after bytes size_eq input room).input? = some input' → input' = input)
    {held : Partial n} {input input' : Input} :
    ((place held).step input room).input? = some input' → input.Leaves input' := by
  have hleaves := held.leaves_fill input
  refine h.step_of (P := fun result => result.input? = some input' → input.Leaves input')
    (fun held' next hfill hinput => ?_) (fun bytes size_eq next hfill hinput => ?_)
  · rw [hfill] at hleaves
    exact leaves_rest hleaves hinput
  · rw [hfill] at hleaves
    exact hafter bytes size_eq next input' hinput ▸ hleaves

/-- A step reads from the front of its input. -/
theorem step_leaves {decoder : Decoder} {input input' : Input} {room : Nat} :
    (decoder.step input room).input? = some input' → input.Leaves input' := by
  cases decoder with
  | opening held =>
      apply leaves_field opening_fills
      intro bytes size_eq next next'
      exact afterOpening_input
  | longHeader held =>
      apply leaves_field longHeader_fills
      intro bytes size_eq next next'
      exact afterHeader_input
  | blockSize body held =>
      apply leaves_field (blockSize_fills body)
      intro bytes size_eq next next'
      exact afterBlockSize_input
  | stored body sum left left_pos =>
      intro h
      have hleaves := input.leaves_take (min left room)
      simp only [step] at h
      split at h
      · exact leaves_rest hleaves h
      · exact afterStored_input h ▸ hleaves
  | storedChecksum body sum held =>
      apply leaves_field (storedChecksum_fills body sum)
      intro bytes size_eq next next' h
      unfold afterStoredChecksum at h
      split at h
      · exact (Option.some.inj h).symm
      · cases h
  | compressed body held =>
      apply leaves_field (compressed_fills body)
      intro bytes size_eq next next'
      exact afterCompressed_input
  | pending body content ne_nil =>
      -- content is handed out, and nothing is read
      intro h
      simp only [step, List.splitAt_eq] at h
      split at h
      · simp only [nextBlock, Step.input?, Option.some.injEq] at h
        exact h ▸ input.leaves_refl
      · exact leaves_rest input.leaves_refl h
  | trailer body held =>
      apply leaves_field (trailer_fills body)
      intro bytes size_eq next next' h
      unfold afterTrailer at h
      split at h
      · exact (Option.some.inj h).symm
      · cases h
  | skipSize held =>
      apply leaves_field skipSize_fills
      intro bytes size_eq next next' h
      exact (Option.some.inj h).symm
  | skip size left =>
      intro h
      have hleaves := input.leaves_take left
      simp only [step] at h
      split at h
      · exact leaves_rest hleaves h
      · simp only [Step.input?, Option.some.injEq] at h
        exact h ▸ hleaves
  | failed code =>
      intro h
      cases h

theorem runFrom_leaves {decoder next : Decoder} {input : Input} {room : Nat} {out : Array UInt8}
    {progress : Progress} :
    decoder.runFrom input room out = (next, .ok progress) →
      input.Leaves ⟨progress.rest, progress.consumed⟩ := by
  intro h
  fun_induction runFrom decoder input room out with
  | case1 decoder input room out next' input' piece hstep _ ih =>
      exact (step_leaves (by rw [hstep]; rfl)).trans (ih h)
  | case2 decoder input room out next' input' piece hint hstep =>
      simp only [Prod.mk.injEq, Except.ok.injEq] at h
      rw [← h.2]
      exact step_leaves (by rw [hstep]; rfl)
  | case3 => simp at h

/-- A run reads from the front of its input, and counts what it reads. -/
theorem run_rest {decoder next : Decoder} {input : Bytes} {room : Nat} {progress : Progress} :
    decoder.run input room = (next, .ok progress) →
      ∃ taken, input = taken ++ progress.rest ∧ progress.consumed = taken.length := by
  intro h
  simpa [Input.Leaves] using runFrom_leaves h

/-! ## One step after another -/

theorem runFrom_go {decoder next : Decoder} {input input' : Input} {room : Nat} {piece : Bytes}
    (h : decoder.step input room = .go next input' piece) (out : Array UInt8) :
    decoder.runFrom input room out
      = next.runFrom input' (room - piece.length) (out ++ piece) := by
  rw [runFrom]
  split
  · rename_i hother
    rw [h] at hother
    cases hother
    rfl
  all_goals
    rename_i hother
    rw [h] at hother
    cases hother

theorem runFrom_stop {decoder next : Decoder} {input input' : Input} {room hint : Nat}
    {piece : Bytes} (h : decoder.step input room = .stop next input' piece hint)
    (out : Array UInt8) :
    decoder.runFrom input room out
      = (next, .ok ⟨input'.used, out ++ piece, hint, input'.rest⟩) := by
  rw [runFrom]
  split
  · rename_i hother
    rw [h] at hother
    cases hother
  · rename_i hother
    rw [h] at hother
    cases hother
    rfl
  · rename_i hother
    rw [h] at hother
    cases hother

/-- Without input and without room a run leaves the decoder where it waits. -/
theorem run_nothing {decoder : Decoder} :
    decoder.Waits → decoder.run [] 0 = (decoder, .ok ⟨0, #[], decoder.idleHint, []⟩) := by
  intro h
  have hstep : decoder.step ⟨[], 0⟩ 0 = .stop decoder ⟨[], 0⟩ [] decoder.idleHint := by
    by_cases hnone : decoder.pendingLength = 0
    · exact step_nil h hnone 0 0
    · cases decoder with
      | pending body content ne_nil => simp [step, ne_nil, rest]
      | _ => exact absurd rfl hnone
  rw [run, runFrom_stop hstep]
  rfl

theorem runFrom_error {decoder next : Decoder} {input : Input} {room : Nat} {out : Array UInt8}
    {code : ErrorCode} :
    decoder.runFrom input room out = (next, .error code) → next = .failed code := by
  intro h
  fun_induction runFrom decoder input room out with
  | case1 decoder input room out next' input' piece hstep _ ih => exact ih h
  | case2 => simp at h
  | case3 decoder input room out code' hstep =>
      simp only [Prod.mk.injEq, Except.error.injEq] at h
      rw [← h.1, h.2]

/-- A run that fails leaves the decoder behind its error. -/
theorem run_error {decoder next : Decoder} {input : Bytes} {room : Nat} {code : ErrorCode}
    (h : decoder.run input room = (next, .error code)) : next = .failed code :=
  runFrom_error h

/-! ## Where a run stops -/

theorem runFrom_halts {decoder next : Decoder} {input : Input} {room : Nat} {out : Array UInt8}
    {progress : Progress} :
    decoder.runFrom input room out = (next, .ok progress) →
      progress.hint = 0 ∧ next = new
        ∨ 0 < progress.hint ∧ next.Waits
          ∧ (progress.rest = [] ∧ next.pendingLength = 0
            ∨ progress.written.size = out.size + room) := by
  intro h
  -- what a step hands out and the room that is left come to the room that there was
  fun_induction runFrom decoder input room out with
  | case1 decoder input room out next' input' piece hstep _ ih =>
      have hpiece := step_out_length decoder input room
      rw [hstep] at hpiece
      simp only [Step.out] at hpiece
      have hsize : (out ++ piece).size + (room - piece.length) = out.size + room := by
        rw [size_append_list]
        omega
      rw [← hsize]
      exact ih h
  | case2 decoder input room out next' input' piece hint hstep =>
      have hhalts := step_halts decoder input room
      rw [hstep] at hhalts
      simp only [Prod.mk.injEq, Except.ok.injEq] at h
      rw [← h.1, ← h.2]
      simp only [size_append_list, Nat.add_right_inj]
      exact hhalts
  | case3 => simp at h

/-- A run stops at the end of the frame, or else it has used up its input or its room. -/
theorem run_halts {decoder next : Decoder} {input : Bytes} {room : Nat} {progress : Progress} :
    decoder.run input room = (next, .ok progress) →
      progress.hint = 0 ∧ next = new
        ∨ 0 < progress.hint ∧ next.Waits
          ∧ (progress.rest = [] ∧ next.pendingLength = 0 ∨ progress.written.size = room) := by
  intro h
  simpa using runFrom_halts h

/-! ## What a run comes to -/

/-- The reading of what a run has handed out and of everything behind it. -/
def Progress.reading (progress : Progress) (next : Decoder) (more : Bytes) : Reading :=
  if progress.hint = 0 then ⟨progress.written.toList, .ended (progress.rest ++ more)⟩
  else (next.read (progress.rest ++ more)).prepend progress.written.toList

theorem runFrom_read {decoder next : Decoder} {input : Input} {room : Nat} {out : Array UInt8}
    {progress : Progress} (h : decoder.runFrom input room out = (next, .ok progress))
    (more : Bytes) :
    (decoder.read (input.rest ++ more)).prepend out.toList = progress.reading next more := by
  -- by the law of steps, once for each step of the run
  fun_induction runFrom decoder input room out with
  | case1 decoder input room out next' input' piece hstep _ ih =>
      rw [← step_reading, hstep, ← ih h]
      simp [Step.reading]
  | case2 decoder input room out next' input' piece hint hstep =>
      simp only [Prod.mk.injEq, Except.ok.injEq] at h
      rw [← step_reading, hstep, ← h.1, ← h.2]
      simp only [Step.reading, Progress.reading]
      split <;> simp [Reading.prepend]
  | case3 => simp at h

/-- A run does not change what the whole input comes to. -/
theorem run_read {decoder next : Decoder} {piece : Bytes} {room : Nat} {progress : Progress}
    (h : decoder.run piece room = (next, .ok progress)) (more : Bytes) :
    decoder.read (piece ++ more) = progress.reading next more := by
  simpa using runFrom_read h more

/-- A run over all of an input. -/
theorem run_read_all {decoder next : Decoder} {input : Bytes} {room : Nat} {progress : Progress}
    (h : decoder.run input room = (next, .ok progress)) :
    decoder.read input = progress.reading next [] := by
  simpa using run_read h []

theorem runFrom_read_error {decoder next : Decoder} {input : Input} {room : Nat}
    {out : Array UInt8} {code : ErrorCode} :
    decoder.runFrom input room out = (next, .error code) →
      ∃ content, ∀ more, decoder.read (input.rest ++ more) = ⟨content, .bad code⟩ := by
  intro h
  fun_induction runFrom decoder input room out with
  | case1 decoder input room out next' input' piece hstep _ ih =>
      rcases ih h with ⟨content, hread⟩
      refine ⟨piece ++ content, fun more => ?_⟩
      rw [← step_reading, hstep]
      simp [Step.reading, hread, Reading.prepend]
  | case2 => simp at h
  | case3 decoder input room out code' hstep =>
      simp only [Prod.mk.injEq, Except.error.injEq] at h
      refine ⟨[], fun more => ?_⟩
      rw [← step_reading, hstep, ← h.2]
      rfl

/-- A run fails if and as reading the whole input does. -/
theorem run_read_error {decoder next : Decoder} {piece : Bytes} {room : Nat} {code : ErrorCode}
    (h : decoder.run piece room = (next, .error code)) :
    ∃ content, ∀ more, decoder.read (piece ++ more) = ⟨content, .bad code⟩ :=
  runFrom_read_error h

/-- What was handed out before a run goes on stands in front of what it has handed out. -/
theorem runFrom_grows {decoder next : Decoder} {input : Input} {room : Nat} {out : Array UInt8}
    {progress : Progress} :
    decoder.runFrom input room out = (next, .ok progress) →
      out.toList <+: progress.written.toList := by
  intro h
  fun_induction runFrom decoder input room out with
  | case1 decoder input room out next' input' piece hstep _ ih =>
      refine List.IsPrefix.trans ?_ (ih h)
      rw [Array.toList_appendList]
      exact List.prefix_append ..
  | case2 decoder input room out next' input' piece hint hstep =>
      simp only [Prod.mk.injEq, Except.ok.injEq] at h
      rw [← h.2, Array.toList_appendList]
      exact List.prefix_append ..
  | case3 => simp at h

/-- What a waiting decoder makes of nothing: it hands out what it has and waits on. -/
theorem read_nil_waits {decoder : Decoder} :
    decoder.Waits → ∃ next, (decoder.read []).verdict = .waiting next := by
  intro h
  by_cases hnone : decoder.pendingLength = 0
  · exact ⟨decoder, by rw [read_nil h hnone]⟩
  · cases decoder with
    | pending body content ne_nil =>
        refine ⟨beforeBlock body, ?_⟩
        rw [read_pending, read_nil (show (beforeBlock body).Waits from trivial) rfl]
        rfl
    | _ => exact absurd rfl hnone

end Decoder

end Lz4Frame
