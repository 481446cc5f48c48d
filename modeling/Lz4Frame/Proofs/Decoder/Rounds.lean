import Lz4Frame.Proofs.Decoder.Runs

/-!
# The rounds of a loop

Whoever decodes a piece of input does so in rounds: the decoder is run with what is left of the
piece and with the room that is at hand, until the frame has ended, the piece is used up or the
decoder has failed.  `Rounds` is such a row of runs, each taking up where the one before it stopped.

A loop over rounds has no counter.  It ends because a round that stops inside the frame has read or
written at least one byte (`Round.gets_on`): what a decoder holds back it hands out before it reads
on (`step_hands`).  So there are no more rounds than bytes on both sides, and one
(`Rounds.length_le`).
-/

namespace Lz4Frame.Decoder

/-! ## What waits is handed out -/

variable [Platform]

/-- What waits in a decoder is handed out, or waits behind the step. -/
theorem step_hands (decoder : Decoder) (input : Input) (room : Nat) :
    match decoder.step input room with
    | .go next _ out => decoder.pendingLength ≤ out.length + next.pendingLength
    | .stop next _ out _ => decoder.pendingLength ≤ out.length + next.pendingLength
    | .fail _ => True := by
  cases decoder with
  | pending body content ne_nil =>
      simp only [step, List.splitAt_eq]
      split
      · -- all of it fits
        rename_i hstep
        split at hstep
        · rename_i hfits
          have hlength := congrArg List.length hfits
          rw [List.length_drop, List.length_nil] at hlength
          cases hstep
          simp only [pendingLength, List.length_take]
          omega
        · cases hstep
      · rename_i hstep
        split at hstep
        · cases hstep
        · cases hstep
          simp only [pendingLength, List.length_take, List.length_drop]
          omega
      · trivial
  | _ =>
      -- nothing waits anywhere else
      split
      · exact Nat.zero_le _
      · exact Nat.zero_le _
      · trivial

theorem runFrom_hands {decoder next : Decoder} {input : Input} {room : Nat} {out : Array UInt8}
    {progress : Progress} :
    decoder.runFrom input room out = (next, .ok progress) →
      out.size + decoder.pendingLength ≤ progress.written.size + next.pendingLength := by
  intro h
  fun_induction runFrom decoder input room out with
  | case1 decoder input room out next' input' piece hstep _ ih =>
      have hhands := step_hands decoder input room
      rw [hstep] at hhands
      have hrest := ih h
      rw [size_append_list] at hrest
      simp only at hhands
      omega
  | case2 decoder input room out next' input' piece hint hstep =>
      have hhands := step_hands decoder input room
      rw [hstep] at hhands
      simp only [Prod.mk.injEq, Except.ok.injEq] at h
      rcases h with ⟨rfl, rfl⟩
      rw [size_append_list]
      simp only at hhands
      omega
  | case3 => cases (Prod.mk.inj h).2

/-! ## One round -/

/-- A decoder that is run once. -/
structure Round where
  decoder : Decoder
  input : Bytes
  room : Nat

namespace Round

/-- What the run leads to. -/
def outcome (round : Round) : Decoder × Except ErrorCode Progress :=
  round.decoder.run round.input round.room

/-- The input bytes that it reads.  A run that fails counts for nothing. -/
def used (round : Round) : Nat :=
  match round.outcome.2 with
  | .ok progress => progress.consumed
  | .error _ => 0

/-- The content that it hands out. -/
def content (round : Round) : Bytes :=
  match round.outcome.2 with
  | .ok progress => progress.written.toList
  | .error _ => []

/-- Whether it ends the frame. -/
def Ends (round : Round) : Prop :=
  ∃ progress, round.outcome.2 = .ok progress ∧ progress.hint = 0

/-- Whether it stops inside the frame. -/
def GoesOn (round : Round) : Prop :=
  ∃ progress, round.outcome.2 = .ok progress ∧ progress.hint ≠ 0

theorem used_eq {decoder next : Decoder} {input : Bytes} {room : Nat} {progress : Progress}
    (hrun : decoder.run input room = (next, .ok progress)) :
    used ⟨decoder, input, room⟩ = progress.consumed := by
  simp only [used, outcome, hrun]

theorem content_eq {decoder next : Decoder} {input : Bytes} {room : Nat} {progress : Progress}
    (hrun : decoder.run input room = (next, .ok progress)) :
    content ⟨decoder, input, room⟩ = progress.written.toList := by
  simp only [content, outcome, hrun]

theorem GoesOn.not_ends {round : Round} :
    round.GoesOn → ¬ round.Ends := by
  intro ⟨progress, hprogress, hnz⟩ ⟨other, hother, hzero⟩
  rw [hprogress] at hother
  cases hother
  exact hnz hzero

/-- Nothing is read or written beyond what there is. -/
theorem within (round : Round) :
    round.used ≤ round.input.length ∧ round.content.length ≤ round.room := by
  rcases hrun : round.outcome with ⟨next, code | progress⟩
  · simp [used, content, hrun]
  · rcases run_rest hrun with ⟨taken, htaken, hconsumed⟩
    have hwritten := run_written_size hrun
    refine ⟨?_, by simpa [content, hrun] using hwritten⟩
    simp only [used, hrun, hconsumed, htaken, List.length_append]
    omega

/-- A round with input and room that stops inside the frame has read or written something. -/
theorem gets_on {round : Round} (hinput : round.input ≠ []) (hroom : 0 < round.room) :
    round.GoesOn → 0 < round.used + round.content.length := by
  rcases round with ⟨decoder, input, room⟩
  rintro ⟨progress, hprogress, hnz⟩
  obtain ⟨next, hrun⟩ : ∃ next, decoder.run input room = (next, .ok progress) :=
    ⟨_, Prod.ext rfl hprogress⟩
  rcases run_rest hrun with ⟨taken, htaken, hconsumed⟩
  have hlength := congrArg List.length htaken
  rw [List.length_append] at hlength
  rw [used_eq hrun, content_eq hrun, Array.length_toList, hconsumed]
  rcases (run_ahead hrun hinput hroom).resolve_left hnz with hread | ⟨-, hless⟩
  · omega
  · -- as much input is left, so less content waits: the difference was handed out
    have hhands := runFrom_hands hrun
    simp only [List.size_toArray, List.length_nil] at hhands
    omega

/-- What all rounds of a row have used. -/
def allUsed : List Round → Nat
  | [] => 0
  | round :: rounds => round.used + allUsed rounds

theorem allUsed_cons (round : Round) (rounds : List Round) :
    allUsed (round :: rounds) = round.used + allUsed rounds := rfl

end Round

/-! ## Room for each round -/

/-- Rounds that are each given the room that there is behind those before it. -/
def Rooms (room : List Round → Nat) (rounds : List Round) : Prop :=
  ∀ before round after, rounds = before ++ round :: after → round.room = room before

namespace Rooms

variable {room : List Round → Nat}

omit [Platform] in
theorem singleton {round : Round} : round.room = room [] → Rooms room [round] := by
  intro h before other after hsplit
  cases before with
  | nil => exact (List.cons.inj hsplit).1 ▸ h
  | cons first before => simp at hsplit

omit [Platform] in
/-- The first round stands behind nothing, and the others behind it. -/
theorem cons {round : Round} {rounds : List Round} :
    round.room = room [] → Rooms (fun before => room (round :: before)) rounds →
      Rooms room (round :: rounds) := by
  intro h hothers before other after hsplit
  cases before with
  | nil => exact (List.cons.inj hsplit).1 ▸ h
  | cons first before =>
      rcases List.cons.inj hsplit with ⟨rfl, hrest⟩
      exact hothers before other after hrest

end Rooms

/-! ## Rows of rounds -/

/-- Rounds one after another: each takes up where the one before it has stopped, inside the frame
and with input left. -/
inductive Rounds : Decoder → Bytes → List Round → Prop
  | last (decoder : Decoder) (input : Bytes) (room : Nat) :
      Rounds decoder input [⟨decoder, input, room⟩]
  | further {decoder next : Decoder} {input : Bytes} {room : Nat} {progress : Progress}
      {rounds : List Round} (run_eq : decoder.run input room = (next, .ok progress))
      (hint_ne : progress.hint ≠ 0) (rest_ne : progress.rest ≠ [])
      (others : Rounds next progress.rest rounds) :
      Rounds decoder input (⟨decoder, input, room⟩ :: rounds)

namespace Rounds

variable {decoder : Decoder} {input : Bytes} {rounds : List Round}

theorem ne_nil (h : Rounds decoder input rounds) : rounds ≠ [] := by
  cases h <;> exact List.cons_ne_nil _ _

/-- All rounds but the last stop inside the frame. -/
theorem goesOn (h : Rounds decoder input rounds) :
    ∀ round ∈ rounds.dropLast, round.GoesOn := by
  induction h with
  | last decoder input room =>
      intro round hmem
      cases hmem
  | @further decoder next input room progress rounds hrun hnz hrest others ih =>
      rw [List.dropLast_cons_of_ne_nil others.ne_nil]
      intro round hmem
      rcases List.mem_cons.mp hmem with rfl | hmem
      · exact ⟨progress, congrArg Prod.snd hrun, hnz⟩
      · exact ih round hmem

/-- No round is given input that another has read. -/
theorem used_le (h : Rounds decoder input rounds) :
    Round.allUsed rounds ≤ input.length := by
  induction h with
  | last decoder input room => exact (Round.within ⟨decoder, input, room⟩).1
  | @further decoder next input room progress rounds hrun hnz hrest others ih =>
      rcases run_rest hrun with ⟨taken, htaken, hconsumed⟩
      rw [Round.allUsed_cons, Round.used_eq hrun, hconsumed, htaken, List.length_append]
      omega

/-- There are no more rounds than bytes read and written, and one. -/
theorem length_le (h : Rounds decoder input rounds) :
    (∀ round ∈ rounds, 0 < round.room) →
      rounds.length ≤ Round.allUsed rounds + (rounds.flatMap Round.content).length + 1 := by
  induction h with
  | last decoder input room =>
      intro _
      exact Nat.le_add_left _ _
  | @further decoder next input room progress rounds hrun hnz hrest others ih =>
      intro hrooms
      have hothers := ih fun round hmem => hrooms round (.tail _ hmem)
      -- the first round has got on, and the others are as many as their bytes
      have hfirst : 0 < Round.used ⟨decoder, input, room⟩
          + (Round.content ⟨decoder, input, room⟩).length :=
        Round.gets_on (run_input_ne_nil hrun hrest) (hrooms _ (.head _))
          ⟨progress, congrArg Prod.snd hrun, hnz⟩
      simp only [List.length_cons, Round.allUsed_cons, List.flatMap_cons, List.length_append]
      omega

end Rounds

end Lz4Frame.Decoder
