import Lz4Frame.Host.Threads

/-!
# Threads that keep the protocol of the host lock

A thread visits host code, and operates on one session after another there.  `Thread.Stands` says
where such a thread can stand, and with which session locked, one rule for each; `Effect.Leads` says
what a move asks of a thread and what it leaves it with.  All that is known about the moves of one
thread comes from these two (`Thread.Stands.move`).
-/

namespace Lz4Frame.Host

variable {σ : Type}

/-! ## Programs -/

/-- Where a thread is between two instructions. -/
inductive Place
  | outside
  /-- In host code, and in no session. -/
  | between
  | inside (session : Nat)

/-- What a thread may be told to do from a place on: to enter and leave host code, to lock one
session at a time and only there, and to work on the session that it has locked. -/
def Place.Allows : Place → List (Instruction σ) → Prop
  | .outside, [] => True
  | .outside, .enter :: rest => between.Allows rest
  | .between, .leave :: rest => outside.Allows rest
  | .between, .lock session :: rest => (inside session).Allows rest
  | .inside session, .call other _ _ :: rest => other = session ∧ (inside session).Allows rest
  | .inside session, .unlock other :: rest => other = session ∧ between.Allows rest
  | _, _ => False

/-- The operations of one visit to host code: sessions, and the calls on each. -/
abbrev Operations (σ : Type) := List (Nat × List (Bool × (σ → σ)))

/-- All that a thread does: it visits host code, any number of times, and operates on sessions
there. -/
def life (visits : List (Operations σ)) : List (Instruction σ) :=
  visits.flatMap fun operations =>
    visit (operations.map fun (session, calls) => operation session calls)

theorem allows_operation (session : Nat) (calls : List (Bool × (σ → σ)))
    {rest : List (Instruction σ)} :
    Place.between.Allows rest → Place.between.Allows (operation session calls ++ rest) := by
  intro h
  show (Place.inside session).Allows (_ ++ _ ++ rest)
  induction calls with
  | nil => exact ⟨rfl, h⟩
  | cons call calls ih => exact ⟨rfl, ih⟩

theorem allows_life (visits : List (Operations σ)) :
    Place.outside.Allows (life visits) := by
  induction visits with
  | nil => trivial
  | cons operations visits ih =>
      show Place.between.Allows (_ ++ [.leave] ++ life visits)
      induction operations with
      | nil => exact ih
      | cons head operations ih' =>
          simp only [List.map_cons, List.flatten_cons, List.append_assoc]
          exact allows_operation _ _ (by simpa only [List.append_assoc] using ih')

/-! ## Where threads stand -/

/-- A thread that keeps the protocol, and the session that it has locked. -/
inductive Thread.Stands : Thread σ → Option Nat → Prop
  | done : Stands ⟨.ready, false, []⟩ none
  | enter {rest : List (Instruction σ)} (allowed : Place.between.Allows rest) :
      Stands ⟨.ready, false, .enter :: rest⟩ none
  | leave {rest : List (Instruction σ)} (allowed : Place.outside.Allows rest) :
      Stands ⟨.ready, true, .leave :: rest⟩ none
  | lock {session : Nat} {rest : List (Instruction σ)}
      (allowed : (Place.inside session).Allows rest) :
      Stands ⟨.ready, true, .lock session :: rest⟩ none
  | waiting {session : Nat} {rest : List (Instruction σ)}
      (allowed : (Place.inside session).Allows rest) :
      Stands ⟨.waiting, false, .lock session :: rest⟩ none
  | locked {session : Nat} {rest : List (Instruction σ)}
      (allowed : (Place.inside session).Allows rest) :
      Stands ⟨.returning, false, .lock session :: rest⟩ (some session)
  | call {session : Nat} {releasing : Bool} {work : σ → σ} {rest : List (Instruction σ)}
      (allowed : (Place.inside session).Allows rest) :
      Stands ⟨.ready, true, .call session releasing work :: rest⟩ (some session)
  | calling {session : Nat} {work : σ → σ} {rest : List (Instruction σ)}
      (allowed : (Place.inside session).Allows rest) :
      Stands ⟨.calling, false, .call session true work :: rest⟩ (some session)
  | called {session : Nat} {work : σ → σ} {rest : List (Instruction σ)}
      (allowed : (Place.inside session).Allows rest) :
      Stands ⟨.returning, false, .call session true work :: rest⟩ (some session)
  | unlock {session : Nat} {rest : List (Instruction σ)} (allowed : Place.between.Allows rest) :
      Stands ⟨.ready, true, .unlock session :: rest⟩ (some session)

theorem stands_outside {program : List (Instruction σ)} :
    Place.outside.Allows program → Thread.Stands ⟨.ready, false, program⟩ none := by
  intro h
  match program, h with
  | [], _ => exact .done
  | .enter :: rest, h => exact .enter h

theorem stands_between {program : List (Instruction σ)} :
    Place.between.Allows program → Thread.Stands ⟨.ready, true, program⟩ none := by
  intro h
  match program, h with
  | .leave :: rest, h => exact .leave h
  | .lock session :: rest, h => exact .lock h

theorem stands_inside {session : Nat} {program : List (Instruction σ)} :
    (Place.inside session).Allows program →
      Thread.Stands ⟨.ready, true, program⟩ (some session) := by
  intro h
  match program, h with
  | .call _ releasing work :: rest, ⟨rfl, h⟩ => exact .call h
  | .unlock _ :: rest, ⟨rfl, h⟩ => exact .unlock h

/-! ## Moves of one thread -/

/-- Whether a thread is about to take the host lock. -/
def Thread.Acquires (thread : Thread σ) : Prop :=
  ∃ byGate phase program, ∀ busy, thread.move busy = some (.take byGate, phase, program)

/-- What an effect asks of the thread that has it, and what it leaves it with: whether it holds the
host lock, and the session that it has locked. -/
inductive Effect.Leads (busy : Nat → Bool) :
    Effect σ → (before after : Bool × Option Nat) → Prop
  | take {byGate : Bool} {owned : Option Nat} :
      Leads busy (.take byGate) (false, owned) (true, owned)
  | giveBack {byGate : Bool} {owned : Option Nat} :
      Leads busy (.giveBack byGate) (true, owned) (false, owned)
  | own {session : Nat} {holds : Bool} (free : busy session = false) :
      Leads busy (.own session) (holds, none) (holds, some session)
  | disown {session : Nat} : Leads busy (.disown session) (true, some session) (true, none)
  | work {session : Nat} {change : σ → σ} {holds : Bool} :
      Leads busy (.work session change) (holds, some session) (holds, some session)

/-- How many moves an instruction takes at most, other than falling asleep. -/
def Instruction.moves : Instruction σ → Nat
  | .lock _ => 3
  | .call _ true _ => 3
  | _ => 1

/-- The same for the instructions of a program. -/
def movesOf : List (Instruction σ) → Nat
  | [] => 0
  | instruction :: rest => instruction.moves + movesOf rest

/-- How many moves of an instruction a thread has made. -/
def Phase.made : Phase → Nat
  | .ready => 0
  | .waiting => 1
  | .calling => 1
  | .returning => 2

/-- How many moves a thread has left at most, other than falling asleep. -/
def Thread.left (thread : Thread σ) : Nat :=
  movesOf thread.program - thread.phase.made

/-- An instruction is done. -/
theorem Thread.left_lt_done {phase : Phase} {holds holds' : Bool} {instruction : Instruction σ}
    {rest : List (Instruction σ)} :
    phase.made < instruction.moves →
      Thread.left ⟨.ready, holds', rest⟩ < Thread.left ⟨phase, holds, instruction :: rest⟩ := by
  intro h
  have hready : Phase.ready.made = 0 := rfl
  simp only [Thread.left, movesOf, hready]
  omega

/-- A thread gets on within its instruction. -/
theorem Thread.left_lt_on {phase phase' : Phase} {holds holds' : Bool}
    {instruction : Instruction σ} {rest : List (Instruction σ)} :
    phase.made < phase'.made → phase'.made ≤ instruction.moves →
      Thread.left ⟨phase', holds', instruction :: rest⟩
        < Thread.left ⟨phase, holds, instruction :: rest⟩ := by
  intro hmore hle
  simp only [Thread.left, movesOf]
  omega

namespace Thread.Stands

variable {thread : Thread σ} {owned : Option Nat} (h : thread.Stands owned)
include h

/-- A thread goes on to keep the protocol, with fewer moves left unless it falls asleep. -/
theorem move {busy : Nat → Bool} {effect : Effect σ} {phase : Phase}
    {program : List (Instruction σ)} :
    thread.move busy = some (effect, phase, program) →
      ∃ holds owned', effect.Leads busy (thread.holds, owned) (holds, owned')
        ∧ Stands ⟨phase, holds, program⟩ owned'
        ∧ Thread.left ⟨phase, holds, program⟩ < thread.left := by
  intro hmove
  cases h with
  | done => cases hmove
  | enter allowed =>
      cases hmove
      exact ⟨_, _, .take, stands_between allowed, left_lt_done Nat.one_pos⟩
  | leave allowed =>
      cases hmove
      exact ⟨_, _, .giveBack, stands_outside allowed, left_lt_done Nat.one_pos⟩
  | lock allowed =>
      simp only [Thread.move] at hmove
      split at hmove
      · cases hmove
        exact ⟨_, _, .giveBack, .waiting allowed, left_lt_on Nat.one_pos (show 1 ≤ 3 by omega)⟩
      · rename_i hfree
        cases hmove
        exact ⟨_, _, .own (by simpa using hfree), stands_inside allowed,
          left_lt_done (show 0 < 3 by omega)⟩
  | waiting allowed =>
      simp only [Thread.move] at hmove
      split at hmove
      · cases hmove
      · rename_i hfree
        cases hmove
        exact ⟨_, _, .own (by simpa using hfree), .locked allowed,
          left_lt_on (show 1 < 2 by omega) (show 2 ≤ 3 by omega)⟩
  | locked allowed =>
      cases hmove
      exact ⟨_, _, .take, stands_inside allowed, left_lt_done (show 2 < 3 by omega)⟩
  | @call session releasing work rest allowed =>
      cases releasing with
      | true =>
          cases hmove
          exact ⟨_, _, .giveBack, .calling allowed, left_lt_on Nat.one_pos (show 1 ≤ 3 by omega)⟩
      | false =>
          cases hmove
          exact ⟨_, _, .work, stands_inside allowed, left_lt_done Nat.one_pos⟩
  | calling allowed =>
      cases hmove
      exact ⟨_, _, .work, .called allowed, left_lt_on (show 1 < 2 by omega) (show 2 ≤ 3 by omega)⟩
  | called allowed =>
      cases hmove
      exact ⟨_, _, .take, stands_inside allowed, left_lt_done (show 2 < 3 by omega)⟩
  | unlock allowed =>
      cases hmove
      exact ⟨_, _, .disown, stands_between allowed, left_lt_done Nat.one_pos⟩

/-- Whether a thread takes the host lock next does not depend on the sessions. -/
theorem acquires {busy : Nat → Bool} {byGate : Bool} {phase : Phase}
    {program : List (Instruction σ)} :
    thread.move busy = some (.take byGate, phase, program) → thread.Acquires := by
  intro hmove
  cases h with
  | enter => exact ⟨_, _, _, fun _ => rfl⟩
  | locked => exact ⟨_, _, _, fun _ => rfl⟩
  | called => exact ⟨_, _, _, fun _ => rfl⟩
  | lock =>
      simp only [Thread.move] at hmove
      split at hmove <;> cases hmove
  | waiting =>
      simp only [Thread.move] at hmove
      split at hmove <;> cases hmove
  | @call session releasing => cases releasing <;> cases hmove
  | done => cases hmove
  | leave => cases hmove
  | calling => cases hmove
  | unlock => cases hmove

/-- What a thread that is not done can do: it can move, or it is about to take the host lock, or it
waits for a session, without the host lock and with no session locked. -/
theorem next (hne : thread.program ≠ []) :
    thread.Acquires
      ∨ (∀ busy, (thread.move busy).isSome = true)
      ∨ thread.holds = false ∧ owned = none
        ∧ ∃ session, ∀ busy : Nat → Bool,
          busy session = false → (thread.move busy).isSome = true := by
  cases h with
  | done => exact absurd rfl hne
  | enter => exact .inl ⟨_, _, _, fun _ => rfl⟩
  | locked => exact .inl ⟨_, _, _, fun _ => rfl⟩
  | called => exact .inl ⟨_, _, _, fun _ => rfl⟩
  | lock =>
      refine .inr (.inl fun busy => ?_)
      simp only [Thread.move]
      split <;> rfl
  | @waiting session =>
      refine .inr (.inr ⟨rfl, rfl, session, fun busy hfree => ?_⟩)
      simp [Thread.move, hfree]
  | @call session releasing => cases releasing <;> exact .inr (.inl fun _ => rfl)
  | leave => exact .inr (.inl fun _ => rfl)
  | calling => exact .inr (.inl fun _ => rfl)
  | unlock => exact .inr (.inl fun _ => rfl)

/-- A thread about to take the host lock does not hold it. -/
theorem holds_eq_false : thread.Acquires → thread.holds = false := by
  rintro ⟨byGate, phase, program, hmove⟩
  rcases h.move (hmove fun _ => false) with ⟨holds, owned', hleads, -⟩
  generalize thread.holds = before at hleads
  cases hleads
  rfl

theorem waiting_holds (hphase : thread.phase = .waiting) : thread.holds = false := by
  cases h with
  | waiting => rfl
  | _ => cases hphase

/-- A thread is without the host lock while it is done, about to take the lock, waiting for a
session, or in a call that gave the lock back, and at no other time. -/
theorem holds_eq_false_iff :
    thread.holds = false ↔ thread.program = [] ∨ thread.Acquires
      ∨ (∃ session rest, thread.phase = .waiting ∧ thread.program = .lock session :: rest)
      ∨ ∃ session work rest,
        thread.phase = .calling ∧ thread.program = .call session true work :: rest := by
  constructor
  · intro hnot
    cases h with
    | done => exact .inl rfl
    | enter => exact .inr (.inl ⟨_, _, _, fun _ => rfl⟩)
    | locked => exact .inr (.inl ⟨_, _, _, fun _ => rfl⟩)
    | called => exact .inr (.inl ⟨_, _, _, fun _ => rfl⟩)
    | waiting => exact .inr (.inr (.inl ⟨_, _, rfl, rfl⟩))
    | calling => exact .inr (.inr (.inr ⟨_, _, _, rfl, rfl⟩))
    | _ => cases hnot
  · rintro (hdone | hacquires | ⟨session, rest, hphase, -⟩ | ⟨session, work, rest, hphase, -⟩)
    · cases h with
      | done => rfl
      | _ => cases hdone
    · exact h.holds_eq_false hacquires
    · exact h.waiting_holds hphase
    · cases h with
      | calling => rfl
      | _ => cases hphase

omit h in
/-- A thread that has locked a session is not done. -/
theorem ne_nil {session : Nat} (h : thread.Stands (some session)) : thread.program ≠ [] := by
  cases h <;> simp

end Thread.Stands

end Lz4Frame.Host
