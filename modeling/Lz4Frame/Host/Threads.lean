import Lz4Frame.Host.Lock

/-!
# Threads, sessions and the host lock

Several threads work on several sessions.  Each session has a lock of its own, and all threads share
the host lock.  `World.advance` lets one thread make one move; a schedule is a list of turns, and
`World.run` follows it.

What a thread does is a list of instructions.  Two of them take more than one move, because the host
lock is given back in between:

* to lock a session that is busy, a thread gives the host lock back, waits for the session, and then
  takes the host lock again;
* a call on much data gives the host lock back, is made, and takes the host lock again.

A thread that finds the host lock held goes to sleep.  Whoever gives the lock back wakes one of the
threads that sleep, and this one looks again: another thread may have come before it.
-/

namespace Lz4Frame.Host

/-- What a thread is told to do; `σ` is what a session holds. -/
inductive Instruction (σ : Type)
  /-- Take the host lock before running host code. -/
  | enter
  /-- Give the host lock back behind host code. -/
  | leave
  /-- Lock a session. -/
  | lock (session : Nat)
  /-- Work on a session, with the host lock given back or kept. -/
  | call (session : Nat) (releasing : Bool) (work : σ → σ)
  /-- Unlock a session. -/
  | unlock (session : Nat)

/-- Where a thread stands within its next instruction. -/
inductive Phase
  /-- Before it. -/
  | ready
  /-- Without the host lock, waiting for the session to be unlocked. -/
  | waiting
  /-- Without the host lock, in a call. -/
  | calling
  /-- Done but for the host lock, which is to be taken again. -/
  | returning
  deriving DecidableEq, Repr

/-! ## What one thread does -/

/-- A thread: the phase of its next instruction, and its instructions. -/
structure Thread (σ : Type) where
  phase : Phase := .ready
  /-- Whether it has taken the host lock and not given it back. -/
  holds : Bool := false
  program : List (Instruction σ)

/-- What a move does to what threads share.  A gate's moves on the host lock are on record. -/
inductive Effect (σ : Type)
  | take (byGate : Bool)
  | giveBack (byGate : Bool)
  | own (session : Nat)
  | disown (session : Nat)
  | work (session : Nat) (change : σ → σ)

/-- The next move of a thread, and where it stands then; `none` if it is done, or waits for a
session that is busy. -/
def Thread.move {σ : Type} (busy : Nat → Bool) (thread : Thread σ) :
    Option (Effect σ × Phase × List (Instruction σ)) :=
  match thread.program with
  | [] => none
  | instruction :: rest =>
      match instruction, thread.phase with
      | .enter, _ => some (.take false, .ready, rest)
      | .leave, _ => some (.giveBack false, .ready, rest)
      | .lock session, .ready =>
          if busy session then
            -- the session's owner may need the host lock to get on
            some (.giveBack true, .waiting, instruction :: rest)
          else
            some (.own session, .ready, rest)
      | .lock session, .waiting =>
          if busy session then none
          else some (.own session, .returning, instruction :: rest)
      | .lock _, _ => some (.take true, .ready, rest)
      | .call session false work, _ => some (.work session work, .ready, rest)
      | .call _ true _, .ready => some (.giveBack true, .calling, instruction :: rest)
      | .call session true work, .calling =>
          some (.work session work, .returning, instruction :: rest)
      | .call _ true _, _ => some (.take true, .ready, rest)
      | .unlock session, _ => some (.disown session, .ready, rest)

/-! ## What all threads do -/

/-- All threads and what they share. -/
structure World (σ : Type) where
  threads : List (Thread σ)
  lock : HostLock := {}
  /-- The threads that sleep until the host lock is given back. -/
  sleepers : List Nat := []
  /-- The thread that has locked a session. -/
  owner : Nat → Option Nat := fun _ => none
  /-- What a session holds. -/
  content : Nat → σ
  /-- What gates did on the host lock, and for which thread; latest first. -/
  log : List (Nat × LockEvent) := []

/-- The thread whose turn it is, and which of the threads that sleep it wakes if it gives the host
lock back. -/
structure Turn where
  thread : Nat
  wakes : Nat := 0

namespace World

variable {σ : Type}

/-- A function changed at one place. -/
def updated {α : Type} (f : Nat → α) (i : Nat) (a : α) : Nat → α :=
  fun j => if j = i then a else f j

/-- Puts a thread behind a move. -/
def withThread (world : World σ) (t : Nat) (thread : Thread σ) : World σ :=
  { world with threads := world.threads.set t thread }

/-- Whether some thread has locked a session. -/
def busy (world : World σ) (session : Nat) : Bool := (world.owner session).isSome

/-- What gates did on the host lock, with one event more if a gate did it. -/
def logged (world : World σ) (byGate : Bool) (t : Nat) (event : LockEvent) :
    List (Nat × LockEvent) :=
  if byGate then (t, event) :: world.log else world.log

/-- What becomes of all threads by a move that leaves one of them at `phase` and `program`. -/
def perform (world : World σ) (turn : Turn) (thread : Thread σ) (phase : Phase)
    (program : List (Instruction σ)) : Effect σ → World σ
  | .take byGate =>
      match world.lock.acquire? with
      | some lock =>
          { world with lock, log := world.logged byGate turn.thread .acquire }.withThread
            turn.thread ⟨phase, true, program⟩
      | none => { world with sleepers := world.sleepers ++ [turn.thread] }
  | .giveBack byGate =>
      { world with
        lock := world.lock.release
        sleepers := world.sleepers.eraseIdx (turn.wakes % world.sleepers.length)
        log := world.logged byGate turn.thread .release }.withThread
          turn.thread ⟨phase, false, program⟩
  | .own session =>
      { world with owner := updated world.owner session (some turn.thread) }.withThread
        turn.thread ⟨phase, thread.holds, program⟩
  | .disown session =>
      { world with owner := updated world.owner session none }.withThread
        turn.thread ⟨phase, thread.holds, program⟩
  | .work session change =>
      { world with
        content := updated world.content session (change (world.content session)) }.withThread
          turn.thread ⟨phase, thread.holds, program⟩

/-- One move of a thread, or `none` if it sleeps, waits or is done. -/
def advance (world : World σ) (turn : Turn) : Option (World σ) :=
  if turn.thread ∈ world.sleepers then
    none
  else
    match world.threads[turn.thread]? with
    | none => none
    | some thread =>
        match thread.move world.busy with
        | none => none
        | some (effect, phase, program) => some (world.perform turn thread phase program effect)

/-- Follows a schedule; a thread that cannot move lets its turn pass. -/
def run (world : World σ) : List Turn → World σ
  | [] => world
  | turn :: rest => run ((world.advance turn).getD world) rest

/-- What is behind a move. -/
theorem advance_cases {world next : World σ} {turn : Turn} :
    world.advance turn = some next →
      turn.thread ∉ world.sleepers ∧ ∃ thread effect phase program,
        world.threads[turn.thread]? = some thread
          ∧ thread.move world.busy = some (effect, phase, program)
          ∧ next = world.perform turn thread phase program effect := by
  intro h
  unfold advance at h
  split at h
  · cases h
  · rename_i hawake
    split at h
    · cases h
    · rename_i thread hthread
      split at h
      · cases h
      · rename_i effect phase program hmove
        exact ⟨hawake, thread, effect, phase, program, hthread, hmove, (Option.some.inj h).symm⟩

theorem perform_take_free {world : World σ} (hfree : world.lock.held = false) {turn : Turn}
    {thread : Thread σ} {phase : Phase} {program : List (Instruction σ)} {byGate : Bool} :
    world.perform turn thread phase program (.take byGate)
      = { world with
          lock := world.lock.acquire
          log := world.logged byGate turn.thread .acquire }.withThread
            turn.thread ⟨phase, true, program⟩ := by
  simp [perform, HostLock.acquire?, HostLock.acquire, hfree]

theorem perform_take_held {world : World σ} (hheld : world.lock.held = true) {turn : Turn}
    {thread : Thread σ} {phase : Phase} {program : List (Instruction σ)} {byGate : Bool} :
    world.perform turn thread phase program (.take byGate)
      = { world with sleepers := world.sleepers ++ [turn.thread] } := by
  simp [perform, HostLock.acquire?, hheld]

/-- What gates did on the host lock, earliest first. -/
def history (world : World σ) : List (Nat × LockEvent) := world.log.reverse

end World

/-! ## Work -/

/-- The work on a session that a program comes to. -/
def workOf {σ : Type} (session : Nat) : List (Instruction σ) → List (σ → σ)
  | [] => []
  | .call other _ work :: rest =>
      if other = session then work :: workOf session rest else workOf session rest
  | _ :: rest => workOf session rest

/-- The work on a session that a thread has left.  A call that gave the host lock back is made by
the time that its thread asks for the lock again. -/
def Thread.due {σ : Type} (session : Nat) (thread : Thread σ) : List (σ → σ) :=
  match thread.program, thread.phase with
  | .call _ true _ :: rest, .waiting => workOf session rest
  | .call _ true _ :: rest, .returning => workOf session rest
  | program, _ => workOf session program

/-- The work on a session that an effect does. -/
def Effect.workOn {σ : Type} (session : Nat) : Effect σ → List (σ → σ)
  | .work other change => if other = session then [change] else []
  | _ => []

section Work

variable {σ : Type}

theorem due_ready (session : Nat) (holds : Bool) (program : List (Instruction σ)) :
    Thread.due session ⟨.ready, holds, program⟩ = workOf session program := by
  cases program with
  | nil => rfl
  | cons instruction rest =>
      cases instruction with
      | call other releasing work => cases releasing <;> rfl
      | _ => rfl

/-- A move does what is due next, or it does nothing. -/
theorem Thread.move_due {busy : Nat → Bool} {thread : Thread σ} {effect : Effect σ} {phase : Phase}
    {program : List (Instruction σ)} (session : Nat) (holds : Bool) :
    thread.move busy = some (effect, phase, program) →
      thread.due session = effect.workOn session ++ Thread.due session ⟨phase, holds, program⟩ := by
  intro h
  rcases thread with ⟨phase', holds', program'⟩
  cases program' with
  | nil => cases h
  | cons instruction rest =>
      cases instruction with
      | call other releasing work =>
          cases releasing with
          | false =>
              cases h
              rw [due_ready]
              cases phase' <;> simp only [Thread.due, workOf, Effect.workOn] <;> split <;> rfl
          | true =>
              cases phase' with
              | ready => cases h; rfl
              | calling =>
                  cases h
                  simp only [Thread.due, workOf, Effect.workOn]
                  split <;> rfl
              | waiting => cases h; rw [due_ready]; rfl
              | returning => cases h; rw [due_ready]; rfl
      | lock other =>
          cases phase' with
          | ready =>
              simp only [Thread.move] at h
              split at h
              · cases h; rfl
              · cases h; rw [due_ready, due_ready]; rfl
          | waiting =>
              simp only [Thread.move] at h
              split at h
              · cases h
              · cases h; rfl
          | calling => cases h; rw [due_ready]; rfl
          | returning => cases h; rw [due_ready]; rfl
      | _ => cases h; rw [due_ready]; rfl

namespace World

/-- The work on a session that all threads have left. -/
def due (session : Nat) (world : World σ) : List (σ → σ) :=
  world.threads.flatMap (·.due session)

/-- One thread does some of its work. -/
theorem due_set {session : Nat} {threads : List (Thread σ)} {t : Nat} {thread next : Thread σ}
    {made : List (σ → σ)} (hthread : threads[t]? = some thread) :
    thread.due session = made ++ next.due session →
      (made ++ (threads.set t next).flatMap (·.due session)).Perm
        (threads.flatMap (·.due session)) := by
  intro hdue
  induction threads generalizing t with
  | nil => simp at hthread
  | cons head threads ih =>
      cases t with
      | zero =>
          obtain rfl : head = thread := by simpa using hthread
          simp only [List.set_cons_zero, List.flatMap_cons]
          rw [hdue, List.append_assoc]
      | succ t =>
          have htail := ih (t := t) (by simpa using hthread)
          simp only [List.set_cons_succ, List.flatMap_cons]
          exact List.perm_append_comm_assoc .. |>.trans (htail.append_left _)

/-- What a move does on a session is no longer due. -/
theorem advance_work {world next : World σ} {turn : Turn} (session : Nat) :
    world.advance turn = some next → ∃ made : List (σ → σ),
      next.content session = made.foldl (fun content work => work content) (world.content session)
        ∧ (made ++ next.due session).Perm (world.due session) := by
  intro h
  rcases advance_cases h with ⟨-, thread, effect, phase, program, hthread, hmove, rfl⟩
  have hdue (holds : Bool) := due_set hthread (Thread.move_due session holds hmove)
  refine ⟨effect.workOn session, ?_⟩
  cases effect with
  | take byGate =>
      cases hlock : world.lock.held with
      | false =>
          rw [perform_take_free hlock]
          exact ⟨rfl, hdue true⟩
      | true =>
          rw [perform_take_held hlock]
          exact ⟨rfl, .rfl⟩
  | giveBack byGate => exact ⟨rfl, hdue false⟩
  | own other => exact ⟨rfl, hdue thread.holds⟩
  | disown other => exact ⟨rfl, hdue thread.holds⟩
  | work other change =>
      refine ⟨?_, hdue thread.holds⟩
      by_cases hsame : session = other
      · simp [perform, withThread, updated, Effect.workOn, hsame]
      · simp [perform, withThread, updated, Effect.workOn, hsame, Ne.symm hsame]

/-- However threads take turns, a session holds what the work that was done has made of it, and all
the work is either done, once, or still due. -/
theorem run_work (world : World σ) (turns : List Turn) (session : Nat) :
    ∃ made : List (σ → σ),
      (world.run turns).content session
          = made.foldl (fun content work => work content) (world.content session)
        ∧ (made ++ (world.run turns).due session).Perm (world.due session) := by
  induction turns generalizing world with
  | nil => exact ⟨[], rfl, .rfl⟩
  | cons turn turns ih =>
      rcases ih ((world.advance turn).getD world) with ⟨later, hcontent, hlater⟩
      cases hadvance : world.advance turn with
      | none =>
          rw [hadvance] at hcontent hlater
          exact ⟨later, by rw [run, hadvance, hcontent]; rfl, by rw [run, hadvance]; exact hlater⟩
      | some next =>
          rw [hadvance] at hcontent hlater
          rcases advance_work session hadvance with ⟨made, hnow, hmade⟩
          refine ⟨made ++ later, ?_, ?_⟩
          · rw [run, hadvance, hcontent, List.foldl_append, ← hnow]
            rfl
          · rw [run, hadvance, List.append_assoc]
            exact (hlater.append_left made).trans hmade

/-- A session that one call is due on holds what the call makes of it, or what it held before. -/
theorem run_single {world : World σ} {session : Nat} {work : σ → σ}
    (hdue : world.due session = [work]) (turns : List Turn) :
    (world.run turns).content session = world.content session
        ∧ (world.run turns).due session = [work]
      ∨ (world.run turns).content session = work (world.content session)
        ∧ (world.run turns).due session = [] := by
  rcases run_work world turns session with ⟨made, hcontent, hmade⟩
  rw [hdue] at hmade
  have hall := List.perm_singleton.mp hmade
  cases made with
  | nil => exact .inl ⟨hcontent, hall⟩
  | cons head made =>
      obtain ⟨rfl, hnone⟩ := List.cons.inj hall
      rcases List.append_eq_nil_iff.mp hnone with ⟨rfl, hnone⟩
      exact .inr ⟨hcontent, hnone⟩

end World

end Work

/-! ## Programs -/

/-- An operation on a session: lock it, make calls, unlock it. -/
def operation {σ : Type} (session : Nat) (calls : List (Bool × (σ → σ))) :
    List (Instruction σ) :=
  .lock session :: calls.map (fun (releasing, work) => .call session releasing work)
    ++ [.unlock session]

/-- Host code: take the host lock, operate on sessions, give the host lock back. -/
def visit {σ : Type} (operations : List (List (Instruction σ))) : List (Instruction σ) :=
  .enter :: operations.flatten ++ [.leave]

end Lz4Frame.Host
