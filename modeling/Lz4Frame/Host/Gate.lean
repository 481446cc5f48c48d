/-!
# The gate to the host lock

A host may want one lock to be held whenever its own code runs.  Work on much data should not keep
that lock, so it is done through a `Gate`: at or above a threshold the gate gives the lock back for
the time of one call and takes it again afterwards, whatever the call comes to.

Work done through a gate leaves a trace of what happened on the lock (`Traced`); a call that is made
without asking a gate stands in it too.
-/

namespace Lz4Frame

/-- What happens on the host lock, as one thread sees it. -/
inductive LockEvent
  | release
  | acquire
  /-- A call of the encoder or decoder; with the amount of data that a gate was asked about, if one
  was asked. -/
  | call (amount : Option Nat)
  deriving DecidableEq, Repr

/-- A result, and what happened on the host lock until it was there. -/
structure Traced (α : Type) where
  value : α
  events : List LockEvent := []

/-- A call that is made with the host lock in hand. -/
def Traced.ofCall {α : Type} (value : α) : Traced α := ⟨value, [.call none]⟩

/-- Whether there is a lock to give back. -/
inductive HostKind
  /-- Threads run freely. -/
  | native
  /-- One lock for all. -/
  | locked
  deriving DecidableEq, Repr

/-- Decides call by call whether the host lock is kept. -/
structure Gate where
  host : HostKind
  threshold : Nat
  deriving DecidableEq, Repr

namespace Gate

/-- The amount of data from which on the lock is given back, unless another is chosen. -/
def defaultThreshold : Nat := 8192

def native : Gate := ⟨.native, defaultThreshold⟩

def locked : Gate := ⟨.locked, defaultThreshold⟩

/-- Whether a call on `amount` bytes runs without the lock. -/
def releasesFor (gate : Gate) (amount : Nat) : Bool := gate.threshold ≤ amount

/-- What happens on the lock around a call. -/
def around (gate : Gate) (amount : Nat) : List LockEvent :=
  match gate.host with
  | .native => [.call (some amount)]
  | .locked =>
      if gate.releasesFor amount then [.release, .call (some amount), .acquire]
      else [.call (some amount)]

/-- Makes a call through the gate. -/
def run {α : Type} (gate : Gate) (amount : Nat) (call : Unit → α) : Traced α :=
  ⟨call (), gate.around amount⟩

/-! ### Work that may panic -/

/-- What a panic carries along. -/
structure Panic where
  message : String
  deriving DecidableEq, Repr

/-- Work that tells what happens on the lock as it goes on, and that may panic. -/
abbrev Work (α : Type) := ExceptT Panic (StateM (List LockEvent)) α

namespace Work

/-- Tells of an event. -/
def note (event : LockEvent) : Work Unit := modify (· ++ [event])

/-- A call of the encoder or decoder on `amount` bytes. -/
def engine {α : Type} (amount : Nat) (call : Unit → Except Panic α) : Work α := do
  note (.call (some amount))
  call ()

end Work

/-- Does work behind the gate.  A lock that was given back is taken again as soon as the work is
left, by a panic as well. -/
def guarded {α : Type} (gate : Gate) (amount : Nat) (work : Work α) : Work α :=
  match gate.host with
  | .native => work
  | .locked =>
      if gate.releasesFor amount then do
        Work.note .release
        try work finally Work.note .acquire
      else
        work

/-- A call that panics leaves the lock as one that comes to a value. -/
theorem guarded_engine {α : Type} (gate : Gate) (amount : Nat) (call : Unit → Except Panic α)
    (log : List LockEvent) :
    (gate.guarded amount (Work.engine amount call)).run log
      = (call (), log ++ gate.around amount) := by
  rcases gate with ⟨host, threshold⟩
  have hengine : (Work.engine amount call).run log = (call (), log ++ [.call (some amount)]) := by
    cases hcall : call () <;> simp only [Work.engine, hcall] <;> rfl
  cases host with
  | native => exact hengine
  | locked =>
      by_cases hreleases : releasesFor ⟨.locked, threshold⟩ amount = true
      · simp only [guarded, around, hreleases, ↓reduceIte]
        -- the lock is taken again on both ways out
        calc
          _ = (call (), log ++ [.release] ++ [.call (some amount)] ++ [.acquire]) := by
            cases hcall : call () <;> simp only [Work.engine, hcall] <;> rfl
          _ = (call (), log ++ [.release, .call (some amount), .acquire]) := by
            simp only [List.append_assoc, List.cons_append, List.nil_append]
      · simp only [guarded, around, hreleases, Bool.false_eq_true, ↓reduceIte]
        exact hengine

/-- Making a call is doing work that does not panic. -/
theorem guarded_run {α : Type} (gate : Gate) (amount : Nat) (call : Unit → α)
    (log : List LockEvent) :
    (gate.guarded amount (Work.engine amount fun _ => .ok (call ()))).run log
      = (.ok (gate.run amount call).value, log ++ (gate.run amount call).events) :=
  gate.guarded_engine amount _ log

/-- How a gate shows itself. -/
def describe (gate : Gate) : String :=
  "ConcurrencyGate \x7b threshold: " ++ toString gate.threshold ++ ", .. \x7d"

end Gate

/-! ## The gate of a whole program -/

/-- The gate that is used where none is named; it can be set once. -/
structure GateRegistry where
  installed : Option Gate := none

namespace GateRegistry

def current (registry : GateRegistry) : Gate := registry.installed.getD .native

/-- Sets the gate, or hands it back if one is set already. -/
def install (registry : GateRegistry) (gate : Gate) : GateRegistry × Option Gate :=
  match registry.installed with
  | none => (⟨some gate⟩, none)
  | some _ => (registry, some gate)

end GateRegistry

end Lz4Frame
