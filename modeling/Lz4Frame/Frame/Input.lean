import Lz4Frame.Bytes

/-!
# Input that is read in fields

A frame arrives in pieces, cut anywhere.  An `Input` is one piece, read from the front with a count
of what was read.  A `Partial` is the beginning of a field that a piece may have ended in; `fill`
goes on with it and says whether the field is complete.

A field that was incomplete becomes complete by at least one byte (`Partial.fill_full`), which is
why reading a frame ends.
-/

namespace Lz4Frame

/-- A piece of input: what is left of it, and how much was read. -/
structure Input where
  rest : Bytes
  used : Nat

namespace Input

/-- Reads up to `n` bytes. -/
def take (input : Input) (n : Nat) : Bytes × Input :=
  let (piece, rest) := input.rest.splitAt n
  (piece, ⟨rest, input.used + piece.length⟩)

theorem take_fst (input : Input) (n : Nat) : (input.take n).1 = input.rest.take n := by
  simp [take, List.splitAt_eq]

theorem take_snd_rest (input : Input) (n : Nat) : (input.take n).2.rest = input.rest.drop n := by
  simp [take, List.splitAt_eq]

theorem length_take (input : Input) (n : Nat) :
    (input.take n).1.length = min n input.rest.length := by
  rw [take_fst, List.length_take]

theorem length_take_rest (input : Input) (n : Nat) :
    (input.take n).2.rest.length = input.rest.length - n := by
  rw [take_snd_rest, List.length_drop]

end Input

/-- The beginning of a field of `n` bytes, short of at least one. -/
structure Partial (n : Nat) where
  bytes : Array UInt8
  size_lt : bytes.size < n

/-- A field after an attempt to complete it. -/
inductive Filled (n : Nat)
  | short (held : Partial n)
  | full (bytes : Array UInt8) (size_eq : bytes.size = n)

namespace Partial

/-- Nothing of a field yet. -/
def empty {n : Nat} (h : 0 < n) : Partial n := ⟨#[], h⟩

/-- How many bytes the field is short of. -/
def missing {n : Nat} (held : Partial n) : Nat := n - held.bytes.size

/-- `fill`, byte by byte. -/
def fillFrom {n : Nat} (bytes : Array UInt8) (h : bytes.size < n) :
    (rest : Bytes) → (used : Nat) → Filled n × Input
  | [], used => (.short ⟨bytes, h⟩, ⟨[], used⟩)
  | b :: rest, used =>
      if h' : bytes.size + 1 < n then
        fillFrom (bytes.push b) (by simpa using h') rest (used + 1)
      else
        (.full (bytes.push b) (by simp; omega), ⟨rest, used + 1⟩)

/-- Goes on with a field, as far as the input lasts. -/
def fill {n : Nat} (held : Partial n) (input : Input) : Filled n × Input :=
  fillFrom held.bytes held.size_lt input.rest input.used

theorem fillFrom_full {n : Nat} {bytes : Array UInt8} {h : bytes.size < n} {rest : Bytes}
    {used : Nat} {full : Array UInt8} {hfull : full.size = n} {input' : Input}
    (heq : fillFrom bytes h rest used = (.full full hfull, input')) :
    input'.rest.length < rest.length := by
  induction rest generalizing bytes used with
  | nil => simp [fillFrom] at heq
  | cons b rest ih =>
      unfold fillFrom at heq
      split at heq
      · -- still short after this byte: the rest of the input completes the field
        have := ih heq
        simp only [List.length_cons]
        omega
      · simp only [Prod.mk.injEq] at heq
        simp [← heq.2]

theorem fillFrom_short {n : Nat} {bytes : Array UInt8} {h : bytes.size < n} {rest : Bytes}
    {used : Nat} {held' : Partial n} {input' : Input}
    (heq : fillFrom bytes h rest used = (.short held', input')) : input'.rest = [] := by
  induction rest generalizing bytes used with
  | nil =>
      simp only [fillFrom, Prod.mk.injEq] at heq
      simp [← heq.2]
  | cons b rest ih =>
      unfold fillFrom at heq
      split at heq
      · exact ih heq
      · simp at heq

/-- Completing a field takes at least one byte. -/
theorem fill_full {n : Nat} {held : Partial n} {input input' : Input} {full : Array UInt8}
    {hfull : full.size = n} (heq : held.fill input = (.full full hfull, input')) :
    input'.rest.length < input.rest.length :=
  fillFrom_full heq

/-- A field stays incomplete only where the input ends. -/
theorem fill_short {n : Nat} {held held' : Partial n} {input input' : Input}
    (heq : held.fill input = (.short held', input')) : input'.rest = [] :=
  fillFrom_short heq

end Partial

end Lz4Frame
