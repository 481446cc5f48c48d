import Lz4Frame.Stream.Sink

/-!
# Devices that give bytes

A `Source` gives the bytes it holds, in pieces as large as asked for or smaller.  Like a sink it
answers by a schedule as long as that lasts.  `Source.fill` asks until it has what it wants, or is
given nothing.
-/

namespace Lz4Frame

/-- A call that a source has seen. -/
inductive SourceCall
  | read (asked given : Nat)
  | readFailed (asked : Nat) (kind : IoKind)
  deriving DecidableEq, Repr

/-- A device that gives bytes. -/
structure Source where
  /-- What it has not given yet. -/
  rest : Bytes
  /-- How much it has given. -/
  position : Nat := 0
  reads : List Answer := []
  /-- The calls it has seen, oldest first. -/
  calls : Array SourceCall := #[]

namespace Source

/-- Gives up to `limit` of the bytes asked for. -/
def give (source : Source) (asked limit : Nat) : Source × Bytes :=
  let (piece, rest) := source.rest.splitAt (min asked limit)
  let given := piece.length
  ({ source with
      rest
      position := source.position + given
      calls := source.calls.push (.read asked given) },
    piece)

/-- Asks for bytes once. -/
def read (source : Source) (asked : Nat) : Source × Except IoError Bytes :=
  match source.reads with
  | .fail kind text :: reads =>
      ({ source with reads, calls := source.calls.push (.readFailed asked kind) },
        .error (.device kind text))
  | .limit count :: reads =>
      let (source, piece) := { source with reads }.give asked count
      (source, .ok piece)
  | [] =>
      let (source, piece) := source.give asked asked
      (source, .ok piece)

theorem give_length (source : Source) (asked limit : Nat) :
    (source.give asked limit).2.length + (source.give asked limit).1.rest.length
      = source.rest.length := by
  simp only [give, List.splitAt_eq, List.length_take, List.length_drop]
  omega

theorem read_error {source next : Source} {asked : Nat} {cause : IoError}
    (h : source.read asked = (next, .error cause)) :
    next.reads.length < source.reads.length ∧ next.rest = source.rest := by
  unfold read at h
  split at h
  · rename_i hreads
    simp only [Prod.mk.injEq] at h
    simp [← h.1, hreads]
  · simp at h
  · simp at h

theorem read_ok {source next : Source} {asked : Nat} {piece : Bytes}
    (h : source.read asked = (next, .ok piece)) :
    next.reads.length ≤ source.reads.length
      ∧ piece.length + next.rest.length = source.rest.length := by
  unfold read at h
  split at h
  · simp at h
  · rename_i count reads hreads
    simp only [Prod.mk.injEq, Except.ok.injEq] at h
    refine ⟨?_, ?_⟩
    · simp [← h.1, hreads, give]
    · rw [← h.1, ← h.2]
      exact give_length _ _ _
  · rename_i hreads
    simp only [Prod.mk.injEq, Except.ok.injEq] at h
    refine ⟨?_, ?_⟩
    · simp [← h.1, hreads, give]
    · rw [← h.1, ← h.2]
      exact give_length _ _ _

/-- Asks for `wanted` more bytes until they are there or none come.  An interruption counts for
nothing; after another failure the bytes that were read are lost. -/
def fill (source : Source) (wanted : Nat) (got : Array UInt8) :
    Source × Except IoError (Array UInt8) :=
  if wanted = 0 then
    (source, .ok got)
  else
    match hread : source.read wanted with
    | (next, .error cause) =>
        have := (read_error hread).1
        if cause.kind = .interrupted then fill next wanted got else (next, .error cause)
    | (next, .ok piece) =>
        if hpiece : piece = [] then
          (next, .ok got)
        else
          -- the answers in store do not get more, and fewer bytes are wanted
          have := (read_ok hread).1
          have := List.length_pos_iff.mpr hpiece
          fill next (wanted - piece.length) (piece.foldl Array.push got)
termination_by source.reads.length + wanted

/-- Filling takes from the source what it gives. -/
theorem fill_ok {source next : Source} {wanted : Nat} {got out : Array UInt8}
    (h : source.fill wanted got = (next, .ok out)) :
    out.size + next.rest.length = got.size + source.rest.length := by
  fun_induction fill source wanted got with
  | case1 =>
      simp only [Prod.mk.injEq, Except.ok.injEq] at h
      rw [← h.1, ← h.2]
  | case2 source wanted got hwanted next' cause hread _ hkind ih =>
      rw [ih h, (read_error hread).2]
  | case3 => simp at h
  | case4 source wanted got hwanted next' hread =>
      simp only [Prod.mk.injEq, Except.ok.injEq] at h
      have := (read_ok hread).2
      simp only [List.length_nil] at this
      rw [← h.1, ← h.2]
      omega
  | case5 source wanted got hwanted next' piece hread hpiece _ _ ih =>
      have hsize : (piece.foldl Array.push got).size = got.size + piece.length := by
        simp
      have := (read_ok hread).2
      rw [ih h, hsize]
      omega

end Source

end Lz4Frame
