import Lz4Frame.Bytes
import Lz4Frame.Error

/-!
# Devices that take bytes

A `Sink` takes what is written to it, but not always all of it and not always at once.  How it
will answer is laid down in its schedules, one answer for each call; when they run out it takes
everything.  `Sink.writeAll` writes until everything is taken, and tries again after an
interruption.
-/

namespace Lz4Frame

/-- The answer that a device has in store for a call. -/
inductive Answer
  /-- It moves this many bytes at most. -/
  | limit (count : Nat)
  /-- It fails. -/
  | fail (kind : IoKind) (text : String)
  deriving DecidableEq, Repr

/-- A call that a sink has seen. -/
inductive SinkCall
  | write (offered accepted : Nat)
  | writeFailed (offered : Nat) (kind : IoKind)
  | flush
  | flushFailed (kind : IoKind)
  deriving DecidableEq, Repr

/-- A device that takes bytes. -/
structure Sink where
  /-- What it has taken. -/
  content : Array UInt8 := #[]
  writes : List Answer := []
  flushes : List Answer := []
  /-- The calls it has seen, oldest first. -/
  calls : Array SinkCall := #[]

namespace Sink

/-- Offers bytes; gives the number that was taken. -/
def write (sink : Sink) (bytes : Bytes) : Sink × Except IoError Nat :=
  let offered := bytes.length
  match sink.writes with
  | .fail kind text :: writes =>
      ({ sink with writes, calls := sink.calls.push (.writeFailed offered kind) },
        .error (.device kind text))
  | .limit count :: writes =>
      let accepted := min count offered
      ({ sink with
          writes
          content := (bytes.take accepted).foldl Array.push sink.content
          calls := sink.calls.push (.write offered accepted) },
        .ok accepted)
  | [] =>
      ({ sink with
          content := bytes.foldl Array.push sink.content
          calls := sink.calls.push (.write offered offered) },
        .ok offered)

/-- Asks for what was taken to be passed on. -/
def flush (sink : Sink) : Sink × Except IoError Unit :=
  match sink.flushes with
  | .fail kind text :: flushes =>
      ({ sink with flushes, calls := sink.calls.push (.flushFailed kind) },
        .error (.device kind text))
  | .limit _ :: flushes =>
      ({ sink with flushes, calls := sink.calls.push .flush }, .ok ())
  | [] => ({ sink with calls := sink.calls.push .flush }, .ok ())

theorem write_error {sink next : Sink} {bytes : Bytes} {cause : IoError}
    (h : sink.write bytes = (next, .error cause)) : next.writes.length < sink.writes.length := by
  unfold write at h
  simp only at h
  split at h
  · rename_i hwrites
    simp only [Prod.mk.injEq] at h
    simp [← h.1, hwrites]
  · simp at h
  · simp at h

theorem write_ok {sink next : Sink} {bytes : Bytes} {count : Nat}
    (h : sink.write bytes = (next, .ok count)) : next.writes.length ≤ sink.writes.length := by
  unfold write at h
  simp only at h
  split at h
  · simp at h
  · rename_i hwrites
    simp only [Prod.mk.injEq] at h
    simp [← h.1, hwrites]
  · rename_i hwrites
    simp only [Prod.mk.injEq] at h
    simp [← h.1, hwrites]

/-- Offers bytes until all are taken.  An interruption counts for nothing; a sink that takes no
bytes at all has failed. -/
def writeAll (sink : Sink) (bytes : Bytes) : Sink × Except IoError Unit :=
  if hbytes : bytes = [] then
    (sink, .ok ())
  else
    match hwrite : sink.write bytes with
    | (next, .error cause) =>
        have := write_error hwrite
        if cause.kind = .interrupted then writeAll next bytes else (next, .error cause)
    | (next, .ok count) =>
        if hcount : count = 0 then
          (next, .error .writeZero)
        else
          -- the answers in store do not get more, and the bytes get fewer
          have := write_ok hwrite
          have : (bytes.drop count).length < bytes.length := by
            rw [List.length_drop]
            exact Nat.sub_lt (List.length_pos_iff.mpr hbytes) (Nat.pos_of_ne_zero hcount)
          writeAll next (bytes.drop count)
termination_by sink.writes.length + bytes.length

end Sink

end Lz4Frame
