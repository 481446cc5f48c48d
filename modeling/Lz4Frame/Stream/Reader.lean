import Lz4Frame.Decompressor
import Lz4Frame.Stream.Source

/-!
# Reading a frame from a source

A `Reader` reads one frame and not a byte more: it first asks for as many bytes as the shortest
header has, and then for exactly what the decoder would like to see next.  Content comes in chunks;
they are short until the header is known, and as long as the frame's blocks afterwards.
-/

namespace Lz4Frame

/-- A source, and the frame being read from it. -/
structure Reader where
  source : Source
  decompressor : Decompressor
  /-- What the header said, once it is known. -/
  info : Option FrameInfo := none
  chunkLength : Nat
  /-- How many bytes to ask for next. -/
  wanted : Nat
  /-- Chunks that were not given yet. -/
  pending : List Bytes := []
  /-- Whether the frame has ended, or reading it has failed. -/
  done : Bool := false

namespace Reader

/-- The length of chunks as long as the header is not known. -/
def firstChunkLength : Nat := 32

def new (gate : Gate) (source : Source) : Reader where
  source
  decompressor := .new gate
  chunkLength := firstChunkLength
  wanted := Header.minLength

variable [Platform]

/-- Reads what is wanted next and decodes it. -/
def step (reader : Reader) : Reader × Traced (Except IoError Unit) :=
  let ⟨source, decompressor, info, chunkLength, wanted, pending, done⟩ := reader
  match source.fill wanted #[] with
  | (source, .error cause) =>
      (⟨source, decompressor, info, chunkLength, wanted, pending, done⟩, ⟨.error cause, []⟩)
  | (source, .ok input) =>
      if input.isEmpty then
        (⟨source, decompressor, info, chunkLength, wanted, pending, done⟩,
          ⟨.error (.codec .incompleteFrame), []⟩)
      else
        match decompressor.update input.toList chunkLength with
        | (decompressor, ⟨.error cause, events⟩) =>
            (⟨source, decompressor, info, chunkLength, wanted, pending, done⟩,
              ⟨.error (.codec cause), events⟩)
        | (decompressor, ⟨.ok decoded, events⟩) =>
            let pending := pending ++ decoded.chunks
            let done := done || decoded.isFrameComplete
            let wanted := if decoded.isFrameComplete then wanted else decoded.hint
            -- once the header is known, chunks are as long as the frame's blocks
            match info with
            | some _ =>
                (⟨source, decompressor, info, chunkLength, wanted, pending, done⟩,
                  ⟨.ok (), events⟩)
            | none =>
                match decompressor.frameInfo with
                | (decompressor, ⟨.error _, asked⟩) =>
                    (⟨source, decompressor, none, chunkLength, wanted, pending, done⟩,
                      ⟨.ok (), events ++ asked⟩)
                | (decompressor, ⟨.ok info, asked⟩) =>
                    (⟨source, decompressor, some info, info.blockSize.bytes, wanted, pending, done⟩,
                      ⟨.ok (), events ++ asked⟩)

/-- A step that succeeds has read at least one byte. -/
theorem step_ok {reader next : Reader} {events : List LockEvent}
    (h : reader.step = (next, ⟨.ok (), events⟩)) :
    next.source.rest.length < reader.source.rest.length := by
  unfold step at h
  simp only at h
  split at h
  · simp at h
  · rename_i source input hfill
    have hsum := Source.fill_ok hfill
    split at h
    · simp at h
    · rename_i hempty
      have hpos : 0 < input.size := by
        simpa [Array.isEmpty_iff, Nat.pos_iff_ne_zero] using hempty
      have hlt : source.rest.length < reader.source.rest.length := by
        simp only [List.size_toArray, List.length_nil] at hsum
        omega
      split at h
      · simp at h
      · repeat' split at h
        all_goals
          simp only [Prod.mk.injEq] at h
          rw [← h.1]
          exact hlt

/-- Gives the next chunk, or nothing behind the end of the frame.  A failure ends the reading. -/
def next (reader : Reader) (events : List LockEvent) :
    Reader × Traced (Option (Except IoError Bytes)) :=
  match reader.pending with
  | chunk :: pending => ({ reader with pending }, ⟨some (.ok chunk), events⟩)
  | [] =>
      if reader.done then
        (reader, ⟨none, events⟩)
      else
        match hstep : reader.step with
        | (reader, ⟨.error cause, more⟩) =>
            ({ reader with done := true }, ⟨some (.error cause), events ++ more⟩)
        | (reader, ⟨.ok (), more⟩) =>
            have := step_ok hstep
            next reader (events ++ more)
termination_by reader.source.rest.length

/-- Gives the rest of the frame in one piece.  What was decoded before a failure is lost. -/
def readAll (reader : Reader) (content : Array UInt8) (events : List LockEvent) :
    Reader × Traced (Except IoError Bytes) :=
  let content := reader.pending.foldl (fun content chunk => content ++ chunk) content
  if reader.done then
    ({ reader with pending := [] }, ⟨.ok content.toList, events⟩)
  else
    match hstep : step { reader with pending := [] } with
    | (reader, ⟨.error cause, more⟩) =>
        ({ reader with done := true }, ⟨.error cause, events ++ more⟩)
    | (reader, ⟨.ok (), more⟩) =>
        have := step_ok hstep
        readAll reader content (events ++ more)
termination_by reader.source.rest.length

end Reader

end Lz4Frame
