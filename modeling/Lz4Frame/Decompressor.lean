import Lz4Frame.Frame.Decoder.Info
import Lz4Frame.Host.Gate

/-!
# Decompressing frame after frame

A `Decompressor` takes frames in pieces, cut anywhere, and gives their content in chunks of a length
that the caller chooses.  It stops at the end of a frame; the next piece starts the next frame.
After an error it has to be reset.
-/

namespace Lz4Frame

/-- What a piece of a frame came to. -/
structure Decoded where
  /-- The content, in chunks that are all full but the last. -/
  chunks : List Bytes
  /-- Bytes that should come next, 0 at the end of a frame. -/
  hint : Nat
  /-- Bytes of the piece that were used. -/
  consumed : Nat

namespace Decoded

def isFrameComplete (decoded : Decoded) : Bool := decoded.hint = 0

/-- The content in one piece. -/
def content (decoded : Decoded) : Bytes := decoded.chunks.flatten

/-- The length of the content. -/
def length (decoded : Decoded) : Nat :=
  decoded.chunks.foldl (fun sum chunk => sum + chunk.length) 0

end Decoded

/-- A decoder and the gate that it works through. -/
structure Decompressor where
  gate : Gate
  decoder : Decoder := .new

namespace Decompressor

/-- The length of chunks, unless another is chosen. -/
def defaultChunkLength : Nat := 65536

/-- What feeding a decoder has come to so far. -/
structure Feed where
  decoder : Decoder
  /-- The content, and what the decoder asked for last and used in all; or why feeding failed. -/
  result : Except Error (Array UInt8 × Nat × Nat)
  events : Array LockEvent

variable [Platform]

/-- Asks for another chunk if all that there are, with `size` bytes in them, are full. -/
def nextChunk (chunkLength size : Nat) : Except Error Unit :=
  if size ≠ 0 ∧ size % chunkLength = 0 then allocate chunkLength else .ok ()

/-- Chunks of a size that is granted can be had one after another. -/
theorem nextChunk_of_grants {chunkLength : Nat} (h : Platform.grants chunkLength = true)
    (size : Nat) : nextChunk chunkLength size = .ok () := by
  unfold nextChunk
  split
  · exact allocate_of_grants h
  · rfl

/-- Feeds a decoder until the piece is used up or the frame has ended.  Each run may fill the chunk
that is not full yet, or the next one if it is. -/
def feed (gate : Gate) (chunkLength : Nat) (hchunk : 0 < chunkLength) (decoder : Decoder)
    (piece : Bytes) (out : Array UInt8) (hint consumed : Nat) (events : Array LockEvent) : Feed :=
  if hpiece : piece = [] then
    ⟨decoder, .ok (out, hint, consumed), events⟩
  else
    match nextChunk chunkLength out.size with
    | .error cause => ⟨decoder, .error cause, events⟩
    | .ok () =>
        -- a full chunk leaves the whole of the next one
        let room := chunkLength - out.size % chunkLength
        let events := events ++ gate.around room
        match hrun : decoder.run piece room with
        | (next, .error code) => ⟨next, .error (.frame code), events⟩
        | (next, .ok progress) =>
            let grown := out ++ progress.written
            let used := consumed + progress.consumed
            if hhint : progress.hint = 0 then
              ⟨next, .ok (grown, 0, used), events⟩
            else
              have hroom : 0 < room := Nat.sub_pos_of_lt (Nat.mod_lt out.size hchunk)
              have := ((Decoder.run_ahead hrun hpiece hroom).resolve_left hhint).lex
              feed gate chunkLength hchunk next progress.rest grown progress.hint used events
termination_by (piece.length, decoder.pendingLength)
decreasing_by assumption

def new (gate : Gate) : Decompressor := { gate }

/-- Takes a piece of a frame; gives content in chunks of `chunkLength` bytes. -/
def update (decompressor : Decompressor) (piece : Bytes) (chunkLength : Nat) :
    Decompressor × Traced (Except Error Decoded) :=
  if piece.isEmpty then
    (decompressor, ⟨.error .emptyInput, []⟩)
  else if hchunk : chunkLength = 0 then
    (decompressor, ⟨.error (.invalid .chunkLength chunkLength), []⟩)
  else
    match allocate chunkLength with
    | .error cause => (decompressor, ⟨.error cause, []⟩)
    | .ok () =>
        let ⟨gate, decoder⟩ := decompressor
        match feed gate chunkLength (Nat.pos_of_ne_zero hchunk) decoder piece #[] 1 0 #[] with
        | ⟨decoder, .error cause, events⟩ => (⟨gate, decoder⟩, ⟨.error cause, events.toList⟩)
        | ⟨decoder, .ok (out, hint, consumed), events⟩ =>
            (⟨gate, decoder⟩,
              ⟨.ok ⟨chunksOf chunkLength out.toList, hint, consumed⟩, events.toList⟩)

/-- What is known about the frame; the header has to be complete. -/
def frameInfo (decompressor : Decompressor) :
    Decompressor × Traced (Except Error FrameInfo) :=
  match decompressor.decoder.frameInfo [] with
  | (decoder, result) =>
      ({ decompressor with decoder }, .ofCall ((result.map Prod.fst).mapError .frame))

/-- Forgets the frame; the next piece has to start one. -/
def reset (decompressor : Decompressor) : Decompressor × Traced Unit :=
  ({ decompressor with decoder := .new }, .ofCall ())

end Decompressor

end Lz4Frame
