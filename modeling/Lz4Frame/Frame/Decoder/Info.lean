import Lz4Frame.Frame.Decoder.Run

/-!
# What a decoder knows about its frame

From the end of its header to the end of a frame the decoder can tell what the header said.  A
decoder before a frame may be given the header to read; behind the header, asking runs the decoder
without input and without room, for the hint (`Decoder.frameInfo`).
-/

namespace Lz4Frame

/-- What a caller may know about the frame. -/
structure FrameInfo where
  /-- Bytes that the decoder would like to see next. -/
  hint : Nat
  /-- The declared length, 0 if there is none. -/
  declared : Nat
  blockSize : BlockSize
  linked : Bool
  contentChecksum : Bool
  blockChecksum : Bool
  deriving DecidableEq, Repr

namespace Decoder

/-- What a decoder inside a frame knows about it. -/
def infoWith (hint : Nat) (header : Header) : FrameInfo where
  hint
  declared := header.contentSize.getD 0
  blockSize := header.blockSize
  linked := header.linked
  contentChecksum := header.contentChecksum
  blockChecksum := header.blockChecksum

/-- What is known about a frame to be skipped. -/
def skippedInfo (hint size : Nat) : FrameInfo where
  hint
  declared := size
  blockSize := .unspecified
  linked := true
  contentChecksum := false
  blockChecksum := false

/-- What is known about the frame that the decoder is in, and a hint at what should come next. -/
def info? (decoder : Decoder) (hint : Nat) : Except ErrorCode FrameInfo :=
  match decoder with
  | .opening held =>
      .error (if held.bytes.isEmpty then .frameHeaderIncomplete else .frameDecodingAlreadyStarted)
  | .longHeader _ => .error .frameDecodingAlreadyStarted
  | .blockSize body _ => .ok (infoWith hint body.header)
  | .stored body _ _ _ => .ok (infoWith hint body.header)
  | .storedChecksum body _ _ => .ok (infoWith hint body.header)
  | .compressed body _ => .ok (infoWith hint body.header)
  | .pending body _ _ => .ok (infoWith hint body.header)
  | .trailer body _ => .ok (infoWith hint body.header)
  | .skipSize _ => .ok (skippedInfo hint 0)
  | .skip size _ => .ok (skippedInfo hint size)
  | .failed code => .error code

/-- The hint of a decoder that has just read a header. -/
def freshHint : Nat := 4

/-- Reads a header, which has to be complete; gives the place behind it, its information and its
length. -/
def readHeader (input : Bytes) : Except ErrorCode (Decoder × FrameInfo × Nat) :=
  if !hasAtLeast input 5 then
    .error .frameHeaderIncomplete
  else if Header.isSkippableMagic (Header.magicOf input) then
    if !hasAtLeast input 8 then
      .error .frameHeaderIncomplete
    else
      let held : Partial 8 :=
        ⟨(input.take 4).toArray, by rw [List.size_toArray, List.length_take]; omega⟩
      .ok (.skipSize held, skippedInfo freshHint 0, 4)
  else if Header.magicOf input ≠ Header.magic then
    .error .frameTypeUnknown
  else
    let length := Header.lengthFor (Header.flagsOf input)
    if !hasAtLeast input length then
      .error .frameHeaderIncomplete
    else do
      let bytes := input.take length
      -- the magic number is known by now, but the flags may still be refused
      let _ ← Header.opening bytes
      let header ← Header.decode bytes
      .ok (beforeBlock (.ofHeader header), infoWith freshHint header, length)

variable [Platform]

/-- What is known about the frame, where a decoder before a frame first reads the header from the
input; with how many bytes it read.  Behind the header the decoder runs on with nothing to read and
nowhere to write, and the hint is where that leads. -/
def frameInfo (decoder : Decoder) (input : Bytes) :
    Decoder × Except ErrorCode (FrameInfo × Nat) :=
  match decoder with
  | .opening held =>
      if held.bytes.isEmpty then
        match readHeader input with
        | .ok (next, info, length) => (next, .ok (info, length))
        | .error code => (decoder, .error code)
      else
        (decoder, .error .frameDecodingAlreadyStarted)
  | .longHeader _ => (decoder, .error .frameDecodingAlreadyStarted)
  | _ =>
      match decoder.run [] 0 with
      | (next, .error code) => (next, .error code)
      | (next, .ok progress) => (next, (decoder.info? progress.hint).map (·, 0))

end Decoder

end Lz4Frame
