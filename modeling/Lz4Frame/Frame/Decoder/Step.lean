import Lz4Frame.Frame.Header
import Lz4Frame.Frame.Input
import Lz4Frame.Frame.SizeWord
import Lz4Frame.Platform

/-!
# Reading frames, step by step

A `Decoder` stands at some place in a frame, or before one.  `Decoder.step` goes on from there with
what a piece of input offers and what room the output has.  Every stop comes with a hint: how many
bytes the decoder would like to see next, 0 exactly at the end of a frame.

Nothing that a frame says about itself is trusted: sizes, checksums and the declared length are all
held against what is there, and the first mismatch ends the frame with its error.
-/

namespace Lz4Frame

/-! ## What is known about the frame -/

/-- A frame whose header has been read. -/
structure Body where
  header : Header
  /-- The declared length less the content so far, if a length other than 0 is declared. -/
  remaining : UInt64
  /-- The checksum of the content so far, if content has one. -/
  digest : Xxh32
  /-- The content so far, if blocks may refer to it. -/
  history : Array UInt8

namespace Body

def ofHeader (header : Header) : Body where
  header
  remaining := UInt64.ofNat (header.contentSize.getD 0)
  digest := .empty
  history := #[]

/-- The length of a block's checksum field. -/
def checksumLength (body : Body) : Nat := if body.header.blockChecksum then 4 else 0

/-- Counts and digests new content. -/
def account (body : Body) (content : Bytes) : Body :=
  { body with
    remaining :=
      if body.header.contentSize.getD 0 = 0 then body.remaining
      else body.remaining - UInt64.ofNat content.length
    digest := if body.header.contentChecksum then body.digest.update content else body.digest }

/-- Takes the content of a stored block, in parts. -/
def append (body : Body) (content : Bytes) : Body :=
  let body := body.account content
  if body.header.linked then
    { body with history := content.foldl Array.push body.history }
  else
    body

/-- Takes a compressed block; gives its content. -/
def expand? [Platform] (body : Body) (block : Bytes) : Option (Body × Bytes) :=
  let ⟨header, remaining, digest, history⟩ := body
  let start := history.size
  match Block.decode (Platform.placement history block) history header.blockSize.bytes block with
  | none => none
  | some out =>
      let content := (out.extract start out.size).toList
      let body : Body := ⟨header, remaining, digest, if header.linked then out else #[]⟩
      some (body.account content, content)

end Body

/-! ## Places in a frame -/

/-- Where a decoder stands. -/
inductive Decoder
  /-- In the first seven bytes of a frame, or before them. -/
  | opening (held : Partial Header.minLength)
  /-- In a header that has further fields. -/
  | longHeader {length : Nat} (held : Partial length)
  /-- In the size word of a block. -/
  | blockSize (body : Body) (held : Partial 4)
  /-- In a stored block, `left` bytes before its end. -/
  | stored (body : Body) (sum : Xxh32) (left : Nat) (left_pos : 0 < left)
  /-- In the checksum of a stored block. -/
  | storedChecksum (body : Body) (sum : UInt32) (held : Partial 4)
  /-- In a compressed block or its checksum. -/
  | compressed (body : Body) {length : Nat} (held : Partial length)
  /-- Behind a compressed block whose content is not all handed out. -/
  | pending (body : Body) (content : Bytes) (ne_nil : content ≠ [])
  /-- In the checksum of the content. -/
  | trailer (body : Body) (held : Partial 4)
  /-- In the magic number or the size of a frame to be skipped. -/
  | skipSize (held : Partial 8)
  /-- In the contents of a frame to be skipped. -/
  | skip (size left : Nat)
  /-- Behind an error. -/
  | failed (code : ErrorCode)

namespace Decoder

/-- Before a frame. -/
def new : Decoder := .opening (.empty (by decide))

instance : Inhabited Decoder := ⟨new⟩

/-- Before a block. -/
def beforeBlock (body : Body) : Decoder := .blockSize body (.empty (by decide))

/-- Decoded content that still has to be handed out. -/
def pendingLength : Decoder → Nat
  | .pending _ content _ => content.length
  | _ => 0

/-- What a decoder would like to see when there is neither input nor room: the rest of the field
that it is in and, where the frame certainly goes on, the field behind it. -/
def idleHint : Decoder → Nat
  | .opening held => if held.bytes.isEmpty then Header.minLength else held.missing + 4
  | .longHeader held => held.missing + 4
  | .blockSize _ held => held.missing
  | .stored body _ left _ => left + body.checksumLength + 4
  | .storedChecksum _ _ _ => 1
  | .compressed body held => held.missing + body.checksumLength + 4
  | .pending _ _ _ => 4
  | .trailer _ held => held.missing
  | .skipSize held => held.missing
  | .skip _ left => left
  | .failed _ => 0

/-! ## Steps -/

/-- The outcome of a step. -/
inductive Step
  /-- There is more to do. -/
  | go (next : Decoder) (input : Input) (out : Bytes)
  /-- Input or room has run out, or the frame has ended. -/
  | stop (next : Decoder) (input : Input) (out : Bytes) (hint : Nat)
  /-- The frame is bad. -/
  | fail (code : ErrorCode)

/-- Stops for want of input or room. -/
def rest (next : Decoder) (input : Input) (out : Bytes) : Step :=
  .stop next input out next.idleHint

/-- Goes on to the next block. -/
def nextBlock (body : Body) (input : Input) (out : Bytes) : Step :=
  .go (beforeBlock body) input out

/-- Goes on behind a stored block. -/
def afterStored (body : Body) (sum : Xxh32) (input : Input) (out : Bytes) : Step :=
  if body.header.blockChecksum then
    .go (.storedChecksum body sum.digest (.empty (by decide))) input out
  else
    nextBlock body input out

/-- Goes on behind a complete header. -/
def afterHeader (bytes : Bytes) (input : Input) : Step :=
  match Header.decode bytes with
  | .error code => .fail code
  | .ok header => nextBlock (.ofHeader header) input []

/-- Goes on behind the first seven bytes. -/
def afterOpening (bytes : Array UInt8) (size_eq : bytes.size = Header.minLength) (input : Input) :
    Step :=
  match Header.opening bytes.toList with
  | .error code => .fail code
  | .ok .skippable => .go (.skipSize ⟨bytes, by rw [size_eq]; decide⟩) input []
  | .ok (.frame length) =>
      if h : bytes.size < length then .go (.longHeader ⟨bytes, h⟩) input []
      else afterHeader bytes.toList input

/-- Goes on behind the last block. -/
def afterBlocks (body : Body) (input : Input) : Step :=
  if body.remaining ≠ 0 then
    .fail .frameSizeWrong
  else if body.header.contentChecksum then
    .go (.trailer body (.empty (by decide))) input []
  else
    .stop new input [] 0

/-- Goes on behind a size word. -/
def afterBlockSize (body : Body) (number : Nat) (input : Input) (room : Nat) : Step :=
  let word := SizeWord.ofNumber number
  if number = 0 then
    afterBlocks body input
  else if body.header.blockSize.bytes < word.size then
    .fail .maxBlockSizeInvalid
  else if hsize : word.size = 0 then
    -- only a stored block can be empty: this number is not 0
    afterStored body .empty input []
  else if word.stored then
    .go (.stored body .empty word.size (by omega)) input []
  else
    let length := word.size + body.checksumLength
    let next : Decoder := .compressed body (.empty (show 0 < length by omega))
    -- where the piece ends the hint covers the whole block and the size word behind it
    if room = 0 ∨ input.rest.isEmpty then .stop next input [] (4 + length)
    else .go next input []

variable [Platform]

/-- Goes on behind a compressed block. -/
def afterCompressed (body : Body) (bytes : Bytes) (input : Input) : Step :=
  let block := bytes.take (bytes.length - body.checksumLength)
  let stored := bytes.drop (bytes.length - body.checksumLength)
  if body.header.blockChecksum ∧ stored ≠ Xxh32.field (Xxh32.of block) then
    .fail .blockChecksumInvalid
  else
    match body.expand? block with
    | none => .fail .decompressionFailed
    | some (body, content) =>
        if h : content = [] then nextBlock body input []
        else .go (.pending body content h) input []

/-- Goes on from where the decoder stands, with room for `room` bytes of content. -/
def step (decoder : Decoder) (input : Input) (room : Nat) : Step :=
  match decoder with
  | .opening held =>
      match held.fill input with
      | (.short held, input) => rest (.opening held) input []
      | (.full bytes size_eq, input) => afterOpening bytes size_eq input
  | .longHeader held =>
      match held.fill input with
      | (.short held, input) => rest (.longHeader held) input []
      | (.full bytes _, input) => afterHeader bytes.toList input
  | .blockSize body held =>
      match held.fill input with
      | (.short held, input) => rest (.blockSize body held) input []
      | (.full bytes _, input) =>
          afterBlockSize body (LittleEndian.value bytes.toList) input room
  | .stored body sum left left_pos =>
      -- stored content goes straight from the input to the output
      let (piece, input) := input.take (min left room)
      let sum := if body.header.blockChecksum then sum.update piece else sum
      let count := piece.length
      let body := body.append piece
      if h : count < left then
        rest (.stored body sum (left - count) (by omega)) input piece
      else
        afterStored body sum input piece
  | .storedChecksum body sum held =>
      match held.fill input with
      | (.short held, input) => rest (.storedChecksum body sum held) input []
      | (.full bytes _, input) =>
          if bytes.toList = Xxh32.field sum then nextBlock body input []
          else .fail .blockChecksumInvalid
  | .compressed body held =>
      match held.fill input with
      | (.short held, input) => rest (.compressed body held) input []
      | (.full bytes _, input) => afterCompressed body bytes.toList input
  | .pending body content _ =>
      let (piece, content) := content.splitAt room
      if h : content = [] then nextBlock body input piece
      else rest (.pending body content h) input piece
  | .trailer body held =>
      match held.fill input with
      | (.short held, input) => rest (.trailer body held) input []
      | (.full bytes _, input) =>
          if bytes.toList = Xxh32.field body.digest.digest then .stop new input [] 0
          else .fail .contentChecksumInvalid
  | .skipSize held =>
      match held.fill input with
      | (.short held, input) => rest (.skipSize held) input []
      | (.full bytes _, input) =>
          let size := LittleEndian.value (bytes.toList.drop 4)
          .go (.skip size size) input []
  | .skip size left =>
      let (piece, input) := input.take left
      if piece.length < left then rest (.skip size (left - piece.length)) input []
      else .stop new input [] 0
  | .failed code => .fail code

end Decoder

end Lz4Frame
