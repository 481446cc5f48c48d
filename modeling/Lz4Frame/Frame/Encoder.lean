import Lz4Frame.Bound
import Lz4Frame.Frame.SizeWord
import Lz4Frame.Platform

/-!
# Writing frames

An `Encoder` writes one frame after another: `start` gives the header, `update` takes content,
`flush` turns what waits into a block, and `finish` closes the frame.  Each call names the room that
its output has.  A call without the room that the worst case takes is refused, and a refusal for
want of room leaves the encoder as it was, with one exception: `finish` is a flush and a trailer,
and when only the trailer does not fit, the flushed block is gone.

The worst case is a sum of words, which wraps around for lengths that only 64 bits can tell.  Then
an update is granted in less room than it takes and writes past its room (`Overrun`).  What stands
there is not the encoder's, so nothing is known of a program in which that happens; the definitions
say what it would do if the memory behind the room were its own.

Content is cut into blocks of the frame's block size; without autoflush the remainder waits for
the next call.  In a linked frame blocks refer to the content before them, as long as the two are
*joined*: content that waited lies right behind the content before it, while the first block that is
taken from a new input lies elsewhere.  From there on the earlier content is out of sight.
-/

namespace Lz4Frame

open Block

variable [Platform]

/-! ## Blocks in a frame -/

/-- A block in a frame: its size word, its payload and, if blocks have one, the payload's
checksum. -/
def Block.Payload.encode (payload : Payload) (withChecksum : Bool) : Bytes :=
  let (isStored, bytes) : Bool × Bytes :=
    match payload with
    | .stored bytes => (true, bytes)
    | .compressed bytes => (false, bytes)
  SizeWord.encode ⟨isStored, bytes.length⟩
    ++ bytes ++ (if withChecksum then Xxh32.field (Xxh32.of bytes) else [])

/-! ## Payloads by search -/

/-- The search in use, with what it remembers. -/
inductive Searcher
  | fast (table : Table)
  | long
  deriving Inhabited

/-- The payload of a block that stands for itself. -/
def Searcher.independent (searcher : Searcher) (prefs : Preferences) (block : Bytes) :
    Searcher × Payload :=
  let bytes := block.toArray
  match searcher with
  | .fast table =>
      let width : SlotWidth := if bytes.size < Table.narrowLimit then .narrow else .wide
      let ⟨_, slots, next, removed⟩ := table.prepare bytes.size width
      let field : Field := {
        bytes, start := 0, base := next, width
        bounded := width = .narrow ∧ next ≠ 0
        floor := next, joined := true, acceleration := Level.acceleration prefs.level }
      let ⟨slots, plan⟩ := field.search slots
      (.fast ⟨some width, slots, next + bytes.size, removed⟩, .ofPlan bytes 0 block plan)
  | .long =>
      let field : Field := {
        bytes, start := 0, base := 0, width := .wide, bounded := false, floor := 0, joined := true
        acceleration := 1 }
      (.long, .ofPlan bytes 0 block (Platform.findLong field prefs.level))

/-- The payload of a block that may refer to `history`; returns history and block together. -/
def Searcher.linked (searcher : Searcher) (prefs : Preferences) (history : Array UInt8)
    (joined : Bool) (block : Bytes) : Searcher × Payload × Array UInt8 :=
  let start := history.size
  let bytes := block.foldl Array.push history
  match searcher with
  | .fast table =>
      let ⟨_, slots, next, removed⟩ := table.renumber (bytes.size - start)
      let field : Field := {
        bytes, start, base := next - start, width := .wide
        bounded := start < Table.gap ∧ start < next
        floor := next - start, joined, acceleration := Level.acceleration prefs.level }
      let ⟨slots, plan⟩ := field.search slots
      (.fast ⟨some .wide, slots, next + (bytes.size - start), removed⟩,
        .ofPlan bytes start block plan, bytes)
  | .long =>
      let field : Field := {
        bytes, start, base := 0, width := .wide, bounded := false, floor := 0, joined
        acceleration := 1 }
      (.long, .ofPlan bytes start block (Platform.findLong field prefs.level), bytes)

/-! ## The encoder -/

/-- The state of a frame in the making, or of the last one made. -/
structure Encoder where
  /-- Whether a frame was started and not finished. -/
  isOpen : Bool := false
  prefs : Preferences := {}
  searcher : Searcher := .fast .cleared
  /-- The content that the next block can refer to. -/
  history : Array UInt8 := #[]
  /-- Content that waits for its block to fill up. -/
  held : Array UInt8 := #[]
  /-- Content bytes since the start. -/
  total : Nat := 0
  digest : Xxh32 := .empty
  deriving Inhabited

namespace Encoder

/-- An encoder that has not started any frame. -/
def new : Encoder := {}

/-- Content shorter than this is no use as history unless it is joined to what follows. -/
def minHistory : Nat := 4

/-- Makes a block; `joined` tells whether its bytes lie right behind the content before them. -/
def makeBlock (encoder : Encoder) (joined : Bool) (block : Bytes) : Encoder × Bytes :=
  let ⟨isOpen, prefs, searcher, history, held, total, digest⟩ := encoder
  if prefs.linked then
    -- a trace of content that lies elsewhere is given up, and the block starts afresh
    let alone := !joined && history.size < minHistory
    let history := if alone then #[] else history
    let joined := joined || alone
    let (searcher, payload, bytes) := searcher.linked prefs history joined block
    -- what lay elsewhere is out of sight for the next block
    let history := if joined then bytes else block.toArray
    (⟨isOpen, prefs, searcher, history, held, total, digest⟩, payload.encode prefs.blockChecksum)
  else
    let (searcher, payload) := searcher.independent prefs block
    (⟨isOpen, prefs, searcher, history, held, total, digest⟩, payload.encode prefs.blockChecksum)

/-- Makes blocks of one input, the first of which lies apart from the content before it. -/
def makeBlocks (encoder : Encoder) (out : Array UInt8) (joined : Bool) :
    List Bytes → Encoder × Array UInt8
  | [] => (encoder, out)
  | block :: rest =>
      let (encoder, bytes) := encoder.makeBlock joined block
      makeBlocks encoder (out ++ bytes) true rest

/-! ## Calls -/

/-- Starts a frame.  Whatever frame was open is abandoned. -/
def start (encoder : Encoder) (room : Nat) (prefs : Preferences) :
    Encoder × Except ErrorCode Bytes :=
  if room < Header.maxLength then
    (encoder, .error .dstMaxSizeTooSmall)
  else
    let searcher : Searcher :=
      if prefs.isHighCompression then
        .long
      else
        match encoder.searcher with
        -- independent blocks make the table ready one by one
        | .fast table => .fast (if prefs.linked then table.prepare 0 .wide else table)
        | .long => .fast .cleared
    ({ isOpen := true, prefs, searcher }, .ok (Header.ofPreferences prefs).encode)

/-- Takes content.  The room is compared with the worst case once, and not looked at again. -/
def update (encoder : Encoder) (room : Nat) (input : Bytes) : Encoder × Except ErrorCode Bytes :=
  if !encoder.isOpen then
    (encoder, .error .compressionStateUninitialized)
  else
    let length := input.length
    let held := encoder.held
    let needed :=
      Bound.withHeld encoder.prefs (UInt64.ofNat length) (UInt64.ofNat held.size)
    if room < needed.toNat then
      (encoder, .error .dstMaxSizeTooSmall)
    else
      let maxBlock := encoder.prefs.maxBlock
      let digest :=
        if encoder.prefs.contentChecksum then encoder.digest.update input else encoder.digest
      let encoder :=
        { encoder with held := #[], total := encoder.total + length, digest }
      let missing := if held.isEmpty then 0 else maxBlock - held.size
      if length < missing then
        ({ encoder with held := input.foldl Array.push held }, .ok [])
      else
        -- the block that was waiting first, then full blocks straight from the input
        let (encoder, first) :=
          if held.isEmpty then (encoder, [])
          else encoder.makeBlock true (held.toList ++ input.take missing)
        let input := input.drop missing
        let length := length - missing
        let whole := if encoder.prefs.autoflush then length else length / maxBlock * maxBlock
        let (encoder, out) :=
          encoder.makeBlocks first.toArray false (chunksOf maxBlock (input.take whole))
        ({ encoder with held := (input.drop whole).toArray }, .ok out.toList)

/-- Turns what waits into a block. -/
def flush (encoder : Encoder) (room : Nat) : Encoder × Except ErrorCode Bytes :=
  if encoder.held.isEmpty then
    (encoder, .ok [])
  else if !encoder.isOpen then
    (encoder, .error .compressionStateUninitialized)
  else if room < encoder.held.size + 8 then
    (encoder, .error .dstMaxSizeTooSmall)
  else
    let block := encoder.held.toList
    let (encoder, bytes) := { encoder with held := #[] }.makeBlock true block
    (encoder, .ok bytes)

/-- The bytes behind the last block: the end mark and, if content has one, its checksum. -/
def trailer (encoder : Encoder) : Bytes :=
  SizeWord.endMark
    ++ (if encoder.prefs.contentChecksum then Xxh32.field encoder.digest.digest else [])

/-- Closes the frame.  A declared length that is not the content's is found out here, when the
frame is already closed. -/
def finish (encoder : Encoder) (room : Nat) : Encoder × Except ErrorCode Bytes :=
  match encoder.flush room with
  | (encoder, .error code) => (encoder, .error code)
  | (encoder, .ok bytes) =>
      if room - bytes.length < encoder.trailer.length then
        (encoder, .error .dstMaxSizeTooSmall)
      else
        let declared := encoder.prefs.declaredOrZero
        -- from here on the frame is closed, whatever its length
        let encoder := { encoder with isOpen := false }
        if declared ≠ 0 ∧ declared ≠ encoder.total then
          (encoder, .error .frameSizeWrong)
        else
          (encoder, .ok (bytes ++ encoder.trailer))

/-! ## Overruns -/

/-- Whether a call has written past the room that it had: what it gives is longer. -/
def Overrun (room : Nat) : Except ErrorCode Bytes → Prop
  | .ok bytes => room < bytes.length
  | .error _ => False

instance (room : Nat) : (answer : Except ErrorCode Bytes) → Decidable (Overrun room answer)
  | .ok bytes => inferInstanceAs (Decidable (room < bytes.length))
  | .error _ => isFalse id

omit [Platform] in
theorem Overrun.of_le {room room' : Nat} {answer : Except ErrorCode Bytes} :
    Overrun room' answer → room ≤ room' → Overrun room answer := by
  intro hover hle
  cases answer with
  | error code => exact hover
  | ok bytes => exact Nat.lt_of_le_of_lt hle hover

/-- The room behind what was written, as the difference of two addresses: when more was written
than there was room for, it wraps around. -/
def roomBehind (room written : Nat) : Nat :=
  (UInt64.ofNat room - UInt64.ofNat written).toNat

omit [Platform] in
theorem roomBehind_eq {room written : Nat} (hle : written ≤ room)
    (hlt : room < 0x10000000000000000) : roomBehind room written = room - written := by
  rw [roomBehind, ← UInt64.ofNat_sub hle, UInt64.toNat_ofNat']
  exact Nat.mod_eq_of_lt (by omega)

/-! ## Whole frames -/

/-- The settings of a frame made in one piece: no more than the block size it takes, no links if
one block does, and a declared length, if there is one, that is the content's. -/
def wholePreferences (prefs : Preferences) (length : Nat) : Preferences :=
  let blockSize := prefs.blockSize.fitting length
  { prefs with
    blockSize
    linked := prefs.linked && blockSize.bytes < length
    autoflush := true
    declaredSize := if prefs.declaredOrZero = 0 then none else some length }

/-- Makes a frame in one piece, each part of it in the room behind the parts before it. -/
def whole (prefs : Preferences) (room : Nat) (content : Bytes) : Except ErrorCode Bytes :=
  let length := content.length
  let prefs := wholePreferences prefs length
  if room < (Bound.frame prefs (UInt64.ofNat length)).toNat then
    .error .dstMaxSizeTooSmall
  else
    match new.start room prefs with
    | (_, .error code) => .error code
    | (encoder, .ok header) =>
        match encoder.update (roomBehind room header.length) content with
        | (_, .error code) => .error code
        | (encoder, .ok blocks) =>
            match encoder.finish (roomBehind room (header.length + blocks.length)) with
            | (_, .error code) => .error code
            | (_, .ok rest) => .ok (header ++ blocks ++ rest)

end Encoder

end Lz4Frame
