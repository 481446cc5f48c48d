import Lz4Frame.Block.Plan
import Lz4Frame.Block.Table

/-!
# The fast search for repeats

One pass over a block.  At each position the table gives one candidate; it counts if it is within
reach and four bytes agree.  Where nothing is found for a while the steps get longer, the sooner
the higher the acceleration.  A repeat that is found grows backwards over pending literals and
forwards as far as the bytes agree, and the next candidate is tried right behind it.

The search keeps account of the written form's size and gives up as soon as that could reach the
size of the block.  The table keeps what it learned either way.
-/

namespace Lz4Frame.Block

/-! ## Bytes under the hash -/

@[inline] def byteAt (bytes : Array UInt8) (i : Nat) : UInt8 := bytes.getD i 0

/-- Four bytes as a little-endian number. -/
@[inline] def wordAt (bytes : Array UInt8) (i : Nat) : UInt32 :=
  (byteAt bytes i).toUInt32 ||| ((byteAt bytes (i + 1)).toUInt32 <<< 8)
    ||| ((byteAt bytes (i + 2)).toUInt32 <<< 16) ||| ((byteAt bytes (i + 3)).toUInt32 <<< 24)

/-- The slot of the four bytes at `i`: the 13 highest bits of their product with a prime. -/
@[inline] def narrowHash (bytes : Array UInt8) (i : Nat) : Nat :=
  ((wordAt bytes i * 2654435761) >>> 19).toNat

/-- The slot of the five bytes at `i`: the 12 highest bits of their product with a prime. -/
@[inline] def wideHash (bytes : Array UInt8) (i : Nat) : Nat :=
  let five := ((wordAt bytes i).toUInt64 <<< 24) ||| ((byteAt bytes (i + 4)).toUInt64 <<< 56)
  ((five * 889523592379) >>> 52).toNat

/-! ## Agreement of bytes -/

/-- How many bytes from `i` and from `j` on agree, `limit` at most, on top of `count`. -/
def agreeForward (bytes : Array UInt8) : (i j limit count : Nat) → Nat
  | _, _, 0, count => count
  | i, j, limit + 1, count =>
      if byteAt bytes i == byteAt bytes j then
        agreeForward bytes (i + 1) (j + 1) limit (count + 1)
      else
        count

/-- How many bytes before `i` and before `j` agree, `limit` at most, on top of `count`. -/
def agreeBackward (bytes : Array UInt8) : (i j limit count : Nat) → Nat
  | _, _, 0, count => count
  | i, j, limit + 1, count =>
      if byteAt bytes (i - 1) == byteAt bytes (j - 1) then
        agreeBackward bytes (i - 1) (j - 1) limit (count + 1)
      else
        count

/-! ## What a search works on -/

/-- A block behind its history, and the terms of the search. -/
structure Field where
  /-- History and block. -/
  bytes : Array UInt8
  /-- Where the block starts among them. -/
  start : Nat
  /-- The index of the first byte. -/
  base : Nat
  width : SlotWidth
  /-- Whether candidates from before `floor` are to be told from real ones. -/
  bounded : Bool
  /-- The least index that history or block can have. -/
  floor : Nat
  /-- Whether a repeat may grow backwards over the start of the block. -/
  joined : Bool
  acceleration : Nat

namespace Field

@[inline] def stop (field : Field) : Nat := field.bytes.size

/-- No repeat starts here or later. -/
@[inline] def searchStop (field : Field) : Nat := field.bytes.size - (matchMargin - 1)

/-- No repeat reaches beyond this. -/
@[inline] def matchStop (field : Field) : Nat := field.bytes.size - lastLiterals

/-- The written form has to stay within this. -/
@[inline] def sizeLimit (field : Field) : Nat := field.bytes.size - field.start - 1

@[inline] def hash (field : Field) (i : Nat) : Nat :=
  match field.width with
  | .narrow => narrowHash field.bytes i
  | .wide => wideHash field.bytes i

/-- Whether the byte with index `candidate` counts as a repeat's source for the one with index
`current`: not stale, within reach, and with the same four bytes. -/
@[inline] def accepts (field : Field) (candidate current : Nat) : Bool :=
  !(field.bounded && candidate < field.floor)
    && !(field.width == .wide && candidate + maxOffset < current)
    && wordAt field.bytes (candidate - field.base) == wordAt field.bytes (current - field.base)

/-- How far back the repeat of the candidate may grow. -/
@[inline] def lowest (field : Field) (candidate : Nat) : Nat :=
  match field.width with
  | .narrow => field.start
  | .wide => if field.joined || candidate < field.base + field.start then 0 else field.start

end Field

/-! ## The pass -/

/-- A place to repeat from, found for a place in the block. -/
structure Find where
  place : Nat
  source : Nat

/-- Looks at `place` and onwards for a place that the table knows a source for.  `step` leads to
the next place and `budget`, in units of 64, to the steps after that. -/
def scan (field : Field) (slots : Array Nat) (place hash step budget : Nat) :
    Array Nat × Option Find :=
  let next := place + max 1 step
  if next ≤ field.searchStop then
    let current := place + field.base
    -- the slot gives its candidate and remembers this place instead
    let candidate := slots.getD hash 0
    let slots := slots.setIfInBounds hash current
    if field.accepts candidate current then
      (slots, some ⟨place, candidate - field.base⟩)
    else
      scan field slots next (field.hash next) (budget / 64) (budget + 1)
  else
    (slots, none)
termination_by field.searchStop + 1 - place
decreasing_by omega

/-- Where the pass goes on. -/
inductive Turn
  /-- Scan from a place on. -/
  | scan (place : Nat)
  /-- A source was found right behind the last repeat. -/
  | again (source : Nat)

/-- The next repeat, as far as it is settled before its length. -/
inductive Located
  /-- There is none. -/
  | nothing
  /-- The literals before it take too much room. -/
  | noRoom
  /-- It comes after some literals, from a source. -/
  | at (literals source : Nat)

/-- Finds the next repeat behind `anchor`, which is the first byte that no sequence covers. -/
def locate (field : Field) (slots : Array Nat) (anchor size : Nat) :
    Turn → Array Nat × Located
  | .again source => (slots, .at 0 source)
  | .scan place =>
      match scan field slots place (field.hash place) 1 (field.acceleration * 64) with
      | (slots, none) => (slots, .nothing)
      | (slots, some ⟨place, source⟩) =>
          -- the repeat grows backwards over literals that no sequence covers yet
          let reach := source - field.lowest (source + field.base)
          let back := agreeBackward field.bytes place source (min (place - anchor) reach) 0
          let literals := place - back - anchor
          if field.sizeLimit < size + 1 + literals + 8 + literals / 255 then
            (slots, .noRoom)
          else
            (slots, .at literals (source - back))

/-- What the search leaves: the slots, and a plan unless it gave up. -/
structure Outcome where
  slots : Array Nat
  plan : Option Plan

/-- The size of a count's continuation. -/
@[inline] def extensionSize (n : Nat) : Nat := if n < 15 then 0 else (n - 15) / 255 + 1

/-- Ends a plan with the literals from `anchor` on. -/
def finish (field : Field) (slots : Array Nat) (anchor size : Nat) (found : Array Sequence) :
    Outcome :=
  let literals := field.stop - anchor
  if field.sizeLimit < size + literals + 1 + (literals + 240) / 255 then ⟨slots, none⟩
  else ⟨slots, some found.toList⟩

/-- Goes on behind the sequences found so far, whose written form has the given size. -/
def pass (field : Field) (slots : Array Nat) (anchor size : Nat) (found : Array Sequence)
    (turn : Turn) : Outcome :=
  match locate field slots anchor size turn with
  | (slots, .nothing) => finish field slots anchor size found
  | (slots, .noRoom) => ⟨slots, none⟩
  | (slots, .at literals source) =>
      let place := anchor + literals
      let size := size + 1 + extensionSize literals + literals + 2
      let extra :=
        agreeForward field.bytes (place + minMatch) (source + minMatch)
          (field.matchStop - (place + minMatch)) 0
      if field.sizeLimit < size + 6 + (extra + 240) / 255 then
        ⟨slots, none⟩
      else
        let stop := place + minMatch + extra
        let size := size + extensionSize extra
        let found := found.push ⟨literals, place - source, minMatch + extra⟩
        if stop < field.searchStop then
          -- two places learn about the repeat's end, and the second may start a repeat at once
          let slots := slots.setIfInBounds (field.hash (stop - 2)) (stop - 2 + field.base)
          let hash := field.hash stop
          let candidate := slots.getD hash 0
          let slots := slots.setIfInBounds hash (stop + field.base)
          let turn :=
            if field.accepts candidate (stop + field.base) then
              Turn.again (candidate - field.base)
            else
              Turn.scan (stop + 1)
          pass field slots stop size found turn
        else
          finish field slots stop size found
termination_by field.searchStop - anchor
decreasing_by simp only [minMatch]; omega

/-- Searches a whole block. -/
def Field.search (field : Field) (slots : Array Nat) : Outcome :=
  if field.stop - field.start < minCompressible then
    finish field slots field.start 0 #[]
  else
    -- the first byte can be a source but is not tried for a repeat
    let slots := slots.setIfInBounds (field.hash field.start) (field.start + field.base)
    pass field slots field.start 0 #[] (.scan (field.start + 1))

end Lz4Frame.Block
