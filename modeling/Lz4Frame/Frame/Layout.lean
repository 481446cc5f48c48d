import Lz4Frame.Frame.Header
import Lz4Frame.Frame.SizeWord

/-!
# The layout of a frame

How a frame is built, as far as that can be told without decoding it: its header, and for each
block whether it is stored or compressed.
-/

namespace Lz4Frame

/-- A block as its size word shows it. -/
inductive BlockShape
  | stored (length : Nat)
  | compressed
  deriving DecidableEq, Repr

/-- The parts of a frame. -/
structure Layout where
  header : Bytes
  blocks : List BlockShape
  /-- What follows the last block, from the end mark on. -/
  rest : Bytes

namespace Layout

/-- The blocks of a frame from here on, behind those found before; each has `checksumLength` bytes
of checksum. -/
def blocksFrom (checksumLength : Nat) (found : Array BlockShape) (bytes : Bytes) :
    List BlockShape × Bytes :=
  let number := LittleEndian.value (bytes.take 4)
  if h : hasAtLeast bytes 4 = true ∧ number ≠ 0 then
    have : 4 ≤ bytes.length := (hasAtLeast_iff bytes 4).mp h.1
    let word := SizeWord.ofNumber number
    let shape := if word.stored then BlockShape.stored word.size else .compressed
    blocksFrom checksumLength (found.push shape) ((bytes.drop 4).drop (word.size + checksumLength))
  else
    (found.toList, bytes)
termination_by bytes.length
decreasing_by simp only [List.length_drop]; omega

/-- The layout of a frame; nothing is checked but that the flags are there. -/
def of? (frame : Bytes) : Option Layout :=
  if hasAtLeast frame 5 then
    let flags := Header.flagsOf frame
    let length := Header.lengthFor flags
    let checksumLength := if flags &&& 16 ≠ 0 then 4 else 0
    let (blocks, rest) := blocksFrom checksumLength #[] (frame.drop length)
    some ⟨frame.take length, blocks, rest⟩
  else
    none

end Layout

end Lz4Frame
