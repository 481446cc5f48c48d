/-!
# The table of the fast search

The fast search remembers, for each hash of a few bytes, the index at which it last met that hash.
Indices run on from block to block, so a table can be kept when a new block has nothing to do with
the last one: what was met before is then merely too far away.  `Table.prepare` decides between
keeping and clearing.  A cleared slot reads as index 0, which is a real position only while indices
start at 0.

Slots hold words, so indices cannot run on for ever: before they get too large, the table is
renumbered, with everything that is still within reach at the distance that it had.  A search looks
at distances alone, so the indices here run on, and a table remembers by how much it was renumbered:
only `prepare` asks for the index that the next byte has in fact.
-/

namespace Lz4Frame.Block

/-- The width of the slots, which goes with the number of bytes that are hashed. -/
inductive SlotWidth
  /-- 16 bits, 8192 slots, 4 bytes hashed: for one short block. -/
  | narrow
  /-- 32 bits, 4096 slots, 5 bytes hashed. -/
  | wide
  deriving DecidableEq, Repr

/-- Indices by hash, and the index that the next byte gets. -/
structure Table where
  /-- The width in use; `none` right after clearing. -/
  width : Option SlotWidth
  slots : Array Nat
  next : Nat
  /-- What was taken off the indices by renumbering. -/
  removed : Nat

namespace Table

/-- Slots in a table. -/
def slotCount : Nat := 8192

/-- A table that remembers nothing. -/
def cleared : Table where
  width := none
  slots := Array.replicate slotCount 0
  next := 0
  removed := 0

instance : Inhabited Table := ⟨cleared⟩

/-- Blocks below this length can use narrow slots. -/
def narrowLimit : Nat := 65547

/-- Room that separates wide indices of unrelated data: more than a repeat reaches back. -/
def gap : Nat := 65536

/-- The largest wide index from which a table is kept. -/
def keepLimit : Nat := 0x40000000

/-- The largest index that the end of a linked block can have. -/
def indexLimit : Nat := 0x80000000

/-- The index of the next byte, as it is numbered by now. -/
def offset (table : Table) : Nat := table.next - table.removed

/-- Whether a table cannot be kept for `n` unrelated bytes: the slots change their width, narrow
indices would run out, wide ones have run far, or there is so much data that clearing pays. -/
def mustClear (table : Table) (n : Nat) (width : SlotWidth) : Bool :=
  table.width.isSome
    && (table.width != some width || (width == .narrow && 65535 ≤ table.offset + n)
      || (width == .wide && keepLimit < table.offset) || 4096 ≤ n)

/-- Makes the table ready for `n` bytes that have nothing to do with what came before. -/
def prepare (table : Table) (n : Nat) (width : SlotWidth) : Table :=
  let table := if table.mustClear n width then cleared else table
  if table.next ≠ 0 ∧ width = .wide then
    -- candidates from before are out of reach from here on
    { table with next := table.next + gap }
  else
    table

/-- Renumbers the table if `n` more bytes would take the index too far: what is farther away than
the gap is out of reach, and the next byte gets the index of the gap. -/
def renumber (table : Table) (n : Nat) : Table :=
  if indexLimit < table.offset + n then { table with removed := table.next - gap } else table

end Table

end Lz4Frame.Block
