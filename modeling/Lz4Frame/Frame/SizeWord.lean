import Lz4Frame.Bytes

/-!
# Size words

In a frame every block stands behind a word that gives the length of its payload.  The highest bit
of the word tells stored blocks from compressed ones.  The word 0 is no block's: it is the mark
behind the last one.

`SizeWord.ofNumber_number` says that a word reads back as it was written, as long as the length
leaves the highest bit alone.
-/

namespace Lz4Frame

/-- What the word in front of a block says. -/
structure SizeWord where
  /-- Whether the block is stored as it is. -/
  stored : Bool
  /-- The length of the payload. -/
  size : Nat
  deriving DecidableEq, Repr

namespace SizeWord

/-- The highest bit of a word; stored blocks have it. -/
def storedMark : Nat := 0x80000000

/-- A size word as a number. -/
def number (word : SizeWord) : Nat :=
  if word.stored then storedMark + word.size else word.size

/-- The size word that a number stands for. -/
def ofNumber (n : Nat) : SizeWord where
  stored := storedMark ≤ n
  size := n % storedMark

theorem ofNumber_number {word : SizeWord} (h : word.size < storedMark) :
    ofNumber word.number = word := by
  obtain ⟨stored, size⟩ := word
  cases stored with
  | false => simp [ofNumber, number, Nat.mod_eq_of_lt h, Nat.not_le_of_lt h]
  | true => simp [ofNumber, number, Nat.mod_eq_of_lt h]

/-- A size word as it stands in a frame. -/
def encode (word : SizeWord) : Bytes := LittleEndian.encode 4 word.number

/-- The word behind the last block. -/
def endMark : Bytes := LittleEndian.encode 4 0

end SizeWord

end Lz4Frame
