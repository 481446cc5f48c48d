import Lz4Frame.Block.Decode
import Lz4Frame.Block.FastSearch
import Lz4Frame.Error

/-!
# What is left open

Three things are not the program's to decide, and the definitions leave them open: which repeats the
search of a high level comes up with, where the history of a block happens to lie in memory when the
block is read, and which sizes can be allocated.  A `Platform` settles them.  What is said of
compressing and decompressing is said on every platform; the definitions run on one of them
(`Reference.platform`).

Nothing is asked of the search: its plan counts only if it spells the block (`Payload.ofPlan`).
Nothing is asked of the place of a history either.  Of memory it is asked that sizes below 2^62 are
granted, and none that takes up more than half of the addresses.
-/

namespace Lz4Frame

open Block

/-- Sizes below this are granted on every platform. -/
def assuredSize : Nat := 0x4000000000000000

/-- Sizes above this are granted on none. -/
def largestAllocation : Nat := 0x7fffffffffffffff

/-- What a run depends on beside its inputs. -/
class Platform where
  /-- What the search of a high level proposes for a block. -/
  findLong (field : Field) (level : Int) : Option Plan
  /-- Where the history of a block lies while the block is read. -/
  placement (history : Array UInt8) (block : Bytes) : Placement
  /-- Whether so many bytes can be allocated.  What a run holds already does not count, so what was
  granted once is granted again. -/
  grants (size : Nat) : Bool
  grants_assured {size : Nat} : size < assuredSize → grants size = true
  le_of_grants {size : Nat} : grants size = true → size ≤ largestAllocation

theorem Platform.le_of_denied [Platform] {size : Nat} (h : ¬ grants size = true) :
    assuredSize ≤ size := Nat.le_of_not_lt fun hlt => h (grants_assured hlt)

/-- Asks for room for `size` bytes. -/
def allocate [Platform] (size : Nat) : Except Error Unit :=
  if Platform.grants size then .ok () else .error (.allocation size)

theorem allocate_of_grants [Platform] {size : Nat} (h : Platform.grants size = true) :
    allocate size = .ok () := if_pos h

theorem allocate_of_assured [Platform] {size : Nat} (h : size < assuredSize) :
    allocate size = .ok () := allocate_of_grants (Platform.grants_assured h)

theorem grants_of_allocate [Platform] {size : Nat} :
    allocate size = .ok () → Platform.grants size = true := by
  intro h
  unfold allocate at h
  split at h
  · assumption
  · cases h

end Lz4Frame
