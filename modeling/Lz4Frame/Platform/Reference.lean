import Lz4Frame.Block.LongSearch
import Lz4Frame.Platform

/-!
# The platform of reference

The chained search for long repeats, histories that lie in front of their blocks, and as much memory
as every platform has.  Where a definition is run on inputs that are spelled out, it is run here.
-/

namespace Lz4Frame.Reference

scoped instance platform : Platform where
  findLong := Block.Field.searchLong
  placement _ _ := .adjoining
  grants size := decide (size < assuredSize)
  grants_assured := decide_eq_true
  le_of_grants hgranted := Nat.le_trans (Nat.le_of_lt (of_decide_eq_true hgranted)) (by decide)

/-- The same with histories that lie elsewhere than their blocks. -/
@[reducible]
def apart : Platform := { platform with placement := fun _ _ => .apart }

/-- The smallest size that is too large. -/
theorem allocate_assuredSize : allocate assuredSize = .error (.allocation assuredSize) := rfl

end Lz4Frame.Reference
