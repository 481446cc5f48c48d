import Lz4Frame.Frame.Header

/-!
# Room for the worst case

How many bytes an update, or a whole frame, can write at most.  The sums are made in 64-bit words
and the block counts in 32-bit words, as a caller on a 64-bit machine sees them, so lengths far
beyond any memory wrap around.  A sum that lands on one of the values reserved for errors is
reported as that error.
-/

namespace Lz4Frame.Bound

/-- The worst case for `length` bytes of new input on top of `held` bytes that wait. -/
def withHeld (prefs : Preferences) (length held : UInt64) : UInt64 :=
  let block := UInt64.ofNat prefs.maxBlock
  let total := length + min held (block - 1)
  let full : UInt32 := (total / block).toUInt32
  let last : UInt64 := if prefs.autoflush ∨ length = 0 then total % block else 0
  let blocks : UInt32 := full + (if 0 < last then 1 else 0)
  let perBlock : UInt64 := if prefs.blockChecksum then 8 else 4
  let trailer : UInt64 := if prefs.contentChecksum then 8 else 4
  perBlock * blocks.toUInt64 + block * full.toUInt64 + last + trailer

/-- The worst case for an update with `length` bytes, whatever waits from before. -/
def update (prefs : Preferences) (length : UInt64) : UInt64 :=
  withHeld prefs length (if prefs.autoflush then 0 else UInt64.ofNat prefs.maxBlock - 1)

/-- The worst case for a frame made in one piece. -/
def frame (prefs : Preferences) (length : UInt64) : UInt64 :=
  UInt64.ofNat Header.maxLength + update { prefs with autoflush := true } length

/-- A result as a length, unless it is one of the values that stand for errors. -/
def checked (result : UInt64) : Except Error Nat :=
  match ErrorCode.ofResult? result with
  | some code => .error (.frame code)
  | none => .ok result.toNat

end Lz4Frame.Bound
