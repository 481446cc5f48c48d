import Lz4Frame.Bytes
import Lz4Frame.Platform

/-!
# A buffer that grows

Content is written to a buffer of some capacity, which doubles when it turns out too small.  A
pinned buffer keeps every storage that it has grown out of, so that what was written there can
still be referred to.  Capacities are numbers; storage is not filled with zeros until it is looked
at as a whole (`Retired.storage`).
-/

namespace Lz4Frame

/-- A storage that a buffer has grown out of. -/
structure Retired where
  written : Array UInt8
  capacity : Nat

/-- The storage as it was left: what was written, and zeros. -/
def Retired.storage (retired : Retired) : Array UInt8 :=
  retired.written ++ Array.replicate (retired.capacity - retired.written.size) (0 : UInt8)

/-- Written bytes, and how many there may be. -/
structure OutputBuffer where
  written : Array UInt8
  capacity : Nat
  pinned : Bool
  /-- The storages that a pinned buffer has grown out of, oldest first. -/
  retired : Array Retired
  written_le : written.size ≤ capacity
  capacity_pos : 0 < capacity

namespace OutputBuffer

variable [Platform]

/-- An empty buffer for `length` bytes, one at least. -/
def new (length : Nat) (pinned : Bool) : Except Error OutputBuffer := do
  allocate (max 1 length)
  return ⟨#[], max 1 length, pinned, #[], Nat.zero_le _, by omega⟩

/-- How many more bytes there is room for. -/
def spare (buffer : OutputBuffer) : Nat := buffer.capacity - buffer.written.size

/-- Writes bytes that there is room for. -/
def append (buffer : OutputBuffer) (bytes : Array UInt8) (fits : bytes.size ≤ buffer.spare) :
    OutputBuffer :=
  { buffer with
    written := buffer.written ++ bytes
    written_le := by
      have := buffer.written_le
      unfold spare at fits
      rw [Array.size_append]
      omega }

/-- Doubles the capacity. -/
def grow (buffer : OutputBuffer) : Except Error OutputBuffer :=
  let doubled := buffer.capacity * 2
  if largestLength < doubled then
    .error (.allocation largestLength)
  else
    match allocate doubled with
    | .error cause => .error cause
    | .ok () =>
        .ok { buffer with
          capacity := doubled
          retired :=
            if buffer.pinned then buffer.retired.push ⟨buffer.written, buffer.capacity⟩
            else buffer.retired
          written_le := by have := buffer.written_le; omega
          capacity_pos := by have := buffer.capacity_pos; omega }

/-- A buffer that has grown has room. -/
theorem grow_spare_pos {buffer grown : OutputBuffer} (h : buffer.grow = .ok grown) :
    0 < grown.spare := by
  have hle := buffer.written_le
  have hpos := buffer.capacity_pos
  unfold grow at h
  simp only at h
  split at h
  · simp at h
  · split at h
    · simp at h
    · simp only [Except.ok.injEq] at h
      rw [← h]
      simp only [spare]
      omega

theorem new_spare_pos {length : Nat} {pinned : Bool} {buffer : OutputBuffer}
    (h : new length pinned = .ok buffer) : 0 < buffer.spare := by
  rcases bind_eq_ok.mp h with ⟨_, -, h⟩
  rw [← Except.ok.inj h]
  simp only [spare, List.size_toArray, List.length_nil]
  omega

end OutputBuffer

end Lz4Frame
