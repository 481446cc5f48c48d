import Lz4Frame.Bytes

/-!
# The 32-bit checksum of frames

Header bytes, blocks and content are all guarded by XXH32 with seed 0.  A digest is a running
state: four lanes that absorb sixteen bytes at a time, the number of bytes seen, and the bytes that
do not fill a stripe yet.  `Xxh32.update_append` says that a digest does not depend on how its
input was cut.
-/

namespace Lz4Frame

/-- The running state of a checksum. -/
structure Xxh32 where
  lane1 : UInt32
  lane2 : UInt32
  lane3 : UInt32
  lane4 : UInt32
  /-- Bytes absorbed so far. -/
  length : Nat
  /-- Bytes that wait for their stripe to fill up. -/
  pending : Array UInt8

namespace Xxh32

/-! ## The five multipliers -/

def prime1 : UInt32 := 2654435761
def prime2 : UInt32 := 2246822519
def prime3 : UInt32 := 3266489917
def prime4 : UInt32 := 668265263
def prime5 : UInt32 := 374761393

@[inline] def rotateLeft (x : UInt32) (amount : UInt32) : UInt32 :=
  (x <<< amount) ||| (x >>> (32 - amount))

/-! ## Absorbing -/

/-- The state before any byte. -/
def empty : Xxh32 where
  lane1 := prime1 + prime2
  lane2 := prime2
  lane3 := 0
  lane4 := 0 - prime1
  length := 0
  pending := #[]

instance : Inhabited Xxh32 := ⟨empty⟩

/-- The little-endian word at position `i` of the waiting bytes. -/
@[inline] def wordAt (bytes : Array UInt8) (i : Nat) : UInt32 :=
  (bytes.getD i 0).toUInt32 ||| ((bytes.getD (i + 1) 0).toUInt32 <<< 8)
    ||| ((bytes.getD (i + 2) 0).toUInt32 <<< 16) ||| ((bytes.getD (i + 3) 0).toUInt32 <<< 24)

@[inline] def mixLane (lane word : UInt32) : UInt32 :=
  rotateLeft (lane + word * prime2) 13 * prime1

/-- Absorbs one byte; the sixteenth of a stripe moves all four lanes. -/
def push (state : Xxh32) (b : UInt8) : Xxh32 :=
  let ⟨lane1, lane2, lane3, lane4, length, pending⟩ := state
  let pending := pending.push b
  if pending.size < 16 then
    ⟨lane1, lane2, lane3, lane4, length + 1, pending⟩
  else
    ⟨mixLane lane1 (wordAt pending 0), mixLane lane2 (wordAt pending 4),
      mixLane lane3 (wordAt pending 8), mixLane lane4 (wordAt pending 12), length + 1, #[]⟩

/-- Absorbs bytes in order. -/
def update (state : Xxh32) (bytes : Bytes) : Xxh32 :=
  bytes.foldl push state

@[simp] theorem update_nil (state : Xxh32) : state.update [] = state := rfl

theorem update_append (state : Xxh32) (first second : Bytes) :
    state.update (first ++ second) = (state.update first).update second := by
  simp [update, List.foldl_append]

/-! ## The digest -/

@[inline] def mixWord (h word : UInt32) : UInt32 :=
  rotateLeft (h + word * prime3) 17 * prime4

@[inline] def mixByte (h : UInt32) (b : UInt8) : UInt32 :=
  rotateLeft (h + b.toUInt32 * prime5) 11 * prime1

/-- Folds in the bytes of an unfinished stripe, by words as long as they last. -/
def absorbTail : UInt32 → Bytes → UInt32
  | h, b0 :: b1 :: b2 :: b3 :: rest =>
      absorbTail (mixWord h (wordAt #[b0, b1, b2, b3] 0)) rest
  | h, b :: rest => absorbTail (mixByte h b) rest
  | h, [] => h

/-- Spreads every input bit over the whole word. -/
def avalanche (h : UInt32) : UInt32 :=
  let h := (h ^^^ (h >>> 15)) * prime2
  let h := (h ^^^ (h >>> 13)) * prime3
  h ^^^ (h >>> 16)

/-- The checksum of the bytes absorbed so far. -/
def digest (state : Xxh32) : UInt32 :=
  let lanes :=
    if state.length < 16 then
      -- no stripe was full, so the lanes have seen nothing
      prime5
    else
      rotateLeft state.lane1 1 + rotateLeft state.lane2 7
        + rotateLeft state.lane3 12 + rotateLeft state.lane4 18
  avalanche (absorbTail (lanes + UInt32.ofNat state.length) state.pending.toList)

/-- The checksum of a byte string. -/
def of (bytes : Bytes) : UInt32 :=
  (empty.update bytes).digest

/-- The checksum as the four bytes that a frame stores. -/
def field (sum : UInt32) : Bytes :=
  LittleEndian.encode 4 sum.toNat

@[simp] theorem length_field (sum : UInt32) : (field sum).length = 4 := by
  simp [field]

end Xxh32

end Lz4Frame
