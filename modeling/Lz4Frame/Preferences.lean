import Lz4Frame.Error

/-!
# Settings of a frame

`Preferences` is what a caller chooses for one frame: the largest block, whether blocks may refer
to earlier ones, the two kinds of checksum, the effort, and whether input may wait for a full
block.  Only the effort can be out of range (`Preferences.validate`); identifiers that come as
plain numbers are checked where they enter (`BlockSize.ofId?`, `Preferences.ofNumbers`).
-/

namespace Lz4Frame

/-! ## Block sizes -/

/-- The largest number of content bytes in one block. -/
inductive BlockSize
  /-- Left open by the caller: 64 KiB. -/
  | unspecified
  | max64KiB
  | max256KiB
  | max1MiB
  | max4MiB
  deriving DecidableEq, Repr, Inhabited

namespace BlockSize

def all : List BlockSize := [unspecified, max64KiB, max256KiB, max1MiB, max4MiB]

/-- The identifier under which settings and headers name a size. -/
def id : BlockSize → Nat
  | unspecified => 0
  | max64KiB => 4
  | max256KiB => 5
  | max1MiB => 6
  | max4MiB => 7

def bytes : BlockSize → Nat
  | unspecified => 65536
  | max64KiB => 65536
  | max256KiB => 262144
  | max1MiB => 1048576
  | max4MiB => 4194304

theorem bytes_pos (size : BlockSize) : 0 < size.bytes := by
  cases size <;> decide

/-- The size that an identifier names. -/
def ofId? : Nat → Option BlockSize
  | 0 => some unspecified
  | 4 => some max64KiB
  | 5 => some max256KiB
  | 6 => some max1MiB
  | 7 => some max4MiB
  | _ => none

theorem ofId?_id (size : BlockSize) : ofId? size.id = some size := by
  cases size <;> rfl

/-- The size that an identifier names, or a refusal of the identifier. -/
def ofNumber (id : Nat) : Except Error BlockSize :=
  match ofId? id with
  | some size => .ok size
  | none => .error (.invalid .blockSizeId id)

/-- What a header says: a size left open is written as 64 KiB. -/
def resolved : BlockSize → BlockSize
  | unspecified => max64KiB
  | size => size

/-- The smallest size below the requested one that holds `n` bytes, or else the requested one. -/
def fitting (requested : BlockSize) (n : Nat) : BlockSize :=
  let smaller := [max64KiB, max256KiB, max1MiB].find? fun size =>
    size.id < requested.id ∧ n ≤ size.bytes
  smaller.getD requested

end BlockSize

/-! ## Effort -/

namespace Level

/-- Ordinary fast compression; lower levels are faster still. -/
def fast : Int := 0

/-- The first level that searches for longer matches. -/
def firstHigh : Int := 2

/-- The highest level. -/
def highest : Int := 12

/-- How quickly the fast search lengthens its steps: by one more for each level below 0. -/
def acceleration (level : Int) : Nat :=
  if level < 0 then min (1 - level).toNat 65537 else 1

theorem acceleration_pos (level : Int) : 0 < acceleration level := by
  unfold acceleration
  split
  · omega
  · decide

end Level

/-! ## Preferences -/

/-- The settings of one frame. -/
structure Preferences where
  blockSize : BlockSize := .unspecified
  /-- Whether a block may refer to the blocks before it. -/
  linked : Bool := true
  blockChecksum : Bool := false
  contentChecksum : Bool := false
  level : Int := Level.fast
  /-- Whether every update ends in a block, however short. -/
  autoflush : Bool := false
  /-- The length of the content, to be written into the header and held to at the end. -/
  declaredSize : Option Nat := none
  deriving DecidableEq, Repr, Inhabited

namespace Preferences

/-- Refuses a level above the highest one. -/
def validate (prefs : Preferences) : Except Error Unit :=
  if Level.highest < prefs.level then
    .error (.invalid .compressionLevel prefs.level)
  else
    .ok ()

/-- The levels of the fast search are in range. -/
theorem validate_fast {prefs : Preferences} (hfast : prefs.level < Level.firstHigh) :
    prefs.validate = .ok () := by
  rw [validate, if_neg]
  simp only [Level.firstHigh, Level.highest] at hfast ⊢
  omega

/-- Whether the level asks for the search for longer matches. -/
def isHighCompression (prefs : Preferences) : Bool :=
  Level.firstHigh ≤ prefs.level

/-- The declared length, where none and 0 both stand for "not declared". -/
def declaredOrZero (prefs : Preferences) : Nat :=
  prefs.declaredSize.getD 0

/-- The largest number of content bytes in one block. -/
def maxBlock (prefs : Preferences) : Nat :=
  prefs.blockSize.bytes

theorem maxBlock_pos (prefs : Preferences) : 0 < prefs.maxBlock :=
  prefs.blockSize.bytes_pos

/-- Settings whose block size comes as a number; the size is judged before the level. -/
def ofNumbers (blockSizeId : Nat) (prefs : Preferences) : Except Error Preferences := do
  let blockSize ← BlockSize.ofNumber blockSizeId
  let prefs := { prefs with blockSize }
  prefs.validate
  return prefs

end Preferences

end Lz4Frame
