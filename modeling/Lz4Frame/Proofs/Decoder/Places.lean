import Lz4Frame.Frame.Decoder.Run
import Lz4Frame.Proofs.Frame.Field

/-!
# Places that fill a field

Seven of the places of a decoder do the same: they fill a field, wait as long as it is short, and
go on from the field once it is full.  `Fills` says so once, with what comes behind the field as a
parameter, and a law of steps needs one argument for all seven.
-/

namespace Lz4Frame.Decoder

/-- Places where a decoder can stop inside a frame. -/
def Waits : Decoder → Prop
  | .skip _ left => 0 < left
  | .failed _ => False
  | _ => True

/-- Goes on behind the checksum of a stored block. -/
def afterStoredChecksum (body : Body) (sum : UInt32) (bytes : Bytes) (input : Input) : Step :=
  if bytes = Xxh32.field sum then nextBlock body input [] else .fail .blockChecksumInvalid

/-- Goes on behind the checksum of the content. -/
def afterTrailer (body : Body) (bytes : Bytes) (input : Input) : Step :=
  if bytes = Xxh32.field body.digest.digest then .stop new input [] 0
  else .fail .contentChecksumInvalid

/-- Goes on behind the magic number and the size of a frame to be skipped. -/
def afterSkipSize (bytes : Bytes) (input : Input) : Step :=
  .go (.skip (LittleEndian.value (bytes.drop 4)) (LittleEndian.value (bytes.drop 4))) input []

variable [Platform]

/-- A place that fills a field, and what a step does once the field is full. -/
structure Fills {n : Nat} (place : Partial n → Decoder)
    (after : (bytes : Array UInt8) → bytes.size = n → Input → Nat → Step) : Prop where
  step_eq : ∀ held input room, (place held).step input room =
    match held.fill input with
    | (.short held, input) => rest (place held) input []
    | (.full bytes size_eq, input) => after bytes size_eq input room
  waits : ∀ held, (place held).Waits
  /-- Nothing waits to be handed out. -/
  pending : ∀ held, (place held).pendingLength = 0

/-- What holds of a step that leaves the field short, and of what comes behind a full one, holds of
every step from such a place. -/
theorem Fills.step_of {n : Nat} {place : Partial n → Decoder}
    {after : (bytes : Array UInt8) → bytes.size = n → Input → Nat → Step} (h : Fills place after)
    {P : Step → Prop} {held : Partial n} {input : Input} {room : Nat}
    (hshort : ∀ held' input', held.fill input = (.short held', input') →
      P (rest (place held') input' []))
    (hfull : ∀ bytes size_eq input', held.fill input = (.full bytes size_eq, input') →
      P (after bytes size_eq input' room)) :
    P ((place held).step input room) := by
  rw [h.step_eq]
  cases hfill : held.fill input with
  | mk filled input' =>
      cases filled with
      | short held' => exact hshort held' input' hfill
      | full bytes size_eq => exact hfull bytes size_eq input' hfill

theorem opening_fills :
    Fills .opening fun bytes size_eq input _ => afterOpening bytes size_eq input where
  step_eq held input _ := by
    simp only [step]
    rcases held.fill input with ⟨_ | _, _⟩ <;> rfl
  waits _ := trivial
  pending _ := rfl

theorem longHeader_fills {length : Nat} :
    Fills (fun held : Partial length => .longHeader held) fun bytes _ input _ =>
      afterHeader bytes.toList input where
  step_eq _ _ _ := rfl
  waits _ := trivial
  pending _ := rfl

theorem blockSize_fills (body : Body) :
    Fills (.blockSize body) fun bytes _ =>
      afterBlockSize body (LittleEndian.value bytes.toList) where
  step_eq held input _ := by
    simp only [step]
    rcases held.fill input with ⟨_ | _, _⟩ <;> rfl
  waits _ := trivial
  pending _ := rfl

theorem storedChecksum_fills (body : Body) (sum : UInt32) :
    Fills (.storedChecksum body sum) fun bytes _ input _ =>
      afterStoredChecksum body sum bytes.toList input where
  step_eq held input _ := by
    simp only [step]
    rcases held.fill input with ⟨_ | _, _⟩ <;> rfl
  waits _ := trivial
  pending _ := rfl

theorem compressed_fills (body : Body) {length : Nat} :
    Fills (fun held : Partial length => .compressed body held) fun bytes _ input _ =>
      afterCompressed body bytes.toList input where
  step_eq _ _ _ := rfl
  waits _ := trivial
  pending _ := rfl

theorem trailer_fills (body : Body) :
    Fills (.trailer body) fun bytes _ input _ => afterTrailer body bytes.toList input where
  step_eq held input _ := by
    simp only [step]
    rcases held.fill input with ⟨_ | _, _⟩ <;> rfl
  waits _ := trivial
  pending _ := rfl

theorem skipSize_fills :
    Fills .skipSize fun bytes _ input _ => afterSkipSize bytes.toList input where
  step_eq held input _ := by
    simp only [step]
    rcases held.fill input with ⟨_ | _, _⟩ <;> rfl
  waits _ := trivial
  pending _ := rfl

end Lz4Frame.Decoder
