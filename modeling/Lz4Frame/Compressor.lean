import Lz4Frame.Frame.Encoder
import Lz4Frame.Host.Gate

/-!
# Compressing frame after frame

A `Compressor` is an encoder that cannot be given too little room: it finds room for the worst case
itself, and it knows whether a frame is open.  Calls that it refuses change nothing.
-/

namespace Lz4Frame

/-- Whether a frame is open. -/
inductive Stage
  | idle
  | active
  deriving DecidableEq, Repr

/-- An encoder, the settings of its frame, and whether the frame is open. -/
structure Compressor where
  gate : Gate
  encoder : Encoder := .new
  prefs : Preferences := {}
  stage : Stage := .idle

namespace Compressor

/-- A compressor that has not started any frame. -/
def new (gate : Gate) : Compressor := { gate }

variable [Platform]

/-- Room for the worst case of an update by `length` bytes. -/
def roomFor (prefs : Preferences) (length : Nat) : Except Error Nat := do
  let room ← Bound.checked (Bound.update prefs (UInt64.ofNat length))
  allocate room
  return room

/-- Starts a frame, giving up the one that may be open; gives the header. -/
def start (compressor : Compressor) (prefs : Preferences) :
    Compressor × Traced (Except Error Bytes) :=
  match prefs.validate with
  | .error cause => (compressor, ⟨.error cause, []⟩)
  | .ok () =>
      match compressor.encoder.start Header.maxLength prefs with
      | (encoder, .error code) =>
          ({ compressor with encoder, stage := .idle }, .ofCall (.error (.frame code)))
      | (encoder, .ok header) =>
          ({ compressor with encoder, prefs, stage := .active }, .ofCall (.ok header))

/-- Starts a frame with settings whose block size comes as a number. -/
def startNumbered (compressor : Compressor) (blockSizeId : Nat) (prefs : Preferences) :
    Compressor × Traced (Except Error Bytes) :=
  match prefs.ofNumbers blockSizeId with
  | .error cause => (compressor, ⟨.error cause, []⟩)
  | .ok prefs => compressor.start prefs

/-- Takes content; gives the blocks that it completes. -/
def update (compressor : Compressor) (content : Bytes) :
    Compressor × Traced (Except Error Bytes) :=
  if content.isEmpty then
    (compressor, ⟨.error .emptyInput, []⟩)
  else
    match compressor.stage with
    | .idle => (compressor, ⟨.error (.frame .compressionStateUninitialized), []⟩)
    | .active =>
        let length := content.length
        match roomFor compressor.prefs length with
        | .error cause => (compressor, ⟨.error cause, []⟩)
        | .ok room =>
            -- updates are the calls that the gate is asked about
            let ⟨gate, encoder, prefs, stage⟩ := compressor
            let ⟨(encoder, result), events⟩ := gate.run length fun _ => encoder.update room content
            (⟨gate, encoder, prefs, stage⟩, ⟨result.mapError .frame, events⟩)

/-- Whether an update writes past the room that is found for it (`Encoder.Overrun`). -/
def Overruns (compressor : Compressor) (content : Bytes) : Prop :=
  match roomFor compressor.prefs content.length with
  | .ok room => Encoder.Overrun room (compressor.encoder.update room content).2
  | .error _ => False

instance (compressor : Compressor) (content : Bytes) : Decidable (compressor.Overruns content) := by
  unfold Overruns
  split <;> infer_instance

theorem overruns_iff {compressor : Compressor} {content : Bytes} {room : Nat} :
    roomFor compressor.prefs content.length = .ok room →
      (compressor.Overruns content
        ↔ Encoder.Overrun room (compressor.encoder.update room content).2) := by
  intro hroom
  simp only [Overruns, hroom]

/-- Turns content that waits into a block. -/
def flush (compressor : Compressor) : Compressor × Traced (Except Error Bytes) :=
  match compressor.stage with
  | .idle => (compressor, ⟨.error (.frame .compressionStateUninitialized), []⟩)
  | .active =>
      match roomFor compressor.prefs 0 with
      | .error cause => (compressor, ⟨.error cause, []⟩)
      | .ok room =>
          let (encoder, result) := compressor.encoder.flush room
          ({ compressor with encoder }, .ofCall (result.mapError .frame))

/-- Closes the frame.  It counts as closed even if closing fails. -/
def finish (compressor : Compressor) : Compressor × Traced (Except Error Bytes) :=
  match compressor.stage with
  | .idle => (compressor, ⟨.error (.frame .compressionStateUninitialized), []⟩)
  | .active =>
      match roomFor compressor.prefs 0 with
      | .error cause => (compressor, ⟨.error cause, []⟩)
      | .ok room =>
          let (encoder, result) := compressor.encoder.finish room
          ({ compressor with encoder, stage := .idle }, .ofCall (result.mapError .frame))

end Compressor

end Lz4Frame
