import Lz4Frame.Frame.Decoder.Info
import Lz4Frame.Frame.Encoder
import Lz4Frame.Host.Gate
import Lz4Frame.OutputBuffer

/-!
# Frames in one call

`compress` turns content into one frame that declares its length.  `decompress` reads one frame and
ignores what follows it.  The room for its output is guessed: from the declared length, but no more
than the input could ever expand to, or from a hint.  If the guess was too small the buffer grows
and decoding goes on where it stopped.
-/

namespace Lz4Frame

namespace Codec

/-- The initial room for frames that declare no length, unless another is chosen. -/
def defaultBufferSize : Nat := 1024

/-- No input expands more than this. -/
def maxExpansion : Nat := 255

variable [Platform]

/-- Makes one frame of content that is not empty. -/
def compress (gate : Gate) (prefs : Preferences) (content : Bytes) :
    Traced (Except Error Bytes) :=
  if content.isEmpty then
    ⟨.error .emptyInput, []⟩
  else
    let length := content.length
    let sized : Except Error (Preferences × Nat) := do
      prefs.validate
      let prefs := { prefs with declaredSize := some length }
      let room ← Bound.checked (Bound.frame prefs (UInt64.ofNat length))
      allocate room
      return (prefs, room)
    match sized with
    | .error cause => ⟨.error cause, []⟩
    | .ok (prefs, room) =>
        gate.run length fun _ => (Encoder.whole prefs room content).mapError .frame

/-- Whether compressing writes past the room that is found for the frame (`Encoder.Overrun`). -/
def Overruns (prefs : Preferences) (content : Bytes) : Prop :=
  let prefs := { prefs with declaredSize := some content.length }
  match Bound.checked (Bound.frame prefs (UInt64.ofNat content.length)) with
  | .ok room => Encoder.Overrun room (Encoder.whole prefs room content)
  | .error _ => False

theorem overruns_iff (prefs : Preferences) {content : Bytes} {room : Nat} :
    Bound.checked (Bound.frame { prefs with declaredSize := some content.length }
        (UInt64.ofNat content.length)) = .ok room →
      (Overruns prefs content ↔ Encoder.Overrun room
        (Encoder.whole { prefs with declaredSize := some content.length } room content)) := by
  intro hroom
  simp only [Overruns, hroom]

/-- The initial buffer of a frame that declares `declared` bytes, 0 if none, and has `length` bytes
behind its header. -/
def initialBuffer (declared length hint : Nat) : Except Error OutputBuffer :=
  if 0 < declared then
    OutputBuffer.new (min declared (min (length * maxExpansion) largestLength)) true
  else
    OutputBuffer.new (max hint length) false

/-- Decodes on, growing the buffer as often as it takes; `length` is the length of the input. -/
def decodeAll (gate : Gate) (decoder : Decoder) (input : Bytes) (length : Nat)
    (buffer : OutputBuffer) (events : Array LockEvent) (hspare : 0 < buffer.spare) :
    Traced (Except Error Bytes) :=
  let room := buffer.spare
  let events := events ++ gate.around length
  match hrun : decoder.run input room with
  | (_, .error code) => ⟨.error (.frame code), events.toList⟩
  | (next, .ok progress) =>
      let buffer := buffer.append progress.written (Decoder.run_written_size hrun)
      if hhint : progress.hint = 0 then
        ⟨.ok buffer.written.toList, events.toList⟩
      else if hrest : progress.rest = [] then
        ⟨.error .incompleteFrame, events.toList⟩
      else
        -- input is left and the frame goes on, so it was room that ran out
        match hgrow : buffer.grow with
        | .error cause => ⟨.error cause, events.toList⟩
        | .ok grown =>
            have hinput := Decoder.run_input_ne_nil hrun hrest
            have := ((Decoder.run_ahead hrun hinput hspare).resolve_left hhint).lex
            decodeAll gate next progress.rest (length - progress.consumed) grown events
              (OutputBuffer.grow_spare_pos hgrow)
termination_by (input.length, decoder.pendingLength)
decreasing_by assumption

/-- Decodes the frame that the input starts with. -/
def decompress (gate : Gate) (hint : Nat) (input : Bytes) : Traced (Except Error Bytes) :=
  if input.isEmpty then
    ⟨.error .emptyInput, []⟩
  else if hint = 0 then
    ⟨.error (.invalid .bufferSize hint), []⟩
  else
    match Decoder.new.frameInfo input with
    | (_, .error code) => ⟨.error (.frame code), [.call none]⟩
    | (decoder, .ok (info, headerLength)) =>
        let rest := input.drop headerLength
        let length := rest.length
        match hnew : initialBuffer info.declared length hint with
        | .error cause => ⟨.error cause, [.call none]⟩
        | .ok buffer =>
            decodeAll gate decoder rest length buffer #[.call none] (by
              unfold initialBuffer at hnew
              split at hnew <;> exact OutputBuffer.new_spare_pos hnew)

end Codec

end Lz4Frame
