import Lz4Frame.Compressor
import Lz4Frame.Stream.Sink

/-!
# Writing a frame to a sink

A `Writer` makes one frame of everything that is written to it.  The header waits until there is
something to send; it goes out before the first block, or before the trailer if there is none.  The
compressor has taken content before the sink is asked, so a sink that fails may have cost bytes that
the caller still holds.
-/

namespace Lz4Frame

/-- A sink, the frame being written to it, and the header if it was not sent yet. -/
structure Writer where
  compressor : Compressor
  sink : Sink
  header : Option Bytes

namespace Writer

/-- Starts a frame on a sink, without sending anything. -/
def new (gate : Gate) (prefs : Preferences) (sink : Sink) : Traced (Except Error Writer) :=
  match (Compressor.new gate).start prefs with
  | (_, ⟨.error cause, events⟩) => ⟨.error cause, events⟩
  | (compressor, ⟨.ok header, events⟩) => ⟨.ok ⟨compressor, sink, some header⟩, events⟩

/-- The same over a compressor that is at hand, whatever it did before; a frame that it has open is
given up. -/
def ofCompressor (compressor : Compressor) (prefs : Preferences) (sink : Sink) :
    Traced (Except Error Writer) :=
  match compressor.start prefs with
  | (_, ⟨.error cause, events⟩) => ⟨.error cause, events⟩
  | (compressor, ⟨.ok header, events⟩) => ⟨.ok ⟨compressor, sink, some header⟩, events⟩

theorem new_eq_ofCompressor (gate : Gate) (prefs : Preferences) (sink : Sink) :
    new gate prefs sink = ofCompressor (.new gate) prefs sink :=
  rfl

/-- Sends bytes, behind the header if that was not sent yet. -/
def send (writer : Writer) (bytes : Bytes) : Writer × Except IoError Unit :=
  let ⟨compressor, sink, header⟩ := writer
  match header with
  | none =>
      let (sink, result) := sink.writeAll bytes
      (⟨compressor, sink, none⟩, result)
  | some header =>
      -- the header is out of hand before the sink has taken it
      match sink.writeAll header with
      | (sink, .error cause) => (⟨compressor, sink, none⟩, .error cause)
      | (sink, .ok ()) =>
          let (sink, result) := sink.writeAll bytes
          (⟨compressor, sink, none⟩, result)

/-- Sends bytes and has the sink pass them on. -/
def sendAndFlush (writer : Writer) (bytes : Bytes) : Writer × Except IoError Unit :=
  match writer.send bytes with
  | (writer, .error cause) => (writer, .error cause)
  | (writer, .ok ()) =>
      let (sink, result) := writer.sink.flush
      ({ writer with sink }, result)

variable [Platform]

/-- Writes content; gives the number of bytes, which is all of them. -/
def write (writer : Writer) (content : Bytes) : Writer × Traced (Except IoError Nat) :=
  if content.isEmpty then
    (writer, ⟨.ok 0, []⟩)
  else
    let ⟨compressor, sink, header⟩ := writer
    match compressor.update content with
    | (compressor, ⟨.error cause, events⟩) =>
        (⟨compressor, sink, header⟩, ⟨.error (.codec cause), events⟩)
    | (compressor, ⟨.ok blocks, events⟩) =>
        match send ⟨compressor, sink, header⟩ blocks with
        | (writer, .error cause) => (writer, ⟨.error cause, events⟩)
        | (writer, .ok ()) => (writer, ⟨.ok content.length, events⟩)

/-- Writes all of some content, however often that takes; it takes one call. -/
def writeAll (writer : Writer) (content : Bytes) : Writer × Traced (Except IoError Unit) :=
  let (writer, ⟨result, events⟩) := writer.write content
  (writer, ⟨result.map fun _ => (), events⟩)

/-- Sends what waits as a block and has the sink pass it on. -/
def flush (writer : Writer) : Writer × Traced (Except IoError Unit) :=
  let ⟨compressor, sink, header⟩ := writer
  match compressor.flush with
  | (compressor, ⟨.error cause, events⟩) =>
      (⟨compressor, sink, header⟩, ⟨.error (.codec cause), events⟩)
  | (compressor, ⟨.ok block, events⟩) =>
      let (writer, result) := sendAndFlush ⟨compressor, sink, header⟩ block
      (writer, ⟨result, events⟩)

/-- Closes the frame; gives the sink back. -/
def finish (writer : Writer) : Sink × Traced (Except IoError Unit) :=
  let ⟨compressor, sink, header⟩ := writer
  match compressor.finish with
  | (_, ⟨.error cause, events⟩) => (sink, ⟨.error (.codec cause), events⟩)
  | (compressor, ⟨.ok trailer, events⟩) =>
      let (writer, result) := sendAndFlush ⟨compressor, sink, header⟩ trailer
      (writer.sink, ⟨result, events⟩)

end Writer

end Lz4Frame
