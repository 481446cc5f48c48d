import Lz4Frame.Codec
import Lz4Frame.Compressor
import Lz4Frame.Decompressor
import Lz4Frame.Host.Threads
import Lz4Frame.Platform.Reference

/-!
# Two threads, one session

Two threads meet at one session.  One of them is inside while the other comes; the one that comes
gives the host lock back, so that the first can take it and finish.  In whatever order they take
turns, what the first does to the session is done once (`unlocking_work`, `calling_work`); `held`
and `inCall` are the orders in which the second has to wait.
-/

namespace Lz4Frame.Host.Contention

/-- Programs run on the platform of reference. -/
instance (priority := low) : Platform := Reference.platform

/-- A turn of the thread that is inside first. -/
def first : Turn := ⟨0, 0⟩

/-- A turn of the thread that has to wait. -/
def second : Turn := ⟨1, 0⟩

/-- What two threads came to, and what happened on the host lock. -/
structure Meeting (σ : Type) where
  content : σ
  log : List (Nat × LockEvent)

/-- What a world came to at its only session. -/
def Meeting.ofWorld {σ : Type} (world : World σ) : Meeting σ := ⟨world.content 0, world.history⟩

/-! ## The session is locked -/

/-- The first thread has the session locked, without the host lock; it changes the content and
unlocks it.  The second locks the session and unlocks it. -/
def unlocking {σ : Type} (content : σ) (work : σ → σ) : World σ where
  threads := [{ program := [.call 0 false work, .unlock 0] }, { program := visit [operation 0 []] }]
  owner session := if session = 0 then some first.thread else none
  content _ := content

theorem unlocking_work {σ : Type} (content : σ) (work : σ → σ) (turns : List Turn) :
    let world := (unlocking content work).run turns
    world.content 0 = content ∧ world.due 0 = [work]
      ∨ world.content 0 = work content ∧ world.due 0 = [] :=
  @World.run_single _ (unlocking content work) 0 work rfl turns

/-- The second thread comes while the first has the session locked. -/
def held {σ : Type} (content : σ) (work : σ → σ) : Meeting σ :=
  .ofWorld ((unlocking content work).run
    [second, second, first, first, second, second, second, second])

/-! ## The session is in a call -/

/-- The first thread makes a call with the host lock given back.  The second locks the session and
unlocks it. -/
def calling {σ : Type} (content : σ) (work : σ → σ) : World σ where
  threads := [
    { program := visit [operation 0 [(true, work)]] }, { program := visit [operation 0 []] }]
  content _ := content

theorem calling_work {σ : Type} (content : σ) (work : σ → σ) (turns : List Turn) :
    let world := (calling content work).run turns
    world.content 0 = content ∧ world.due 0 = [work]
      ∨ world.content 0 = work content ∧ world.due 0 = [] :=
  @World.run_single _ (calling content work) 0 work rfl turns

/-- The first thread is in its call when the second comes to look. -/
def inCall {σ : Type} (content : σ) (work : σ → σ) : Meeting σ :=
  .ofWorld ((calling content work).run
    [first, first, first, second, second, first, first, first, first, second, second, second,
      second])

/-! ## What is worked on -/

/-- A counter at 1 that its holder sets to 2. -/
def counter : Meeting Nat := held 1 fun _ => 2

/-- The gate that lets calls on 100 bytes run without the host lock. -/
def gate : Gate := ⟨.locked, 100⟩

/-- A compressor in the middle of an update by 100 bytes when its stage is asked for: the length of
the update's output, and the stage. -/
def compressing : Nat × Stage × List (Nat × LockEvent) :=
  let open' := ((Compressor.new gate).start {}).1
  let meeting := inCall (open', 0) fun (compressor, _) =>
    match compressor.update (List.replicate 100 1) with
    | (compressor, ⟨.ok out, _⟩) => (compressor, out.length)
    | (compressor, ⟨.error _, _⟩) => (compressor, 0)
  (meeting.content.2, meeting.content.1.stage, meeting.log)

/-- A decompressor in the middle of a frame of 50 bytes when it is asked for its information: how
many bytes were used, and whether there was information. -/
def decompressing : Nat × Bool × List (Nat × LockEvent) :=
  let frame :=
    match (Codec.compress gate {} (List.replicate 50 7)).value with
    | .ok frame => frame
    | .error _ => []
  let meeting := inCall (Decompressor.new gate, 0) fun (decompressor, _) =>
    match decompressor.update frame 100 with
    | (decompressor, ⟨.ok decoded, _⟩) => (decompressor, decoded.consumed)
    | (decompressor, ⟨.error _, _⟩) => (decompressor, 0)
  let asked := meeting.content.1.frameInfo.2.value
  (meeting.content.2, asked.isOk, meeting.log)

end Lz4Frame.Host.Contention
