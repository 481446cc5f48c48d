import Lz4Frame.Codec
import Lz4Frame.Host.Lock
import Lz4Frame.Proofs.Compressor.Lifecycle
import Lz4Frame.Proofs.Decompressor.Requests

/-!
# What becomes of the host lock

Every operation makes a row of engine calls, some of them through a gate, and what happens on the
host lock is settled by the amounts of data that the gate was asked about (`Accounted`).  The row
itself does not depend on the gate: one-shot decoding asks about the input that is left at each run
(`Codec.Decodes`), a decompressor about the room that is left in its chunk (`Decompressor.Spends`),
and every other operation makes one call at most.  So the lock is in the hands of its holder again
whatever an operation comes to, and what it comes to is the same for all thresholds
(`lock_accounting`).
-/

namespace Lz4Frame

/-! ## Calls and the lock -/

/-- What happens on the lock along a row of engine calls.  A call that no gate was asked about, or
one below the threshold, is made with the lock in hand; for any other the lock is given back right
before it and taken again right behind it. -/
inductive Accounted (threshold : Nat) : List (Option Nat) → List LockEvent → Prop
  | nil : Accounted threshold [] []
  | unasked {calls : List (Option Nat)} {events : List LockEvent}
      (others : Accounted threshold calls events) :
      Accounted threshold (none :: calls) (.call none :: events)
  | kept {amount : Nat} {calls : List (Option Nat)} {events : List LockEvent}
      (below : amount < threshold) (others : Accounted threshold calls events) :
      Accounted threshold (some amount :: calls) (.call (some amount) :: events)
  | released {amount : Nat} {calls : List (Option Nat)} {events : List LockEvent}
      (reached : threshold ≤ amount) (others : Accounted threshold calls events) :
      Accounted threshold (some amount :: calls)
        (.release :: .call (some amount) :: .acquire :: events)

/-- What a gate makes of a row of calls. -/
def Gate.along (gate : Gate) (calls : List (Option Nat)) : List LockEvent :=
  calls.flatMap fun
    | none => [.call none]
    | some amount => gate.around amount

/-- How many of the calls are made without the lock. -/
def releasedCalls (threshold : Nat) (calls : List (Option Nat)) : Nat :=
  calls.countP fun amount => amount.any (threshold ≤ ·)

namespace Accounted

variable {threshold : Nat}

/-- Whoever holds the lock holds it again behind the calls, and has given it back once for each call
that reaches the threshold. -/
theorem follow {calls : List (Option Nat)} {events : List LockEvent}
    (h : Accounted threshold calls events) {lock : HostLock} (hheld : lock.held = true)
    (seen : Option HostLock) :
    (lock.follow seen events).2
      = ⟨true, lock.releases + releasedCalls threshold calls⟩ := by
  induction h generalizing lock seen with
  | nil =>
      rcases lock with ⟨held, releases⟩
      exact congrArg (HostLock.mk · releases) hheld
  | unasked others ih => exact ih hheld _
  | @kept amount calls events below others ih =>
      have hnone : releasedCalls threshold (some amount :: calls)
          = releasedCalls threshold calls :=
        List.countP_cons_of_neg (by simpa using below)
      rw [hnone]
      exact ih hheld _
  | @released amount calls events reached others ih =>
      have hone : releasedCalls threshold (some amount :: calls)
          = releasedCalls threshold calls + 1 :=
        List.countP_cons_of_pos (by simpa using reached)
      rw [hone, ← Nat.add_assoc, Nat.add_right_comm]
      exact ih rfl _

end Accounted

@[simp] theorem Gate.along_nil (gate : Gate) : gate.along [] = [] := rfl

@[simp] theorem Gate.along_none (gate : Gate) (calls : List (Option Nat)) :
    gate.along (none :: calls) = .call none :: gate.along calls := rfl

@[simp] theorem Gate.along_some (gate : Gate) (amount : Nat) (calls : List (Option Nat)) :
    gate.along (some amount :: calls) = gate.around amount ++ gate.along calls := rfl

/-- A gate to the lock accounts for every row of calls. -/
theorem Gate.along_accounted (threshold : Nat) (calls : List (Option Nat)) :
    Accounted threshold calls (along ⟨.locked, threshold⟩ calls) := by
  induction calls with
  | nil => exact .nil
  | cons amount calls ih =>
      cases amount with
      | none => exact .unasked ih
      | some amount =>
          by_cases hreached : threshold ≤ amount
          · have haround : around ⟨.locked, threshold⟩ amount
                = [.release, .call (some amount), .acquire] := if_pos (decide_eq_true hreached)
            rw [along_some, haround]
            exact .released hreached ih
          · have haround : around ⟨.locked, threshold⟩ amount = [.call (some amount)] :=
              if_neg (by simpa [releasesFor] using hreached)
            rw [along_some, haround]
            exact .kept (Nat.lt_of_not_le hreached) ih

variable [Platform]

/-! ## Compressing in one call -/

namespace Codec

/-- What it takes to get as far as the encoder. -/
structure Reaches (prefs : Preferences) (content : Bytes) (room : Nat) : Prop where
  ne_nil : content ≠ []
  valid : prefs.validate = .ok ()
  bound : Bound.checked (Bound.frame { prefs with declaredSize := some content.length }
    (UInt64.ofNat content.length)) = .ok room
  available : allocate room = .ok ()

/-- The engine calls of `compress`: one on all of the content, if it gets that far. -/
inductive CompressMakes (prefs : Preferences) (content : Bytes) : List (Option Nat) → Prop
  | reached {room : Nat} (reaches : Reaches prefs content room) :
      CompressMakes prefs content [some content.length]
  | refused (unreached : ∀ room, ¬ Reaches prefs content room) : CompressMakes prefs content []

theorem compress_makes (prefs : Preferences) (content : Bytes) :
    ∃ calls value, CompressMakes prefs content calls
      ∧ ∀ gate : Gate, compress gate prefs content = ⟨value, gate.along calls⟩ := by
  by_cases hne : content = []
  · refine ⟨[], .error .emptyInput, .refused fun room h => h.ne_nil hne, fun gate => ?_⟩
    simp [compress, hne]
  have hempty : ¬ content.isEmpty = true := by simpa [List.isEmpty_iff] using hne
  cases hvalid : prefs.validate with
  | error cause =>
      refine ⟨[], .error cause, .refused fun room h => ?_, fun gate => ?_⟩
      · cases hvalid.symm.trans h.valid
      · simp only [compress, if_neg hempty, hvalid]
        rfl
  | ok =>
      cases hbound : Bound.checked (Bound.frame { prefs with declaredSize := some content.length }
          (UInt64.ofNat content.length)) with
      | error cause =>
          refine ⟨[], .error cause, .refused fun room h => ?_, fun gate => ?_⟩
          · cases hbound.symm.trans h.bound
          · simp only [compress, if_neg hempty, hvalid, hbound]
            rfl
      | ok room =>
          cases havailable : allocate room with
          | error cause =>
              refine ⟨[], .error cause, .refused fun room' h => ?_, fun gate => ?_⟩
              · cases hbound.symm.trans h.bound
                cases havailable.symm.trans h.available
              · simp only [compress, if_neg hempty, hvalid, hbound, bind, Except.bind, havailable]
                rfl
          | ok =>
              refine ⟨[some content.length],
                (Encoder.whole { prefs with declaredSize := some content.length } room
                  content).mapError .frame,
                .reached ⟨hne, hvalid, hbound, havailable⟩, fun gate => ?_⟩
              simp only [compress, if_neg hempty, hvalid, hbound, bind, Except.bind, havailable,
                Gate.along_some, Gate.along_nil, List.append_nil]
              rfl

/-! ## Decompressing in one call -/

/-- The runs of the decoding loop: each is given all of the input that is left, and it is the last
one if it fails, ends the frame, uses up the input or leaves a buffer that cannot grow. -/
inductive Decodes : Decoder → Bytes → OutputBuffer → List (Option Nat) → Prop
  | failed {decoder next : Decoder} {input : Bytes} {buffer : OutputBuffer} {code : ErrorCode}
      (run_eq : decoder.run input buffer.spare = (next, .error code)) :
      Decodes decoder input buffer [some input.length]
  | ended {decoder next : Decoder} {input : Bytes} {buffer : OutputBuffer}
      {progress : Decoder.Progress}
      (run_eq : decoder.run input buffer.spare = (next, .ok progress))
      (ends : progress.hint = 0 ∨ progress.rest = []) :
      Decodes decoder input buffer [some input.length]
  | full {decoder next : Decoder} {input : Bytes} {buffer : OutputBuffer}
      {progress : Decoder.Progress} {cause : Error}
      (run_eq : decoder.run input buffer.spare = (next, .ok progress))
      (hint_ne : progress.hint ≠ 0) (rest_ne : progress.rest ≠ [])
      (grow_eq : (buffer.append progress.written (Decoder.run_written_size run_eq)).grow
        = .error cause) :
      Decodes decoder input buffer [some input.length]
  | grown {decoder next : Decoder} {input : Bytes} {buffer grown : OutputBuffer}
      {progress : Decoder.Progress} {calls : List (Option Nat)}
      (run_eq : decoder.run input buffer.spare = (next, .ok progress))
      (hint_ne : progress.hint ≠ 0) (rest_ne : progress.rest ≠ [])
      (grow_eq : (buffer.append progress.written (Decoder.run_written_size run_eq)).grow
        = .ok grown)
      (others : Decodes next progress.rest grown calls) :
      Decodes decoder input buffer (some input.length :: calls)

theorem decodeAll_failed (gate : Gate) {decoder next : Decoder} {input : Bytes}
    {buffer : OutputBuffer} {code : ErrorCode}
    (hrun : decoder.run input buffer.spare = (next, .error code)) (length : Nat)
    (events : Array LockEvent) (hspare : 0 < buffer.spare) :
    decodeAll gate decoder input length buffer events hspare
      = ⟨.error (.frame code), events.toList ++ gate.around length⟩ := by
  rw [decodeAll]
  split
  · rename_i hother
    rw [hrun] at hother
    cases hother
    simp
  · rename_i hother
    rw [hrun] at hother
    cases hother

/-- What the loop makes of a run that does not fail. -/
theorem decodeAll_run (gate : Gate) {decoder next : Decoder} {input : Bytes}
    {buffer : OutputBuffer} {progress : Decoder.Progress}
    (hrun : decoder.run input buffer.spare = (next, .ok progress)) (length : Nat)
    (events : Array LockEvent) (hspare : 0 < buffer.spare) :
    decodeAll gate decoder input length buffer events hspare
      = if progress.hint = 0 then
          ⟨.ok (buffer.written ++ progress.written).toList, events.toList ++ gate.around length⟩
        else if progress.rest = [] then
          ⟨.error .incompleteFrame, events.toList ++ gate.around length⟩
        else
          match hgrow : (buffer.append progress.written (Decoder.run_written_size hrun)).grow with
          | .error cause => ⟨.error cause, events.toList ++ gate.around length⟩
          | .ok grown =>
              decodeAll gate next progress.rest (length - progress.consumed) grown
                (events ++ gate.around length) (OutputBuffer.grow_spare_pos hgrow) := by
  have hevents : (events ++ gate.around length).toList = events.toList ++ gate.around length := by
    simp
  rw [decodeAll]
  split
  · rename_i hother
    rw [hrun] at hother
    cases hother
  · rename_i hother
    rw [hrun] at hother
    cases hother
    simp only [hevents]
    rfl

/-- The gate is asked about the input that is left at each run, and what comes of the loop is none
of its business. -/
theorem decodeAll_makes (decoder : Decoder) {input : Bytes} {length : Nat} {buffer : OutputBuffer}
    (hspare : 0 < buffer.spare) (hlength : length = input.length) :
    ∃ calls value, Decodes decoder input buffer calls
      ∧ ∀ (gate : Gate) (events : Array LockEvent),
        decodeAll gate decoder input length buffer events hspare
          = ⟨value, events.toList ++ gate.along calls⟩ := by
  -- on the runs, which are the same through any gate
  fun_induction decodeAll .native decoder input length buffer #[] hspare with
  | case1 decoder input length buffer events₀ hspare room events₁ next code hrun =>
      refine ⟨[some input.length], .error (.frame code), .failed hrun, fun gate events => ?_⟩
      rw [decodeAll_failed gate hrun, hlength]
      simp
  | case2 decoder input length buffer events₀ hspare room events₁ next progress hrun grown hzero =>
      refine ⟨[some input.length], .ok (buffer.written ++ progress.written).toList,
        .ended hrun (.inl hzero), fun gate events => ?_⟩
      rw [decodeAll_run gate hrun, if_pos hzero, hlength]
      simp
  | case3 decoder input length buffer events₀ hspare room events₁ next progress hrun hnz hrest =>
      refine ⟨[some input.length], .error .incompleteFrame, .ended hrun (.inr hrest),
        fun gate events => ?_⟩
      rw [decodeAll_run gate hrun, if_neg hnz, if_pos hrest, hlength]
      simp
  | case4 decoder input length buffer events₀ hspare room events₁ next progress hrun grown hnz
      hrest cause hgrow =>
      refine ⟨[some input.length], .error cause, .full hrun hnz hrest hgrow,
        fun gate events => ?_⟩
      rw [decodeAll_run gate hrun, if_neg hnz, if_neg hrest, hlength]
      split
      · rename_i hsame
        cases hsame.symm.trans hgrow
        simp
      · rename_i hother
        cases hother.symm.trans hgrow
  | case5 decoder input length buffer events₀ hspare room events₁ next progress hrun grown hnz
      hrest bigger hgrow hinput hlex ih =>
      -- what is left of the input is what its length less the bytes that were read says
      have hleft : length - progress.consumed = progress.rest.length := by
        rcases Decoder.run_rest hrun with ⟨taken, htaken, hconsumed⟩
        have := congrArg List.length htaken
        rw [List.length_append] at this
        omega
      rcases ih hleft with ⟨calls, value, hcalls, hvalue⟩
      refine ⟨some input.length :: calls, value, .grown hrun hnz hrest hgrow hcalls,
        fun gate events => ?_⟩
      rw [decodeAll_run gate hrun, if_neg hnz, if_neg hrest]
      split
      · rename_i hother
        cases hother.symm.trans hgrow
      · rename_i hsame
        cases hsame.symm.trans hgrow
        rw [hvalue, hlength]
        simp

/-- The engine calls of `decompress`: one for the header, and the runs of the loop, if it gets that
far. -/
inductive DecompressMakes (hint : Nat) (input : Bytes) : List (Option Nat) → Prop
  | refused (refused : input = [] ∨ hint = 0) : DecompressMakes hint input []
  | badHeader {decoder : Decoder} {code : ErrorCode} (ne_nil : input ≠ []) (hint_ne : hint ≠ 0)
      (header_eq : Decoder.new.frameInfo input = (decoder, .error code)) :
      DecompressMakes hint input [none]
  | noBuffer {decoder : Decoder} {info : FrameInfo} {length : Nat} {cause : Error}
      (ne_nil : input ≠ []) (hint_ne : hint ≠ 0)
      (header_eq : Decoder.new.frameInfo input = (decoder, .ok (info, length)))
      (buffer_eq : initialBuffer info.declared (input.drop length).length hint = .error cause) :
      DecompressMakes hint input [none]
  | decoded {decoder : Decoder} {info : FrameInfo} {length : Nat} {buffer : OutputBuffer}
      {calls : List (Option Nat)} (ne_nil : input ≠ []) (hint_ne : hint ≠ 0)
      (header_eq : Decoder.new.frameInfo input = (decoder, .ok (info, length)))
      (buffer_eq : initialBuffer info.declared (input.drop length).length hint = .ok buffer)
      (runs : Decodes decoder (input.drop length) buffer calls) :
      DecompressMakes hint input (none :: calls)

theorem decompress_makes (hint : Nat) (input : Bytes) :
    ∃ calls value, DecompressMakes hint input calls
      ∧ ∀ gate : Gate, decompress gate hint input = ⟨value, gate.along calls⟩ := by
  by_cases hne : input = []
  · refine ⟨[], .error .emptyInput, .refused (.inl hne), fun gate => ?_⟩
    simp [decompress, hne]
  have hempty : ¬ input.isEmpty = true := by simpa [List.isEmpty_iff] using hne
  by_cases hhint : hint = 0
  · refine ⟨[], .error (.invalid .bufferSize hint), .refused (.inr hhint), fun gate => ?_⟩
    rw [decompress, if_neg hempty, if_pos hhint]
    rfl
  rcases hheader : Decoder.new.frameInfo input with ⟨decoder, code | ⟨info, length⟩⟩
  · refine ⟨[none], .error (.frame code), .badHeader hne hhint hheader, fun gate => ?_⟩
    rw [decompress, if_neg hempty, if_neg hhint]
    simp only [hheader]
    rfl
  · cases hbuffer : initialBuffer info.declared (input.drop length).length hint with
    | error cause =>
        refine ⟨[none], .error cause, .noBuffer hne hhint hheader hbuffer, fun gate => ?_⟩
        rw [decompress, if_neg hempty, if_neg hhint]
        simp only [hheader]
        split
        · rename_i hsame
          cases hsame.symm.trans hbuffer
          rfl
        · rename_i hother
          cases hother.symm.trans hbuffer
    | ok buffer =>
        have hspare : 0 < buffer.spare := by
          unfold initialBuffer at hbuffer
          split at hbuffer <;> exact OutputBuffer.new_spare_pos hbuffer
        rcases decodeAll_makes decoder hspare (Eq.refl (input.drop length).length)
            with ⟨calls, value, hcalls, hvalue⟩
        refine ⟨none :: calls, value, .decoded hne hhint hheader hbuffer hcalls, fun gate => ?_⟩
        rw [decompress, if_neg hempty, if_neg hhint]
        simp only [hheader]
        split
        · rename_i hother
          cases hother.symm.trans hbuffer
        · rename_i hsame
          cases hsame.symm.trans hbuffer
          rw [hvalue]
          rfl

end Codec

/-! ## Compressing frame after frame -/

namespace Compressor

/-- What happens on the host lock while a request is done. -/
def eventsOf (compressor : Compressor) : Operation → List LockEvent
  | .start prefs => (compressor.start prefs).2.events
  | .update content => (compressor.update content).2.events
  | .flush => compressor.flush.2.events
  | .finish => compressor.finish.2.events
  | .stage => []
  | .preferences => []

/-- The engine calls of a request, at a stage and under the settings of the frame. -/
inductive Makes (settings : Preferences) : Stage → Operation → List (Option Nat) → Prop
  | started {stage : Stage} {prefs : Preferences} (valid : prefs.validate = .ok ()) :
      Makes settings stage (.start prefs) [none]
  | outOfRange {stage : Stage} {prefs : Preferences} {cause : Error}
      (invalid : prefs.validate = .error cause) : Makes settings stage (.start prefs) []
  | updated {content : Bytes} {room : Nat} (ne_nil : content ≠ [])
      (room_eq : roomFor settings content.length = .ok room) :
      Makes settings .active (.update content) [some content.length]
  | unreached {stage : Stage} {content : Bytes} (refused : content = [] ∨ stage = .idle
        ∨ ∃ cause, roomFor settings content.length = .error cause) :
      Makes settings stage (.update content) []
  | flushed : Makes settings .active .flush [none]
  | finished : Makes settings .active .finish [none]
  | notOpen {operation : Operation} (closing : operation = .flush ∨ operation = .finish) :
      Makes settings .idle operation []
  | asked {stage : Stage} {operation : Operation}
      (asking : operation = .stage ∨ operation = .preferences) : Makes settings stage operation []

/-- A call that does the same through every gate, and leaves the engine calls `calls` on the
lock. -/
def Uniform (call : Compressor → Compressor × Traced (Except Error Bytes)) (encoder : Encoder)
    (settings : Preferences) (stage : Stage) (calls : List (Option Nat)) : Prop :=
  ∃ next settings' stage' value, ∀ gate : Gate, call ⟨gate, encoder, settings, stage⟩
    = (⟨gate, next, settings', stage'⟩, ⟨value, gate.along calls⟩)

section Requests

variable (encoder : Encoder) (settings : Preferences) (stage : Stage)

theorem start_uniform (prefs : Preferences) :
    ∃ calls, Makes settings stage (.start prefs) calls
      ∧ Uniform (·.start prefs) encoder settings stage calls := by
  cases hvalid : prefs.validate with
  | error cause =>
      refine ⟨[], .outOfRange hvalid, encoder, settings, stage, .error cause, fun gate => ?_⟩
      simp only [start, hvalid]
      rfl
  | ok =>
      rcases hencoder : encoder.start Header.maxLength prefs with ⟨next, code | header⟩
      · refine ⟨[none], .started hvalid, next, settings, .idle, .error (.frame code),
          fun gate => ?_⟩
        simp only [start, hvalid, hencoder]
        rfl
      · refine ⟨[none], .started hvalid, next, prefs, .active, .ok header, fun gate => ?_⟩
        simp only [start, hvalid, hencoder]
        rfl

theorem update_uniform (content : Bytes) :
    ∃ calls, Makes settings stage (.update content) calls
      ∧ Uniform (·.update content) encoder settings stage calls := by
  by_cases hne : content = []
  · refine ⟨[], .unreached (.inl hne), encoder, settings, stage, .error .emptyInput,
      fun gate => ?_⟩
    simp [update, hne]
  have hempty : ¬ content.isEmpty = true := by simpa [List.isEmpty_iff] using hne
  cases stage with
  | idle =>
      refine ⟨[], .unreached (.inr (.inl rfl)), encoder, settings, .idle,
        .error (.frame .compressionStateUninitialized), fun gate => ?_⟩
      simp only [update, if_neg hempty]
      rfl
  | active =>
      cases hroom : roomFor settings content.length with
      | error cause =>
          refine ⟨[], .unreached (.inr (.inr ⟨cause, hroom⟩)), encoder, settings, .active,
            .error cause, fun gate => ?_⟩
          simp only [update, if_neg hempty, hroom]
          rfl
      | ok room =>
          refine ⟨[some content.length], .updated hne hroom, (encoder.update room content).1,
            settings, .active, (encoder.update room content).2.mapError .frame, fun gate => ?_⟩
          simp only [update_eq gate encoder hne hroom, Gate.along_some, Gate.along_nil,
            List.append_nil]

theorem flush_uniform :
    ∃ calls, Makes settings stage .flush calls
      ∧ Uniform flush encoder settings stage calls := by
  cases stage with
  | idle =>
      exact ⟨[], .notOpen (.inl rfl), encoder, settings, .idle,
        .error (.frame .compressionStateUninitialized), fun gate => rfl⟩
  | active =>
      have hroom := Bound.roomFor_eq (Bound.countable_zero settings)
      rcases hflush : encoder.flush (Bound.worst settings 0 (Bound.mostHeld settings))
          with ⟨next, result⟩
      refine ⟨[none], .flushed, next, settings, .active, result.mapError .frame, fun gate => ?_⟩
      simp only [flush, hroom, hflush]
      rfl

theorem finish_uniform :
    ∃ calls, Makes settings stage .finish calls
      ∧ Uniform finish encoder settings stage calls := by
  cases stage with
  | idle =>
      exact ⟨[], .notOpen (.inr rfl), encoder, settings, .idle,
        .error (.frame .compressionStateUninitialized), fun gate => rfl⟩
  | active =>
      have hroom := Bound.roomFor_eq (Bound.countable_zero settings)
      rcases hfinish : encoder.finish (Bound.worst settings 0 (Bound.mostHeld settings))
          with ⟨next, result⟩
      refine ⟨[none], .finished, next, settings, .idle, result.mapError .frame, fun gate => ?_⟩
      simp only [finish, hroom, hfinish]
      rfl

/-- One request does the same through every gate. -/
theorem perform_uniform (operation : Operation) :
    ∃ calls next settings' stage' reply, Makes settings stage operation calls
      ∧ ∀ gate : Gate, perform ⟨gate, encoder, settings, stage⟩ operation
          = (⟨gate, next, settings', stage'⟩, reply)
        ∧ eventsOf ⟨gate, encoder, settings, stage⟩ operation = gate.along calls := by
  cases operation with
  | start prefs =>
      rcases start_uniform encoder settings stage prefs
          with ⟨calls, hcalls, next, settings', stage', value, hstart⟩
      exact ⟨calls, next, settings', stage', .bytes value, hcalls,
        fun gate => by simp only [perform, eventsOf, hstart, and_self]⟩
  | update content =>
      rcases update_uniform encoder settings stage content
          with ⟨calls, hcalls, next, settings', stage', value, hupdate⟩
      exact ⟨calls, next, settings', stage', .bytes value, hcalls,
        fun gate => by simp only [perform, eventsOf, hupdate, and_self]⟩
  | flush =>
      rcases flush_uniform encoder settings stage
          with ⟨calls, hcalls, next, settings', stage', value, hflush⟩
      exact ⟨calls, next, settings', stage', .bytes value, hcalls,
        fun gate => by simp only [perform, eventsOf, hflush, and_self]⟩
  | finish =>
      rcases finish_uniform encoder settings stage
          with ⟨calls, hcalls, next, settings', stage', value, hfinish⟩
      exact ⟨calls, next, settings', stage', .bytes value, hcalls,
        fun gate => by simp only [perform, eventsOf, hfinish, and_self]⟩
  | stage =>
      exact ⟨[], encoder, settings, stage, .stage stage, .asked (.inl rfl), fun gate => ⟨rfl, rfl⟩⟩
  | preferences =>
      exact ⟨[], encoder, settings, stage, .preferences settings, .asked (.inr rfl),
        fun gate => ⟨rfl, rfl⟩⟩

end Requests

/-- A history does the same through every gate. -/
theorem after_uniform (encoder : Encoder) (settings : Preferences) (stage : Stage)
    (history : List Operation) :
    ∃ next settings' stage', ∀ gate : Gate,
      after ⟨gate, encoder, settings, stage⟩ history = ⟨gate, next, settings', stage'⟩ := by
  induction history generalizing encoder settings stage with
  | nil => exact ⟨encoder, settings, stage, fun gate => rfl⟩
  | cons operation history ih =>
      rcases perform_uniform encoder settings stage operation
          with ⟨calls, next, settings', stage', reply, -, hperform⟩
      rcases ih next settings' stage' with ⟨last, settings'', stage'', hafter⟩
      refine ⟨last, settings'', stage'', fun gate => ?_⟩
      rw [after, List.foldl_cons, (hperform gate).1]
      exact hafter gate

end Compressor

/-! ## Decompressing frame after frame -/

namespace Decompressor

/-- The runs of one call, where `filled` bytes of the chunk at hand are taken: each may fill what is
left of the chunk, a full chunk makes way for the next one, and the last run fails, ends the frame
or uses up the piece. -/
inductive Spends (chunkLength : Nat) :
    Decoder → Bytes → (filled : Nat) → List (Option Nat) → Prop
  | nothing {decoder : Decoder} {filled : Nat} : Spends chunkLength decoder [] filled []
  | nextChunk {decoder : Decoder} {piece : Bytes} {calls : List (Option Nat)} (ne_nil : piece ≠ [])
      (others : Spends chunkLength decoder piece 0 calls) :
      Spends chunkLength decoder piece chunkLength calls
  | failed {decoder next : Decoder} {piece : Bytes} {filled : Nat} {code : ErrorCode}
      (ne_nil : piece ≠ []) (filled_lt : filled < chunkLength)
      (run_eq : decoder.run piece (chunkLength - filled) = (next, .error code)) :
      Spends chunkLength decoder piece filled [some (chunkLength - filled)]
  | ended {decoder next : Decoder} {piece : Bytes} {filled : Nat} {progress : Decoder.Progress}
      (ne_nil : piece ≠ []) (filled_lt : filled < chunkLength)
      (run_eq : decoder.run piece (chunkLength - filled) = (next, .ok progress))
      (ends : progress.hint = 0) :
      Spends chunkLength decoder piece filled [some (chunkLength - filled)]
  | further {decoder next : Decoder} {piece : Bytes} {filled : Nat} {progress : Decoder.Progress}
      {calls : List (Option Nat)} (ne_nil : piece ≠ []) (filled_lt : filled < chunkLength)
      (run_eq : decoder.run piece (chunkLength - filled) = (next, .ok progress))
      (hint_ne : progress.hint ≠ 0)
      (others : Spends chunkLength next progress.rest (filled + progress.written.size) calls) :
      Spends chunkLength decoder piece filled (some (chunkLength - filled) :: calls)

/-- What is taken of the chunk may be counted from all of the content, but a full chunk is not an
empty one yet. -/
theorem Spends.filled {chunkLength size filled : Nat} {decoder : Decoder} {piece : Bytes}
    {calls : List (Option Nat)} (h : Spends chunkLength decoder piece (size % chunkLength) calls)
    (hle : filled ≤ chunkLength) (hmod : filled % chunkLength = size % chunkLength) :
    Spends chunkLength decoder piece filled calls := by
  rcases Nat.lt_or_eq_of_le hle with hlt | rfl
  · rw [← hmod, Nat.mod_eq_of_lt hlt] at h
    exact h
  · rw [← hmod, Nat.mod_self] at h
    by_cases hpiece : piece = []
    · subst hpiece
      cases h with
      | nothing => exact .nothing
      | nextChunk ne_nil => exact absurd rfl ne_nil
      | failed ne_nil => exact absurd rfl ne_nil
      | ended ne_nil => exact absurd rfl ne_nil
      | further ne_nil => exact absurd rfl ne_nil
    · exact .nextChunk hpiece h

/-- The gate is asked about the room that is left in the chunk, and what comes of the piece is none
of its business. -/
theorem feed_makes {chunkLength : Nat} (hchunk : 0 < chunkLength)
    (hgranted : Platform.grants chunkLength = true) (decoder : Decoder) (piece : Bytes)
    (out : Array UInt8) (hint consumed : Nat) :
    ∃ calls next result, Spends chunkLength decoder piece (out.size % chunkLength) calls
      ∧ ∀ (gate : Gate) (events : Array LockEvent),
        feed gate chunkLength hchunk decoder piece out hint consumed events
          = ⟨next, result, events ++ gate.along calls⟩ := by
  -- on the runs, which are the same through any gate
  fun_induction feed .native chunkLength hchunk decoder piece out hint consumed #[] with
  | case1 decoder out hint consumed events₀ =>
      refine ⟨[], decoder, .ok (out, hint, consumed), .nothing, fun gate events => ?_⟩
      rw [feed_nil]
      simp
  | case2 decoder piece out hint consumed events₀ hpiece cause hasked =>
      rw [nextChunk_of_grants hgranted] at hasked
      cases hasked
  | case3 decoder piece out hint consumed events₀ hpiece hasked room events₁ next code hrun =>
      have hlt := Nat.mod_lt out.size hchunk
      refine ⟨_, next, .error (.frame code), .failed hpiece hlt hrun, fun gate events => ?_⟩
      rw [feed_failed_eq gate hchunk hgranted hpiece hrun, Gate.along_some, Gate.along_nil,
        List.append_nil]
  | case4 decoder piece out hint consumed events₀ hpiece hasked room events₁ next progress hrun
      grown used hzero =>
      have hlt := Nat.mod_lt out.size hchunk
      refine ⟨_, next, .ok (grown, 0, used), .ended hpiece hlt hrun hzero, fun gate events => ?_⟩
      rw [feed_run_eq gate hchunk hgranted hpiece hrun, if_pos hzero, Gate.along_some,
        Gate.along_nil, List.append_nil]
  | case5 decoder piece out hint consumed events₀ hpiece hasked room events₁ next progress hrun
      grown used hnz hroom hlex ih =>
      have hlt := Nat.mod_lt out.size hchunk
      have hwritten := Decoder.run_written_size hrun
      have hsize : grown.size = out.size + progress.written.size := Array.size_append
      have hmod : (out.size % chunkLength + progress.written.size) % chunkLength
          = grown.size % chunkLength := by
        rw [hsize, Nat.mod_add_mod]
      rcases ih with ⟨calls, last, result, hcalls, hfeed⟩
      refine ⟨_, last, result, .further hpiece hlt hrun hnz (hcalls.filled (by omega) hmod),
        fun gate events => ?_⟩
      rw [feed_run_eq gate hchunk hgranted hpiece hrun, if_neg hnz, hfeed, Gate.along_some,
        append_list_append]

/-- What happens on the host lock while a request is done. -/
def eventsOf (decompressor : Decompressor) : Operation → List LockEvent
  | .update piece chunkLength => (decompressor.update piece chunkLength).2.events
  | .frameInfo => decompressor.frameInfo.2.events
  | .reset => decompressor.reset.2.events

/-- The engine calls of a request. -/
inductive Makes (decoder : Decoder) : Operation → List (Option Nat) → Prop
  | updated {piece : Bytes} {chunkLength : Nat} {calls : List (Option Nat)} (ne_nil : piece ≠ [])
      (chunk_pos : 0 < chunkLength) (available : allocate chunkLength = .ok ())
      (runs : Spends chunkLength decoder piece 0 calls) :
      Makes decoder (.update piece chunkLength) calls
  | refused {piece : Bytes} {chunkLength : Nat}
      (unreached : piece = [] ∨ chunkLength = 0 ∨ ∃ cause, allocate chunkLength = .error cause) :
      Makes decoder (.update piece chunkLength) []
  | frameInfo : Makes decoder .frameInfo [none]
  | reset : Makes decoder .reset [none]

theorem update_uniform (decoder : Decoder) (piece : Bytes) (chunkLength : Nat) :
    ∃ calls next value, Makes decoder (.update piece chunkLength) calls
      ∧ ∀ gate : Gate, update ⟨gate, decoder⟩ piece chunkLength
        = (⟨gate, next⟩, ⟨value, gate.along calls⟩) := by
  by_cases hpiece : piece = []
  · refine ⟨[], decoder, .error .emptyInput, .refused (.inl hpiece), fun gate => ?_⟩
    simp [update, hpiece]
  have hempty : ¬ piece.isEmpty = true := by simpa [List.isEmpty_iff] using hpiece
  by_cases hchunk : chunkLength = 0
  · refine ⟨[], decoder, .error (.invalid .chunkLength chunkLength), .refused (.inr (.inl hchunk)),
      fun gate => ?_⟩
    rw [update, if_neg hempty, dif_pos hchunk]
    rfl
  cases havailable : allocate chunkLength with
  | error cause =>
      refine ⟨[], decoder, .error cause, .refused (.inr (.inr ⟨cause, havailable⟩)),
        fun gate => ?_⟩
      rw [update, if_neg hempty, dif_neg hchunk, havailable]
      rfl
  | ok =>
      have hfits : Portion.Fits ⟨piece, chunkLength⟩ :=
        ⟨hpiece, Nat.pos_of_ne_zero hchunk, grants_of_allocate havailable⟩
      rcases feed_makes hfits.chunk_pos hfits.chunk_granted decoder piece #[] 1 0
        with ⟨calls, next, result, hcalls, hfeed⟩
      refine ⟨calls, next, answer chunkLength result, .updated hpiece hfits.chunk_pos havailable
        (by simpa using hcalls), fun gate => ?_⟩
      rw [update_fed gate hfits (hfeed gate #[])]
      simp

/-- One request does the same through every gate. -/
theorem perform_uniform (decoder : Decoder) (operation : Operation) :
    ∃ calls next reply, Makes decoder operation calls
      ∧ ∀ gate : Gate, perform ⟨gate, decoder⟩ operation = (⟨gate, next⟩, reply)
        ∧ eventsOf ⟨gate, decoder⟩ operation = gate.along calls := by
  cases operation with
  | update piece chunkLength =>
      rcases update_uniform decoder piece chunkLength with ⟨calls, next, value, hcalls, hupdate⟩
      exact ⟨calls, next, .decoded value, hcalls,
        fun gate => by simp only [perform, eventsOf, hupdate, and_self]⟩
  | frameInfo =>
      rcases hinfo : decoder.frameInfo [] with ⟨next, result⟩
      refine ⟨[none], next, .info ((result.map Prod.fst).mapError .frame), .frameInfo,
        fun gate => ?_⟩
      simp only [perform, eventsOf, frameInfo, hinfo]
      exact ⟨rfl, rfl⟩
  | reset => exact ⟨[none], .new, .done, .reset, fun gate => ⟨rfl, rfl⟩⟩

/-- A history does the same through every gate. -/
theorem after_uniform (decoder : Decoder) (history : List Operation) :
    ∃ next, ∀ gate : Gate, after ⟨gate, decoder⟩ history = ⟨gate, next⟩ := by
  induction history generalizing decoder with
  | nil => exact ⟨decoder, fun gate => rfl⟩
  | cons operation history ih =>
      rcases perform_uniform decoder operation with ⟨calls, next, reply, -, hperform⟩
      rcases ih next with ⟨last, hafter⟩
      refine ⟨last, fun gate => ?_⟩
      rw [after, List.foldl_cons, (hperform gate).1]
      exact hafter gate

end Decompressor

/-! ## Every operation -/

/-- An operation of a thread that has its sessions to itself: a one-shot call, or one more request
behind any history of a session. -/
inductive Job
  | compress (prefs : Preferences) (content : Bytes)
  | decompress (hint : Nat) (input : Bytes)
  | compressor (past : List Compressor.Operation) (operation : Compressor.Operation)
  | decompressor (past : List Decompressor.Operation) (operation : Decompressor.Operation)

/-- What an operation answers. -/
inductive Job.Answer
  | bytes (result : Except Error Bytes)
  | compressor (reply : Compressor.Reply)
  | decompressor (reply : Decompressor.Reply)

namespace Job

/-- Does an operation through a gate. -/
def run (gate : Gate) : Job → Traced Answer
  | .compress prefs content =>
      let done := Codec.compress gate prefs content
      ⟨.bytes done.value, done.events⟩
  | .decompress hint input =>
      let done := Codec.decompress gate hint input
      ⟨.bytes done.value, done.events⟩
  | .compressor past operation =>
      let compressor := (Compressor.new gate).after past
      ⟨.compressor (compressor.perform operation).2, compressor.eventsOf operation⟩
  | .decompressor past operation =>
      let decompressor := (Decompressor.new gate).after past
      ⟨.decompressor (decompressor.perform operation).2, decompressor.eventsOf operation⟩

/-- The engine calls of an operation.  No gate comes into it. -/
def Makes (calls : List (Option Nat)) : Job → Prop
  | .compress prefs content => Codec.CompressMakes prefs content calls
  | .decompress hint input => Codec.DecompressMakes hint input calls
  | .compressor past operation =>
      Compressor.Makes (Compressor.settingsOf past) (Compressor.stageOf past) operation calls
  | .decompressor past operation =>
      Decompressor.Makes ((Decompressor.new .native).after past).decoder operation calls

/-- Every operation does the same through every gate. -/
theorem run_uniform (job : Job) :
    ∃ calls value, job.Makes calls ∧ ∀ gate : Gate, job.run gate = ⟨value, gate.along calls⟩ := by
  cases job with
  | compress prefs content =>
      rcases Codec.compress_makes prefs content with ⟨calls, value, hcalls, hcompress⟩
      exact ⟨calls, .bytes value, hcalls, fun gate => by simp only [run, hcompress]⟩
  | decompress hint input =>
      rcases Codec.decompress_makes hint input with ⟨calls, value, hcalls, hdecompress⟩
      exact ⟨calls, .bytes value, hcalls, fun gate => by simp only [run, hdecompress]⟩
  | compressor past operation =>
      rcases Compressor.after_uniform .new {} .idle past
          with ⟨encoder, settings, stage, hafter⟩
      rcases Compressor.after_sound (Compressor.new_sound .native) past with ⟨-, hstage, hsettings⟩
      rcases Compressor.perform_uniform encoder settings stage operation
          with ⟨calls, next, settings', stage', reply, hcalls, hperform⟩
      refine ⟨calls, .compressor reply, ?_, fun gate => ?_⟩
      · have hreached := hafter .native
        rw [Compressor.new, hreached] at hstage hsettings
        rw [Makes, Compressor.settingsOf, Compressor.stageOf]
        exact hsettings ▸ hstage ▸ hcalls
      · simp only [run, Compressor.new, hafter, hperform]
  | decompressor past operation =>
      rcases Decompressor.after_uniform .new past with ⟨decoder, hafter⟩
      rcases Decompressor.perform_uniform decoder operation
          with ⟨calls, next, reply, hcalls, hperform⟩
      refine ⟨calls, .decompressor reply, ?_, fun gate => ?_⟩
      · rw [Makes, Decompressor.new, hafter]
        exact hcalls
      · simp only [run, Decompressor.new, hafter, hperform]

end Job

/-- For every threshold: an operation makes a row of engine calls that the threshold has no part in,
and the lock is given back right before and taken again right behind exactly those calls that ask
about at least as much data; so its holder holds it again afterwards, whatever the operation came
to, and the answer is the same through every gate.  A call that panics leaves the lock as one that
does not, and making a call is doing work that does not panic. -/
theorem lock_accounting (threshold : Nat) :
    (∀ job : Job, ∃ calls, job.Makes calls
        ∧ Accounted threshold calls (job.run ⟨.locked, threshold⟩).events
        ∧ (∀ lock : HostLock, lock.held = true →
            (lock.follow none (job.run ⟨.locked, threshold⟩).events).2
              = ⟨true, lock.releases + releasedCalls threshold calls⟩)
        ∧ ∀ gate, (job.run gate).value = (job.run ⟨.locked, threshold⟩).value)
      ∧ (∀ (α : Type) (amount : Nat) (call : Unit → Except Gate.Panic α) (log : List LockEvent),
        ∃ events, Accounted threshold [some amount] events
          ∧ (Gate.guarded ⟨.locked, threshold⟩ amount (.engine amount call)).run log
            = (call (), log ++ events))
      ∧ ∀ (α : Type) (gate : Gate) (amount : Nat) (call : Unit → α) (log : List LockEvent),
        (gate.guarded amount (.engine amount fun _ => .ok (call ()))).run log
          = (.ok (gate.run amount call).value, log ++ (gate.run amount call).events) := by
  refine ⟨?_, ?_, fun α gate => gate.guarded_run⟩
  · intro job
    rcases job.run_uniform with ⟨calls, value, hcalls, hrun⟩
    have haccounted := Gate.along_accounted threshold calls
    refine ⟨calls, hcalls, ?_, fun lock hheld => ?_, fun gate => by rw [hrun, hrun]⟩
    · rw [hrun]
      exact haccounted
    · rw [hrun]
      exact haccounted.follow hheld none
  · intro α amount call log
    refine ⟨_, Gate.along_accounted threshold [some amount], ?_⟩
    rw [Gate.guarded_engine, Gate.along_some, Gate.along_nil, List.append_nil]

end Lz4Frame
