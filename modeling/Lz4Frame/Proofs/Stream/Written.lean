import Lz4Frame.Platform.Reference
import Lz4Frame.Proofs.RoundTrip
import Lz4Frame.Proofs.Stream.Writer

/-!
# A writer beside a compressor

Over a sink that costs no bytes a writer is a compressor: what the sink holds is what any compressor
in the same state gives for the same settings and the same calls, empty writes left out.  The header
waits for the first call and stands in front of everything (`Writer.Follows`), and when the frame is
closed the sink holds all of it (`Writer.frame_written`).
-/

namespace Lz4Frame

/-! ## Requests and calls -/

namespace Request

/-- The call that a request comes to; an empty write comes to none. -/
def call? : Request → Option Call
  | write content => if content.isEmpty then none else some (.update content)
  | flush => some .flush

/-- The content that a request hands over. -/
def content : Request → Bytes
  | write content => content
  | flush => []

/-- What a request that is granted answers: a write the number of bytes, a flush nothing. -/
def reply : Request → Option Nat
  | write content => some content.length
  | flush => none

end Request

/-- The calls that requests come to. -/
def callsOf (row : List Request) : List Call := row.filterMap Request.call?

theorem contentOf_callsOf (row : List Request) :
    contentOf (callsOf row) = row.flatMap Request.content := by
  induction row with
  | nil => rfl
  | cons request row ih =>
      unfold callsOf at ih ⊢
      cases request with
      | write content =>
          by_cases hempty : content = []
          · simp [Request.call?, Request.content, hempty, ih]
          · simp [Request.call?, Request.content, hempty, ih, Call.content]
      | flush => simp [Request.call?, Request.content, ih, Call.content]

/-- Writes whose blocks can be counted come to updates that fit. -/
theorem fits_callsOf {prefs : Preferences} {row : List Request}
    (hcount : ∀ content, .write content ∈ row → Bound.Countable prefs content.length) :
    ∀ call ∈ callsOf row, call.Fits prefs := by
  intro call hmem
  rcases List.mem_filterMap.mp hmem with ⟨request, hrequest, hcall⟩
  cases request with
  | write content =>
      simp only [Request.call?] at hcall
      split at hcall
      · cases hcall
      · next hne =>
          cases hcall
          exact ⟨by simpa using hne, hcount content hrequest⟩
  | flush =>
      cases hcall
      trivial

/-! ## Compressors side by side -/

namespace Compressor

/-- Whether two compressors differ in nothing but their gates. -/
def Agrees (first second : Compressor) : Prop :=
  second = { first with gate := second.gate }

theorem start_agrees {first second next : Compressor} {prefs : Preferences} {header : Bytes}
    {events : List LockEvent} (h : first.encoder = second.encoder) :
    first.start prefs = (next, ⟨.ok header, events⟩) →
      ∃ next', second.start prefs = (next', ⟨.ok header, events⟩) ∧ next.Agrees next' := by
  rcases first with ⟨gate, encoder, prefs₁, stage₁⟩
  rcases second with ⟨gate', encoder', prefs₂, stage₂⟩
  obtain rfl : encoder = encoder' := h
  intro hstart
  unfold start at hstart ⊢
  simp only at hstart ⊢
  split at hstart
  · cases hstart
  · split at hstart
    · cases hstart
    · cases hstart
      exact ⟨_, rfl, rfl⟩

variable [Platform]

theorem call_agrees {first second next : Compressor} {call : Call} {bytes : Bytes}
    {events : List LockEvent} (h : first.Agrees second) :
    first.call call = (next, ⟨.ok bytes, events⟩) →
      ∃ next' events', second.call call = (next', ⟨.ok bytes, events'⟩) ∧ next.Agrees next' := by
  rw [h]
  generalize second.gate = gate'
  rcases first with ⟨gate, encoder, prefs, stage⟩
  intro hcall
  cases stage with
  | idle =>
      cases call with
      | update content =>
          simp only [Compressor.call, update] at hcall
          split at hcall <;> cases hcall
      | flush => cases hcall
  | active =>
      cases call with
      | update content =>
          simp only [Compressor.call, update, Gate.run] at hcall ⊢
          split at hcall
          · cases hcall
          · next hne =>
              rw [if_neg hne]
              split at hcall
              · cases hcall
              · next room =>
                  simp only [Prod.mk.injEq, Traced.mk.injEq] at hcall
                  rcases hcall with ⟨rfl, hresult, -⟩
                  simp only [hresult]
                  exact ⟨_, _, rfl, rfl⟩
      | flush =>
          simp only [Compressor.call, flush] at hcall ⊢
          split at hcall
          · cases hcall
          · next room =>
              simp only [Traced.ofCall, Prod.mk.injEq, Traced.mk.injEq] at hcall
              rcases hcall with ⟨rfl, hresult, -⟩
              simp only [Traced.ofCall, hresult]
              exact ⟨_, _, rfl, rfl⟩

theorem calls_agrees {first second next : Compressor} {row : List Call} {outputs : List Bytes}
    (h : first.Agrees second) :
    first.calls row = (next, .ok outputs) →
      ∃ next', second.calls row = (next', .ok outputs) ∧ next.Agrees next' := by
  induction row generalizing first second outputs with
  | nil =>
      intro hcalls
      cases hcalls
      exact ⟨second, rfl, h⟩
  | cons call row ih =>
      intro hcalls
      rw [calls] at hcalls
      split at hcalls
      · cases hcalls
      · next middle bytes events hcall =>
          rcases call_agrees h hcall with ⟨middle', events', hcall', hmiddle⟩
          split at hcalls
          · cases hcalls
          · next last rest hrest =>
              cases hcalls
              rcases ih hmiddle hrest with ⟨next', hrest', hnext⟩
              exact ⟨next', by simp only [calls, hcall', hrest'], hnext⟩

theorem finish_agrees {first second next : Compressor} {bytes : Bytes} {events : List LockEvent}
    (h : first.Agrees second) :
    first.finish = (next, ⟨.ok bytes, events⟩) →
      ∃ next', second.finish = (next', ⟨.ok bytes, events⟩) := by
  rw [h]
  generalize second.gate = gate'
  rcases first with ⟨gate, encoder, prefs, stage⟩
  intro hfinish
  cases stage with
  | idle => simp [finish] at hfinish
  | active =>
      simp only [finish] at hfinish ⊢
      split at hfinish
      · cases hfinish
      · next room =>
          simp only [Traced.ofCall, Prod.mk.injEq, Traced.mk.injEq] at hfinish
          rcases hfinish with ⟨-, hresult, rfl⟩
          simp only [Traced.ofCall, hresult]
          exact ⟨_, rfl⟩

end Compressor

namespace Writer

/-! ## Replies -/

section

variable [Platform]

/-- Makes a request; gives what a write says it has taken. -/
def reply (writer : Writer) : Request → Writer × Except IoError (Option Nat)
  | .write content =>
      let (writer, answer) := writer.write content
      (writer, answer.value.map some)
  | .flush =>
      let (writer, answer) := writer.flush
      (writer, answer.value.map fun _ => none)

/-- Makes requests, one after another, whether they are granted or not. -/
def replies (writer : Writer) : List Request → Writer × List (Except IoError (Option Nat))
  | [] => (writer, [])
  | request :: rest =>
      let (next, answer) := writer.reply request
      let (last, answers) := next.replies rest
      (last, answer :: answers)

/-! ## Over a steady sink -/

/-- Where a writer stands behind some calls with these outputs: before the first call the header
waits and the sink has nothing more than it had, and from then on it has the header and all the
outputs. -/
structure Follows (writer : Writer) (base : Array UInt8) (header : Bytes) (calls : List Call)
    (outputs : List Bytes) : Prop where
  steady : writer.sink.Steady
  length_eq : outputs.length = calls.length
  header_eq : writer.header = if calls = [] then some header else none
  content_eq : writer.sink.content
    = base ++ (if calls = [] then [] else header ++ outputs.flatten)

omit [Platform] in
/-- Only sink and header count: the compressor may go ahead. -/
theorem Follows.ahead {writer : Writer} {base : Array UInt8} {header : Bytes} {calls : List Call}
    {outputs : List Bytes} (h : writer.Follows base header calls outputs)
    (compressor : Compressor) :
    Follows ⟨compressor, writer.sink, writer.header⟩ base header calls outputs :=
  ⟨h.steady, h.length_eq, h.header_eq, h.content_eq⟩

omit [Platform] in
/-- What is sent is in the sink behind the header and all the outputs. -/
theorem send_follows {writer : Writer} {base : Array UInt8} {header : Bytes} {calls : List Call}
    {outputs : List Bytes} (h : writer.Follows base header calls outputs) (bytes : Bytes) :
    ∃ sink, writer.send bytes = (⟨writer.compressor, sink, none⟩, .ok ()) ∧ sink.Steady
      ∧ sink.content = base ++ (header ++ outputs.flatten ++ bytes) := by
  rcases writer with ⟨compressor, sink, waiting⟩
  rcases h with ⟨hsteady, hlength, hheader, hcontent⟩
  simp only at hsteady hheader hcontent ⊢
  by_cases hnone : calls = []
  · -- the header goes out first
    rw [if_pos hnone] at hheader hcontent
    obtain rfl : outputs = [] := List.eq_nil_of_length_eq_zero (by rw [hlength, hnone]; rfl)
    rcases sink.writeAll_steady header hsteady with ⟨headed, hwrite, hheaded, hsteady'⟩
    rcases headed.writeAll_steady bytes hsteady' with ⟨next, hwrite', hnext, hsteady''⟩
    refine ⟨next, by simp only [send, hheader, hwrite, hwrite'], hsteady'', ?_⟩
    rw [hnext, hheaded, hcontent, append_list_append, append_list_append]
    simp
  · rw [if_neg hnone] at hheader hcontent
    rcases sink.writeAll_steady bytes hsteady with ⟨next, hwrite, hnext, hsteady'⟩
    refine ⟨next, by simp only [send, hheader, hwrite], hsteady', ?_⟩
    rw [hnext, hcontent, append_list_append]

omit [Platform] in
theorem sendAndFlush_follows {writer : Writer} {base : Array UInt8} {header : Bytes}
    {calls : List Call} {outputs : List Bytes} (h : writer.Follows base header calls outputs)
    (bytes : Bytes) :
    ∃ sink, writer.sendAndFlush bytes = (⟨writer.compressor, sink, none⟩, .ok ()) ∧ sink.Steady
      ∧ sink.content = base ++ (header ++ outputs.flatten ++ bytes) := by
  rcases send_follows h bytes with ⟨sent, hsend, hsteady, hcontent⟩
  rcases Sink.flush_steady hsteady with ⟨flushed, hflush, hsame, hsteady'⟩
  exact ⟨flushed, by simp only [sendAndFlush, hsend, hflush], hsteady', hsame.trans hcontent⟩

omit [Platform] in
/-- One more call, whose output is in the sink. -/
theorem Follows.call {base : Array UInt8} {header bytes : Bytes} {calls : List Call}
    {outputs : List Bytes} {sink : Sink} (hlength : outputs.length = calls.length)
    (hsteady : sink.Steady)
    (hcontent : sink.content = base ++ (header ++ outputs.flatten ++ bytes))
    (compressor : Compressor) (call : Call) :
    Follows ⟨compressor, sink, none⟩ base header (calls ++ [call]) (outputs ++ [bytes]) where
  steady := hsteady
  length_eq := by simp [hlength]
  header_eq := by simp
  content_eq := by simp [hcontent]

/-- A request that comes to no call changes nothing; any other is one call of the compressor. -/
theorem reply_follows {writer : Writer} {base : Array UInt8} {header content wire : Bytes}
    {calls : List Call} {outputs : List Bytes} {prefs : Preferences}
    (h : writer.Follows base header calls outputs)
    (hwithin : writer.compressor.Within prefs content wire) {request : Request}
    (hfits : ∀ call ∈ callsOf [request], call.Fits prefs) :
    ∃ next added content' wire', writer.reply request = (next, .ok request.reply)
      ∧ writer.compressor.calls (callsOf [request]) = (next.compressor, .ok added)
      ∧ next.Follows base header (calls ++ callsOf [request]) (outputs ++ added)
      ∧ next.compressor.Within prefs content' wire' := by
  rcases writer with ⟨compressor, sink, waiting⟩
  simp only at hwithin ⊢
  cases request with
  | write input =>
      by_cases hempty : input = []
      · subst hempty
        exact ⟨⟨compressor, sink, waiting⟩, [], content, wire, rfl, rfl,
          by simpa [callsOf, Request.call?] using h, hwithin⟩
      · have hcalls : callsOf [.write input] = [.update input] := by
          simp [callsOf, Request.call?, hempty]
        rw [hcalls] at hfits ⊢
        rcases Compressor.call_within hwithin (hfits _ (.head _))
            with ⟨next, bytes, events, hcall, hnext⟩
        rcases send_follows (h.ahead next) bytes with ⟨sink', hsend, hsteady, hcontent⟩
        refine ⟨⟨next, sink', none⟩, [bytes], _, _, ?_, ?_,
          .call h.length_eq hsteady hcontent next _, hnext⟩
        · simp only [Compressor.call] at hcall
          simp only [reply, write, List.isEmpty_iff, hempty, ↓reduceIte, hcall, hsend]
          rfl
        · simp only [Compressor.calls, hcall]
  | flush =>
      have hcalls : callsOf [.flush] = [.flush] := rfl
      rw [hcalls] at hfits ⊢
      rcases Compressor.call_within hwithin (hfits _ (.head _))
          with ⟨next, bytes, events, hcall, hnext⟩
      rcases sendAndFlush_follows (h.ahead next) bytes with ⟨sink', hsend, hsteady, hcontent⟩
      refine ⟨⟨next, sink', none⟩, [bytes], _, _, ?_, ?_,
        .call h.length_eq hsteady hcontent next _, hnext⟩
      · simp only [Compressor.call] at hcall
        simp only [reply, flush, hcall, hsend]
        rfl
      · simp only [Compressor.calls, hcall]

/-- A row of requests is a row of calls of the compressor. -/
theorem replies_follows {writer : Writer} {base : Array UInt8} {header content wire : Bytes}
    {calls : List Call} {outputs : List Bytes} {prefs : Preferences} {row : List Request}
    (h : writer.Follows base header calls outputs)
    (hwithin : writer.compressor.Within prefs content wire)
    (hfits : ∀ call ∈ callsOf row, call.Fits prefs) :
    ∃ next added content' wire',
      writer.replies row = (next, row.map fun request => .ok request.reply)
        ∧ writer.compressor.calls (callsOf row) = (next.compressor, .ok added)
        ∧ next.Follows base header (calls ++ callsOf row) (outputs ++ added)
        ∧ next.compressor.Within prefs content' wire' := by
  -- on the requests; calls and outputs so far stand in front
  induction row generalizing writer calls outputs content wire with
  | nil => exact ⟨writer, [], content, wire, rfl, rfl, by simpa [callsOf] using h, hwithin⟩
  | cons request row ih =>
      have hsplit : callsOf (request :: row) = callsOf [request] ++ callsOf row := by
        rw [callsOf, callsOf, callsOf, ← List.filterMap_append, List.singleton_append]
      rw [hsplit] at hfits ⊢
      rcases reply_follows h hwithin fun call hmem => hfits call (List.mem_append_left _ hmem)
          with ⟨middle, first, _, _, hreply, hfirst, hmiddle, hwithin'⟩
      rcases ih hmiddle hwithin' fun call hmem => hfits call (List.mem_append_right _ hmem)
          with ⟨next, second, content', wire', hreplies, hsecond, hnext, hwithin''⟩
      refine ⟨next, first ++ second, content', wire', ?_,
        Compressor.calls_append hfirst hsecond, by simpa using hnext, hwithin''⟩
      simp only [replies, hreply, hreplies, List.map_cons]

/-! ## Whole frames -/

/-- Over a steady sink every request is granted, and the sink holds exactly what any compressor in
the same state gives for the same settings and calls: nothing before the first call, from then on
the header and all the outputs, and in the end the whole frame, which reads as all that was written,
unless memory runs out. -/
theorem frame_written (compressor session : Compressor)
    (hsame : session.encoder = compressor.encoder) {prefs : Preferences}
    (hvalid : prefs.validate = .ok ()) (hdeclared : prefs.declaredSize = none) {sink : Sink}
    (hsteady : sink.Steady) {row : List Request}
    (hcount : ∀ content, .write content ∈ row → Bound.Countable prefs content.length) :
    ∃ (writer : Writer) (started active closed : Compressor) (header : Bytes)
        (outputs : List Bytes) (trailer : Bytes) (last : Sink),
      (ofCompressor compressor prefs sink).value = .ok writer
        ∧ session.start prefs = (started, .ofCall (.ok header))
        ∧ started.calls (callsOf row) = (active, .ok outputs)
        ∧ active.finish = (closed, .ofCall (.ok trailer))
        ∧ (writer.replies row).2 = row.map (fun request => .ok request.reply)
        ∧ (writer.replies row).1.sink.content = sink.content
          ++ (if callsOf row = [] then [] else header ++ outputs.flatten)
        ∧ (writer.replies row).1.finish = (last, .ofCall (.ok ()))
        ∧ last.content = sink.content ++ (header ++ outputs.flatten ++ trailer)
        ∧ ∀ gate hint, 1 ≤ hint →
            let answer := (Codec.decompress gate hint (header ++ outputs.flatten ++ trailer)).value
            answer = .ok (row.flatMap Request.content)
              ∨ ∃ requested, answer = .error (.allocation requested)
                ∧ (¬ Platform.grants hint = true
                  ∨ assuredSize ≤ 10 * (row.flatMap Request.content).length) := by
  have hfits := fits_callsOf hcount
  have hzero : prefs.declaredOrZero = 0 := by
    rw [Preferences.declaredOrZero, hdeclared]
    rfl
  rcases compressor.start_within hvalid with ⟨started, hstart, hwithin⟩
  generalize hheader : (Header.ofPreferences prefs).encode = header at hstart hwithin
  have hfollows : Follows ⟨started, sink, some header⟩ sink.content header [] [] :=
    ⟨hsteady, rfl, rfl, by simp⟩
  rcases replies_follows hfollows hwithin hfits
      with ⟨written, outputs, content, wire, hreplies, hcalls, hwritten, hwithin'⟩
  rw [List.nil_append, List.nil_append] at hwritten
  rcases Compressor.finish_within hwithin' (by omega) with ⟨closed, -, hgood, -⟩
  rcases hgood (.inl hzero) with ⟨trailer, hfinish, -⟩
  rcases written with ⟨active, filled, waiting⟩
  simp only at hcalls hfinish
  rcases sendAndFlush_follows (hwritten.ahead closed) trailer with ⟨last, hsend, -, hcontent⟩
  -- the other compressor, whatever its gate, gives the same
  rcases Compressor.start_agrees hsame.symm hstart with ⟨started', hstart', hagrees⟩
  rcases Compressor.calls_agrees hagrees hcalls with ⟨active', hcalls', hagrees'⟩
  rcases Compressor.finish_agrees hagrees' hfinish with ⟨closed', hfinish'⟩
  refine ⟨⟨started, sink, some header⟩, started', active', closed', header, outputs, trailer, last,
    by simp only [ofCompressor, hstart, Traced.ofCall], hstart', hcalls', hfinish',
    by rw [hreplies], ?_, ?_, hcontent, ?_⟩
  · rw [hreplies]
    exact hwritten.content_eq
  · rw [hreplies]
    simp only [finish, hfinish, Traced.ofCall, hsend]
  · intro gate hint hpos
    rcases compressor.frame_isFrame hvalid hfits (by omega) (.inl hzero)
        with ⟨_, frame, hframe, -, hisFrame⟩
    obtain rfl : header ++ outputs.flatten ++ trailer = frame := by
      simp only [Compressor.frame, hstart, Traced.ofCall, hcalls, hfinish, Prod.mk.injEq,
        Except.ok.injEq] at hframe
      exact hframe.2
    rw [contentOf_callsOf] at hisFrame
    exact Codec.decompress_undeclared gate hisFrame (by simp [Header.ofPreferences, hzero]) hpos

/-- A sink that takes three bytes, is interrupted, takes one more and then all there is. -/
def hesitant : Sink := { writes := [.limit 3, .fail .interrupted "interrupted", .limit 1] }

omit [Platform] in
theorem hesitant_steady : hesitant.Steady where
  writes := by simp [hesitant, Answer.Spares]
  flushes := by simp [hesitant]

end

open Reference in
/-- Three bytes between empty writes, over a sink that hesitates. -/
theorem frame_written_three_bytes :
    ∃ (writer : Writer) (last : Sink), (new .native {} hesitant).value = .ok writer
      ∧ (writer.replies [.write [], .write [1, 2, 3], .flush, .write []]).2
        = [.ok (some 0), .ok (some 3), .ok none, .ok (some 0)]
      ∧ (writer.replies [.write [], .write [1, 2, 3], .flush, .write []]).1.finish
        = (last, .ofCall (.ok ()))
      ∧ (Codec.decompress .native Codec.defaultBufferSize last.content.toList).value
        = .ok [1, 2, 3] := by
  have hcount : ∀ content, .write content ∈ [Request.write [], .write [1, 2, 3], .flush,
      .write []] → Bound.Countable {} content.length := by
    intro content hmem
    simp only [List.mem_cons, Request.write.injEq, reduceCtorEq, List.not_mem_nil, or_false,
      false_or] at hmem
    rcases hmem with rfl | rfl | rfl
    · exact Bound.countable_zero {}
    · show (3 + (65536 - 1)) / 65536 < 0x100000000
      decide
    · exact Bound.countable_zero {}
  rcases frame_written (.new .native) (.new .native) rfl rfl rfl hesitant_steady hcount
      with ⟨writer, _, _, _, header, outputs, trailer, last, hwriter, -, -, -, hreplies, -, hfinish,
        hcontent, hdecompress⟩
  refine ⟨writer, last, hwriter, hreplies, hfinish, ?_⟩
  have hlast : last.content.toList = header ++ outputs.flatten ++ trailer := by
    rw [hcontent]
    simp [hesitant]
  rw [hlast]
  rcases hdecompress .native Codec.defaultBufferSize (by decide)
    with hvalue | ⟨requested, -, hdenied | hlong⟩
  · exact hvalue
  · exact absurd (by decide) hdenied
  · exact absurd hlong (by decide)

open Reference in
/-- The blocks of a long write cannot be counted, and it is refused. -/
theorem frame_not_written : Preferences.validate {} = .ok () ∧ Sink.Steady {}
    ∧ ∃ writer, (new .native {} {}).value = .ok writer
      ∧ (writer.replies [.write (List.replicate 0xffffffffffff 0)]).2
        = [.error (.codec (.frame .dstMaxSizeTooSmall))] := by
  obtain ⟨content, hlong⟩ : ∃ content : Bytes, List.replicate 0xffffffffffff 0 = content := ⟨_, rfl⟩
  have hlength : content.length = 0xffffffffffff := by rw [← hlong, List.length_replicate]
  have hne : content ≠ [] := List.ne_nil_of_length_pos (by omega)
  have hvalid : Preferences.validate {} = .ok () := rfl
  rw [hlong]
  refine ⟨hvalid, ⟨by simp, by simp⟩, ?_⟩
  rcases (Compressor.new .native).start_within hvalid with ⟨started, hstart, hwithin⟩
  rcases Compressor.update_wraps hwithin hlength with ⟨events, hupdate⟩
  refine ⟨⟨started, {}, some (Header.ofPreferences {}).encode⟩, ?_, ?_⟩
  · simp only [new, hstart, Traced.ofCall]
  · simp only [replies, reply, write, List.isEmpty_iff, hne, ↓reduceIte, hupdate]
    rfl

end Writer

end Lz4Frame
