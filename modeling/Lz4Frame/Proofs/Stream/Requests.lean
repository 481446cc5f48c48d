import Lz4Frame.Platform.Reference
import Lz4Frame.Proofs.Stream.Reader

/-!
# Asking a reader in any order

A reader can be asked for the next chunk and for the rest of its frame in any order, and asked again
after it has failed, whatever its source does.  The rest of the frame completes what was given
before, as long as nothing has failed (`rest_complete`).  A failure ends the reading: from then on
there are no chunks any more and the rest is empty, although the frame was not read to its end
(`rest_after_failure`).
-/

namespace Lz4Frame.Reader

open Decoder

/-! ## Requests -/

/-- What can be asked of a reader. -/
inductive Request
  | chunk
  | rest

/-- What a reader answers. -/
inductive Reply
  | chunk (content : Bytes)
  | nothing
  | rest (content : Bytes)
  | failure (cause : IoError)

/-- The content that a reply hands over. -/
def Reply.content : Reply → Bytes
  | .chunk content => content
  | .rest content => content
  | _ => []

/-- Whether a reply reports a failure. -/
def Reply.Fails : Reply → Prop
  | .failure _ => True
  | _ => False

/-- The content of a row of replies. -/
def given (replies : List Reply) : Bytes := replies.flatMap Reply.content

section

variable [Platform]

/-- Does what is asked. -/
def request (reader : Reader) : Request → Reader × Reply
  | .chunk =>
      match reader.next [] with
      | (reader, ⟨none, _⟩) => (reader, .nothing)
      | (reader, ⟨some (.ok chunk), _⟩) => (reader, .chunk chunk)
      | (reader, ⟨some (.error cause), _⟩) => (reader, .failure cause)
  | .rest =>
      match reader.readAll #[] [] with
      | (reader, ⟨.ok content, _⟩) => (reader, .rest content)
      | (reader, ⟨.error cause, _⟩) => (reader, .failure cause)

/-- Does what is asked, one request after another, whatever the answers are. -/
def requests (reader : Reader) : List Request → Reader × List Reply
  | [] => (reader, [])
  | request :: row =>
      let (next, reply) := reader.request request
      let (last, replies) := next.requests row
      (last, reply :: replies)

/-! ## One request -/

/-- A reader that has nothing more to give. -/
structure Over (reader : Reader) : Prop where
  done : reader.done = true
  pending : reader.pending = []

/-- A step that succeeds goes on with the reading, whatever the source does. -/
theorem step_ok_keeps {reader next : Reader} {content : Bytes} {reading : Reading}
    {events : List LockEvent} (h : reader.Keeps content reading) (hgoing : reader.done = false) :
    reader.step = (next, ⟨.ok (), events⟩) → next.Keeps content reading := by
  intro hstep
  rcases step_ok_cases hgoing hstep with ⟨got, decoded, updating, hfill, hgot, hupdate, -⟩
  have hsplit : got.toList ++ next.source.rest = reader.source.rest := by
    simpa using Source.fill_split hfill
  rcases reader with ⟨source, decompressor, info, chunkLength, wanted, pending, done⟩
  simp only at hgoing
  subst hgoing
  rcases step_keeps h hfill hgot hsplit hupdate with ⟨last, events', hstep', hlast, -⟩
  rw [hstep', Prod.mk.injEq] at hstep
  exact hstep.1 ▸ hlast

/-- The next chunk goes on with the reading; no chunk means that the reader has nothing more to
give, and so does a failure. -/
theorem next_keeps {reader : Reader} {content : Bytes} {reading : Reading}
    (h : reader.Keeps content reading) (events : List LockEvent) :
    (∃ last chunk events', reader.next events = (last, ⟨some (.ok chunk), events'⟩)
        ∧ last.Keeps (content ++ chunk) reading)
      ∨ (∃ last events', reader.next events = (last, ⟨none, events'⟩)
        ∧ last.Keeps content reading)
      ∨ ∃ last cause events', reader.next events = (last, ⟨some (.error cause), events'⟩)
        ∧ last.Over := by
  induction reader, events using next_induction with
  | waiting events hpending =>
      exact .inl ⟨_, _, events, next_pending hpending events, h.give hpending⟩
  | finished events hpending hdone =>
      exact .inr (.inl ⟨_, events, next_over hpending hdone events, h⟩)
  | @going reader events hpending hdone ih =>
      rcases hstep : reader.step with ⟨next', value, more⟩
      cases value with
      | error cause =>
          refine .inr (.inr ⟨_, cause, _, next_failed hpending hdone hstep events, rfl, ?_⟩)
          rw [(step_failed hstep).1, hpending]
      | ok =>
          rw [next_going hpending hdone hstep]
          exact ih hstep (step_ok_keeps h hdone hstep)

/-- The rest of the frame completes the reading; behind it, and behind a failure, the reader has
nothing more to give. -/
theorem readAll_keeps {reader : Reader} {before : Bytes} {content : Array UInt8}
    {reading : Reading} (h : reader.Keeps (before ++ content.toList) reading)
    (events : List LockEvent) :
    ∃ last value events', reader.readAll content events = (last, ⟨value, events'⟩)
      ∧ last.Over ∧ ∀ whole, value = .ok whole → last.Keeps (before ++ whole) reading := by
  induction reader, content, events using readAll_induction with
  | finished content events hdone =>
      refine ⟨_, _, _, readAll_ended hdone content events, ⟨hdone, rfl⟩, ?_⟩
      rintro whole ⟨rfl⟩
      simpa using h.given
  | @going reader content events hdone ih =>
      rcases hstep : step { reader with pending := [] } with ⟨next', value, more⟩
      cases value with
      | error cause =>
          exact ⟨_, _, _, readAll_failed hdone hstep content events,
            ⟨rfl, (step_failed hstep).1⟩, nofun⟩
      | ok =>
          rw [readAll_going hdone hstep]
          refine ih hstep ?_
          have hnext := step_ok_keeps h.given hdone hstep
          rwa [foldl_append, ← List.append_assoc]

/-- The rest of the frame ends the reading. -/
theorem rest_ends {reader : Reader} {content rest : Bytes} {reading : Reading}
    (h : reader.Keeps content reading) :
    (reader.request .rest).2 = .rest rest →
      ∃ unread, reading = ⟨content ++ rest, .ended unread⟩ := by
  intro hrest
  have hstart : reader.Keeps (content ++ (#[] : Array UInt8).toList) reading := by simpa using h
  rcases readAll_keeps hstart [] with ⟨last, value, events, hreadAll, hover, hlast⟩
  cases value with
  | error cause => simp [request, hreadAll] at hrest
  | ok whole =>
      simp only [request, hreadAll, Reply.rest.injEq] at hrest
      subst hrest
      simpa [hover.pending] using (hlast whole rfl).ended hover.done

/-- A request that does not fail goes on with the reading, and behind one that fails there is
nothing more to give. -/
theorem request_keeps {reader : Reader} {content : Bytes} {reading : Reading}
    (h : reader.Keeps content reading) (request : Request) :
    (¬ (reader.request request).2.Fails
        ∧ (reader.request request).1.Keeps (content ++ (reader.request request).2.content) reading)
      ∨ (reader.request request).2.Fails ∧ (reader.request request).1.Over := by
  cases request with
  | chunk =>
      rcases next_keeps h [] with ⟨last, chunk, events, hnext, hlast⟩ | ⟨last, events, hnext, hlast⟩
        | ⟨last, cause, events, hnext, hover⟩
      · simp only [Reader.request, hnext]
        exact .inl ⟨id, hlast⟩
      · simp only [Reader.request, hnext]
        exact .inl ⟨id, by simpa [Reply.content] using hlast⟩
      · simp only [Reader.request, hnext]
        exact .inr ⟨trivial, hover⟩
  | rest =>
      have hstart : reader.Keeps (content ++ (#[] : Array UInt8).toList) reading := by simpa using h
      rcases readAll_keeps hstart [] with ⟨last, value, events, hreadAll, hover, hlast⟩
      cases value with
      | error cause =>
          simp only [Reader.request, hreadAll]
          exact .inr ⟨trivial, hover⟩
      | ok whole =>
          simp only [Reader.request, hreadAll]
          exact .inl ⟨id, hlast whole rfl⟩

/-- A reader that has nothing more to give stays as it is, and its answers are empty. -/
theorem Over.request {reader : Reader} (h : reader.Over) (request : Request) :
    (reader.request request).1 = reader
      ∧ (reader.request request).2
        = (match request with | .chunk => .nothing | .rest => .rest []) := by
  cases request with
  | chunk => simp [Reader.request, next_over h.pending h.done]
  | rest =>
      rcases reader with ⟨source, decompressor, info, chunkLength, wanted, pending, done⟩
      obtain rfl : pending = [] := h.pending
      simp [Reader.request, readAll_ended h.done]

/-! ## What requests carry along -/

section Invariant

/-- What is kept by steps (`I`) until a chunk is given or the frame has ended, what holds then
(`K`), and what holds behind a step that fails (`F`). -/
structure Carries (I K F : Reader → Prop) : Prop where
  clear {reader : Reader} (h : I reader) : I { reader with pending := [] }
  step {reader next : Reader} {events : List LockEvent} (h : I reader)
    (going : reader.done = false) (step_eq : reader.step = (next, ⟨.ok (), events⟩)) : I next
  fail {reader next : Reader} {cause : IoError} {events : List LockEvent} (h : I reader)
    (going : reader.done = false) (step_eq : reader.step = (next, ⟨.error cause, events⟩)) :
    F { next with done := true }
  give {reader : Reader} {chunk : Bytes} {pending : List Bytes} (h : I reader)
    (pending_eq : reader.pending = chunk :: pending) : K { reader with pending }
  ended {reader : Reader} (h : I reader) (done : reader.done = true) :
    K { reader with pending := [] }

variable {I K F : Reader → Prop} (carries : Carries I K F)

include carries

theorem next_carries {reader : Reader} (h : I reader) (events : List LockEvent) :
    (∃ last answer events', reader.next events = (last, ⟨answer, events'⟩)
        ∧ (∀ cause, answer ≠ some (.error cause)) ∧ K last)
      ∨ ∃ last cause events', reader.next events = (last, ⟨some (.error cause), events'⟩)
        ∧ F last := by
  induction reader, events using next_induction with
  | waiting events hpending =>
      exact .inl ⟨_, _, _, next_pending hpending events, by simp, carries.give h hpending⟩
  | finished events hpending hdone =>
      have hover := carries.ended h hdone
      rw [← hpending] at hover
      exact .inl ⟨_, _, _, next_over hpending hdone events, by simp, hover⟩
  | @going reader events hpending hdone ih =>
      rcases hstep : reader.step with ⟨next', value, more⟩
      cases value with
      | error cause =>
          exact .inr ⟨_, _, _, next_failed hpending hdone hstep events, carries.fail h hdone hstep⟩
      | ok =>
          rw [next_going hpending hdone hstep]
          exact ih hstep (carries.step h hdone hstep)

theorem readAll_carries {reader : Reader} (h : I reader) (content : Array UInt8)
    (events : List LockEvent) :
    (∃ last whole events', reader.readAll content events = (last, ⟨.ok whole, events'⟩) ∧ K last)
      ∨ ∃ last cause events', reader.readAll content events = (last, ⟨.error cause, events'⟩)
        ∧ F last := by
  induction reader, content, events using readAll_induction with
  | finished content events hdone =>
      exact .inl ⟨_, _, _, readAll_ended hdone content events, carries.ended h hdone⟩
  | @going reader content events hdone ih =>
      rcases hstep : step { reader with pending := [] } with ⟨next', value, more⟩
      cases value with
      | error cause =>
          exact .inr ⟨_, _, _, readAll_failed hdone hstep content events,
            carries.fail (carries.clear h) hdone hstep⟩
      | ok =>
          rw [readAll_going hdone hstep]
          exact ih hstep (carries.step (carries.clear h) hdone hstep)

/-- A request takes steps until it can be answered, or one fails. -/
theorem request_carries {reader : Reader} (h : I reader) (request : Request) :
    ¬ (reader.request request).2.Fails ∧ K (reader.request request).1
      ∨ (reader.request request).2.Fails ∧ F (reader.request request).1 := by
  cases request with
  | chunk =>
      rcases next_carries carries h [] with ⟨last, answer, events, hnext, hgood, hlast⟩
        | ⟨last, cause, events, hnext, hlast⟩
      · rcases answer with - | (cause | chunk)
        all_goals simp only [Reader.request, hnext]
        · exact .inl ⟨id, hlast⟩
        · exact absurd rfl (hgood _)
        · exact .inl ⟨id, hlast⟩
      · simp only [Reader.request, hnext]
        exact .inr ⟨trivial, hlast⟩
  | rest =>
      rcases readAll_carries carries h #[] [] with ⟨last, whole, events, hreadAll, hlast⟩
        | ⟨last, cause, events, hreadAll, hlast⟩
      · simp only [Reader.request, hreadAll]
        exact .inl ⟨id, hlast⟩
      · simp only [Reader.request, hreadAll]
        exact .inr ⟨trivial, hlast⟩

end Invariant

/-! ## Rows of requests -/

/-- A reader that has nothing more to give answers any row of requests with nothing. -/
theorem Over.requests {reader : Reader} (h : reader.Over) (row : List Request) :
    (reader.requests row).1 = reader ∧ given (reader.requests row).2 = []
      ∧ ∀ reply ∈ (reader.requests row).2, ¬ reply.Fails := by
  induction row with
  | nil => exact ⟨rfl, rfl, by simp [Reader.requests]⟩
  | cons request row ih =>
      rcases h.request request with ⟨hreader, hreply⟩
      simp only [Reader.requests, hreader, hreply, given, List.flatMap_cons]
      refine ⟨ih.1, ?_, ?_⟩
      · rw [show List.flatMap Reply.content (reader.requests row).2 = [] from ih.2.1]
        cases request <;> rfl
      · intro reply hmem
        rcases List.mem_cons.mp hmem with rfl | hmem
        · cases request <;> exact id
        · exact ih.2.2 reply hmem

/-- As long as nothing fails the replies are the front of the reading, and once something has failed
there is nothing more to give. -/
theorem requests_keeps {reader : Reader} {content : Bytes} {reading : Reading}
    (h : reader.Keeps content reading) (row : List Request) :
    ((∀ reply ∈ (reader.requests row).2, ¬ reply.Fails)
        ∧ (reader.requests row).1.Keeps (content ++ given (reader.requests row).2) reading)
      ∨ (∃ reply ∈ (reader.requests row).2, reply.Fails) ∧ (reader.requests row).1.Over := by
  -- on the requests; up to the first failure each goes on from what was given before it
  induction row generalizing reader content with
  | nil => exact .inl ⟨by simp [Reader.requests], by simpa [Reader.requests, given] using h⟩
  | cons request row ih =>
      simp only [Reader.requests]
      rcases request_keeps h request with ⟨hgood, hnext⟩ | ⟨hfails, hover⟩
      · rcases ih hnext with ⟨hall, hlast⟩ | ⟨⟨reply, hmem, hreply⟩, hover⟩
        · refine .inl ⟨fun reply hmem => ?_, ?_⟩
          · rcases List.mem_cons.mp hmem with rfl | hmem
            · exact hgood
            · exact hall reply hmem
          · simpa [given] using hlast
        · exact .inr ⟨⟨reply, .tail _ hmem, hreply⟩, hover⟩
      · refine .inr ⟨⟨_, .head _, hfails⟩, ?_⟩
        rw [(hover.requests row).1]
        exact hover

/-- Whatever the source does and whatever was asked before: when a reader gives the rest of its
frame, then either nothing has failed before, the frame was read to its end, and what was given
before and the rest are its content; or something has failed before, and the rest is empty. -/
theorem rest_complete (gate : Gate) (source : Source) (row : List Request) {rest : Bytes}
    (hrest : (((new gate source).requests row).1.request .rest).2 = .rest rest) :
    ((∀ reply ∈ ((new gate source).requests row).2, ¬ reply.Fails)
        ∧ ∃ unread, Decoder.new.read source.rest
          = ⟨given ((new gate source).requests row).2 ++ rest, .ended unread⟩)
      ∨ (∃ reply ∈ ((new gate source).requests row).2, reply.Fails) ∧ rest = [] := by
  rcases requests_keeps (keeps_new gate source) row with ⟨hall, hkeeps⟩ | ⟨hsome, hover⟩
  · exact .inl ⟨hall, by simpa using rest_ends hkeeps hrest⟩
  · refine .inr ⟨hsome, ?_⟩
    rw [(hover.request .rest).2, Reply.rest.injEq] at hrest
    exact hrest.symm

/-! ## On a steady source -/

theorem request_rest (gate : Gate) {source : Source} (h : source.Steady) :
    ((new gate source).request .rest).2
      = match (Decoder.new.read source.rest).result with
        | .ok content => .rest content
        | .error cause => .failure (.codec cause) := by
  have hvalue := readAll_new gate h
  rcases hreadAll : (new gate source).readAll #[] [] with ⟨last, value, events⟩
  rw [hreadAll] at hvalue
  simp only [request, hreadAll]
  cases hresult : (Decoder.new.read source.rest).result with
  | ok content =>
      rw [hresult, mapError_ok] at hvalue
      simp only at hvalue ⊢
      rw [hvalue]
  | error cause =>
      rw [hresult, mapError_error] at hvalue
      simp only at hvalue ⊢
      rw [hvalue]

/-- Where a reading ends, no step of a reader fails that follows it. -/
theorem follows_carries (whole unread : Bytes) :
    Carries (fun reader => ∃ content, reader.Follows content ⟨whole, .ended unread⟩)
      (fun reader => ∃ content, reader.Follows content ⟨whole, .ended unread⟩)
      (fun _ => False) where
  clear := by
    rintro reader ⟨content, h⟩
    exact ⟨_, h.given⟩
  step := by
    rintro reader next events ⟨content, h⟩ hgoing hstep
    rcases step_follows h hgoing with ⟨next', events', hstep', hnext⟩ | ⟨_, _, _, -, hbad⟩
      | ⟨_, _, _, -, hwaiting⟩
    · rw [hstep', Prod.mk.injEq] at hstep
      exact ⟨content, hstep.1 ▸ hnext⟩
    · cases hbad
    · cases hwaiting
  fail := by
    rintro reader next cause events ⟨content, h⟩ hgoing hstep
    rcases step_follows h hgoing with ⟨next', events', hstep', -⟩ | ⟨_, _, _, -, hbad⟩
      | ⟨_, _, _, -, hwaiting⟩
    · rw [hstep'] at hstep
      cases hstep
    · cases hbad
    · cases hwaiting
  give := by
    rintro reader chunk pending ⟨content, h⟩ hpending
    exact ⟨_, h.give hpending⟩
  ended := by
    rintro reader ⟨content, h⟩ -
    exact ⟨_, h.given⟩

theorem requests_sound {reader : Reader} {content whole unread : Bytes}
    (h : reader.Follows content ⟨whole, .ended unread⟩) (row : List Request) :
    ∀ reply ∈ (reader.requests row).2, ¬ reply.Fails := by
  induction row generalizing reader content with
  | nil => simp [Reader.requests]
  | cons request row ih =>
      rcases request_carries (follows_carries whole unread) ⟨content, h⟩ request
          with ⟨hgood, content', hnext⟩ | ⟨-, hnone⟩
      · simp only [Reader.requests, List.forall_mem_cons]
        exact ⟨hgood, ih hnext⟩
      · exact hnone.elim

/-- The front of a frame: its header, and a block of three bytes. -/
def unfinished : Bytes :=
  [0x04, 0x22, 0x4d, 0x18, 0x40, 0x40, 0xc0, 0x03, 0x00, 0x00, 0x80, 0x01, 0x02, 0x03]

omit [Platform] in
theorem unfinished_blocks :
    ∃ blocks, Blocks (.ofPreferences {}) [] [1, 2, 3] blocks
      ∧ unfinished = (Header.ofPreferences {}).encode ++ blocks := by
  have hsize : [1, 2, 3].length ≤ (Header.ofPreferences {}).blockSize.bytes := by decide
  have hholds : (Block.Payload.stored [1, 2, 3]).Holds ((Header.ofPreferences {}).history [])
      (Header.ofPreferences {}).blockSize.bytes [1, 2, 3] := rfl
  exact ⟨_, .single (by simp) hsize hholds, rfl⟩

omit [Platform] in
theorem unfinished_isFrame :
    IsFrame (.ofPreferences {}) [1, 2, 3] (unfinished ++ SizeWord.endMark) := by
  rcases unfinished_blocks with ⟨blocks, hblocks, hunfinished⟩
  refine ⟨Header.writable_ofPreferences (by decide), .inl rfl, blocks, hblocks, ?_⟩
  rw [hunfinished]
  exact (List.append_nil _).symm

end

open Reference in
/-- The whole frame, which a reader gives at once. -/
theorem rest_complete_three_bytes :
    ((((new .native { rest := unfinished ++ SizeWord.endMark }).requests []).1.request .rest).2
        = .rest [1, 2, 3])
      ∧ ∃ unread, Decoder.new.read (unfinished ++ SizeWord.endMark)
        = ⟨[1, 2, 3], .ended unread⟩ := by
  have hread := unfinished_isFrame.read []
  simp only [List.append_nil] at hread
  have hsteady := Source.steady_rest (unfinished ++ SizeWord.endMark)
  have hrest := request_rest .native hsteady
  rw [hread] at hrest
  refine ⟨hrest, ?_⟩
  rcases rest_complete .native _ [] hrest with ⟨-, hended⟩ | ⟨⟨reply, hmem, -⟩, -⟩
  · exact hended
  · cases hmem

open Reference in
/-- A reader that has failed inside a frame gives an empty rest when it is asked again, although it
never read the frame to its end. -/
theorem rest_after_failure :
    ((new .native { rest := unfinished }).requests [.rest, .rest]).2
        = [.failure (.codec .incompleteFrame), .rest []]
      ∧ ∀ content unread, Decoder.new.read unfinished ≠ ⟨content, .ended unread⟩ := by
  rcases unfinished_blocks with ⟨blocks, hblocks, hunfinished⟩
  have hread := read_unfinished (Header.writable_ofPreferences (by decide)) hblocks
  rw [← hunfinished] at hread
  have hfirst := request_rest .native (Source.steady_rest unfinished)
  rw [hread] at hfirst
  refine ⟨?_, fun content unread hended => ?_⟩
  · have hover : ((new .native { rest := unfinished }).request .rest).1.Over := by
      rcases request_keeps (keeps_new .native { rest := unfinished }) .rest
          with ⟨hgood, -⟩ | ⟨-, hover⟩
      · rw [hfirst] at hgood
        exact absurd trivial hgood
      · exact hover
    simp only [requests, hfirst, (hover.request .rest).2]
    rfl
  · rw [hread] at hended
    cases hended

end Lz4Frame.Reader
