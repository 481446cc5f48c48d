import Lz4Frame.Proofs.Codec.DeclaredLength
import Lz4Frame.Proofs.Decompressor.Chunks
import Lz4Frame.Proofs.Host.Accounting
import Lz4Frame.Stream.Reader
import Mathlib.Algebra.Group.Nat.Defs

/-!
# Decoding stops

Whatever the bytes are, decoding them comes to an end, and how long it takes is bounded by what goes
in and what comes out.  A loop that decodes is a row of rounds with room at hand (`Loop`), and there
is one round at most for each byte on either side, and one more.  A reader takes a byte from its
source with every step that does not end the reading, and asks at most twice for each byte
(`Reader.next_steps`).

Nothing is said about where a decompressor stands or what has happened to a reader before: all of
this holds of frames, of anything else, and behind any calls (`decoding_stops`).
-/

namespace Lz4Frame

open Decoder

/-! ## Loops -/

variable [Platform]

/-- A loop that decodes some input in these rounds, and keeps to what there is. -/
structure Loop (decoder : Decoder) (input : Bytes) (rounds : List Round) : Prop where
  connected : Rounds decoder input rounds
  room_pos : ∀ round ∈ rounds, 0 < round.room
  /-- Each round is given the end of the input. -/
  suffixes : ∀ round ∈ rounds, round.input <:+ input
  within : ∀ round ∈ rounds,
    round.used ≤ round.input.length ∧ round.content.length ≤ round.room
  gets_on : ∀ round ∈ rounds, round.input ≠ [] → round.GoesOn →
    0 < round.used + round.content.length
  length_le : rounds.length ≤ input.length + (rounds.flatMap Round.content).length + 1

/-- Each round is given what the others have left. -/
theorem Decoder.Rounds.suffixes {decoder : Decoder} {input : Bytes} {rounds : List Round} :
    Rounds decoder input rounds → ∀ round ∈ rounds, round.input <:+ input := by
  intro h
  induction h with
  | last decoder input room => exact List.forall_mem_singleton.mpr List.suffix_rfl
  | @further decoder next input room progress rounds hrun hnz hrest others ih =>
      rcases run_rest hrun with ⟨taken, htaken, -⟩
      have hleft : progress.rest <:+ input := ⟨taken, htaken.symm⟩
      exact List.forall_mem_cons.mpr
        ⟨List.suffix_rfl, fun round hmem => (ih round hmem).trans hleft⟩

/-- Room at hand is all that it takes. -/
theorem Decoder.Rounds.loop {decoder : Decoder} {input : Bytes} {rounds : List Round} :
    Rounds decoder input rounds → (∀ round ∈ rounds, 0 < round.room) →
      Loop decoder input rounds := by
  intro h hrooms
  have hused := h.used_le
  have hlength := h.length_le hrooms
  exact {
    connected := h
    room_pos := hrooms
    suffixes := h.suffixes
    within := fun round _ => round.within
    gets_on := fun round hmem hinput => Round.gets_on hinput (hrooms round hmem)
    length_le := by omega }

/-- How many calls of the encoder or decoder there were. -/
def engineCalls (events : List LockEvent) : Nat :=
  events.countP fun
    | .call _ => true
    | _ => false

omit [Platform] in
theorem engineCalls_around (gate : Gate) (amount : Nat) :
    engineCalls (gate.around amount) = 1 := by
  unfold Gate.around
  split
  · rfl
  · split <;> rfl

omit [Platform] in
/-- Each round is one call, whatever the gate is asked about. -/
theorem engineCalls_rounds (gate : Gate) (amount : Round → Nat) (rounds : List Round) :
    engineCalls (rounds.flatMap fun round => gate.around (amount round)) = rounds.length := by
  induction rounds with
  | nil => rfl
  | cons round rounds ih =>
      have hone := engineCalls_around gate (amount round)
      unfold engineCalls at hone ih ⊢
      rw [List.flatMap_cons, List.countP_append, hone, ih, List.length_cons, Nat.add_comm]

/-! ## Decoding in one call -/

/-- A buffer that has grown holds what it held before. -/
theorem OutputBuffer.grow_written {buffer grown : OutputBuffer} :
    buffer.grow = .ok grown → grown.written = buffer.written := by
  intro h
  simp only [grow] at h
  split at h
  · cases h
  · split at h
    · cases h
    · rw [← Except.ok.inj h]

/-- A buffer that has grown has twice the capacity. -/
theorem OutputBuffer.grow_capacity {buffer grown : OutputBuffer} :
    buffer.grow = .ok grown → grown.capacity = buffer.capacity * 2 := by
  intro h
  simp only [grow] at h
  split at h
  · cases h
  · split at h
    · cases h
    · rw [← Except.ok.inj h]

omit [Platform] in
/-- A header that was read lies within the input. -/
theorem Decoder.readHeader_within {input : Bytes} {next : Decoder} {info : FrameInfo}
    {length : Nat} :
    readHeader input = .ok (next, info, length) → length ≤ input.length := by
  intro h
  unfold readHeader at h
  split at h
  · cases h
  · rename_i hfive
    simp only [Bool.not_eq_true', Bool.not_eq_false, hasAtLeast_iff] at hfive
    split at h
    · -- of a frame to be skipped only the magic number is taken
      split at h
      · cases h
      · cases h
        omega
    · split at h
      · cases h
      · simp only at h
        split at h
        · cases h
        · rename_i hlength
          simp only [Bool.not_eq_true', Bool.not_eq_false, hasAtLeast_iff] at hlength
          rcases bind_eq_ok.mp h with ⟨_, -, h⟩
          rcases bind_eq_ok.mp h with ⟨_, -, h⟩
          cases h
          exact hlength

namespace Codec

/-- What is left of a buffer for `capacity` bytes that doubles behind every round, if `before` bytes
stood in it at first. -/
def bufferRest (capacity before : Nat) (rounds : List Round) : Nat :=
  capacity * 2 ^ rounds.length - (before + (rounds.flatMap Round.content).length)

theorem bufferRest_nil (buffer : OutputBuffer) :
    buffer.spare = bufferRest buffer.capacity buffer.written.size [] := by
  simp [bufferRest, OutputBuffer.spare]

theorem bufferRest_cons (capacity before : Nat) (round : Round) (rounds : List Round) :
    bufferRest capacity before (round :: rounds)
      = bufferRest (capacity * 2) (before + round.content.length) rounds := by
  simp [bufferRest, Nat.pow_succ', Nat.mul_assoc, Nat.add_assoc]

/-- Decoding with a buffer that grows is done in rounds, each with all that is left of the buffer,
and what comes out is what they have written. -/
theorem decodeAll_rounds (gate : Gate) (decoder : Decoder) {input : Bytes} {length : Nat}
    (hlength : length = input.length) {buffer : OutputBuffer} (hspare : 0 < buffer.spare)
    (events : Array LockEvent) :
    ∃ rounds, Rounds decoder input rounds ∧ (∀ round ∈ rounds, 0 < round.room)
      ∧ Rooms (bufferRest buffer.capacity buffer.written.size) rounds
      ∧ (decodeAll gate decoder input length buffer events hspare).events
        = events.toList ++ rounds.flatMap (fun round => gate.around round.input.length)
      ∧ ∀ content, (decodeAll gate decoder input length buffer events hspare).value = .ok content →
          content = buffer.written.toList ++ rounds.flatMap Round.content := by
  -- each turn of the loop is the last round, or one in front of those of the other turns
  fun_induction decodeAll gate decoder input length buffer events hspare with
  | case1 decoder input length buffer events hspare room events₁ next code hrun =>
      subst hlength
      exact ⟨_, .last decoder input room, List.forall_mem_singleton.mpr hspare,
        .singleton (bufferRest_nil buffer), by simp [events₁], fun content hok => by cases hok⟩
  | case2 decoder input length buffer events hspare room events₁ next progress hrun grown hzero =>
      -- the frame has ended
      subst hlength
      refine ⟨_, .last decoder input room, List.forall_mem_singleton.mpr hspare,
        .singleton (bufferRest_nil buffer), by simp [events₁], fun content hok => ?_⟩
      rw [← Except.ok.inj hok, List.flatMap_singleton, Round.content_eq hrun]
      exact Array.toList_append
  | case3 decoder input length buffer events hspare room events₁ next progress hrun hnz hrest =>
      -- the input has ended before the frame
      subst hlength
      exact ⟨_, .last decoder input room, List.forall_mem_singleton.mpr hspare,
        .singleton (bufferRest_nil buffer), by simp [events₁], fun content hok => by cases hok⟩
  | case4 decoder input length buffer events hspare room events₁ next progress hrun grown hnz hrest
      cause hgrow =>
      subst hlength
      exact ⟨_, .last decoder input room, List.forall_mem_singleton.mpr hspare,
        .singleton (bufferRest_nil buffer), by simp [events₁], fun content hok => by cases hok⟩
  | case5 decoder input length buffer events hspare room events₁ next progress hrun written hnz
      hrest bigger hgrow hinput hlex ih =>
      -- the other turns find in their buffer what this round has written
      subst hlength
      have hleft : input.length - progress.consumed = progress.rest.length := by
        rcases run_rest hrun with ⟨taken, htaken, hconsumed⟩
        rw [htaken, List.length_append]
        omega
      rcases ih hleft with ⟨rounds, hrounds, hpos, hrooms, hevents, hcontent⟩
      have hkept : bigger.written = buffer.written ++ progress.written :=
        OutputBuffer.grow_written hgrow
      have hdoubled : bigger.capacity = buffer.capacity * 2 := (OutputBuffer.grow_capacity hgrow :)
      refine ⟨_, .further hrun hnz hrest hrounds, List.forall_mem_cons.mpr ⟨hspare, hpos⟩,
        .cons (bufferRest_nil buffer) ?_, by simp [hevents, events₁], fun content hok => ?_⟩
      · have hsize : bigger.written.size
            = buffer.written.size + (Round.content ⟨decoder, input, room⟩).length := by
          rw [hkept, Round.content_eq hrun, Array.size_append, Array.length_toList]
        simpa only [bufferRest_cons, ← hsize, ← hdoubled] using hrooms
      rw [hcontent content hok, hkept, List.flatMap_cons, Round.content_eq hrun,
        Array.toList_append, List.append_assoc]

/-- Why decoding in one call does not come to its loop: what is said, and what was asked of the
decoder by then. -/
inductive NotBegun (hint : Nat) (input : Bytes) : Error → List LockEvent → Prop
  | noInput (empty : input = []) : NotBegun hint input .emptyInput []
  | noHint (ne_nil : input ≠ []) (hint_eq : hint = 0) :
      NotBegun hint input (.invalid .bufferSize hint) []
  | badHeader {decoder : Decoder} {code : ErrorCode} (ne_nil : input ≠ []) (hint_pos : 1 ≤ hint)
      (header_eq : Decoder.new.frameInfo input = (decoder, .error code)) :
      NotBegun hint input (.frame code) [.call none]
  | noBuffer {decoder : Decoder} {info : FrameInfo} {length : Nat} {cause : Error}
      (hint_pos : 1 ≤ hint)
      (header_eq : Decoder.new.frameInfo input = (decoder, .ok (info, length)))
      (buffer_eq : initialBuffer info.declared (input.drop length).length hint = .error cause) :
      NotBegun hint input cause [.call none]

/-- Decoding in one call does not begin, or is set up and then a loop behind the header. -/
theorem decompress_loop (gate : Gate) (hint : Nat) (input : Bytes) :
    (∃ cause events, NotBegun hint input cause events
        ∧ decompress gate hint input = ⟨.error cause, events⟩)
      ∨ ∃ decoder info headerLength buffer rounds,
        1 ≤ hint ∧ SetUp hint input decoder info headerLength buffer
          ∧ headerLength ≤ input.length ∧ Loop decoder (input.drop headerLength) rounds
          ∧ Rooms (bufferRest buffer.capacity 0) rounds
          ∧ (decompress gate hint input).events
            = .call none :: rounds.flatMap (fun round => gate.around round.input.length)
          ∧ ∀ content, (decompress gate hint input).value = .ok content →
              content = rounds.flatMap Round.content := by
  by_cases hne : input = []
  · exact .inl ⟨_, _, .noInput hne, by rw [decompress, if_pos (by simp [hne])]⟩
  have hempty : ¬ input.isEmpty = true := by simpa [List.isEmpty_iff] using hne
  by_cases hzero : hint = 0
  · exact .inl ⟨_, _, .noHint hne hzero, by rw [decompress, if_neg hempty, if_pos hzero]⟩
  have hhint := Nat.pos_of_ne_zero hzero
  rcases hheader : Decoder.new.frameInfo input with ⟨decoder, code | ⟨info, headerLength⟩⟩
  · refine .inl ⟨_, _, .badHeader hne hhint hheader, ?_⟩
    rw [decompress, if_neg hempty, if_neg hzero]
    simp only [hheader]
  cases hbuffer : initialBuffer info.declared (input.drop headerLength).length hint with
  | error cause =>
      refine .inl ⟨_, _, .noBuffer hhint hheader hbuffer, ?_⟩
      rw [decompress, if_neg hempty, if_neg hzero]
      simp only [hheader]
      split
      · rename_i hsame
        cases hbuffer.symm.trans hsame
        rfl
      · rename_i hother
        cases hbuffer.symm.trans hother
  | ok buffer =>
      have hsetUp : SetUp hint input decoder info headerLength buffer := ⟨hheader, hbuffer⟩
      rcases decodeAll_rounds gate decoder (Eq.refl (input.drop headerLength).length)
          hsetUp.spare_pos #[.call none] with ⟨rounds, hrounds, hpos, hrooms, hevents, hcontent⟩
      rw [hsetUp.written_eq] at hrooms hcontent
      rw [hsetUp.decompress_eq gate hhint]
      exact .inr ⟨decoder, info, headerLength, buffer, rounds, hhint, hsetUp,
        readHeader_within hsetUp.readHeader_eq, hrounds.loop hpos, hrooms, hevents, hcontent⟩

end Codec

/-! ## Calls of a decompressor -/

/-- A call is refused before anything is done, or is a loop over its piece. -/
theorem Decompressor.update_loop (decompressor : Decompressor) (piece : Bytes) (chunkLength : Nat) :
    (∃ cause, ¬ Portion.Fits ⟨piece, chunkLength⟩
        ∧ decompressor.update piece chunkLength = (decompressor, ⟨.error cause, []⟩))
      ∨ ∃ rounds, Loop decompressor.decoder piece rounds ∧ Rooms (chunkRest chunkLength 0) rounds
          ∧ (decompressor.update piece chunkLength).2.events
            = rounds.flatMap (decompressor.gate.around ·.room)
          ∧ ∀ decoded, (decompressor.update piece chunkLength).2.value = .ok decoded →
              decoded.content = rounds.flatMap Round.content := by
  by_cases hfits : Portion.Fits ⟨piece, chunkLength⟩
  · rcases decompressor with ⟨gate, decoder⟩
    rcases hfill : fill hfits.chunk_pos gate decoder piece (.new chunkLength) 1 0 #[]
      with ⟨last, result, events⟩
    rcases fill_rounds hfits.chunk_granted hfits.ne_nil hfill
      with ⟨rounds, hrounds, hpos, hrooms, hevents, haccounts⟩
    rw [update_eq_fill gate decoder hfits, hfill]
    refine .inr ⟨rounds, hrounds.loop hpos, hrooms, hevents, fun decoded hok => ?_⟩
    exact (haccounts decoded hok).content_eq
  · rcases decompressor.update_refused hfits with ⟨cause, hrefused⟩
    exact .inl ⟨cause, hfits, hrefused⟩

/-! ## Asking a source -/

namespace Source

/-- The calls that a source has seen, and those that it can still take at most before it has nothing
to give: each gives a byte or uses up an answer in store. -/
def tally (source : Source) : Nat :=
  source.calls.size + source.rest.length + source.reads.length

omit [Platform] in
/-- Every byte that is given counts against the call. -/
theorem give_tally (source : Source) (asked limit : Nat) :
    (source.give asked limit).1.tally + (source.give asked limit).2.length = source.tally + 1
      ∧ (source.give asked limit).2.length ≤ asked := by
  simp only [give, tally, List.splitAt_eq, Array.size_push, List.length_take, List.length_drop]
  omega

omit [Platform] in
theorem read_tally {source next : Source} {asked : Nat} {piece : Bytes} :
    source.read asked = (next, .ok piece) →
      next.tally + piece.length ≤ source.tally + 1 ∧ piece.length ≤ asked := by
  intro h
  unfold read at h
  split at h
  · cases h
  · rename_i count reads hreads
    have hgive := give_tally { source with reads } asked count
    have hless : tally { source with reads } ≤ source.tally := by
      simp only [tally, hreads, List.length_cons]
      omega
    simp only [Prod.mk.injEq, Except.ok.injEq] at h
    rw [← h.1, ← h.2]
    omega
  · have hgive := give_tally source asked asked
    simp only [Prod.mk.injEq, Except.ok.injEq] at h
    rw [← h.1, ← h.2]
    omega

omit [Platform] in
/-- A failure uses up the answer that it is. -/
theorem read_error_tally {source next : Source} {asked : Nat} {cause : IoError} :
    source.read asked = (next, .error cause) → next.tally ≤ source.tally := by
  intro h
  unfold read at h
  split at h
  · rename_i hreads
    simp only [Prod.mk.injEq] at h
    simp only [← h.1, tally, Array.size_push, hreads, List.length_cons]
    omega
  · cases h
  · cases h

omit [Platform] in
/-- Filling makes one call at most that was not counted. -/
theorem fill_tally {source next : Source} {wanted : Nat} {got : Array UInt8}
    {result : Except IoError (Array UInt8)} :
    source.fill wanted got = (next, result) →
      next.tally ≤ source.tally + 1 ∧ next.rest.length ≤ source.rest.length
        ∧ ∀ out, result = .ok out → out.size ≤ got.size + wanted := by
  intro h
  fun_induction fill source wanted got with
  | case1 source got =>
      cases h
      exact ⟨Nat.le_succ _, Nat.le_refl _, fun out hok => by cases hok; exact Nat.le_refl _⟩
  | case2 source wanted got hwanted next' cause hread hless hkind ih =>
      -- interrupted
      rcases ih h with ⟨htally, hrest, hsize⟩
      have hcounted := read_error_tally hread
      rw [(read_error hread).2] at hrest
      exact ⟨by omega, hrest, hsize⟩
  | case3 source wanted got hwanted next' cause hread hless hkind =>
      cases h
      exact ⟨Nat.le_succ_of_le (read_error_tally hread),
        Nat.le_of_eq (congrArg List.length (read_error hread).2), fun out hok => by cases hok⟩
  | case4 source wanted got hwanted next' hread =>
      cases h
      have hrest := (read_ok hread).2
      refine ⟨(read_tally hread).1, Nat.le_of_add_left_le (Nat.le_of_eq hrest), fun out hok => ?_⟩
      cases hok
      exact Nat.le_add_right _ _
  | case5 source wanted got hwanted next' piece hread hpiece _ _ ih =>
      -- what the source gives pays for the call
      rcases ih h with ⟨htally, hrest, hsize⟩
      have hpos := List.length_pos_iff.mpr hpiece
      have hgiven := (read_ok hread).2
      rcases read_tally hread with ⟨hcounted, hle⟩
      refine ⟨by omega, by omega, fun out hok => ?_⟩
      have hbound := hsize out hok
      have hgrown : (piece.foldl Array.push got).size = got.size + piece.length := by simp
      omega

end Source

/-! ## Steps of a reader -/

namespace Reader

/-- A step fills its input once, and asks its source for nothing else. -/
theorem step_fill {reader next : Reader} {outcome : Traced (Except IoError Unit)} :
    reader.step = (next, outcome) →
      ∃ result, reader.source.fill reader.wanted #[] = (next.source, result) := by
  intro h
  unfold step at h
  simp only at h
  split at h
  · rename_i hfill
    cases h
    exact ⟨_, hfill⟩
  · rename_i hfill
    repeat' split at h
    all_goals
      cases h
      exact ⟨_, hfill⟩

/-- Steps one after another: all but the last succeed, and one that fails ends the reading. -/
inductive Steps : Reader → List Reader → Reader → Prop
  | none (reader : Reader) : Steps reader [] reader
  | failed {reader next : Reader} {cause : IoError} {events : List LockEvent}
      (step_eq : reader.step = (next, ⟨.error cause, events⟩)) :
      Steps reader [reader] { next with done := true }
  | further {reader next last : Reader} {events : List LockEvent} {row : List Reader}
      (step_eq : reader.step = (next, ⟨.ok (), events⟩)) (others : Steps next row last) :
      Steps reader (reader :: row) last

namespace Steps

variable {reader last : Reader} {row : List Reader}

/-- Each step takes at least a byte, or ends the reading. -/
theorem each (h : Steps reader row last) :
    ∀ stepping ∈ row, ∃ next outcome, stepping.step = (next, outcome)
      ∧ (next.source.rest.length < stepping.source.rest.length ∨ last.done = true) := by
  induction h with
  | none reader =>
      intro stepping hmem
      cases hmem
  | failed hstep => exact List.forall_mem_singleton.mpr ⟨_, _, hstep, .inr rfl⟩
  | further hstep others ih =>
      exact List.forall_mem_cons.mpr ⟨⟨_, _, hstep, .inl (step_ok hstep)⟩, ih⟩

/-- There are no more steps than bytes that were taken, and one. -/
theorem length_le (h : Steps reader row last) :
    row.length + last.source.rest.length ≤ reader.source.rest.length + 1 := by
  induction h with
  | none reader => exact Nat.le_of_lt (by simp)
  | failed hstep =>
      rcases step_fill hstep with ⟨result, hfill⟩
      have hrest := (Source.fill_tally hfill).2.1
      rw [List.length_singleton, Nat.add_comm]
      exact Nat.succ_le_succ hrest
  | further hstep others ih =>
      have hless := step_ok hstep
      rw [List.length_cons]
      omega

/-- The calls of the source are counted in advance, but for one in each step; so each byte counts
for two of them. -/
theorem tally_le (h : Steps reader row last) :
    last.source.tally + last.source.rest.length
      ≤ reader.source.tally + reader.source.rest.length + 1 := by
  induction h with
  | none reader => exact Nat.le_succ _
  | failed hstep =>
      rcases step_fill hstep with ⟨result, hfill⟩
      rcases Source.fill_tally hfill with ⟨htally, hrest, -⟩
      simp only
      omega
  | further hstep others ih =>
      -- the byte that the step has taken pays for its call that was not counted
      rcases step_fill hstep with ⟨result, hfill⟩
      have htally := (Source.fill_tally hfill).1
      have hless := step_ok hstep
      omega

end Steps

/-- Asking for the next chunk takes steps until there is one, the frame has ended, or a step
fails. -/
theorem next_steps (reader : Reader) (events : List LockEvent) :
    ∃ row last, Steps reader row last ∧ (reader.next events).1.source = last.source
      ∧ (reader.next events).1.done = last.done := by
  fun_induction next reader events with
  | case1 reader events chunk pending hpending => exact ⟨[], reader, .none reader, rfl, rfl⟩
  | case2 reader events hpending hdone => exact ⟨[], reader, .none reader, rfl, rfl⟩
  | case3 reader events hpending hgoing last cause more hstep =>
      exact ⟨_, _, .failed hstep, rfl, rfl⟩
  | case4 reader events hpending hgoing following more hstep hless ih =>
      rcases ih with ⟨row, last, hsteps, hsource, hdone⟩
      exact ⟨_, last, .further hstep hsteps, hsource, hdone⟩

end Reader

/-- Decoding comes to an end, whatever the bytes are and whatever was done before.  Decoding in one
call does not begin, for a reason that is said, or is a loop; so is feeding a decompressor.  In
every round there is room at hand: what is left of the buffer, which doubles behind each round, or
of the chunk.  Rounds keep to what there is, and those with input that stop inside the frame get on;
so there are no more calls of the decoder than bytes that go in and come out, and two.  A reader
takes a byte from its source with every step that does not end the reading, and the calls that its
source sees are no more than two for each byte, one for each answer that the source has in store,
and one. -/
theorem decoding_stops :
    (∀ (gate : Gate) (hint : Nat) (input : Bytes),
        (∃ cause events, Codec.NotBegun hint input cause events
            ∧ Codec.decompress gate hint input = ⟨.error cause, events⟩)
          ∨ ∃ decoder info headerLength buffer rounds,
            1 ≤ hint ∧ Codec.SetUp hint input decoder info headerLength buffer
              ∧ headerLength ≤ input.length ∧ Loop decoder (input.drop headerLength) rounds
              ∧ Rooms (Codec.bufferRest buffer.capacity 0) rounds
              ∧ (Codec.decompress gate hint input).events
                = .call none :: rounds.flatMap (fun round => gate.around round.input.length)
              ∧ engineCalls (Codec.decompress gate hint input).events
                ≤ input.length + (rounds.flatMap Round.content).length + 2
              ∧ ∀ content, (Codec.decompress gate hint input).value = .ok content →
                  content = rounds.flatMap Round.content)
      ∧ (∀ (decompressor : Decompressor) (piece : Bytes) (chunkLength : Nat),
        (∃ cause, ¬ Portion.Fits ⟨piece, chunkLength⟩
            ∧ decompressor.update piece chunkLength = (decompressor, ⟨.error cause, []⟩))
          ∨ ∃ rounds, Loop decompressor.decoder piece rounds
              ∧ Rooms (Decompressor.chunkRest chunkLength 0) rounds
              ∧ (decompressor.update piece chunkLength).2.events
                = rounds.flatMap (decompressor.gate.around ·.room)
              ∧ engineCalls (decompressor.update piece chunkLength).2.events
                ≤ piece.length + (rounds.flatMap Round.content).length + 1
              ∧ ∀ decoded, (decompressor.update piece chunkLength).2.value = .ok decoded →
                  decoded.content = rounds.flatMap Round.content)
      ∧ ∀ (reader : Reader) (events : List LockEvent),
        ∃ row last, Reader.Steps reader row last
          ∧ (reader.next events).1.source = last.source
          ∧ (reader.next events).1.done = last.done
          ∧ (∀ stepping ∈ row, ∃ next outcome, stepping.step = (next, outcome)
              ∧ (next.source.rest.length < stepping.source.rest.length ∨ last.done = true))
          ∧ row.length + last.source.rest.length ≤ reader.source.rest.length + 1
          ∧ last.source.calls.size + last.source.reads.length + 2 * last.source.rest.length
            ≤ reader.source.calls.size + reader.source.reads.length
              + 2 * reader.source.rest.length + 1 := by
  refine ⟨fun gate hint input => ?_, fun decompressor piece chunkLength => ?_,
    fun reader events => ?_⟩
  · refine (Codec.decompress_loop gate hint input).imp_right ?_
    rintro ⟨decoder, info, headerLength, buffer, rounds, hhint, hsetUp, hwithin, hloop, hrooms,
      hevents, hcontent⟩
    refine ⟨decoder, info, headerLength, buffer, rounds, hhint, hsetUp, hwithin, hloop, hrooms,
      hevents, ?_, hcontent⟩
    have hcalls := engineCalls_rounds gate (·.input.length) rounds
    have hlength := hloop.length_le
    rw [List.length_drop] at hlength
    rw [hevents, engineCalls, List.countP_cons_of_pos rfl]
    unfold engineCalls at hcalls
    omega
  · refine (decompressor.update_loop piece chunkLength).imp_right ?_
    rintro ⟨rounds, hloop, hrooms, hevents, hcontent⟩
    refine ⟨rounds, hloop, hrooms, hevents, ?_, hcontent⟩
    rw [hevents, engineCalls_rounds decompressor.gate Round.room]
    exact hloop.length_le
  · rcases reader.next_steps events with ⟨row, last, hsteps, hsource, hdone⟩
    have htally := hsteps.tally_le
    unfold Source.tally at htally
    exact ⟨row, last, hsteps, hsource, hdone, hsteps.each, hsteps.length_le, by omega⟩

end Lz4Frame
