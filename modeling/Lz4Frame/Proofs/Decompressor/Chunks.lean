import Lz4Frame.Platform.Reference
import Lz4Frame.Proofs.Decoder.Rounds
import Lz4Frame.Proofs.Truncation

/-!
# Chunks that are filled one after another

A call of a decompressor can be told with a chunk at hand: each round writes behind what stands in
the chunk already, and a full chunk is put away when another round follows, not before
(`Decompressor.fill`).  This comes to the same as cutting all the content at the end
(`update_eq_fill`): no chunk is lost, none is empty, and none comes twice.

So every answer can be accounted for round by round: its chunks are all full but the last, they hold
what the rounds have written, and it has used what they have read (`chunks_of_rounds`).
-/

namespace Lz4Frame

/-! ## Rows of chunks -/

/-- Chunks that are all full but the last, which is not empty. -/
structure Chunked (length : Nat) (chunks : List Bytes) : Prop where
  full : ∀ chunk ∈ chunks.dropLast, chunk.length = length
  last : ∀ chunk ∈ chunks.getLast?, 1 ≤ chunk.length ∧ chunk.length ≤ length

/-- The chunks of a call while it goes on. -/
structure Chunks (length : Nat) where
  /-- Chunks that were put away. -/
  away : List Bytes
  /-- What stands in the chunk at hand. -/
  written : Array UInt8
  away_full : ∀ chunk ∈ away, chunk.length = length
  written_le : written.size ≤ length

namespace Chunks

variable {length : Nat}

/-- An empty chunk at hand. -/
def new (length : Nat) : Chunks length := ⟨[], #[], List.forall_mem_nil _, Nat.zero_le _⟩

/-- All the content so far. -/
def content (chunks : Chunks length) : Bytes := chunks.away.flatten ++ chunks.written.toList

/-- Puts a full chunk away and takes up an empty one. -/
def turn (chunks : Chunks length) : Chunks length :=
  if hfull : chunks.written.size = length then
    { away := chunks.away ++ [chunks.written.toList]
      written := #[]
      away_full := by
        intro chunk hmem
        rcases List.mem_append.mp hmem with hmem | hmem
        · exact chunks.away_full chunk hmem
        · rw [List.mem_singleton.mp hmem, Array.length_toList, hfull]
      written_le := Nat.zero_le _ }
  else
    chunks

/-- Asks for the chunk to turn to, if the one at hand is full. -/
def ask [Platform] (chunks : Chunks length) : Except Error Unit :=
  if chunks.written.size = length then allocate length else .ok ()

theorem ask_of_grants [Platform] (chunks : Chunks length) :
    Platform.grants length = true → chunks.ask = .ok () := by
  intro h
  unfold ask
  split
  · exact allocate_of_grants h
  · rfl

/-- The room behind what stands in the chunk at hand. -/
def room (chunks : Chunks length) : Nat := length - chunks.written.size

/-- Writes to the chunk at hand. -/
def write (chunks : Chunks length) (out : Array UInt8) (fits : out.size ≤ chunks.room) :
    Chunks length :=
  { chunks with
    written := chunks.written ++ out
    written_le := by
      have := chunks.written_le
      unfold room at fits
      rw [Array.size_append]
      omega }

/-- All chunks; the one at hand counts if there is something in it. -/
def all (chunks : Chunks length) : List Bytes :=
  if chunks.written.isEmpty then chunks.away else chunks.away ++ [chunks.written.toList]

@[simp] theorem content_new : (new length).content = [] := rfl

@[simp] theorem content_turn (chunks : Chunks length) : chunks.turn.content = chunks.content := by
  unfold turn
  split
  · simp [content]
  · rfl

@[simp] theorem content_write (chunks : Chunks length) (out : Array UInt8)
    (fits : out.size ≤ chunks.room) :
    (chunks.write out fits).content = chunks.content ++ out.toList := by
  simp [content, write]

/-- There is room behind a turn. -/
theorem turn_room_pos (hlength : 0 < length) (chunks : Chunks length) : 0 < chunks.turn.room := by
  have hle := chunks.written_le
  unfold turn
  split
  · exact hlength
  · unfold room
    omega

/-- Chunks that were put away do not count: the room behind a turn is what the content leaves of its
last chunk. -/
theorem turn_room (chunks : Chunks length) :
    chunks.turn.room = length - chunks.content.length % length := by
  have hflatten : chunks.away.flatten.length = chunks.away.length * length := by
    rw [List.length_flatten, List.map_congr_left chunks.away_full, List.map_const',
      List.sum_replicate_nat]
  have hmod : chunks.content.length % length = chunks.written.size % length := by
    rw [content, List.length_append, hflatten, Array.length_toList, Nat.add_comm,
      Nat.add_mul_mod_self_right]
  rw [hmod]
  unfold turn
  split
  · rename_i hfull
    rw [hfull, Nat.mod_self]
    rfl
  · rename_i hshort
    have hlt : chunks.written.size < length := by
      have := chunks.written_le
      omega
    rw [Nat.mod_eq_of_lt hlt]
    rfl

/-- The chunks are the content, cut into pieces of their length. -/
theorem all_eq (hlength : 0 < length) (chunks : Chunks length) :
    chunks.all = chunksOf length chunks.content := by
  rw [content, chunksOf_append hlength chunks.away_full]
  unfold all
  split
  · rename_i hnone
    rw [Array.isEmpty_iff.mp hnone]
    simp
  · rename_i hsome
    rw [chunksOf_short]
    · simpa using hsome
    · simpa using chunks.written_le

/-- Whatever is done, only the last chunk can be short, and none is empty. -/
theorem all_chunked (hlength : 0 < length) (chunks : Chunks length) :
    Chunked length chunks.all := by
  unfold all
  split
  · -- the chunk at hand is empty, and all that were put away are full
    refine ⟨fun chunk hmem => chunks.away_full chunk (List.dropLast_subset _ hmem),
      fun chunk hlast => ?_⟩
    have hfull := chunks.away_full chunk (List.mem_of_getLast? hlast)
    omega
  · rename_i hsome
    refine ⟨fun chunk hmem => ?_, fun chunk hlast => ?_⟩
    · rw [List.dropLast_concat] at hmem
      exact chunks.away_full chunk hmem
    · rw [List.getLast?_concat, Option.mem_some_iff] at hlast
      have hle := chunks.written_le
      have hpos : 0 < chunks.written.size := by
        simpa [Nat.pos_iff_ne_zero] using hsome
      rw [← hlast, Array.length_toList]
      omega

end Chunks

/-! ## Filling chunks -/

namespace Decompressor

open Decoder

section

variable [Platform]

/-- Feeds a decoder until the piece is used up or the frame has ended, with the chunks so far. -/
def fill {length : Nat} (hlength : 0 < length) (gate : Gate) (decoder : Decoder) (piece : Bytes)
    (chunks : Chunks length) (hint consumed : Nat) (events : Array LockEvent) :
    Decoder × Traced (Except Error Decoded) :=
  if hpiece : piece = [] then
    (decoder, ⟨.ok ⟨chunks.all, hint, consumed⟩, events.toList⟩)
  else
    -- a full chunk is put away only now that there is more to decode
    match chunks.ask with
    | .error cause => (decoder, ⟨.error cause, events.toList⟩)
    | .ok () =>
        let turned := chunks.turn
        let events := events ++ gate.around turned.room
        match hrun : decoder.run piece turned.room with
        | (next, .error code) => (next, ⟨.error (.frame code), events.toList⟩)
        | (next, .ok progress) =>
            let grown := turned.write progress.written (run_written_size hrun)
            let used := consumed + progress.consumed
            if hhint : progress.hint = 0 then
              (next, ⟨.ok ⟨grown.all, 0, used⟩, events.toList⟩)
            else
              have := ((run_ahead hrun hpiece (chunks.turn_room_pos hlength)).resolve_left
                hhint).lex
              fill hlength gate next progress.rest grown progress.hint used events
termination_by (piece.length, decoder.pendingLength)
decreasing_by assumption

section

variable {length : Nat} {hlength : 0 < length} {gate : Gate} {decoder : Decoder} {piece : Bytes}
  {chunks : Chunks length} {hint consumed : Nat} {events : Array LockEvent}

/-- Filling chunks is feeding, with the content cut into pieces at the end. -/
theorem fill_eq_feed (hgranted : Platform.grants length = true) :
    ∀ out : Array UInt8, chunks.content = out.toList →
      fill hlength gate decoder piece chunks hint consumed events
        = match feed gate length hlength decoder piece out hint consumed events with
          | ⟨next, .error cause, events⟩ => (next, ⟨.error cause, events.toList⟩)
          | ⟨next, .ok (out, hint, consumed), events⟩ =>
              (next, ⟨.ok ⟨chunksOf length out.toList, hint, consumed⟩, events.toList⟩) := by
  -- both loops give each round the same room
  have hroom (chunks : Chunks length) (out : Array UInt8) :
      chunks.content = out.toList → chunks.turn.room = length - out.size % length := by
    intro hcontent
    rw [chunks.turn_room, hcontent, Array.length_toList]
  have hgrown (chunks : Chunks length) (out written : Array UInt8)
      (fits : written.size ≤ chunks.turn.room) :
      chunks.content = out.toList →
        (chunks.turn.write written fits).content = (out ++ written).toList := by
    intro hcontent
    rw [Chunks.content_write, Chunks.content_turn, hcontent, Array.toList_append]
  fun_induction fill hlength gate decoder piece chunks hint consumed events with
  | case1 decoder chunks hint consumed events =>
      intro out hcontent
      rw [feed_nil, chunks.all_eq hlength, hcontent]
  | case2 decoder piece chunks hint consumed events hpiece cause hasked =>
      rw [chunks.ask_of_grants hgranted] at hasked
      cases hasked
  | case3 decoder piece chunks hint consumed events hpiece hasked turned events₁ next code hrun =>
      intro out hcontent
      rw [hroom chunks out hcontent] at hrun
      rw [feed_failed_eq gate hlength hgranted hpiece hrun, ← hroom chunks out hcontent]
  | case4 decoder piece chunks hint consumed events hpiece hasked turned events₁ next progress hrun
      grown used hzero =>
      intro out hcontent
      rw [grown.all_eq hlength, hgrown chunks out _ _ hcontent]
      rw [hroom chunks out hcontent] at hrun
      rw [feed_run_eq gate hlength hgranted hpiece hrun, if_pos hzero, ← hroom chunks out hcontent]
  | case5 decoder piece chunks hint consumed events hpiece hasked turned events₁ next progress hrun
      grown used hnz hlex ih =>
      intro out hcontent
      rw [ih _ (hgrown chunks out _ _ hcontent)]
      rw [hroom chunks out hcontent] at hrun
      rw [feed_run_eq gate hlength hgranted hpiece hrun, if_neg hnz, ← hroom chunks out hcontent]

end

/-- A call fills chunks, from an empty one on. -/
theorem update_eq_fill (gate : Gate) (decoder : Decoder) {piece : Bytes} {chunkLength : Nat}
    (hfits : Portion.Fits ⟨piece, chunkLength⟩) :
    update ⟨gate, decoder⟩ piece chunkLength
      = match fill hfits.chunk_pos gate decoder piece (.new chunkLength) 1 0 #[] with
        | (next, result) => (⟨gate, next⟩, result) := by
  rw [fill_eq_feed hfits.chunk_granted #[] rfl]
  rcases hfeed : feed gate chunkLength hfits.chunk_pos decoder piece #[] 1 0 #[]
    with ⟨next, cause | ⟨out, hint, consumed⟩, events⟩
  · exact update_fed gate hfits hfeed
  · exact update_fed gate hfits hfeed

/-! ## Accounts -/

/-- An answer that the rounds account for, behind content that came before them. -/
structure Accounts (length : Nat) (before : Bytes) (consumed : Nat) (piece : Bytes)
    (rounds : List Round) (decoded : Decoded) : Prop where
  chunked : Chunked length decoded.chunks
  content_eq : decoded.content = before ++ rounds.flatMap Round.content
  consumed_eq : decoded.consumed = consumed + Round.allUsed rounds
  /-- The last round has ended the frame or used up the piece. -/
  ending : (decoded.hint = 0 ∧ ∃ last ∈ rounds.getLast?, last.Ends)
    ∨ decoded.hint ≠ 0 ∧ Round.allUsed rounds = piece.length
      ∧ ∃ last ∈ rounds.getLast?, last.GoesOn

/-- A round that ends the frame or uses up the piece accounts for all of it. -/
theorem Accounts.last {length : Nat} (hlength : 0 < length) {chunks : Chunks length}
    {decoder next : Decoder} {piece : Bytes} {progress : Progress}
    (hrun : decoder.run piece chunks.turn.room = (next, .ok progress))
    (hends : progress.hint = 0 ∨ progress.rest = []) (consumed : Nat) :
    Accounts length chunks.content consumed piece [⟨decoder, piece, chunks.turn.room⟩]
      ⟨(chunks.turn.write progress.written (run_written_size hrun)).all, progress.hint,
        consumed + progress.consumed⟩ where
  chunked := Chunks.all_chunked hlength _
  content_eq := by
    rw [Decoded.content, Chunks.all_eq hlength, flatten_chunksOf, Chunks.content_write,
      Chunks.content_turn, List.flatMap_singleton, Round.content_eq hrun]
  consumed_eq := by rw [Round.allUsed_cons, Round.used_eq hrun]; rfl
  ending := by
    rw [Round.allUsed_cons, Round.used_eq hrun]
    by_cases hzero : progress.hint = 0
    · exact .inl ⟨hzero, _, rfl, progress, congrArg Prod.snd hrun, hzero⟩
    · rcases run_rest hrun with ⟨taken, htaken, hconsumed⟩
      rw [hends.resolve_left hzero, List.append_nil] at htaken
      exact .inr ⟨hzero, htaken ▸ hconsumed, _, rfl, progress, congrArg Prod.snd hrun, hzero⟩

/-- The first round accounts for what it has written and read, and the others for the rest. -/
theorem Accounts.cons {length : Nat} {before piece : Bytes} {decoder next : Decoder} {room : Nat}
    {progress : Progress} {consumed : Nat} {rounds : List Round} {decoded : Decoded}
    (hrun : decoder.run piece room = (next, .ok progress)) (hne : rounds ≠ []) :
    Accounts length (before ++ progress.written.toList) (consumed + progress.consumed)
        progress.rest rounds decoded →
      Accounts length before consumed piece (⟨decoder, piece, room⟩ :: rounds) decoded := by
  intro h
  rcases run_rest hrun with ⟨taken, htaken, hconsumed⟩
  refine ⟨h.chunked, ?_, ?_, ?_⟩
  · rw [h.content_eq, List.flatMap_cons, Round.content_eq hrun, List.append_assoc]
  · rw [h.consumed_eq, Round.allUsed_cons, Round.used_eq hrun, Nat.add_assoc]
  · have hlast : (⟨decoder, piece, room⟩ :: rounds : List Round).getLast? = rounds.getLast? :=
      List.getLast?_cons_of_ne_nil hne
    rw [hlast, Round.allUsed_cons, Round.used_eq hrun]
    rcases h.ending with hends | ⟨hgoes, hall, hlast⟩
    · exact .inl hends
    · refine .inr ⟨hgoes, ?_, hlast⟩
      rw [hall, htaken, List.length_append, hconsumed]

/-- What is left of the chunk that is not full yet, or of the next one if it is, behind `before`
bytes of content and what some rounds have written. -/
def chunkRest (length before : Nat) (rounds : List Round) : Nat :=
  length - (before + (rounds.flatMap Round.content).length) % length

theorem chunkRest_cons (length before : Nat) (round : Round) (rounds : List Round) :
    chunkRest length before (round :: rounds)
      = chunkRest length (before + round.content.length) rounds := by
  simp [chunkRest, Nat.add_assoc]

/-- Filling chunks is done in rounds, each with what is left of a chunk, and they account for what
comes of it. -/
theorem fill_rounds {length : Nat} {hlength : 0 < length}
    (hgranted : Platform.grants length = true) {gate : Gate} {decoder next : Decoder}
    {piece : Bytes} (hpiece : piece ≠ []) {chunks : Chunks length} {hint consumed : Nat}
    {events : Array LockEvent} {result : Except Error Decoded} {events' : List LockEvent} :
    fill hlength gate decoder piece chunks hint consumed events = (next, ⟨result, events'⟩) →
      ∃ rounds, Rounds decoder piece rounds ∧ (∀ round ∈ rounds, 0 < round.room)
        ∧ Rooms (chunkRest length chunks.content.length) rounds
        ∧ events' = events.toList ++ rounds.flatMap (gate.around ·.room)
        ∧ ∀ decoded, result = .ok decoded →
            Accounts length chunks.content consumed piece rounds decoded := by
  intro h
  fun_induction fill hlength gate decoder piece chunks hint consumed events with
  | case1 => exact absurd rfl hpiece
  | case2 decoder piece chunks hint consumed events _ cause hasked =>
      rw [chunks.ask_of_grants hgranted] at hasked
      cases hasked
  | case3 decoder piece chunks hint consumed events _ hasked turned events₁ next₁ code hrun =>
      -- there is no answer to account for
      cases h
      refine ⟨_, .last decoder piece turned.room, ?_, .singleton chunks.turn_room,
        by simp [events₁], fun decoded hok => by cases hok⟩
      exact List.forall_mem_singleton.mpr (chunks.turn_room_pos hlength)
  | case4 decoder piece chunks hint consumed events _ hasked turned events₁ next₁ progress hrun
      grown used hzero =>
      -- the frame has ended, so no other round follows
      cases h
      refine ⟨_, .last decoder piece turned.room, ?_, .singleton chunks.turn_room,
        by simp [events₁], fun decoded hok => ?_⟩
      · exact List.forall_mem_singleton.mpr (chunks.turn_room_pos hlength)
      · cases hok
        exact hzero ▸ Accounts.last hlength hrun (.inl hzero) consumed
  | case5 decoder piece chunks hint consumed events _ hasked turned events₁ next₁ progress hrun
      grown used hnz hlex ih =>
      by_cases hrest : progress.rest = []
      · -- the piece is used up, and no other round follows
        rw [hrest, fill, dif_pos rfl] at h
        cases h
        refine ⟨_, .last decoder piece turned.room, ?_, .singleton chunks.turn_room,
          by simp [events₁], fun decoded hok => ?_⟩
        · exact List.forall_mem_singleton.mpr (chunks.turn_room_pos hlength)
        · cases hok
          exact Accounts.last hlength hrun (.inr hrest) consumed
      · -- the other rounds go on behind what this one has written and read
        rcases ih hrest h with ⟨rounds, hrounds, hpos, hrooms, hevents, haccounts⟩
        refine ⟨_, .further hrun hnz hrest hrounds, ?_, .cons chunks.turn_room ?_,
          by simp [hevents, events₁], fun decoded hok => ?_⟩
        · exact List.forall_mem_cons.mpr ⟨chunks.turn_room_pos hlength, hpos⟩
        · have hgrown : grown.content.length
              = chunks.content.length + (Round.content ⟨decoder, piece, turned.room⟩).length := by
            rw [Chunks.content_write, Chunks.content_turn, List.length_append,
              Round.content_eq hrun]
          simpa only [chunkRest_cons, ← hgrown] using hrooms
        · have hothers := haccounts decoded hok
          rw [Chunks.content_write, Chunks.content_turn] at hothers
          exact hothers.cons hrun hrounds.ne_nil

/-- What an answer is made of.  The decoder is called in rounds, each with what is left of a chunk,
which is never nothing, and none behind the end of the frame; all chunks but the last are full and
none is empty; they hold what the rounds have written, in order; the answer has used what the rounds
have read, and that is the whole piece unless the frame has ended. -/
theorem chunks_of_rounds {decompressor next : Decompressor} {piece : Bytes} {chunkLength : Nat}
    {decoded : Decoded} {events : List LockEvent} :
    decompressor.update piece chunkLength = (next, ⟨.ok decoded, events⟩) →
      ∃ rounds, Rounds decompressor.decoder piece rounds
        ∧ (∀ round ∈ rounds, 0 < round.room) ∧ Rooms (chunkRest chunkLength 0) rounds
        ∧ events = rounds.flatMap (decompressor.gate.around ·.room)
        ∧ Chunked chunkLength decoded.chunks
        ∧ decoded.content = rounds.flatMap Round.content
        ∧ decoded.consumed = Round.allUsed rounds
        ∧ decoded.consumed ≤ piece.length
        ∧ (decoded.consumed < piece.length → decoded.hint = 0)
        ∧ (decoded.hint = 0 ↔ ∃ last ∈ rounds.getLast?, last.Ends)
        ∧ ∀ round ∈ rounds.dropLast, ¬ round.Ends := by
  intro h
  rcases decompressor with ⟨gate, decoder⟩
  by_cases hfits : Portion.Fits ⟨piece, chunkLength⟩
  · rw [update_eq_fill gate decoder hfits] at h
    rcases hfill : fill hfits.chunk_pos gate decoder piece (.new chunkLength) 1 0 #[]
      with ⟨last, result, events'⟩
    rw [hfill] at h
    cases result with
    | error code => cases h
    | ok answer =>
        cases h
        rcases fill_rounds hfits.chunk_granted hfits.ne_nil hfill
          with ⟨rounds, hrounds, hpos, hrooms, hevents, haccounts⟩
        have haccount := haccounts decoded rfl
        have hconsumed : decoded.consumed = Round.allUsed rounds := by
          rw [haccount.consumed_eq, Nat.zero_add]
        refine ⟨rounds, hrounds, hpos, hrooms, hevents, haccount.chunked, haccount.content_eq,
          hconsumed, hconsumed ▸ hrounds.used_le, fun hless => ?_,
          ⟨fun hzero => ?_, fun hends => ?_⟩,
          fun round hmem => (hrounds.goesOn round hmem).not_ends⟩
        · rcases haccount.ending with ⟨hzero, -⟩ | ⟨-, hall, -⟩
          · exact hzero
          · exact absurd (hconsumed.trans hall) (Nat.ne_of_lt hless)
        · rcases haccount.ending with ⟨-, hends⟩ | ⟨hnz, -⟩
          · exact hends
          · exact absurd hzero hnz
        · rcases haccount.ending with ⟨hzero, -⟩ | ⟨-, -, other, hother, hgoes⟩
          · exact hzero
          · rcases hends with ⟨final, hfinal, hends⟩
            cases Option.mem_unique hother hfinal
            exact absurd hends hgoes.not_ends
  · rcases update_refused ⟨gate, decoder⟩ hfits with ⟨cause, hrefused⟩
    rw [hrefused] at h
    cases h

end

open Reference in
/-- A whole frame of three bytes, in chunks of two. -/
theorem chunks_of_rounds_three_bytes :
    ∃ next decoded events,
      (new .native).update threeBytes 2 = (next, ⟨.ok decoded, events⟩)
        ∧ decoded.chunks = [[1, 2], [3]]
        ∧ ∃ rounds, Rounds .new threeBytes rounds
          ∧ (∀ round ∈ rounds, 0 < round.room) ∧ Rooms (chunkRest 2 0) rounds
          ∧ events = rounds.flatMap (Gate.native.around ·.room)
          ∧ Chunked 2 decoded.chunks
          ∧ decoded.content = rounds.flatMap Round.content
          ∧ decoded.consumed = Round.allUsed rounds
          ∧ decoded.consumed ≤ threeBytes.length
          ∧ (decoded.consumed < threeBytes.length → decoded.hint = 0)
          ∧ (decoded.hint = 0 ↔ ∃ last ∈ rounds.getLast?, last.Ends)
          ∧ ∀ round ∈ rounds.dropLast, ¬ round.Ends := by
  rcases made_threeBytes.isFrame with ⟨header, hframe⟩
  have hread := hframe.read []
  rcases hupdate : (new .native).update threeBytes 2 with ⟨next, cause | decoded, events⟩
  · -- a frame does not fail
    have hfits : Portion.Fits ⟨threeBytes, 2⟩ := ⟨by decide, by decide, by decide⟩
    rcases update_failed hfits hupdate with ⟨code, content, -, hbad⟩
    cases hread.symm.trans (hbad [])
  · refine ⟨next, decoded, events, rfl, ?_, chunks_of_rounds hupdate⟩
    rcases update_feed hupdate with ⟨_, out, _, hchunks, -⟩
    rcases update_ok hupdate with ⟨_, _, -, -, ⟨-, -, hends⟩ | ⟨-, -, hwaits, hgoes⟩⟩
    · have hcontent : decoded.content = [1, 2, 3] :=
        congrArg Reading.content ((hends []).symm.trans hread)
      rw [Decoded.content, hchunks, flatten_chunksOf] at hcontent
      rw [hchunks, hcontent]
      simp [chunksOf_cons]
    · -- and it does not wait for more
      rcases read_nil_waits hwaits with ⟨place, hwaiting⟩
      have hverdict := congrArg Reading.verdict ((hgoes []).symm.trans hread)
      rw [Reading.verdict_prepend, hwaiting] at hverdict
      cases hverdict

end Decompressor

end Lz4Frame
