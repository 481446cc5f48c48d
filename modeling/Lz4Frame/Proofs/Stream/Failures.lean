import Lz4Frame.Proofs.Stream.Frames
import Lz4Frame.Proofs.Stream.Requests

/-!
# Reading what cannot be read to its end

A reader of something that is no frame, or no whole one, gives some content in chunks, then tells
why reading fails, once, and then gives nothing any more (`Reader.nexts_fails`).
-/

namespace Lz4Frame

open Decoder

namespace Decompressor

variable [Platform]

/-- Content comes in chunks that are not empty. -/
theorem update_chunks {decompressor next : Decompressor} {piece : Bytes} {chunkLength : Nat}
    {decoded : Decoded} {events : List LockEvent} :
    decompressor.update piece chunkLength = (next, ⟨.ok decoded, events⟩) →
      ∀ chunk ∈ decoded.chunks, chunk ≠ [] := by
  intro h chunk hmem
  rcases update_feed h with ⟨hfits, out, _, hchunks, -⟩
  rw [hchunks] at hmem
  exact (mem_chunksOf hfits.chunk_pos hmem).1

end Decompressor

namespace Reader

variable [Platform]

/-- What was given is a front of the reading. -/
theorem Keeps.isPrefix {reader : Reader} {content : Bytes} {reading : Reading}
    (h : reader.Keeps content reading) : content <+: reading.content := by
  cases hdone : reader.done with
  | true =>
      rcases h.ended hdone with ⟨rest, rfl⟩
      exact ⟨_, rfl⟩
  | false =>
      rw [(h.going hdone).2, Reading.content_prepend, List.append_assoc]
      exact ⟨_, rfl⟩

theorem step_chunks {reader next : Reader} {events : List LockEvent}
    (hpending : ∀ chunk ∈ reader.pending, chunk ≠ []) (hgoing : reader.done = false) :
    reader.step = (next, ⟨.ok (), events⟩) → ∀ chunk ∈ next.pending, chunk ≠ [] := by
  intro hstep chunk hmem
  rcases step_ok_cases hgoing hstep with ⟨got, decoded, updating, -, -, hupdate, -, hnext, -⟩
  rw [hnext] at hmem
  rcases List.mem_append.mp hmem with hmem | hmem
  · exact hpending chunk hmem
  · exact Decompressor.update_chunks hupdate chunk hmem

/-- The next chunk goes on with a reading that fails, up to the failure. -/
theorem next_follows {reader : Reader} {content : Bytes} {reading : Reading} {cause : Error}
    (h : reader.Follows content reading) (hpending : ∀ chunk ∈ reader.pending, chunk ≠ [])
    (hfails : reading.result = .error cause) (events : List LockEvent) :
    (∃ next chunk events', reader.next events = (next, ⟨some (.ok chunk), events'⟩)
        ∧ chunk ≠ [] ∧ next.Follows (content ++ chunk) reading
        ∧ ∀ chunk ∈ next.pending, chunk ≠ [])
      ∨ ∃ last events', reader.next events = (last, ⟨some (.error (.codec cause)), events'⟩)
        ∧ last.Over := by
  induction reader, events using next_induction with
  | @waiting reader events chunk pending hchunks =>
      rw [hchunks] at hpending
      exact .inl ⟨_, chunk, events, next_pending hchunks events, hpending chunk (.head _),
        h.give hchunks, fun other hmem => hpending other (.tail _ hmem)⟩
  | finished events hchunks hdone =>
      rcases h.ended hdone with ⟨rest, rfl⟩
      cases hfails
  | @going reader events hchunks hdone ih =>
      have hfailed {next : Reader} {cause' : Error} {more : List LockEvent}
          (hstep : reader.step = (next, ⟨.error (.codec cause'), more⟩)) :
          reader.next events
            = ({ next with done := true }, ⟨some (.error (.codec cause')), events ++ more⟩)
          ∧ Over { next with done := true } :=
        ⟨next_failed hchunks hdone hstep events, rfl, (step_failed hstep).1.trans hchunks⟩
      rcases step_follows h hdone with ⟨next, more, hstep, hnext⟩
        | ⟨next, code, more, hstep, hbad⟩ | ⟨next, place, more, hstep, hwaiting⟩
      · rw [next_going hchunks hdone hstep]
        exact ih hstep hnext (step_chunks hpending hdone hstep)
      · simp only [Reading.result, hbad, Except.error.injEq] at hfails
        exact .inr ⟨_, _, hfails ▸ hfailed hstep⟩
      · simp only [Reading.result, hwaiting, Except.error.injEq] at hfails
        exact .inr ⟨_, _, hfails ▸ hfailed hstep⟩

theorem nexts_succ {reader next : Reader} {answer : Option (Except IoError Bytes)}
    {events : List LockEvent} (hnext : reader.next [] = (next, ⟨answer, events⟩)) (count : Nat) :
    (reader.nexts (count + 1)).2 = answer :: (next.nexts count).2 := by
  simp only [nexts, hnext]

/-- A reader that has nothing more to give gives nothing, however often a chunk is asked for. -/
theorem Over.nexts {reader : Reader} (h : reader.Over) (count : Nat) :
    (reader.nexts count).2 = List.replicate count none := by
  induction count with
  | zero => rfl
  | succ count ih => rw [nexts_succ (next_over h.pending h.done []), ih, List.replicate_succ]

/-- Where reading fails, a reader gives chunks of what comes before, which are not empty, then tells
why it fails, once, and then gives nothing any more. -/
theorem nexts_fails {reader : Reader} {content : Bytes} {reading : Reading} {cause : Error}
    (h : reader.Follows content reading) (hpending : ∀ chunk ∈ reader.pending, chunk ≠ [])
    (hfails : reading.result = .error cause) :
    ∃ chunks : List Bytes, content ++ chunks.flatten <+: reading.content
      ∧ (∀ chunk ∈ chunks, chunk ≠ [])
      ∧ ∀ extra, (reader.nexts (chunks.length + (extra + 1))).2
        = chunks.map (fun chunk => some (.ok chunk))
          ++ some (.error (.codec cause)) :: List.replicate extra none := by
  -- on how much of the reading was not given yet
  induction hleft : reading.content.length - content.length using Nat.strongRecOn
    generalizing reader content with
  | ind left ih =>
      rcases next_follows h hpending hfails []
          with ⟨next, chunk, events, hnext, hne, hfollows, hchunks⟩ | ⟨last, events, hnext, hover⟩
      · have hpos := List.length_pos_iff.mpr hne
        have hle := hfollows.isPrefix.length_le
        rw [List.length_append] at hle
        rcases ih _ (by rw [List.length_append]; omega) hfollows hchunks rfl
            with ⟨chunks, hfront, hall, hasked⟩
        refine ⟨chunk :: chunks, by simpa using hfront, ?_, fun extra => ?_⟩
        · intro other hmem
          rcases List.mem_cons.mp hmem with rfl | hmem
          · exact hne
          · exact hall other hmem
        · rw [List.length_cons, Nat.add_right_comm, nexts_succ hnext, hasked extra]
          rfl
      · refine ⟨[], by simpa using h.isPrefix, by simp, fun extra => ?_⟩
        rw [List.length_nil, Nat.zero_add, nexts_succ hnext, hover.nexts]
        rfl

/-- So does a fresh reader of a source that cannot be read to its end. -/
theorem nexts_new (gate : Gate) {source : Source} (hsteady : source.Steady) {cause : Error}
    (hfails : (Decoder.new.read source.rest).result = .error cause) :
    ∃ chunks : List Bytes, chunks.flatten <+: (Decoder.new.read source.rest).content
      ∧ (∀ chunk ∈ chunks, chunk ≠ [])
      ∧ ∀ extra, ((new gate source).nexts (chunks.length + (extra + 1))).2
        = chunks.map (fun chunk => some (.ok chunk))
          ++ some (.error (.codec cause)) :: List.replicate extra none := by
  have hpending : ∀ chunk ∈ (new gate source).pending, chunk ≠ [] := by simp [new]
  exact nexts_fails (follows_new gate hsteady) hpending hfails

end Reader

end Lz4Frame
