import Lz4Frame.Platform.Reference
import Lz4Frame.Proofs.Decoder.Hints
import Lz4Frame.Proofs.Made
import Lz4Frame.Proofs.RoundTrip
import Lz4Frame.Proofs.Stream.Reader

/-!
# Frames in a stream

A reader on a steady source gives the content of the frame that the source starts with, chunk by
chunk, and never asks for a byte behind the frame, so it leaves the source right behind it
(`chunks_of_frame`).  Frames that stand back to back are read by one reader after another
(`readEach_frames`).
-/

namespace Lz4Frame

open Decoder

/-! ## Asking about the header -/

section

variable [Platform]

/-- What a decompressor in front of a field knows: nothing, as long as it waits for the end of the
header, and else how large the blocks are. -/
theorem Decompressor.frameInfo_due (gate : Gate) {header : Header} {decoder : Decoder}
    {hint : Nat} {content wire : Bytes} (h : Due header decoder hint content wire) :
    (decoder.BeforeBody ∧ ∃ cause, frameInfo ⟨gate, decoder⟩
        = (⟨gate, decoder⟩, .ofCall (.error cause)))
      ∨ ∃ info, frameInfo ⟨gate, decoder⟩ = (⟨gate, decoder⟩, .ofCall (.ok info))
        ∧ info.blockSize = header.blockSize := by
  have hinfo : frameInfo ⟨gate, decoder⟩
      = (⟨gate, decoder⟩,
        .ofCall
          (((decoder.info? decoder.idleHint).map (·, 0)).map Prod.fst |>.mapError .frame)) := by
    simp only [frameInfo, frameInfo_settled (.inl h.waits)]
  rw [hinfo]
  cases h with
  | opening => exact .inl ⟨trivial, _, rfl⟩
  | longHeader => exact .inl ⟨trivial, _, rfl⟩
  | word header_eq => exact .inr ⟨_, rfl, congrArg Header.blockSize header_eq⟩
  | stored header_eq => exact .inr ⟨_, rfl, congrArg Header.blockSize header_eq⟩
  | compressed header_eq => exact .inr ⟨_, rfl, congrArg Header.blockSize header_eq⟩
  | trailer header_eq => exact .inr ⟨_, rfl, congrArg Header.blockSize header_eq⟩

/-! ## Handing over what is due -/

namespace Decompressor

/-- A call with what is due uses all of it. -/
theorem update_due (gate : Gate) {header : Header} {decoder : Decoder} {hint : Nat}
    {content wire : Bytes} (h : Due header decoder hint content wire) {chunkLength : Nat}
    (hchunk : 0 < chunkLength) (hlimit : chunkLength < assuredSize)
    (hroom : decoder.BeforeBody ∨ header.blockSize.bytes ≤ chunkLength) :
    ∃ piece rest, wire = piece ++ rest ∧ piece.length = hint
      ∧ ∃ next out content' hint' events,
        update ⟨gate, decoder⟩ piece chunkLength
            = (⟨gate, next⟩, ⟨.ok ⟨chunksOf chunkLength out, hint', hint⟩, events⟩)
          ∧ content = out ++ content' ∧ Onward header next hint' content' rest := by
  rcases h.run hroom with ⟨piece, rest, hwire, hlen, next, out, content', hint', hrun, hout, hnext⟩
  have hpiece : piece ≠ [] := List.ne_nil_of_length_pos (by have := h.hint_pos; omega)
  rcases update_run gate (.of_assured hpiece hchunk hlimit) hrun with ⟨events, hupdate⟩
  exact ⟨piece, rest, hwire, hlen, next, out, content', hint', events, hupdate, hout, hnext⟩

end Decompressor

/-! ## Where a source stands -/

namespace Source

omit [Platform] in
/-- Reading moves bytes from what is left to what was given, and loses none. -/
theorem read_position {source next : Source} {asked : Nat} {result : Except IoError Bytes} :
    source.read asked = (next, result) →
      next.position + next.rest.length = source.position + source.rest.length := by
  intro h
  unfold read at h
  split at h
  · simp only [Prod.mk.injEq] at h
    rw [← h.1]
  all_goals
    simp only [Prod.mk.injEq] at h
    rw [← h.1]
    simp only [give, List.splitAt_eq, List.length_take, List.length_drop]
    omega

omit [Platform] in
theorem fill_position {source next : Source} {wanted : Nat} {got : Array UInt8}
    {result : Except IoError (Array UInt8)} :
    source.fill wanted got = (next, result) →
      next.position + next.rest.length = source.position + source.rest.length := by
  intro h
  fun_induction fill source wanted got with
  | case1 source got =>
      simp only [Prod.mk.injEq] at h
      rw [← h.1]
  | case2 source wanted got hwanted next' cause hread _ hkind ih => rw [ih h, read_position hread]
  | case3 source wanted got hwanted next' cause hread =>
      simp only [Prod.mk.injEq] at h
      rw [← h.1, read_position hread]
  | case4 source wanted got hwanted next' hread =>
      simp only [Prod.mk.injEq] at h
      rw [← h.1, read_position hread]
  | case5 source wanted got hwanted next' piece hread hpiece _ _ ih =>
      rw [ih h, read_position hread]

end Source

namespace Reader

/-! ## The invariant -/

/-- A reader inside a frame, or behind it: `content` is what it has not given yet, and `tail` stands
behind the frame in its source, which held `total` bytes at first. -/
structure Serves (reader : Reader) (header : Header) (content tail : Bytes) (total : Nat) :
    Prop where
  steady : reader.source.Steady
  total_eq : reader.source.position + reader.source.rest.length = total
  chunks : ∀ chunk ∈ reader.pending, chunk ≠ [] ∧ chunk.length ≤ header.blockSize.bytes
  /-- Chunks have room for a block as soon as the header is known. -/
  room : reader.done = false →
    reader.info = none ∧ reader.chunkLength = firstChunkLength
        ∧ reader.decompressor.decoder.BeforeBody
      ∨ reader.info ≠ none ∧ reader.chunkLength = header.blockSize.bytes
  going : reader.done = false → ∃ left wire,
    Due header reader.decompressor.decoder reader.wanted left wire
      ∧ reader.source.rest = wire ++ tail ∧ content = reader.pending.flatten ++ left
  ended : reader.done = true → content = reader.pending.flatten ∧ reader.source.rest = tail

omit [Platform] in
theorem serves_new (gate : Gate) {source : Source} (hsteady : source.Steady) {header : Header}
    {content frame tail : Bytes} (hframe : IsFrame header content frame)
    (hrest : source.rest = frame ++ tail) :
    (new gate source).Serves header content tail (source.position + source.rest.length) := by
  rcases hframe.remainder with ⟨wire, rfl, hleft⟩
  exact {
    steady := hsteady
    total_eq := rfl
    chunks := by simp [new]
    room := fun _ => .inl ⟨rfl, rfl, trivial⟩
    going := fun _ => ⟨content, _, .opening hframe.writable hleft, hrest, rfl⟩
    ended := nofun }

omit [Platform] in
theorem firstChunkLength_le (size : BlockSize) : firstChunkLength ≤ size.bytes := by
  cases size <;> decide

/-- The block size that a reader goes by once it has asked about the header. -/
theorem step_room {info : Option FrameInfo} {pending : List Bytes} {source filled : Source}
    {decompressor next : Decompressor} {chunkLength wanted : Nat} {got : Array UInt8}
    {decoded : Decoded} {events : List LockEvent}
    (hfill : source.fill wanted #[] = (filled, .ok got)) (hgot : ¬ got.isEmpty = true)
    (hupdate : decompressor.update got.toList chunkLength = (next, ⟨.ok decoded, events⟩))
    {header : Header} {hint : Nat} {content wire : Bytes}
    (hdue : decoded.isFrameComplete = false → Due header next.decoder hint content wire) :
    (info = none ∧ chunkLength = firstChunkLength
        ∨ info ≠ none ∧ chunkLength = header.blockSize.bytes) →
      ∃ info' chunkLength' events',
        step ⟨source, decompressor, info, chunkLength, wanted, pending, false⟩
            = (⟨filled, next, info', chunkLength',
                if decoded.isFrameComplete then wanted else decoded.hint,
                pending ++ decoded.chunks, decoded.isFrameComplete⟩, ⟨.ok (), events'⟩)
          ∧ (decoded.isFrameComplete = false →
            info' = none ∧ chunkLength' = firstChunkLength ∧ next.decoder.BeforeBody
              ∨ info' ≠ none ∧ chunkLength' = header.blockSize.bytes) := by
  intro hroom
  rcases step_decoded info pending hfill hgot hupdate
      with ⟨info', chunkLength', events', hstep, hinfo, hlength⟩
  refine ⟨info', chunkLength', events', hstep, fun hgoing => ?_⟩
  rcases hroom with ⟨rfl, hfirst⟩ | ⟨hknown, hblock⟩
  · rcases Decompressor.frameInfo_due next.gate (hdue hgoing)
        with ⟨hbefore, cause, hunknown⟩ | ⟨known, hanswer, hsize⟩
    · -- nothing is known, so chunks stay as they are
      simp only [hunknown, Traced.ofCall, Except.toOption, Option.or] at hinfo
      rcases hlength with ⟨-, rfl⟩ | ⟨-, known, hmem, -⟩
      · exact .inl ⟨hinfo, hfirst, hbefore⟩
      · rw [hinfo] at hmem
        cases hmem
    · simp only [hanswer, Traced.ofCall, Except.toOption, Option.or] at hinfo
      rcases hlength with ⟨hnone, -⟩ | ⟨-, known', hmem, rfl⟩
      · rw [hinfo] at hnone
        cases hnone
      · obtain rfl : known = known' := by simpa [hinfo] using hmem
        exact .inr ⟨by simp [hinfo], by rw [hsize]⟩
  · -- what is known stays known
    rcases hlength with ⟨rfl, rfl⟩ | ⟨hnone, -⟩
    · exact .inr ⟨hknown, hblock⟩
    · exact absurd hnone hknown

/-- A step takes from the source what is due and nothing else. -/
theorem step_serves {reader : Reader} {header : Header} {content tail : Bytes} {total : Nat} :
    reader.Serves header content tail total → reader.done = false →
      ∃ next events, reader.step = (next, ⟨.ok (), events⟩)
        ∧ next.Serves header content tail total := by
  intro h hgoing
  rcases reader with ⟨source, ⟨gate, decoder⟩, info, chunkLength, wanted, pending, done⟩
  rcases h with ⟨hsteady, htotal, hchunks, hroom, hleft, -⟩
  simp only at hsteady htotal hchunks hroom hleft hgoing
  subst hgoing
  rcases hleft rfl with ⟨left, wire, hdue, hrest, hcontent⟩
  have hsize := firstChunkLength_le header.blockSize
  have hbounds : 0 < chunkLength ∧ chunkLength < assuredSize
      ∧ chunkLength ≤ header.blockSize.bytes := by
    rcases hroom rfl with ⟨-, rfl, -⟩ | ⟨-, rfl⟩
    · exact ⟨by decide, by decide, hsize⟩
    · exact ⟨header.blockSize.bytes_pos, blockSize_lt _, Nat.le_refl _⟩
  rcases Decompressor.update_due gate hdue hbounds.1 hbounds.2.1 (by
      rcases hroom rfl with ⟨-, -, hbefore⟩ | ⟨-, rfl⟩
      · exact .inl hbefore
      · exact .inr (Nat.le_refl _))
      with ⟨piece, rest, rfl, hlen, next, out, left', hint', events, hupdate, hout, hnext⟩
  -- the source has all that is due
  rcases Source.fill_steady hsteady wanted #[] with ⟨filled, hfill, hsteady', hrest'⟩
  rw [hrest, List.append_assoc] at hfill hrest'
  rw [List.take_left' hlen] at hfill
  rw [List.drop_left' hlen] at hrest'
  have hpos := hdue.hint_pos
  have hgot : ¬ ((#[] : Array UInt8) ++ piece).isEmpty = true := by
    simp only [Array.isEmpty_iff, ← Array.toList_eq_nil_iff]
    simpa using List.ne_nil_of_length_pos (by omega)
  have hupdate' : Decompressor.update ⟨gate, decoder⟩ ((#[] : Array UInt8) ++ piece).toList
      chunkLength = (⟨gate, next⟩, ⟨.ok ⟨chunksOf chunkLength out, hint', wanted⟩, events⟩) := by
    simpa using hupdate
  have hcomplete : Decoded.isFrameComplete ⟨chunksOf chunkLength out, hint', wanted⟩
      = decide (hint' = 0) := rfl
  rcases step_room hfill hgot hupdate'
      (by
        intro hgoing
        rw [hcomplete, decide_eq_false_iff_not] at hgoing
        exact hnext.resolve_left fun hended => hgoing hended.1)
      (by
        rcases hroom rfl with ⟨hnone, hfirst, -⟩ | hknown
        · exact .inl ⟨hnone, hfirst⟩
        · exact .inr hknown)
      with ⟨info', chunkLength', events', hstep, hroom'⟩
  refine ⟨_, events', hstep, ?_⟩
  exact {
    steady := hsteady'
    total_eq := by rw [Source.fill_position hfill, htotal]
    chunks := by
      intro chunk hmem
      rcases List.mem_append.mp hmem with hmem | hmem
      · exact hchunks chunk hmem
      · rcases mem_chunksOf hbounds.1 hmem with ⟨hne, hle⟩
        exact ⟨hne, Nat.le_trans hle hbounds.2.2⟩
    room := hroom'
    going := by
      intro hgoing
      simp only [hcomplete, decide_eq_false_iff_not] at hgoing
      refine ⟨left', rest, ?_, hrest', ?_⟩
      · simpa [hcomplete, hgoing] using hnext.resolve_left fun hended => hgoing hended.1
      · rw [hcontent, hout, List.flatten_append, flatten_chunksOf, List.append_assoc]
    ended := by
      intro hdone
      simp only [hcomplete, decide_eq_true_eq] at hdone
      rcases hnext with ⟨-, hnone, hnothing⟩ | hdue'
      · refine ⟨?_, by rw [hrest', hnothing, List.nil_append]⟩
        rw [hcontent, hout, hnone, List.flatten_append, flatten_chunksOf, List.append_nil]
      · have := hdue'.hint_pos
        omega }

/-! ## Chunk by chunk -/

omit [Platform] in
/-- A chunk that is given was the front of the content. -/
theorem Serves.given {reader : Reader} {header : Header} {content tail : Bytes} {total : Nat}
    (h : reader.Serves header content tail total) {chunk : Bytes} {pending : List Bytes}
    (hpending : reader.pending = chunk :: pending) :
    ∃ rest, content = chunk ++ rest ∧ Serves { reader with pending } header rest tail total := by
  have hchunks : ∀ other ∈ pending, other ≠ [] ∧ other.length ≤ header.blockSize.bytes := by
    intro other hmem
    exact h.chunks other (by rw [hpending]; exact .tail _ hmem)
  by_cases hdone : reader.done = true
  · rcases h.ended hdone with ⟨hcontent, hrest⟩
    rw [hpending, List.flatten_cons] at hcontent
    exact ⟨pending.flatten, hcontent, h.steady, h.total_eq, hchunks, h.room,
      fun hgoing => by simp [hdone] at hgoing, fun _ => ⟨rfl, hrest⟩⟩
  · have hgoing : reader.done = false := by simpa using hdone
    rcases h.going hgoing with ⟨left, wire, hdue, hrest, hcontent⟩
    rw [hpending, List.flatten_cons, List.append_assoc] at hcontent
    exact ⟨pending.flatten ++ left, hcontent, h.steady, h.total_eq, hchunks, h.room,
      fun _ => ⟨left, wire, hdue, hrest, rfl⟩, fun hended => absurd hended hdone⟩

/-- The next chunk, or nothing once all of the content was given. -/
theorem next_serves {reader : Reader} {header : Header} {content tail : Bytes} {total : Nat}
    (h : reader.Serves header content tail total) (events : List LockEvent) :
    (∃ next chunk rest events', reader.next events = (next, ⟨some (.ok chunk), events'⟩)
        ∧ content = chunk ++ rest ∧ chunk ≠ [] ∧ chunk.length ≤ header.blockSize.bytes
        ∧ next.Serves header rest tail total)
      ∨ content = [] ∧ ∃ next events', reader.next events = (next, ⟨none, events'⟩)
        ∧ next.Serves header [] tail total ∧ next.source.rest = tail := by
  induction reader, events using next_induction with
  | @waiting reader events chunk pending hpending =>
      rcases h.chunks chunk (by rw [hpending]; exact .head _) with ⟨hne, hle⟩
      rcases h.given hpending with ⟨rest, hcontent, hrest⟩
      exact .inl ⟨{ reader with pending }, chunk, rest, events, next_pending hpending events,
        hcontent, hne, hle, hrest⟩
  | @finished reader events hpending hdone =>
      rcases h.ended hdone with ⟨hcontent, hrest⟩
      obtain rfl : content = [] := by rw [hcontent, hpending, List.flatten_nil]
      exact .inr ⟨rfl, reader, events, next_over hpending hdone events, h, hrest⟩
  | going events hpending hdone ih =>
      rcases step_serves h hdone with ⟨next', more, hstep, hnext⟩
      rw [next_going hpending hdone hstep]
      exact ih hstep hnext

/-- Asks for a chunk `count` times. -/
def nexts (reader : Reader) : (count : Nat) → Reader × List (Option (Except IoError Bytes))
  | 0 => (reader, [])
  | count + 1 =>
      let (next, answer) := reader.next []
      let (last, answers) := next.nexts count
      (last, answer.value :: answers)

/-- Behind the content there are no more chunks, however often one is asked for. -/
theorem nexts_nothing {reader : Reader} {header : Header} {tail : Bytes} {total : Nat}
    (h : reader.Serves header [] tail total) (count : Nat) :
    (reader.nexts count).2 = List.replicate count none
      ∧ (reader.nexts count).1.Serves header [] tail total
      ∧ (0 < count → (reader.nexts count).1.source.rest = tail) := by
  induction count generalizing reader with
  | zero => exact ⟨rfl, h, nofun⟩
  | succ count ih =>
      rcases next_serves h [] with ⟨next, chunk, rest, events, -, hnil, hne, -⟩
        | ⟨-, next, events, hnext, hserves, hrest⟩
      · exact absurd (List.append_eq_nil_iff.mp hnil.symm).1 hne
      · rcases ih hserves with ⟨hanswers, hlast, hlastRest⟩
        simp only [nexts, hnext]
        refine ⟨by rw [hanswers, List.replicate_succ], hlast, fun _ => ?_⟩
        by_cases hmore : 0 < count
        · exact hlastRest hmore
        · obtain rfl : count = 0 := by omega
          exact hrest

/-- A reader gives the content in chunks that are not empty, and no larger than the blocks, and
nothing behind them. -/
theorem nexts_serves {reader : Reader} {header : Header} {content tail : Bytes} {total : Nat}
    (h : reader.Serves header content tail total) :
    ∃ chunks : List Bytes, chunks.flatten = content
      ∧ (∀ chunk ∈ chunks, chunk ≠ [] ∧ chunk.length ≤ header.blockSize.bytes)
      ∧ ∀ extra, (reader.nexts (chunks.length + extra)).2
          = chunks.map (fun chunk => some (.ok chunk)) ++ List.replicate extra none
        ∧ (reader.nexts (chunks.length + extra)).1.Serves header [] tail total
        ∧ (0 < extra → (reader.nexts (chunks.length + extra)).1.source.rest = tail) := by
  -- on the content; a chunk makes what is left of it shorter
  induction hlength : content.length using Nat.strongRecOn generalizing reader content with
  | ind length ih =>
      rcases next_serves h [] with ⟨next, chunk, rest, events, hnext, hcontent, hne, hle, hserves⟩
        | ⟨rfl, -⟩
      · have hless : rest.length < length := by
          have := List.length_pos_iff.mpr hne
          rw [← hlength, hcontent, List.length_append]
          omega
        rcases ih rest.length hless hserves rfl with ⟨chunks, hflatten, hchunks, hasked⟩
        refine ⟨chunk :: chunks, by rw [List.flatten_cons, hflatten, hcontent], ?_, fun extra => ?_⟩
        · intro other hmem
          rcases List.mem_cons.mp hmem with rfl | hmem
          · exact ⟨hne, hle⟩
          · exact hchunks other hmem
        · rcases hasked extra with ⟨hanswers, hlast, hrest⟩
          rw [List.length_cons, Nat.add_right_comm]
          simp only [nexts, hnext]
          exact ⟨by rw [hanswers, List.map_cons, List.cons_append], hlast, hrest⟩
      · refine ⟨[], rfl, by simp, fun extra => ?_⟩
        rw [List.length_nil, Nat.zero_add, List.map_nil, List.nil_append]
        exact nexts_nothing h extra

/-! ## To the end -/

/-- Reading to the end gives all of the content and leaves the source behind the frame. -/
theorem readAll_serves {reader : Reader} {header : Header} {content tail : Bytes} {total : Nat}
    (h : reader.Serves header content tail total) (before : Array UInt8)
    (events : List LockEvent) :
    ∃ last events', reader.readAll before events
        = (last, ⟨.ok (before.toList ++ content), events'⟩)
      ∧ last.source.rest = tail ∧ last.source.Steady
      ∧ last.source.position + last.source.rest.length = total := by
  induction reader, before, events using readAll_induction generalizing content with
  | finished before events hdone =>
      rcases h.ended hdone with ⟨rfl, hrest⟩
      exact ⟨_, _, readAll_ended hdone before events, hrest, h.steady, h.total_eq⟩
  | @going reader before events hdone ih =>
      rcases h.going hdone with ⟨left, wire, hdue, hrest, rfl⟩
      have hgiven : Serves { reader with pending := [] } header left tail total :=
        ⟨h.steady, h.total_eq, by simp, h.room, fun _ => ⟨left, wire, hdue, hrest, rfl⟩,
          fun hended => by simp [hdone] at hended⟩
      rcases step_serves hgiven hdone with ⟨next, more, hstep, hnext⟩
      rw [readAll_going hdone hstep]
      rcases ih hstep hnext with ⟨last, events', hlast, hrest'⟩
      rw [foldl_append, List.append_assoc] at hlast
      exact ⟨last, events', hlast, hrest'⟩

/-- Reads one frame after another, each with a reader of its own that takes over the source. -/
def readEach (source : Source) : List Gate → Source × List (Except IoError Bytes)
  | [] => (source, [])
  | gate :: gates =>
      let (reader, answer) := (new gate source).readAll #[] []
      let (last, answers) := readEach reader.source gates
      (last, answer.value :: answers)

/-- Frames that stand back to back are read by as many readers. -/
theorem readEach_frames {source : Source} (hsteady : source.Steady) {gates : List Gate}
    {row : List (Bytes × Bytes)} {tail : Bytes} (hgates : gates.length = row.length)
    (hmade : ∀ made ∈ row, Made made.1 made.2)
    (hrest : source.rest = (row.map Prod.snd).flatten ++ tail) :
    ∃ last, readEach source gates = (last, row.map fun made => .ok made.1)
      ∧ last.rest = tail ∧ last.position + last.rest.length
        = source.position + source.rest.length := by
  induction row generalizing source gates with
  | nil =>
      obtain rfl : gates = [] := List.eq_nil_of_length_eq_zero hgates
      exact ⟨source, rfl, by simpa using hrest, rfl⟩
  | cons made row ih =>
      cases gates with
      | nil => cases hgates
      | cons gate gates =>
          rw [List.map_cons, List.flatten_cons, List.append_assoc] at hrest
          rcases (hmade made (.head _)).isFrame with ⟨header, hframe⟩
          rcases readAll_serves (serves_new gate hsteady hframe hrest) #[] []
              with ⟨reader, events, hreader, hbehind, hsteady', htotal⟩
          rcases ih hsteady' (Nat.succ.inj hgates)
              (fun other hmem => hmade other (.tail _ hmem)) hbehind
              with ⟨last, hlast, hlastRest, hlastTotal⟩
          refine ⟨last, ?_, hlastRest, by rw [hlastTotal, htotal]⟩
          simp only [readEach, hreader, hlast]
          rfl

/-- On a source that is late at worst a reader gives the content of the frame in front, in chunks
that are not empty and no larger than the frame's blocks, then nothing any more, and leaves the
source right behind the frame; and as many readers read as many frames, each its own. -/
theorem reads_frames {source : Source} (hsteady : source.Steady) :
    (∀ (gate : Gate) (content frame tail : Bytes), Made content frame →
        source.rest = frame ++ tail →
        ∃ (header : Header) (chunks : List Bytes), IsFrame header content frame
          ∧ chunks.flatten = content
          ∧ (∀ chunk ∈ chunks, chunk ≠ [] ∧ chunk.length ≤ header.blockSize.bytes)
          ∧ ∀ extra, ∃ last, (new gate source).nexts (chunks.length + extra)
              = (last, chunks.map (fun chunk => some (.ok chunk)) ++ List.replicate extra none)
            ∧ (0 < extra → last.source.rest = tail
              ∧ last.source.position = source.position + frame.length))
      ∧ ∀ (gates : List Gate) (row : List (Bytes × Bytes)) (tail : Bytes),
        gates.length = row.length → (∀ made ∈ row, Made made.1 made.2) →
        source.rest = (row.map Prod.snd).flatten ++ tail →
        ∃ last, readEach source gates = (last, row.map fun made => .ok made.1)
          ∧ last.rest = tail
          ∧ last.position = source.position + (row.map Prod.snd).flatten.length := by
  constructor
  · intro gate content frame tail hmade hrest
    rcases hmade.isFrame with ⟨header, hframe⟩
    rcases nexts_serves (serves_new gate hsteady hframe hrest)
        with ⟨chunks, hflatten, hchunks, hasked⟩
    refine ⟨header, chunks, hframe, hflatten, hchunks, fun extra => ?_⟩
    rcases hasked extra with ⟨hanswers, hlast, hbehind⟩
    refine ⟨((new gate source).nexts (chunks.length + extra)).fst, Prod.ext rfl hanswers,
      fun hextra => ⟨hbehind hextra, ?_⟩⟩
    have htotal := hlast.total_eq
    rw [hbehind hextra, hrest, List.length_append, ← Nat.add_assoc] at htotal
    exact Nat.add_right_cancel htotal
  · intro gates row tail hgates hmade hrest
    rcases readEach_frames hsteady hgates hmade hrest with ⟨last, hread, hlast, htotal⟩
    refine ⟨last, hread, hlast, ?_⟩
    rw [hlast, hrest, List.length_append] at htotal
    omega

end Reader

end

namespace Reader

open Reference in
/-- A frame of three bytes that was made in one call and an empty one that was made piece by piece,
from a source that is interrupted and gives single bytes at first. -/
theorem reads_frames_back_to_back :
    ∃ first second source, Made [7, 7, 7] first ∧ Made [] second
      ∧ source.rest = first ++ second ++ [9] ∧ source.Steady
      ∧ (∃ chunks : List Bytes, chunks.flatten = [7, 7, 7]
        ∧ ((new .native source).nexts (chunks.length + 1)).1.source.position = first.length)
      ∧ ∃ last, readEach source [.native, .native] = (last, [.ok [7, 7, 7], .ok []])
        ∧ last.rest = [9] := by
  have hvalid : Preferences.validate {} = .ok () := rfl
  have hcount : Bound.Countable {} 3 := by
    show (3 + (65536 - 1)) / 65536 < 0x100000000
    decide
  rcases Codec.compress_isFrame .native hvalid (show ([7, 7, 7] : Bytes) ≠ [] by simp) hcount
      with ⟨first, hcompress, -⟩
  have hfirst : Made [7, 7, 7] first := .inOneCall (by decide) hcompress
  obtain ⟨second, hsecond⟩ : ∃ second, Made [] second := by
    rcases (Compressor.new .native).start_within hvalid with ⟨started, hstart, hwithin⟩
    rcases Compressor.finish_cases hwithin with ⟨closed, bytes, -, -, -, -, -, hfinish, -⟩
    rw [if_neg (by decide)] at hfinish
    have htries : started.tries [] = (started, []) := rfl
    exact ⟨_, .inParts (by decide) hstart htries hfinish⟩
  let source : Source := {
    rest := first ++ second ++ [9]
    reads := [.fail .interrupted "", .limit 1, .limit 1] }
  have hsteady : source.Steady := by
    intro answer hmem
    simp only [source, List.mem_cons, List.not_mem_nil, or_false] at hmem
    rcases hmem with rfl | rfl | rfl
    · rfl
    · exact Nat.one_pos
    · exact Nat.one_pos
  refine ⟨first, second, source, hfirst, hsecond, rfl, hsteady, ?_, ?_⟩
  · rcases (reads_frames hsteady).1 .native [7, 7, 7] first (second ++ [9]) hfirst
        (by simp [source]) with ⟨header, chunks, -, hflatten, -, hasked⟩
    refine ⟨chunks, hflatten, ?_⟩
    rcases hasked 1 with ⟨last, hnexts, hbehind⟩
    rw [hnexts, (hbehind Nat.one_pos).2]
    simp [source]
  · rcases (reads_frames hsteady).2 [.native, .native] [([7, 7, 7], first), ([], second)] [9]
        rfl (by simp [hfirst, hsecond]) (by simp [source]) with ⟨last, hread, hrest, -⟩
    exact ⟨last, hread, hrest⟩

end Reader

end Lz4Frame
