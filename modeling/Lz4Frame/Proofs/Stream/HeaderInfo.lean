import Lz4Frame.Platform.Reference
import Lz4Frame.Proofs.Decoder.Standing
import Lz4Frame.Proofs.Stream.Failures

/-!
# What a reader tells about its frame

A reader asks for the header only between two steps, and a decompressor forgets a frame as soon as
it ends.  The first step takes seven bytes.  If the header is longer, the second takes the rest of
it and a size word as well, and where that word is the end mark and no checksum follows, the frame
ends before the reader has asked (`Reader.Overlooked`).  Of every other frame the header is known
from the first answer on (`Reader.info_of_header`).
-/

namespace Lz4Frame

open Block Decoder

namespace Decoder

/-! ## A size word and nothing behind it -/

variable [Platform]

/-- Where the input ends behind a size word, a frame has ended only if the word was the end mark and
nothing more is due. -/
theorem afterBlockSize_ended {body : Body} {number used room : Nat} {content rest : Bytes} :
    (afterBlockSize body number ⟨[], used⟩ room).reading [] = ⟨content, .ended rest⟩ →
      number = 0 ∧ body.remaining = 0 ∧ body.header.contentChecksum = false ∧ content = [] := by
  intro h
  -- a place inside the frame would wait
  have hwait {next : Decoder} (hwaits : next.Waits) (hnone : next.pendingLength = 0) :
      (next.read []).prepend [] ≠ ⟨content, .ended rest⟩ := by
    simp [read_nil hwaits hnone]
  unfold afterBlockSize at h
  simp only at h
  split at h
  · rename_i hzero
    unfold afterBlocks at h
    split at h
    · cases h
    · rename_i hnone
      split at h
      · exact absurd h (hwait trivial rfl)
      · rename_i hsum
        simp only [Step.reading, ↓reduceIte, Reading.mk.injEq] at h
        exact ⟨hzero, by simpa using hnone, by simpa using hsum, h.1.symm⟩
  · split at h
    · cases h
    · split at h
      · unfold afterStored nextBlock at h
        split at h <;> exact absurd h (hwait trivial rfl)
      · split at h
        · exact absurd h (hwait trivial rfl)
        · rw [if_pos (.inr rfl), Step.reading, if_neg (by omega)] at h
          exact absurd h (hwait trivial rfl)

/-- A size word alone ends a frame only as the end mark of one that has nothing to add. -/
theorem ended_word {body : Body} {word content rest : Bytes} (hword : word.length ≤ 4) :
    (beforeBlock body).read word = ⟨content, .ended rest⟩ →
      word = SizeWord.endMark ∧ body.remaining = 0 ∧ body.header.contentChecksum = false
        ∧ content = [] := by
  intro h
  by_cases hshort : word.length < 4
  · -- not all of a word is there
    have hwaits (held : Partial 4) : (Decoder.blockSize body held).Waits := trivial
    have hmissing : word.length < (Partial.empty (show 0 < 4 by decide)).missing := hshort
    rw [read_eq, beforeBlock, (blockSize_fills body).step_eq, Partial.fill_of_lt _ _ hmissing] at h
    simp only [reading_rest (hwaits _), List.append_nil, Reading.prepend_nil,
      read_nil (hwaits _) rfl] at h
    cases h
  · have hlength : word.length = 4 := by omega
    rw [← List.append_nil word, read_beforeBlock body hlength [] 1] at h
    rcases afterBlockSize_ended h with ⟨hzero, hrest⟩
    refine ⟨?_, hrest⟩
    rw [← LittleEndian.encode_value word, hlength, hzero]
    rfl

/-! ## Behind the header -/

/-- The fields behind the first seven bytes complete the header, and what follows is a block. -/
theorem read_longHeader {header : Header} {length : Nat} {held : Partial length} {fields : Bytes}
    (writable : header.Writable) (joined : held.bytes.toList ++ fields = header.encode)
    (fields_length : fields.length = held.missing) (more : Bytes) :
    (longHeader held).read (fields ++ more) = (beforeBlock (.ofHeader header)).read more := by
  rw [read_eq, step_longHeader writable joined fields_length]
  simp [nextBlock, Step.reading]

omit [Platform] in
theorem remaining_ofHeader {header : Header} (writable : header.Writable) :
    (Body.ofHeader header).remaining = 0 ↔ header.contentSize.getD 0 = 0 := by
  have hlt : header.contentSize.getD 0 < 0x10000000000000000 := by
    cases hsize : header.contentSize with
    | none => decide
    | some n => exact writable.contentSize_lt n hsize
  rw [← UInt64.toNat_inj, Body.ofHeader, UInt64.toNat_ofNat', UInt64.toNat_zero]
  omega

/-- Right behind the header an end mark ends the frame, if it has nothing to add. -/
theorem read_bareEndMark {header : Header} (writable : header.Writable)
    (unsummed : header.contentChecksum = false) (undeclared : header.contentSize.getD 0 = 0)
    (more : Bytes) :
    (beforeBlock (.ofHeader header)).read (SizeWord.endMark ++ more) = ⟨[], .ended more⟩ := by
  have hsum : (Body.ofHeader header).header.contentChecksum = false := unsummed
  simpa [hsum] using read_endMark ((remaining_ofHeader writable).mpr undeclared) more

omit [Platform] in
/-- Along a frame of which no more is to come than what stands behind its header, the header is
known. -/
theorem Stands.knows {header : Header} {wire rest : Bytes} {decoder : Decoder}
    (h : Stands header wire decoder rest) :
    rest.length ≤ wire.length → decoder.header? = some header := by
  intro hrest
  have hmin := header.minLength_le
  cases h with
  | @opening held _ joined =>
      have hlength := congrArg List.length joined
      have hlt := held.size_lt
      simp only [List.length_append, Array.length_toList] at hlength
      omega
  | @longHeader held _ started joined =>
      have hlength := congrArg List.length joined
      have hlt := held.size_lt
      simp only [List.length_append, Array.length_toList] at hlength
      omega
  | inside header_eq => exact header_eq

/-- A call along a header and what is behind it ends the frame, or goes on along it. -/
theorem update_stands {header : Header} (writable : header.Writable) {wire piece more : Bytes}
    {decompressor next : Decompressor} {chunkLength : Nat} {decoded : Decoded}
    {events : List LockEvent} (h : Stands header wire decompressor.decoder (piece ++ more)) :
    decompressor.update piece chunkLength = (next, ⟨.ok decoded, events⟩) →
      decoded.hint = 0 ∨ Stands header wire next.decoder more := by
  intro hupdate
  have hsteps (decoder : Decoder) (input : Input) (room : Nat) (more : Bytes)
      (h : Stands header wire decoder (input.rest ++ more)) :
      (decoder.step input room).Keeps (Stands header wire) (fun _ _ => True) more := by
    have hgoes := step_goes writable h room
    cases hstep : decoder.step input room with
    | go next input' out => rwa [hstep] at hgoes
    | stop next input' out hint =>
        rw [hstep] at hgoes
        exact hgoes.imp_right fun hstands => ⟨hstands, trivial⟩
    | fail code => trivial
  exact (update_keeps hsteps more h hupdate).imp_right And.left

/-- A call with the rest of a longer header and up to a size word leaves the decoder behind the
header, or it ends the frame, which then has nothing but an end mark. -/
theorem update_longHeader {header : Header} (writable : header.Writable) {fields word : Bytes}
    {held : Partial header.encode.length} (started : 0 < held.bytes.size)
    (joined : held.bytes.toList ++ fields = header.encode) (word_le : word.length ≤ 4)
    {decompressor next : Decompressor} (decoder_eq : decompressor.decoder = .longHeader held)
    {chunkLength : Nat} {decoded : Decoded} {events : List LockEvent} :
    decompressor.update (fields ++ word) chunkLength = (next, ⟨.ok decoded, events⟩) →
      0 < decoded.hint ∧ next.decoder.header? = some header
          ∧ ¬ (word = SizeWord.endMark ∧ header.contentChecksum = false
            ∧ header.contentSize.getD 0 = 0)
        ∨ decoded.hint = 0 ∧ next.decoder = .new ∧ decoded.chunks = []
          ∧ word = SizeWord.endMark ∧ header.contentChecksum = false
          ∧ header.contentSize.getD 0 = 0 := by
  intro hupdate
  have hfields : fields.length = held.missing := by
    have hlength := congrArg List.length joined
    rw [List.length_append, Array.length_toList] at hlength
    unfold Partial.missing
    omega
  have hread : decompressor.decoder.read (fields ++ word ++ [])
      = (beforeBlock (.ofHeader header)).read word := by
    rw [List.append_nil, decoder_eq, read_longHeader writable joined hfields]
  rcases Decompressor.update_ok hupdate
      with ⟨taken, rest, -, -, ⟨hzero, hnew, hended⟩ | ⟨hpos, -, hwaits, hgoes⟩⟩
  · -- the frame has ended, so the size word was the end mark
    rcases ended_word word_le (hread.symm.trans (hended []))
        with ⟨hmark, hremaining, hsum, hcontent⟩
    refine .inr ⟨hzero, hnew, ?_, hmark, hsum, (remaining_ofHeader writable).mp hremaining⟩
    rw [List.eq_nil_iff_forall_not_mem]
    intro chunk hmem
    exact Decompressor.update_chunks hupdate chunk hmem
      (List.flatten_eq_nil_iff.mp hcontent chunk hmem)
  · have hstands : Stands header word decompressor.decoder (fields ++ word ++ []) := by
      rw [decoder_eq, List.append_nil]
      exact .longHeader started (by rw [← List.append_assoc, joined])
    have hbehind := (update_stands writable hstands hupdate).resolve_left (Nat.ne_of_gt hpos)
    refine .inl ⟨hpos, hbehind.knows (Nat.zero_le _), ?_⟩
    rintro ⟨rfl, hsum, hnone⟩
    -- an end mark would have ended the frame, but the decoder waits
    rcases read_nil_waits hwaits with ⟨place, hwaiting⟩
    have hverdict := congrArg Reading.verdict (hread.symm.trans (hgoes []))
    rw [← List.append_nil SizeWord.endMark, read_bareEndMark writable hsum hnone,
      Reading.verdict_prepend, hwaiting] at hverdict
    cases hverdict

end Decoder

namespace Reader

/-! ## Getting to know the header -/

/-- What stands behind a header that is never told, as the frame ends in the step that completes it:
the header is longer than the first step takes, and nothing but the end mark follows. -/
structure Overlooked (header : Header) (wire : Bytes) : Prop where
  long : Header.minLength < header.encode.length
  endMark : SizeWord.endMark <+: wire
  unsummed : header.contentChecksum = false
  undeclared : header.contentSize.getD 0 = 0

/-- A reader that can tell what the header says. -/
def Knows (header : Header) (reader : Reader) : Prop :=
  ∃ hint, reader.info = some (infoWith hint header)

/-- A reader behind the first seven bytes of a longer header. -/
structure Halfway (header : Header) (wire : Bytes) (reader : Reader) : Prop where
  steady : reader.source.Steady
  unknown : reader.info = none
  nothing : reader.pending = []
  going : reader.done = false
  chunkLength_eq : reader.chunkLength = firstChunkLength
  place : ∃ (held : Partial header.encode.length) (fields : Bytes),
    reader.decompressor.decoder = .longHeader held
      ∧ held.bytes.size = Header.minLength ∧ held.bytes.toList ++ fields = header.encode
      ∧ reader.wanted = fields.length + 4 ∧ reader.source.rest = fields ++ wire

section Header

variable {header : Header} (writable : header.Writable) {wire : Bytes}

include writable

variable [Platform]

/-- The first step takes seven bytes, and with them all of a short header. -/
theorem step_new (gate : Gate) {source : Source} (hsteady : source.Steady)
    (hrest : source.rest = header.encode ++ wire) :
    ∃ next events, (new gate source).step = (next, ⟨.ok (), events⟩)
      ∧ (Halfway header wire next ∨ Knows header next ∧ ¬ Overlooked header wire) := by
  rcases encode_split header with ⟨piece, fields, hjoined, hlen⟩
  rcases Source.fill_steady hsteady Header.minLength #[] with ⟨filled, hfill, hsteady', hfilled⟩
  rw [hrest, ← hjoined, List.append_assoc] at hfill hfilled
  rw [List.take_left' hlen] at hfill
  rw [List.drop_left' hlen] at hfilled
  have hpiece : piece ≠ [] := List.ne_nil_of_length_pos (by rw [hlen]; decide)
  have hgot : ¬ ((#[] : Array UInt8) ++ piece).isEmpty = true := by
    simpa [Array.isEmpty_iff, ← Array.toList_eq_nil_iff] using hpiece
  have hfits : Portion.Fits ⟨piece, firstChunkLength⟩ :=
    .of_assured hpiece (by decide) (by decide)
  rcases run_header writable hjoined hlen firstChunkLength
      with ⟨hlong, hsize, hrun⟩ | ⟨rfl, hrun⟩
  · rcases Decompressor.update_run gate hfits hrun with ⟨events, hupdate⟩
    rcases step_decoded none [] hfill hgot (by simpa using hupdate)
      with ⟨info', chunkLength', events', hstep, hinfo, hlength⟩
    have hwaits : (longHeader ⟨piece.toArray, hlong⟩).Waits := trivial
    have hnone : info' = none := by
      rw [hinfo, Decompressor.frameInfo_value hwaits]
      rfl
    rcases hlength with ⟨-, rfl⟩ | ⟨-, known, hmem, -⟩
    · refine ⟨_, events', hstep, .inl ?_⟩
      exact {
        steady := hsteady'
        unknown := hnone
        nothing := rfl
        going := rfl
        chunkLength_eq := rfl
        place := ⟨_, fields, rfl, hlen, hjoined, rfl, hfilled⟩ }
    · rw [hnone] at hmem
      cases hmem
  · rcases Decompressor.update_run gate hfits hrun with ⟨events, hupdate⟩
    rcases step_decoded none [] hfill hgot (by simpa using hupdate)
      with ⟨info', chunkLength', events', hstep, hinfo, -⟩
    have hwaits : (beforeBlock (.ofHeader header)).Waits := trivial
    refine ⟨_, events', hstep, .inr ⟨⟨(beforeBlock (.ofHeader header)).idleHint, ?_⟩,
      fun hover => ?_⟩⟩
    · rw [hinfo, Decompressor.frameInfo_value hwaits]
      rfl
    · have hlong := hover.long
      rw [← hjoined, List.append_nil, hlen] at hlong
      exact Nat.lt_irrefl _ hlong

/-- The second step completes a longer header, and with the size word behind it may end the
frame. -/
theorem step_halfway {reader next : Reader} {events : List LockEvent}
    (h : Halfway header wire reader) :
    reader.step = (next, ⟨.ok (), events⟩) →
      Knows header next ∧ ¬ Overlooked header wire
        ∨ next.info = none ∧ next.Over ∧ Overlooked header wire := by
  intro hstep
  rcases step_ok_cases h.going hstep
      with ⟨got, decoded, updating, hfill, -, hupdate, hinfo, hpending, hdone⟩
  rcases h.place with ⟨held, fields, hdecoder, hsize, hjoined, hwanted, hrest⟩
  have hgot : got.toList = fields ++ wire.take 4 := by
    rcases Source.fill_steady h.steady reader.wanted #[] with ⟨filled, hfilled, -⟩
    rw [hfill, hwanted, hrest, List.take_length_add_append, Prod.mk.injEq,
      Except.ok.injEq] at hfilled
    simp [hfilled.2]
  have hmark : SizeWord.endMark <+: wire ↔ wire.take 4 = SizeWord.endMark :=
    List.prefix_iff_eq_take.trans eq_comm
  have hstarted : 0 < held.bytes.size := by
    rw [hsize]
    decide
  rw [h.unknown, Option.none_or] at hinfo
  rw [hgot] at hupdate
  rcases update_longHeader writable hstarted hjoined (List.length_take_le ..) hdecoder hupdate
      with ⟨-, hheader, hunended⟩ | ⟨hzero, hnew, hchunks, hended, hsum, hnone⟩
  · refine .inl ⟨⟨next.decompressor.decoder.idleHint, ?_⟩, fun hover => hunended ?_⟩
    · rw [hinfo, Decompressor.frameInfo_value (waits_of_header? hheader),
        info?_of_header? hheader]
      rfl
    · exact ⟨hmark.mp hover.endMark, hover.unsummed, hover.undeclared⟩
  · refine .inr ⟨?_, ⟨?_, ?_⟩, hsize ▸ held.size_lt, hmark.mpr hended, hsum, hnone⟩
    · rw [hinfo, Decompressor.frameInfo_of_new hnew]
      rfl
    · rw [hdone, Decoded.isFrameComplete, decide_eq_true hzero]
    · rw [hpending, h.nothing, hchunks, List.nil_append]

end Header

/-! ## Answers -/

/-- What a reader can tell once it has given an answer: the header, or nothing of a frame that is
overlooked. -/
def Informed (header : Header) (wire : Bytes) (reader : Reader) : Prop :=
  Knows header reader ∧ ¬ Overlooked header wire
    ∨ reader.info = none ∧ reader.Over ∧ Overlooked header wire

variable [Platform]

/-- What is known stays known. -/
theorem knows_carries (header : Header) :
    Carries (Knows header) (Knows header) (Knows header) where
  clear h := h
  step h hgoing hstep := by
    rcases h with ⟨hint, hknown⟩
    rcases step_ok_cases hgoing hstep with ⟨_, _, _, -, -, -, hinfo, -⟩
    exact ⟨hint, by rw [hinfo, hknown, Option.some_or]⟩
  fail h _ hstep := by
    rcases h with ⟨hint, hknown⟩
    exact ⟨hint, (step_failed hstep).2.trans hknown⟩
  give h _ := h
  ended h _ := h

theorem requests_knows {header : Header} {reader : Reader} (h : Knows header reader)
    (row : List Request) : Knows header (reader.requests row).1 := by
  induction row generalizing reader with
  | nil => exact h
  | cons request row ih =>
      simp only [Reader.requests]
      rcases request_carries (knows_carries header) h request with ⟨-, hnext⟩ | ⟨-, hnext⟩
      · exact ih hnext
      · exact ih hnext

section Header

variable {header : Header} (writable : header.Writable) {wire : Bytes}

include writable

/-- On the way to its first answer a reader gets to know the header, unless it fails before. -/
theorem informed_carries (gate : Gate) {source : Source} (hsteady : source.Steady)
    (hrest : source.rest = header.encode ++ wire) :
    Carries
      (fun reader => reader = new gate source ∨ Halfway header wire reader
        ∨ Informed header wire reader)
      (Informed header wire)
      (fun reader => Knows header reader ∨ reader.info = none ∧ reader.Over) where
  clear h := by
    rcases h with rfl | hhalf | ⟨hknows, hseen⟩ | ⟨hnone, hover, hmissed⟩
    · exact .inl rfl
    · exact .inr (.inl { hhalf with nothing := rfl })
    · exact .inr (.inr (.inl ⟨hknows, hseen⟩))
    · exact .inr (.inr (.inr ⟨hnone, ⟨hover.done, rfl⟩, hmissed⟩))
  step h hgoing hstep := by
    rcases h with rfl | hhalf | ⟨hknows, hseen⟩ | ⟨-, hover, -⟩
    · rcases step_new writable gate hsteady hrest with ⟨next, events, hstep', hnext⟩
      rw [hstep', Prod.mk.injEq] at hstep
      obtain rfl := hstep.1
      exact .inr (hnext.imp_right .inl)
    · exact .inr (.inr (step_halfway writable hhalf hstep))
    · exact .inr (.inr (.inl ⟨(knows_carries header).step hknows hgoing hstep, hseen⟩))
    · simp [hover.done] at hgoing
  fail h hgoing hstep := by
    rcases h with rfl | hhalf | ⟨hknows, -⟩ | ⟨-, hover, -⟩
    · rcases step_new writable gate hsteady hrest with ⟨next, events, hstep', -⟩
      rw [hstep'] at hstep
      cases hstep
    · rcases step_failed hstep with ⟨hpending, hinfo⟩
      exact .inr ⟨hinfo.trans hhalf.unknown, rfl, hpending.trans hhalf.nothing⟩
    · exact .inl ((knows_carries header).fail hknows hgoing hstep)
    · simp [hover.done] at hgoing
  give h hpending := by
    rcases h with rfl | hhalf | hknows | ⟨-, hover, -⟩
    · cases hpending
    · simp [hhalf.nothing] at hpending
    · exact .inl hknows
    · simp [hover.pending] at hpending
  ended h hdone := by
    rcases h with rfl | hhalf | hknows | ⟨hnone, hover, hmissed⟩
    · cases hdone
    · simp [hhalf.going] at hdone
    · exact .inl hknows
    · exact .inr ⟨hnone, ⟨hover.done, rfl⟩, hmissed⟩

end Header

end Reader

/-! ## Frames of the format -/

section

variable [Platform]

/-- The frames of the format that are overlooked are those of a longer header and an end mark. -/
theorem WellFormed.overlooked_iff {header : Header} {content frame wire tail : Bytes}
    (h : WellFormed header content frame) (hrest : header.encode ++ wire = frame ++ tail) :
    Reader.Overlooked header wire
      ↔ Header.minLength < header.encode.length ∧ frame = header.encode ++ SizeWord.endMark := by
  constructor
  · rintro ⟨hlong, ⟨behind, rfl⟩, hsum, hnone⟩
    refine ⟨hlong, ?_⟩
    -- the frame ends behind its end mark, so that is where its tail begins
    have hread := h.read tail
    rw [← hrest, read_header h.writable, read_bareEndMark h.writable hsum hnone] at hread
    obtain ⟨-, rfl⟩ : content = [] ∧ behind = tail := by simpa using hread
    rw [← List.append_assoc] at hrest
    exact (List.append_cancel_right hrest).symm
  · rintro ⟨hlong, rfl⟩
    have hread := h.read []
    rw [List.append_nil, read_header h.writable] at hread
    rcases ended_word (show SizeWord.endMark.length ≤ 4 from Nat.le_refl 4) hread
        with ⟨-, hnone, hsum, -⟩
    refine ⟨hlong, ?_, hsum, (remaining_ofHeader h.writable).mp hnone⟩
    rw [List.append_assoc] at hrest
    exact ⟨tail, (List.append_cancel_left hrest).symm⟩

namespace Reader

omit [Platform] in
theorem Informed.info_iff {header : Header} {wire : Bytes} {reader : Reader} :
    Informed header wire reader → (reader.info = none ↔ Overlooked header wire) := by
  rintro (⟨⟨hint, hknown⟩, hseen⟩ | ⟨hnone, -, hmissed⟩)
  · simp [hknown, hseen]
  · exact iff_of_true hnone hmissed

theorem Informed.requests {header : Header} {wire : Bytes} {reader : Reader} (row : List Request) :
    Informed header wire reader → Informed header wire (reader.requests row).1 := by
  rintro (⟨hknows, hseen⟩ | ⟨hnone, hover, hmissed⟩)
  · exact .inl ⟨requests_knows hknows row, hseen⟩
  · rw [(hover.requests row).1]
    exact .inr ⟨hnone, hover, hmissed⟩

/-- Of whatever stands behind a header that can be read, a reader tells from its first answer on
what the header says, unless that answer is a failure or the frame is overlooked; and it tells
nothing else.  A frame of the format never fails, and it is overlooked if its header is longer than
the shortest and only an end mark follows. -/
theorem info_of_header (gate : Gate) {source : Source} (hsteady : source.Steady)
    {header : Header} (writable : header.Writable) {wire : Bytes}
    (hrest : source.rest = header.encode ++ wire) (request : Request) (row : List Request) :
    let answered := (new gate source).requests (request :: row)
    (∀ info ∈ answered.1.info, ∃ hint, info = {
          hint
          declared := header.contentSize.getD 0
          blockSize := header.blockSize
          linked := header.linked
          contentChecksum := header.contentChecksum
          blockChecksum := header.blockChecksum })
      ∧ ((∀ first ∈ answered.2.head?, ¬ first.Fails) →
        (answered.1.info = none ↔ Overlooked header wire))
      ∧ ∀ content frame tail, WellFormed header content frame → source.rest = frame ++ tail →
        (∀ reply ∈ answered.2, ¬ reply.Fails)
          ∧ (answered.1.info = none
            ↔ Header.minLength < header.encode.length
              ∧ frame = header.encode ++ SizeWord.endMark) := by
  intro answered
  have hfirst : answered.2.head? = some ((new gate source).request request).2 := rfl
  have hlast : answered.1 = (((new gate source).request request).1.requests row).1 := rfl
  have hcases : ((new gate source).request request).2.Fails
        ∧ (Knows header answered.1 ∨ answered.1.info = none)
      ∨ Informed header wire answered.1 := by
    rcases request_carries (informed_carries writable gate hsteady hrest) (.inl rfl) request
        with ⟨-, hnext⟩ | ⟨hfails, hknows | ⟨hnone, hover⟩⟩
    · exact .inr (hlast ▸ hnext.requests row)
    · exact .inl ⟨hfails, .inl (hlast ▸ requests_knows hknows row)⟩
    · -- nothing is told any more behind a failure
      rw [hlast, (hover.requests row).1]
      exact .inl ⟨hfails, .inr hnone⟩
  have hinformed (hgood : ∀ first ∈ answered.2.head?, ¬ first.Fails) :
      Informed header wire answered.1 :=
    hcases.resolve_left fun hfails => hgood _ hfirst hfails.1
  refine ⟨?_, fun hgood => (hinformed hgood).info_iff, fun content frame tail hframe htail => ?_⟩
  · intro info hmem
    have htold : Knows header answered.1 ∨ answered.1.info = none := by
      rcases hcases with ⟨-, htold⟩ | ⟨hknows, -⟩ | ⟨hnone, -⟩
      · exact htold
      · exact .inl hknows
      · exact .inr hnone
    rcases htold with ⟨hint, hknown⟩ | hnone
    · rw [hknown, Option.mem_some_iff] at hmem
      exact ⟨hint, hmem.symm⟩
    · rw [hnone] at hmem
      cases hmem
  · have hread := hframe.read tail
    have hfollows := follows_new gate hsteady
    rw [htail, hread] at hfollows
    have hgood := requests_sound hfollows (request :: row)
    refine ⟨hgood, ?_⟩
    rw [← hframe.overlooked_iff (hrest.symm.trans htail)]
    exact (hinformed fun first hmem => hgood first (List.mem_of_mem_head? hmem)).info_iff

end Reader

end

namespace Reader

open Reference in
/-- The header of a frame of three bytes is known with the first chunk. -/
theorem info_of_header_three_bytes :
    ∃ hint, ((new .native { rest := unfinished ++ SizeWord.endMark }).requests [.chunk]).1.info
      = some ⟨hint, 0, .max64KiB, true, false, false⟩ := by
  have hframe := unfinished_isFrame
  rcases unfinished_blocks with ⟨blocks, -, hunfinished⟩
  have hsteady := Source.steady_rest (unfinished ++ SizeWord.endMark)
  have hrest : unfinished ++ SizeWord.endMark
      = (Header.ofPreferences {}).encode ++ (blocks ++ SizeWord.endMark) := by
    rw [hunfinished, List.append_assoc]
  rcases info_of_header .native hsteady hframe.writable hrest .chunk []
      with ⟨htold, -, hwhole⟩
  rcases hwhole [1, 2, 3] _ [] hframe.wellFormed (by simp) with ⟨-, hiff⟩
  cases hinfo : ((new .native { rest := unfinished ++ SizeWord.endMark }).requests
      [.chunk]).1.info with
  | none => exact absurd (hiff.mp hinfo).1 (by decide)
  | some info =>
      rcases htold info hinfo with ⟨hint, rfl⟩
      exact ⟨hint, rfl⟩

/-- A header that declares no content, in a field of its own. -/
def declaringNothing : Header where
  blockSize := .max64KiB
  linked := true
  blockChecksum := false
  contentChecksum := false
  contentSize := some 0
  dictionaryId := none

open Reference in
/-- The frame of such a header and an end mark is one of the format, and a reader gives all of it,
but it never tells the header. -/
theorem info_missing :
    let frame : Bytes :=
      [0x04, 0x22, 0x4d, 0x18, 0x48, 0x40, 0, 0, 0, 0, 0, 0, 0, 0, 0x67, 0, 0, 0, 0]
    let answered := (new .native { rest := frame }).requests [.rest]
    WellFormed declaringNothing [] frame ∧ answered.2 = [.rest []] ∧ answered.1.info = none := by
  have hframe : WellFormed declaringNothing [] (declaringNothing.encode ++ SizeWord.endMark) :=
    ⟨⟨by decide, by decide, by decide⟩, .inl rfl, [], .nil, rfl⟩
  have hsteady := Source.steady_rest (declaringNothing.encode ++ SizeWord.endMark)
  have hread := hframe.read []
  rw [List.append_nil] at hread
  have hrest := request_rest .native hsteady
  rw [hread] at hrest
  refine ⟨hframe, congrArg ([·]) hrest, ?_⟩
  have hmissed : Overlooked declaringNothing SizeWord.endMark :=
    ⟨by decide, List.prefix_rfl, rfl, rfl⟩
  rcases request_carries (informed_carries hframe.writable .native hsteady rfl) (.inl rfl) .rest
      with ⟨-, hinformed⟩ | ⟨hfails, -⟩
  · exact hinformed.info_iff.mpr hmissed
  · rw [hrest] at hfails
    exact hfails.elim

end Reader

end Lz4Frame
