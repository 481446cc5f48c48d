import Lz4Frame.Proofs.Codec.Decoding
import Lz4Frame.Proofs.Decompressor.Requests
import Lz4Frame.Proofs.Stream.Source
import Lz4Frame.Stream.Reader

/-!
# What a reader reads

A reader on a steady source follows what `Decoder.read` makes of everything that the source holds,
however many bytes it asks for at a time (`Reader.Follows`): reading to the end gives the content of
the frame, or fails as the frame does (`readAll_value`).
-/

namespace Lz4Frame

open Decoder

namespace Reader

/-! ## Steps -/

variable [Platform]

/-- A reader that was given the front of some reading: `content` and the chunks that are not given
yet have come out, and the rest is what its decoder makes of the rest of the source. -/
structure Keeps (reader : Reader) (content : Bytes) (reading : Reading) : Prop where
  chunk_pos : 0 < reader.chunkLength
  chunk_lt : reader.chunkLength < assuredSize
  going : reader.done = false → reader.decompressor.decoder.Waits
    ∧ reading = (reader.decompressor.decoder.read reader.source.rest).prepend
        (content ++ reader.pending.flatten)
  ended : reader.done = true →
    ∃ rest, reading = ⟨content ++ reader.pending.flatten, .ended rest⟩

/-- Such a reader on a source that is late at worst. -/
structure Follows (reader : Reader) (content : Bytes) (reading : Reading) : Prop
    extends Keeps reader content reading where
  steady : reader.source.Steady
  wanted_pos : 0 < reader.wanted

omit [Platform] in
theorem blockSize_lt (size : BlockSize) : size.bytes < assuredSize := by
  cases size <;> decide

omit [Platform] in
/-- What a reader gets when it asks for what it wants. -/
theorem fill_wanted {source : Source} (h : source.Steady) {wanted : Nat} :
    0 < wanted →
      ∃ filled got, source.fill wanted #[] = (filled, .ok got) ∧ filled.Steady
        ∧ got.toList ++ filled.rest = source.rest ∧ (got.isEmpty = true ↔ source.rest = []) := by
  intro hwanted
  rcases Source.fill_steady h wanted #[] with ⟨filled, hfill, hsteady, hrest⟩
  have hlist : ((#[] : Array UInt8) ++ source.rest.take wanted).toList
      = source.rest.take wanted := by simp
  refine ⟨filled, _, hfill, hsteady, ?_, ?_⟩
  · rw [hlist, hrest, List.take_append_drop]
  · rw [Array.isEmpty_iff, ← Array.toList_eq_nil_iff, hlist, List.take_eq_nil_iff]
    simp [Nat.ne_of_gt hwanted]

/-- A step takes what comes out of its input.  As long as nothing is known about the frame it asks
for what there is to know, and once it gets an answer chunks are as long as blocks. -/
theorem step_decoded (info : Option FrameInfo) (pending : List Bytes) {source filled : Source}
    {decompressor next : Decompressor} {chunkLength wanted : Nat} {got : Array UInt8}
    {decoded : Decoded} {events : List LockEvent}
    (hfill : source.fill wanted #[] = (filled, .ok got)) (hgot : ¬ got.isEmpty = true)
    (hupdate : decompressor.update got.toList chunkLength = (next, ⟨.ok decoded, events⟩)) :
    ∃ info' chunkLength' events',
      step ⟨source, decompressor, info, chunkLength, wanted, pending, false⟩
          = (⟨filled, next, info', chunkLength',
              if decoded.isFrameComplete then wanted else decoded.hint,
              pending ++ decoded.chunks, decoded.isFrameComplete⟩, ⟨.ok (), events'⟩)
        ∧ info' = info.or next.frameInfo.2.value.toOption
        ∧ (info' = info ∧ chunkLength' = chunkLength
          ∨ info = none ∧ ∃ known ∈ info', chunkLength' = known.blockSize.bytes) := by
  simp only [step, hfill, hgot, hupdate, Bool.false_eq_true, ↓reduceIte, Bool.false_or]
  cases info with
  | some info => exact ⟨some info, chunkLength, events, rfl, rfl, .inl ⟨rfl, rfl⟩⟩
  | none =>
      -- the decompressor is asked about the header, which leaves it as it is
      have hsame := Decompressor.frameInfo_eq (Decompressor.update_ok_settled hupdate)
      rcases hinfo : next.frameInfo with ⟨asked, value, more⟩
      rw [hinfo] at hsame
      obtain rfl : asked = next := hsame
      cases value with
      | error cause => exact ⟨none, chunkLength, events ++ more, rfl, rfl, .inl ⟨rfl, rfl⟩⟩
      | ok info =>
          exact ⟨some info, info.blockSize.bytes, events ++ more, rfl, rfl,
            .inr ⟨rfl, info, rfl, rfl⟩⟩

/-- What a step that succeeds has done. -/
theorem step_ok_cases {reader next : Reader} {events : List LockEvent}
    (hgoing : reader.done = false) :
    reader.step = (next, ⟨.ok (), events⟩) →
      ∃ got decoded updating, reader.source.fill reader.wanted #[] = (next.source, .ok got)
        ∧ ¬ got.isEmpty = true
        ∧ reader.decompressor.update got.toList reader.chunkLength
          = (next.decompressor, ⟨.ok decoded, updating⟩)
        ∧ next.info = reader.info.or next.decompressor.frameInfo.2.value.toOption
        ∧ next.pending = reader.pending ++ decoded.chunks
        ∧ next.done = decoded.isFrameComplete := by
  intro hstep
  rcases reader with ⟨source, decompressor, info, chunkLength, wanted, pending, done⟩
  simp only at hgoing
  subst hgoing
  rcases hfill : source.fill wanted #[] with ⟨filled, result⟩
  cases result with
  | error cause => simp [step, hfill] at hstep
  | ok got =>
      by_cases hnone : got.isEmpty = true
      · simp [step, hfill, hnone] at hstep
      rcases hupdate : decompressor.update got.toList chunkLength with ⟨after, value, updating⟩
      cases value with
      | error cause => simp [step, hfill, hnone, hupdate] at hstep
      | ok decoded =>
          rcases step_decoded info pending hfill hnone hupdate
              with ⟨info', chunkLength', events', hstep', hinfo, -⟩
          rw [hstep', Prod.mk.injEq] at hstep
          obtain rfl := hstep.1
          exact ⟨got, decoded, updating, rfl, hnone, hupdate, hinfo, rfl, rfl⟩

/-- A step that decodes what it was given goes on with the reading. -/
theorem step_keeps {info : Option FrameInfo} {pending : List Bytes} {source filled : Source}
    {decompressor next : Decompressor} {chunkLength wanted : Nat} {got : Array UInt8}
    {decoded : Decoded} {events : List LockEvent} {content : Bytes} {reading : Reading}
    (h : Keeps ⟨source, decompressor, info, chunkLength, wanted, pending, false⟩ content reading)
    (hfill : source.fill wanted #[] = (filled, .ok got)) (hgot : ¬ got.isEmpty = true)
    (hsplit : got.toList ++ filled.rest = source.rest)
    (hupdate : decompressor.update got.toList chunkLength = (next, ⟨.ok decoded, events⟩)) :
    ∃ last events',
      step ⟨source, decompressor, info, chunkLength, wanted, pending, false⟩
          = (last, ⟨.ok (), events'⟩)
        ∧ last.Keeps content reading ∧ last.source = filled ∧ (0 < wanted → 0 < last.wanted) := by
  rcases h with ⟨hchunk, hlimit, hgoing, -⟩
  rcases hgoing rfl with ⟨-, hreading⟩
  simp only at hchunk hlimit hreading
  rcases step_decoded info pending hfill hgot hupdate
      with ⟨info', chunkLength', events', hstep, -, hlength⟩
  have hbounds : 0 < chunkLength' ∧ chunkLength' < assuredSize := by
    rcases hlength with ⟨-, rfl⟩ | ⟨-, known, -, rfl⟩
    · exact ⟨hchunk, hlimit⟩
    · exact ⟨known.blockSize.bytes_pos, blockSize_lt _⟩
  rcases hbounds with ⟨hchunk', hlimit'⟩
  refine ⟨_, events', hstep, ?_⟩
  have hread := congrArg decompressor.decoder.read hsplit
  rcases Decompressor.update_ok hupdate with ⟨taken, left, hportion, -, hresult⟩
  -- either the frame is over, or the hint is what is wanted next
  rcases hresult with ⟨hzero, -, hend⟩ | ⟨hpos, -, hwaits', hgo⟩
  · have hcomplete : decoded.isFrameComplete = true := by
      simp [Decoded.isFrameComplete, hzero]
    refine ⟨⟨hchunk', hlimit', ?_, fun _ => ?_⟩, rfl, ?_⟩
    · simp [hcomplete]
    · refine ⟨left ++ filled.rest, ?_⟩
      rw [hreading, ← hread, hend filled.rest]
      simp [Reading.prepend, Decoded.content]
    · simp [hcomplete]
  · have hcomplete : decoded.isFrameComplete = false := by
      simp [Decoded.isFrameComplete, Nat.ne_of_gt hpos]
    refine ⟨⟨hchunk', hlimit', fun _ => ⟨hwaits', ?_⟩, ?_⟩, rfl, ?_⟩
    · rw [hreading, ← hread, hgo filled.rest]
      simp [Decoded.content]
    · simp [hcomplete]
    · simpa [hcomplete] using fun _ => hpos

/-- A step goes on with the reading, or fails as the reading does. -/
theorem step_follows {reader : Reader} {content : Bytes} {reading : Reading} :
    reader.Follows content reading → reader.done = false →
      (∃ next events, reader.step = (next, ⟨.ok (), events⟩) ∧ next.Follows content reading)
        ∨ (∃ next code events, reader.step = (next, ⟨.error (.codec (.frame code)), events⟩)
            ∧ reading.verdict = .bad code)
        ∨ ∃ next place events, reader.step = (next, ⟨.error (.codec .incompleteFrame), events⟩)
            ∧ reading.verdict = .waiting place := by
  intro h hgoing
  rcases h.going hgoing with ⟨hwaits, hreading⟩
  rcases reader with ⟨source, decompressor, info, chunkLength, wanted, pending, done⟩
  rcases h with ⟨hkeeps, hsteady, hwanted⟩
  simp only at hsteady hwanted hwaits hreading hgoing
  subst hgoing
  rcases fill_wanted hsteady hwanted with ⟨filled, got, hfill, hsteady', hsplit, hisEmpty⟩
  by_cases hnone : got.isEmpty = true
  · -- the source is used up inside the frame
    rcases read_nil_waits hwaits with ⟨place, hplace⟩
    refine .inr (.inr ⟨⟨filled, decompressor, info, chunkLength, wanted, pending, false⟩, place, [],
      ?_, ?_⟩)
    · simp only [step, hfill, hnone, ↓reduceIte]
    · rw [hreading, Reading.verdict_prepend, hisEmpty.mp hnone]
      exact hplace
  cases hupdate : decompressor.update got.toList chunkLength with
  | mk next answer =>
      rcases answer with ⟨value, events⟩
      cases value with
      | error cause =>
          have hne : got.toList ≠ [] := by
            intro hnil
            exact hnone (Array.isEmpty_iff.mpr (Array.toList_eq_nil_iff.mp hnil))
          have hfits : Portion.Fits ⟨got.toList, chunkLength⟩ :=
            .of_assured hne hkeeps.chunk_pos hkeeps.chunk_lt
          rcases Decompressor.update_failed hfits hupdate with ⟨code, bad, rfl, hbad⟩
          refine .inr (.inl ⟨⟨filled, next, info, chunkLength, wanted, pending, false⟩, code,
            events, ?_, ?_⟩)
          · simp only [step, hfill, hnone, hupdate, Bool.false_eq_true, ↓reduceIte]
          · rw [hreading, Reading.verdict_prepend, ← hsplit, hbad]
      | ok decoded =>
          rcases step_keeps hkeeps hfill hnone hsplit hupdate
              with ⟨last, events', hstep, hlast, hsource, hwanted'⟩
          exact .inl ⟨last, events', hstep, ⟨hlast, hsource ▸ hsteady', hwanted' hwanted⟩⟩

/-- A step that fails leaves the chunks that were not given, and what is known. -/
theorem step_failed {reader next : Reader} {cause : IoError} {events : List LockEvent} :
    reader.step = (next, ⟨.error cause, events⟩) →
      next.pending = reader.pending ∧ next.info = reader.info := by
  intro h
  unfold step at h
  repeat' split at h
  all_goals simp only [Prod.mk.injEq, Traced.mk.injEq, reduceCtorEq, false_and, and_false] at h
  all_goals
    rw [← h.1]
    exact ⟨rfl, rfl⟩

/-! ## One chunk at a time -/

theorem next_pending {reader : Reader} {chunk : Bytes} {pending : List Bytes}
    (hpending : reader.pending = chunk :: pending) (events : List LockEvent) :
    reader.next events = ({ reader with pending }, ⟨some (.ok chunk), events⟩) := by
  rw [next]
  split
  · rename_i hother
    rw [hpending] at hother
    cases hother
    rfl
  · rename_i hother
    rw [hpending] at hother
    cases hother

section Steps

variable {reader : Reader} (hpending : reader.pending = [])
include hpending

theorem next_over (hdone : reader.done = true) (events : List LockEvent) :
    reader.next events = (reader, ⟨none, events⟩) := by
  rw [next]
  simp [hpending, hdone]

theorem next_failed {next' : Reader} {cause : IoError} {more : List LockEvent}
    (hgoing : reader.done = false) (hstep : reader.step = (next', ⟨.error cause, more⟩))
    (events : List LockEvent) :
    reader.next events
      = ({ next' with done := true }, ⟨some (.error cause), events ++ more⟩) := by
  rw [next]
  simp only [hpending, hgoing, Bool.false_eq_true, ↓reduceIte]
  split
  · rename_i hother
    rw [hstep] at hother
    cases hother
    rfl
  · rename_i hother
    rw [hstep] at hother
    cases hother

theorem next_going {next' : Reader} {more : List LockEvent} (hgoing : reader.done = false)
    (hstep : reader.step = (next', ⟨.ok (), more⟩)) (events : List LockEvent) :
    reader.next events = next'.next (events ++ more) := by
  rw [next]
  simp only [hpending, hgoing, Bool.false_eq_true, ↓reduceIte]
  split
  · rename_i hother
    rw [hstep] at hother
    cases hother
  · rename_i hother
    rw [hstep] at hother
    cases hother
    rfl

end Steps

/-- What holds where a chunk is waiting and where there is nothing more to give, and of a reader
that takes a step if it holds behind the step, holds whenever a chunk is asked for. -/
@[elab_as_elim]
theorem next_induction {motive : Reader → List LockEvent → Prop}
    (waiting : ∀ {reader : Reader} (events : List LockEvent) {chunk : Bytes} {pending : List Bytes},
      reader.pending = chunk :: pending → motive reader events)
    (finished : ∀ {reader : Reader} (events : List LockEvent), reader.pending = [] →
      reader.done = true → motive reader events)
    (going : ∀ {reader : Reader} (events : List LockEvent), reader.pending = [] →
      reader.done = false →
        (∀ {next more}, reader.step = (next, ⟨.ok (), more⟩) → motive next (events ++ more)) →
          motive reader events)
    (reader : Reader) (events : List LockEvent) : motive reader events := by
  -- each step that succeeds takes bytes from the source
  induction hlength : reader.source.rest.length using Nat.strongRecOn
    generalizing reader events with
  | ind length ih =>
      cases hpending : reader.pending with
      | cons chunk pending => exact waiting events hpending
      | nil =>
          cases hdone : reader.done with
          | true => exact finished events hpending hdone
          | false =>
              refine going events hpending hdone fun {next more} hstep => ?_
              exact ih next.source.rest.length (hlength ▸ step_ok hstep) next _ rfl

/-! ## Reading to the end -/

theorem keeps_new (gate : Gate) (source : Source) :
    (new gate source).Keeps [] (Decoder.new.read source.rest) where
  chunk_pos := show 0 < firstChunkLength by decide
  chunk_lt := show firstChunkLength < assuredSize by decide
  going _ := ⟨trivial, rfl⟩
  ended hdone := by cases hdone

theorem follows_new (gate : Gate) {source : Source} (h : source.Steady) :
    (new gate source).Follows [] (Decoder.new.read source.rest) where
  toKeeps := keeps_new gate source
  steady := h
  wanted_pos := show 0 < Header.minLength by decide

omit [Platform] in
theorem foldl_append (content : Array UInt8) (chunks : List Bytes) :
    (chunks.foldl (fun content chunk => content ++ chunk) content).toList
      = content.toList ++ chunks.flatten := by
  induction chunks generalizing content with
  | nil => simp
  | cons chunk chunks ih => simp [ih]

/-- Chunks that are given join what was given before. -/
theorem Keeps.given {reader : Reader} {content : Bytes} {reading : Reading}
    (h : reader.Keeps content reading) :
    Keeps { reader with pending := [] } (content ++ reader.pending.flatten) reading where
  chunk_pos := h.chunk_pos
  chunk_lt := h.chunk_lt
  going hgoing := by simpa using h.going hgoing
  ended hdone := by simpa using h.ended hdone

/-- A chunk that is given joins what was given before. -/
theorem Keeps.give {reader : Reader} {content chunk : Bytes} {pending : List Bytes}
    {reading : Reading} (h : reader.Keeps content reading)
    (hpending : reader.pending = chunk :: pending) :
    Keeps { reader with pending } (content ++ chunk) reading where
  chunk_pos := h.chunk_pos
  chunk_lt := h.chunk_lt
  going hgoing := by simpa [hpending] using h.going hgoing
  ended hdone := by simpa [hpending] using h.ended hdone

theorem Follows.give {reader : Reader} {content chunk : Bytes} {pending : List Bytes}
    {reading : Reading} (h : reader.Follows content reading)
    (hpending : reader.pending = chunk :: pending) :
    Follows { reader with pending } (content ++ chunk) reading where
  toKeeps := h.toKeeps.give hpending
  steady := h.steady
  wanted_pos := h.wanted_pos

theorem Follows.given {reader : Reader} {content : Bytes} {reading : Reading}
    (h : reader.Follows content reading) :
    Follows { reader with pending := [] } (content ++ reader.pending.flatten) reading where
  toKeeps := h.toKeeps.given
  steady := h.steady
  wanted_pos := h.wanted_pos

theorem readAll_ended {reader : Reader} (hdone : reader.done = true) (content : Array UInt8)
    (events : List LockEvent) :
    reader.readAll content events
      = ({ reader with pending := [] },
        ⟨.ok (content.toList ++ reader.pending.flatten), events⟩) := by
  rw [readAll]
  simp [hdone, foldl_append]

theorem readAll_failed {reader next : Reader} {cause : IoError} {more : List LockEvent}
    (hgoing : reader.done = false)
    (hstep : step { reader with pending := [] } = (next, ⟨.error cause, more⟩))
    (content : Array UInt8) (events : List LockEvent) :
    reader.readAll content events
      = ({ next with done := true }, ⟨.error cause, events ++ more⟩) := by
  rw [readAll]
  simp only [hgoing, Bool.false_eq_true, ↓reduceIte]
  split
  · rename_i hother
    rw [hstep] at hother
    cases hother
    rfl
  · rename_i hother
    rw [hstep] at hother
    cases hother

theorem readAll_going {reader next : Reader} {more : List LockEvent}
    (hgoing : reader.done = false)
    (hstep : step { reader with pending := [] } = (next, ⟨.ok (), more⟩))
    (content : Array UInt8) (events : List LockEvent) :
    reader.readAll content events
      = next.readAll
          (reader.pending.foldl (fun (content : Array UInt8) (chunk : Bytes) => content ++ chunk)
            content)
          (events ++ more) := by
  rw [readAll]
  simp only [hgoing, Bool.false_eq_true, ↓reduceIte]
  split
  · rename_i hother
    rw [hstep] at hother
    cases hother
  · rename_i hother
    rw [hstep] at hother
    cases hother
    rfl

/-- The same for reading to the end, which gives the chunks that are waiting before each step. -/
@[elab_as_elim]
theorem readAll_induction {motive : Reader → Array UInt8 → List LockEvent → Prop}
    (finished : ∀ {reader : Reader} (content : Array UInt8) (events : List LockEvent),
      reader.done = true → motive reader content events)
    (going : ∀ {reader : Reader} (content : Array UInt8) (events : List LockEvent),
      reader.done = false →
        (∀ {next more}, step { reader with pending := [] } = (next, ⟨.ok (), more⟩) →
          motive next
            (reader.pending.foldl (fun (content : Array UInt8) (chunk : Bytes) => content ++ chunk)
              content)
            (events ++ more)) →
          motive reader content events)
    (reader : Reader) (content : Array UInt8) (events : List LockEvent) :
    motive reader content events := by
  induction hlength : reader.source.rest.length using Nat.strongRecOn
    generalizing reader content events with
  | ind length ih =>
      cases hdone : reader.done with
      | true => exact finished content events hdone
      | false =>
          refine going content events hdone fun {next more} hstep => ?_
          have hless := step_ok hstep
          exact ih next.source.rest.length (hlength ▸ hless) next _ _ rfl

/-- Reading to the end comes to what the rest of the source reads as. -/
theorem readAll_value {reader : Reader} {content : Array UInt8} {reading : Reading}
    (h : reader.Follows content.toList reading) (events : List LockEvent) :
    (reader.readAll content events).2.value = reading.result.mapError .codec := by
  induction reader, content, events using readAll_induction with
  | finished content events hdone =>
      rcases h.ended hdone with ⟨rest, hended⟩
      rw [readAll_ended hdone, hended]
      rfl
  | going content events hdone ih =>
      rcases step_follows h.given hdone with ⟨next, more, hstep, hnext⟩
        | ⟨next, code, more, hstep, hbad⟩ | ⟨next, place, more, hstep, hwaiting⟩
      · rw [readAll_going hdone hstep]
        refine ih hstep ?_
        rw [foldl_append]
        exact hnext
      · rw [readAll_failed hdone hstep]
        simp only [Reading.result, hbad, mapError_error]
      · rw [readAll_failed hdone hstep]
        simp only [Reading.result, hwaiting, mapError_error]

/-- A fresh reader that reads to the end comes to what its source reads as. -/
theorem readAll_new (gate : Gate) {source : Source} (h : source.Steady) :
    ((new gate source).readAll #[] []).2.value
      = (Decoder.new.read source.rest).result.mapError .codec :=
  readAll_value (follows_new gate h) []

end Reader

end Lz4Frame
