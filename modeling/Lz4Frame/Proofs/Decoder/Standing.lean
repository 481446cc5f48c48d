import Lz4Frame.Frame.Decoder.Info
import Lz4Frame.Proofs.Decompressor.Session
import Lz4Frame.Proofs.Frame.Grammar

/-!
# Where a decoder stands in a frame

A decoder that has been given the front of a frame is still in the header, or it is behind the
header and knows it (`Stands`).  What every step keeps, and what every stop shows, holds for runs,
for calls and for rows of calls as well (`runFrom_keeps`, `feed_keeps`), so a row of calls along a
frame leaves the decoder where the bytes that were used say (`Decompressor.updates_along`).
-/

namespace Lz4Frame

open Decoder

namespace Decoder

/-! ## What steps keep -/

variable [Platform]

/-- What a step keeps, if `more` follows its input: `I` at the place that it leads to, and `J` of
the hint as well where it stops inside the frame. -/
def Step.Keeps (I : Decoder → Bytes → Prop) (J : Decoder → Nat → Prop) (more : Bytes) :
    Step → Prop
  | .go next input _ => I next (input.rest ++ more)
  | .stop next input _ hint => hint = 0 ∨ I next (input.rest ++ more) ∧ J next hint
  | .fail _ => True

section Keeping

variable {I : Decoder → Bytes → Prop} {J : Decoder → Nat → Prop}
  (hsteps : ∀ decoder input room more, I decoder (input.rest ++ more) →
    (decoder.step input room).Keeps I J more)

include hsteps

/-- What steps keep is kept by a run. -/
theorem runFrom_keeps {decoder next : Decoder} {input : Input} {room : Nat} {out : Array UInt8}
    {progress : Progress} (more : Bytes) (h : I decoder (input.rest ++ more)) :
    decoder.runFrom input room out = (next, .ok progress) →
      progress.hint = 0 ∨ I next (progress.rest ++ more) ∧ J next progress.hint := by
  intro hrun
  fun_induction runFrom decoder input room out with
  | case1 decoder input room out next' input' piece hstep _ ih =>
      have hkept := hsteps decoder input room more h
      rw [hstep] at hkept
      exact ih hkept hrun
  | case2 decoder input room out next' input' piece hint hstep =>
      have hkept := hsteps decoder input room more h
      rw [hstep] at hkept
      simp only [Prod.mk.injEq, Except.ok.injEq] at hrun
      rcases hrun with ⟨rfl, rfl⟩
      exact hkept
  | case3 => simp at hrun

/-- What steps keep is kept by all the runs of a call. -/
theorem feed_keeps {gate : Gate} {chunkLength : Nat} {hchunk : 0 < chunkLength}
    {decoder next : Decoder} {piece : Bytes} (hpiece : piece ≠ []) {out out' : Array UInt8}
    {hint hint' consumed consumed' : Nat} {events events' : Array LockEvent} (more : Bytes)
    (h : I decoder (piece ++ more)) :
    Decompressor.feed gate chunkLength hchunk decoder piece out hint consumed events
        = ⟨next, .ok (out', hint', consumed'), events'⟩ →
      hint' = 0 ∨ I next more ∧ J next hint' := by
  intro hfeed
  fun_induction Decompressor.feed gate chunkLength hchunk decoder piece out hint consumed events
    with
  | case1 => exact absurd rfl hpiece
  | case2 => simp at hfeed
  | case3 => simp at hfeed
  | case4 decoder piece out hint consumed events hne hasked room events₁ next₁ progress hrun
      grown used hzero =>
      simp only [Decompressor.Feed.mk.injEq, Except.ok.injEq, Prod.mk.injEq] at hfeed
      exact .inl hfeed.2.1.2.1.symm
  | case5 decoder piece out hint consumed events hne hasked room events₁ next₁ progress hrun
      grown used hnz hroom hlex ih =>
      rcases runFrom_keeps hsteps more h hrun with hzero | ⟨hkept, hshown⟩
      · exact absurd hzero hnz
      · by_cases hused : progress.rest = []
        · -- this was the last run
          rw [hused, Decompressor.feed_nil] at hfeed
          simp only [Decompressor.Feed.mk.injEq, Except.ok.injEq, Prod.mk.injEq] at hfeed
          rcases hfeed with ⟨rfl, ⟨-, rfl, -⟩, -⟩
          rw [hused, List.nil_append] at hkept
          exact .inr ⟨hkept, hshown⟩
        · exact ih hused hkept hfeed

/-- What steps keep is kept by a call that succeeds. -/
theorem update_keeps {decompressor next : Decompressor} {piece : Bytes} {chunkLength : Nat}
    {decoded : Decoded} {events : List LockEvent} (more : Bytes)
    (h : I decompressor.decoder (piece ++ more)) :
    decompressor.update piece chunkLength = (next, ⟨.ok decoded, events⟩) →
      decoded.hint = 0 ∨ I next.decoder more ∧ J next.decoder decoded.hint := by
  intro hupdate
  rcases Decompressor.update_feed hupdate with ⟨hfits, out, events', -, hfeed⟩
  exact feed_keeps hsteps hfits.ne_nil more h hfeed

end Keeping

/-! ## Places that know the header -/

/-- The header of the frame that a decoder is in, once it has been read. -/
def header? : Decoder → Option Header
  | .blockSize body _ => some body.header
  | .stored body _ _ _ => some body.header
  | .storedChecksum body _ _ => some body.header
  | .compressed body _ => some body.header
  | .pending body _ _ => some body.header
  | .trailer body _ => some body.header
  | _ => none

/-- Where a step leads inside a frame the header is known. -/
def Step.Knows (header : Header) : Step → Prop
  | .go next _ _ => next.header? = some header
  | .stop next _ _ hint => hint = 0 ∨ next.header? = some header
  | .fail _ => True

omit [Platform] in
theorem knows_afterStored (body : Body) (sum : Xxh32) (input : Input) (out : Bytes) :
    (afterStored body sum input out).Knows body.header := by
  unfold afterStored
  split <;> rfl

omit [Platform] in
theorem knows_afterBlockSize (body : Body) (number : Nat) (input : Input) (room : Nat) :
    (afterBlockSize body number input room).Knows body.header := by
  unfold afterBlockSize afterBlocks
  simp only
  repeat' split
  all_goals first
    | trivial
    | exact knows_afterStored ..
    | rfl
    | exact .inl rfl
    | exact .inr rfl

theorem header_expand? {body next : Body} {block content : Bytes} :
    body.expand? block = some (next, content) → next.header = body.header := by
  intro h
  rcases body with ⟨header, remaining, digest, history⟩
  unfold Body.expand? at h
  simp only at h
  split at h
  · cases h
  · simp only [Option.some.injEq, Prod.mk.injEq] at h
    rw [← h.1]
    rfl

theorem knows_afterCompressed (body : Body) (bytes : Bytes) (input : Input) :
    (afterCompressed body bytes input).Knows body.header := by
  unfold afterCompressed
  simp only
  split
  · trivial
  · split
    · trivial
    · rename_i next content hexpand
      have hheader := header_expand? hexpand
      split <;> exact congrArg some hheader

theorem knows_field {n : Nat} {place : Partial n → Decoder}
    {after : (bytes : Array UInt8) → bytes.size = n → Input → Nat → Step} {header : Header}
    {room : Nat} (h : Fills place after) (hplace : ∀ held, (place held).header? = some header)
    (hafter : ∀ bytes size_eq input, (after bytes size_eq input room).Knows header)
    (held : Partial n) (input : Input) : ((place held).step input room).Knows header := by
  exact h.step_of (P := Step.Knows header) (fun held' _ _ => .inr (hplace held'))
    (fun bytes size_eq input' _ => hafter bytes size_eq input')

/-- Behind the header every step keeps it. -/
theorem step_knows {decoder : Decoder} {header : Header} (h : decoder.header? = some header)
    (input : Input) (room : Nat) : (decoder.step input room).Knows header := by
  cases decoder with
  | blockSize body held =>
      obtain rfl := Option.some.inj h
      apply knows_field (blockSize_fills body) (fun _ => rfl)
      intro bytes size_eq input
      exact knows_afterBlockSize ..
  | stored body sum left left_pos =>
      obtain rfl := Option.some.inj h
      simp only [step]
      split
      · exact .inr (congrArg some (header_append ..))
      · have hknows := knows_afterStored (body.append (input.take (min left room)).1)
          (if body.header.blockChecksum then sum.update (input.take (min left room)).1 else sum)
          (input.take (min left room)).2 (input.take (min left room)).1
        rwa [header_append] at hknows
  | storedChecksum body sum held =>
      obtain rfl := Option.some.inj h
      apply knows_field (storedChecksum_fills body sum) (fun _ => rfl)
      intro bytes size_eq input
      unfold afterStoredChecksum
      split
      · rfl
      · trivial
  | compressed body held =>
      obtain rfl := Option.some.inj h
      apply knows_field (compressed_fills body) (fun _ => rfl)
      intro bytes size_eq input
      exact knows_afterCompressed ..
  | pending body content ne_nil =>
      obtain rfl := Option.some.inj h
      simp only [step, List.splitAt_eq]
      split
      · rfl
      · exact .inr rfl
  | trailer body held =>
      obtain rfl := Option.some.inj h
      apply knows_field (trailer_fills body) (fun _ => rfl)
      intro bytes size_eq input
      unfold afterTrailer
      split
      · exact .inl rfl
      · trivial
  | _ => cases h

omit [Platform] in
/-- What a decoder behind the header tells. -/
theorem info?_of_header? {decoder : Decoder} {header : Header} (h : decoder.header? = some header)
    (hint : Nat) : decoder.info? hint = .ok (infoWith hint header) := by
  cases decoder <;> cases h <;> rfl

omit [Platform] in
theorem waits_of_header? {decoder : Decoder} {header : Header} :
    decoder.header? = some header → decoder.Waits := by
  intro h
  cases decoder <;> cases h <;> trivial

/-! ## Places along a frame -/

/-- Where a decoder can stand when `rest` of the header and of the `wire` behind it is still to
come: in the header, with what it holds in front of the rest, or behind it. -/
inductive Stands (header : Header) (wire : Bytes) : Decoder → (rest : Bytes) → Prop
  | opening {held : Partial Header.minLength} {rest : Bytes}
      (joined : held.bytes.toList ++ rest = header.encode ++ wire) :
      Stands header wire (.opening held) rest
  | longHeader {held : Partial header.encode.length} {rest : Bytes}
      (started : 0 < held.bytes.size)
      (joined : held.bytes.toList ++ rest = header.encode ++ wire) :
      Stands header wire (.longHeader held) rest
  | inside {decoder : Decoder} {rest : Bytes} (header_eq : decoder.header? = some header)
      (behind : rest <:+ wire) : Stands header wire decoder rest

omit [Platform] in
theorem stands_new (header : Header) (wire : Bytes) :
    Stands header wire new (header.encode ++ wire) := .opening rfl

omit [Platform] in
theorem Stands.waits {header : Header} {wire : Bytes} {decoder : Decoder} {rest : Bytes} :
    Stands header wire decoder rest → decoder.Waits := by
  intro h
  cases h with
  | opening => trivial
  | longHeader => trivial
  | inside header_eq => exact waits_of_header? header_eq

omit [Platform] in
/-- The header is complete when as many bytes are there as it has. -/
theorem stands_afterHeader {header : Header} (writable : header.Writable) {wire bytes rest : Bytes}
    (hlength : bytes.length = header.encode.length)
    (joined : bytes ++ rest = header.encode ++ wire) (input : Input) :
    afterHeader bytes input = nextBlock (.ofHeader header) input [] ∧ rest = wire := by
  rcases List.append_inj joined hlength with ⟨rfl, rfl⟩
  exact ⟨by simp only [afterHeader, Header.decode_encode writable], rfl⟩

/-- Where a step leads along a frame, if `more` follows its input. -/
def Step.Goes (header : Header) (wire more : Bytes) : Step → Prop
  | .go next input _ => Stands header wire next (input.rest ++ more)
  | .stop next input _ hint => hint = 0 ∨ Stands header wire next (input.rest ++ more)
  | .fail _ => True

theorem goes_opening {header : Header} (writable : header.Writable) {wire : Bytes}
    {held : Partial Header.minLength} {input : Input} {more : Bytes}
    (joined : held.bytes.toList ++ (input.rest ++ more) = header.encode ++ wire) (room : Nat) :
    ((opening held).step input room).Goes header wire more := by
  rcases input with ⟨piece, used⟩
  simp only at joined
  rw [opening_fills.step_eq]
  by_cases hshort : piece.length < held.missing
  · rw [held.fill_of_lt used hshort]
    exact .inr (.opening (by simpa using joined))
  · rcases held.fill_of_le piece used (Nat.le_of_not_lt hshort) with ⟨size_eq, hfull⟩
    rw [hfull]
    generalize hbytes : held.bytes ++ piece.take held.missing = bytes at size_eq
    have hsplit : bytes.toList ++ (piece.drop held.missing ++ more) = header.encode ++ wire := by
      rw [← hbytes, Array.toList_appendList, List.append_assoc, ← List.append_assoc (piece.take _),
        List.take_append_drop, joined]
    have hlength : bytes.toList.length = Header.minLength := by rw [Array.length_toList, size_eq]
    -- the first seven bytes tell how long the header is
    have hopening : Header.opening bytes.toList = .ok (.frame header.encode.length) := by
      have htake : bytes.toList = (header.encode ++ wire).take Header.minLength := by
        rw [← hsplit, List.take_left' hlength]
      rw [htake, Header.opening_take (by decide), Header.opening_encode]
    simp only [afterOpening, hopening]
    by_cases hgoes : bytes.size < header.encode.length
    · rw [dif_pos hgoes]
      exact .longHeader (size_eq ▸ by decide) hsplit
    · have hmin := header.minLength_le
      rcases stands_afterHeader writable (by omega) hsplit
        ⟨piece.drop held.missing, used + held.missing⟩ with ⟨hafter, hrest⟩
      rw [dif_neg hgoes, hafter]
      exact .inside rfl (hrest ▸ List.suffix_rfl)

theorem goes_longHeader {header : Header} (writable : header.Writable) {wire : Bytes}
    {held : Partial header.encode.length} (started : 0 < held.bytes.size) {input : Input}
    {more : Bytes} (joined : held.bytes.toList ++ (input.rest ++ more) = header.encode ++ wire)
    (room : Nat) :
    ((longHeader held).step input room).Goes header wire more := by
  rcases input with ⟨piece, used⟩
  simp only at joined
  rw [longHeader_fills.step_eq]
  by_cases hshort : piece.length < held.missing
  · rw [held.fill_of_lt used hshort]
    refine .inr (.longHeader ?_ (by simpa using joined))
    rw [Partial.bytes_extend, size_append_list]
    omega
  · rcases held.fill_of_le piece used (Nat.le_of_not_lt hshort) with ⟨size_eq, hfull⟩
    rw [hfull]
    have hsplit : (held.bytes ++ piece.take held.missing).toList
        ++ (piece.drop held.missing ++ more) = header.encode ++ wire := by
      rw [Array.toList_appendList, List.append_assoc, ← List.append_assoc (piece.take _),
        List.take_append_drop, joined]
    rcases stands_afterHeader writable (by rw [Array.length_toList, size_eq]) hsplit
      ⟨piece.drop held.missing, used + held.missing⟩ with ⟨hafter, hrest⟩
    simp only [hafter]
    exact .inside rfl (hrest ▸ List.suffix_rfl)

/-- Every step along a frame leads to a place along the frame. -/
theorem step_goes {header : Header} (writable : header.Writable) {wire : Bytes} {decoder : Decoder}
    {input : Input} {more : Bytes} (h : Stands header wire decoder (input.rest ++ more))
    (room : Nat) : (decoder.step input room).Goes header wire more := by
  cases h with
  | opening joined => exact goes_opening writable joined room
  | longHeader started joined => exact goes_longHeader writable started joined room
  | inside header_eq behind =>
      -- a step reads from the front, so what is left is behind the header all the more
      have hbehind {input' : Input} :
          (decoder.step input room).input? = some input' → input'.rest ++ more <:+ wire := by
        intro hinput
        rcases step_leaves hinput with ⟨taken, htaken, -⟩
        rw [htaken, List.append_assoc] at behind
        exact (List.suffix_append ..).trans behind
      have hknows := step_knows header_eq input room
      cases hstep : decoder.step input room with
      | go next input' out =>
          rw [hstep] at hknows
          exact .inside hknows (hbehind (by rw [hstep]; rfl))
      | stop next input' out hint =>
          rw [hstep] at hknows
          exact hknows.imp_right fun hheader => .inside hheader (hbehind (by rw [hstep]; rfl))
      | fail code => trivial

/-! ## What a stop asks for -/

/-- The hint of a decoder that has stopped: what it asks for when it is given nothing, but right
behind the size word of a compressed block the block and a size word. -/
def Asks (decoder : Decoder) (hint : Nat) : Prop :=
  hint = decoder.idleHint
    ∨ ∃ body length, ∃ pos : 0 < length, decoder = .compressed body (.empty pos)
      ∧ hint = 4 + length

/-- What a step that stops inside a frame asks for. -/
def Step.Asks : Step → Prop
  | .stop next _ _ hint => hint = 0 ∨ next.Asks hint
  | _ => True

omit [Platform] in
theorem asks_afterBlockSize (body : Body) (number : Nat) (input : Input) (room : Nat) :
    (afterBlockSize body number input room).Asks := by
  unfold afterBlockSize afterBlocks afterStored nextBlock
  simp only
  repeat' split
  all_goals first
    | trivial
    | exact .inl rfl
    | exact .inr (.inr ⟨_, _, _, rfl, rfl⟩)

theorem asks_field {n : Nat} {place : Partial n → Decoder}
    {after : (bytes : Array UInt8) → bytes.size = n → Input → Nat → Step} {room : Nat}
    (h : Fills place after) (hafter : ∀ bytes size_eq input, (after bytes size_eq input room).Asks)
    (held : Partial n) (input : Input) : ((place held).step input room).Asks := by
  exact h.step_of (P := Step.Asks) (fun _ _ _ => .inr (.inl rfl))
    (fun bytes size_eq input' _ => hafter bytes size_eq input')

theorem step_asks (decoder : Decoder) (input : Input) (room : Nat) :
    (decoder.step input room).Asks := by
  have hheader (bytes : Bytes) (input : Input) : (afterHeader bytes input).Asks := by
    unfold afterHeader
    split <;> trivial
  cases decoder with
  | opening held =>
      apply asks_field opening_fills
      intro bytes size_eq input
      unfold afterOpening
      repeat' split
      all_goals first
        | trivial
        | exact hheader ..
  | longHeader held =>
      apply asks_field longHeader_fills
      intro bytes size_eq input
      exact hheader ..
  | blockSize body held =>
      apply asks_field (blockSize_fills body)
      intro bytes size_eq input
      exact asks_afterBlockSize ..
  | stored body sum left left_pos =>
      simp only [step]
      split
      · exact .inr (.inl rfl)
      · unfold afterStored
        split <;> trivial
  | storedChecksum body sum held =>
      apply asks_field (storedChecksum_fills body sum)
      intro bytes size_eq input
      unfold afterStoredChecksum
      split <;> trivial
  | compressed body held =>
      apply asks_field (compressed_fills body)
      intro bytes size_eq input
      unfold afterCompressed
      simp only
      repeat' split
      all_goals trivial
  | pending body content ne_nil =>
      simp only [step, List.splitAt_eq]
      split
      · trivial
      · exact .inr (.inl rfl)
  | trailer body held =>
      apply asks_field (trailer_fills body)
      intro bytes size_eq input
      unfold afterTrailer
      split
      · exact .inl rfl
      · trivial
  | skipSize held =>
      apply asks_field skipSize_fills
      intro bytes size_eq input
      trivial
  | skip size left =>
      simp only [step]
      split
      · exact .inr (.inl rfl)
      · exact .inl rfl
  | failed code => trivial

/-! ## Along a frame -/

/-- A decoder along a frame of which `rest` is still to come, and with it the frame ends. -/
structure Along (header : Header) (wire : Bytes) (decoder : Decoder) (rest : Bytes) : Prop where
  stands : Stands header wire decoder rest
  ends : (decoder.read rest).verdict = .ended []

/-- Before a frame all of it is still to come. -/
theorem along_new {header : Header} {content frame : Bytes} (h : IsFrame header content frame) :
    ∃ wire, frame = header.encode ++ wire ∧ 4 ≤ wire.length ∧ Along header wire new frame := by
  have hread := h.read []
  rw [List.append_nil] at hread
  rcases h.parts with ⟨blocks, -, hframe⟩
  simp only [List.append_assoc] at hframe
  have hmark : SizeWord.endMark.length = 4 := rfl
  refine ⟨_, hframe, ?_, ?_, by rw [hread]⟩
  · simp only [List.length_append, hmark]
    omega
  · rw [hframe]
    exact stands_new ..

/-- A frame does not end where a decoder waits. -/
theorem Along.rest_ne {header : Header} {wire : Bytes} {decoder : Decoder} {rest : Bytes} :
    Along header wire decoder rest → rest ≠ [] := by
  rintro ⟨hstands, hends⟩ rfl
  rcases read_nil_waits hstands.waits with ⟨next, hwaiting⟩
  rw [hends] at hwaiting
  cases hwaiting

/-- A step along a frame goes on along it. -/
theorem step_along {header : Header} (writable : header.Writable) {wire : Bytes}
    (decoder : Decoder) (input : Input) (room : Nat) (more : Bytes)
    (h : Along header wire decoder (input.rest ++ more)) :
    (decoder.step input room).Keeps (Along header wire) Asks more := by
  have hgoes := step_goes writable h.stands room
  have hasks := step_asks decoder input room
  have hends := h.ends
  rw [← step_reading decoder input room more] at hends
  cases hstep : decoder.step input room with
  | go next input' out =>
      rw [hstep] at hgoes hends
      exact ⟨hgoes, hends⟩
  | stop next input' out hint =>
      rw [hstep] at hgoes hasks hends
      by_cases hzero : hint = 0
      · exact .inl hzero
      · simp only [Step.reading, hzero, ↓reduceIte, Reading.verdict_prepend] at hends
        exact .inr ⟨⟨hgoes.resolve_left hzero, hends⟩, hasks.resolve_left hzero⟩
  | fail code => trivial

end Decoder

namespace Decompressor

/-! ## Calls along a frame -/

/-- The bytes that the calls of a session have used. -/
def Session.used (session : Session) : Nat :=
  session.answers.foldr (fun decoded used => decoded.consumed + used) 0

variable [Platform]

/-- A call along a frame uses its piece, and ends the frame if nothing is left of it. -/
theorem update_along {header : Header} (writable : header.Writable) {wire : Bytes}
    {decompressor next : Decompressor} {piece more : Bytes} {chunkLength : Nat} {decoded : Decoded}
    {events : List LockEvent} (h : Along header wire decompressor.decoder (piece ++ more))
    (hupdate : decompressor.update piece chunkLength = (next, ⟨.ok decoded, events⟩)) :
    decoded.consumed = piece.length
      ∧ (decoded.hint = 0 ∧ next.decoder = .new ∧ more = []
        ∨ 0 < decoded.hint ∧ Along header wire next.decoder more
          ∧ next.decoder.Asks decoded.hint) := by
  rcases update_ok hupdate
      with ⟨taken, rest, hsplit, hconsumed, ⟨hzero, hnew, hread⟩ | ⟨hpos, hnil, -⟩⟩
  · -- the frame ends right behind the piece
    have hends := h.ends
    rw [hread more] at hends
    rcases List.append_eq_nil_iff.mp (Verdict.ended.inj hends) with ⟨rfl, hmore⟩
    rw [List.append_nil] at hsplit
    exact ⟨by rw [hconsumed, hsplit], .inl ⟨hzero, hnew, hmore⟩⟩
  · rw [hnil, List.append_nil] at hsplit
    have hkept := update_keeps (step_along writable) more h hupdate
    exact ⟨by rw [hconsumed, hsplit], .inr ⟨hpos, hkept.resolve_left (Nat.ne_of_gt hpos)⟩⟩

/-- A call along a frame that fails leaves everything as it is, and it does not fail for a piece
that is not empty and chunks that can be allocated. -/
theorem update_along_failed {header : Header} {wire : Bytes} {decompressor next : Decompressor}
    {portion : Portion} {more : Bytes} {cause : Error} {events : List LockEvent}
    (h : Along header wire decompressor.decoder (portion.bytes ++ more))
    (hupdate : decompressor.update portion.bytes portion.chunkLength
      = (next, ⟨.error cause, events⟩)) :
    next = decompressor ∧ ¬ portion.Fits := by
  rcases update_cases hupdate with ⟨hfits, result, events', hfeed, hvalue⟩ | ⟨hunfit, hsame, -⟩
  · cases result with
    | error cause' =>
        -- along a frame feeding does not fail
        rcases feed_error hfits.chunk_granted hfeed with ⟨code, content, -, hbad⟩
        have hends := h.ends
        rw [hbad more] at hends
        cases hends
    | ok fed => cases hvalue
  · exact ⟨hsame, hunfit⟩

/-- Where a row of calls along a frame has led: the frame has ended with the bytes that were used,
or the decoder stands behind them, and asks for what the last answer said. -/
structure Reached (header : Header) (wire rest : Bytes) (decompressor : Decompressor)
    (session : Session) : Prop where
  used_le : session.used ≤ rest.length
  unmoved : session.answers = [] → session.final = decompressor
  place : (session.used = rest.length ∧ session.final.decoder = .new
      ∧ ∃ last ∈ session.answers.getLast?, last.hint = 0)
    ∨ Along header wire session.final.decoder (rest.drop session.used)
      ∧ ∀ last ∈ session.answers.getLast?, session.final.decoder.Asks last.hint

/-- One call more in front of a row of calls. -/
theorem Reached.cons {header : Header} {wire piece rest : Bytes} {decompressor next : Decompressor}
    {decoded : Decoded} {session : Session} (h : Reached header wire rest next session)
    (hconsumed : decoded.consumed = piece.length) (hasks : next.decoder.Asks decoded.hint) :
    Reached header wire (piece ++ rest) decompressor
      { session with answers := decoded :: session.answers } := by
  have hused : Session.used { session with answers := decoded :: session.answers }
      = piece.length + session.used := by
    simp [Session.used, hconsumed]
  refine ⟨?_, by simp, ?_⟩
  · have := h.used_le
    rw [hused, List.length_append]
    omega
  · rw [hused, List.length_append, List.drop_append, List.drop_of_length_le (by omega),
      List.nil_append, Nat.add_sub_cancel_left]
    simp only [List.getLast?_cons, Option.mem_some_iff, forall_eq']
    rcases h.place with ⟨hall, hnew, last, hlast, hzero⟩ | ⟨halong, hlast⟩
    · refine .inl ⟨by rw [hall], hnew, last, ?_, hzero⟩
      rw [Option.mem_def.mp hlast]
      rfl
    · refine .inr ⟨halong, ?_⟩
      cases hanswers : session.answers.getLast? with
      | none =>
          -- nothing more was answered, so the decoder is where this call has left it
          rw [h.unmoved (List.getLast?_eq_none_iff.mp hanswers)]
          exact hasks
      | some last => exact hlast last hanswers

theorem updates_along {header : Header} (writable : header.Writable) {wire rest : Bytes}
    {decompressor : Decompressor} (h : Along header wire decompressor.decoder rest)
    {portions : List Portion} (hfront : joined portions <+: rest) :
    Reached header wire rest decompressor (decompressor.updates portions)
      ∧ ((∀ portion ∈ portions, portion.Fits) →
        (decompressor.updates portions).failure = none
          ∧ (decompressor.updates portions).used = (joined portions).length) := by
  -- on the portions; the calls that follow go on along what is left
  induction portions generalizing decompressor rest with
  | nil => exact ⟨⟨Nat.zero_le _, fun _ => rfl, .inr ⟨h, by simp [updates]⟩⟩, fun _ => ⟨rfl, rfl⟩⟩
  | cons portion portions ih =>
      rcases hfront with ⟨tail, rfl⟩
      rw [joined_cons, List.append_assoc] at h ⊢
      rw [updates]
      split
      · -- this call fails, and nothing has happened
        rename_i hupdate
        rcases update_along_failed h hupdate with ⟨rfl, hunfit⟩
        exact ⟨⟨Nat.zero_le _, fun _ => rfl, .inr ⟨h, by simp⟩⟩,
          fun hfits => absurd (hfits portion (.head _)) hunfit⟩
      · rename_i next decoded events hupdate
        rcases update_along writable h hupdate
            with ⟨hconsumed, ⟨hzero, hnew, hmore⟩ | ⟨hpos, halong, hasks⟩⟩
        · -- this call ends the frame
          have hused : Session.used ⟨[decoded], none, next⟩ = portion.bytes.length := by
            simp [Session.used, hconsumed]
          rw [if_pos hzero, hmore, List.append_nil]
          refine ⟨⟨Nat.le_of_eq hused, by simp, .inl ⟨hused, hnew, decoded, rfl, hzero⟩⟩,
            fun _ => ⟨rfl, ?_⟩⟩
          rw [hused, (List.append_eq_nil_iff.mp hmore).1, List.append_nil]
        · rw [if_neg (Nat.ne_of_gt hpos)]
          rcases ih halong (List.prefix_append ..) with ⟨hreached, hall⟩
          refine ⟨hreached.cons hconsumed hasks, fun hfits => ?_⟩
          rcases hall fun portion hmem => hfits portion (.tail _ hmem) with ⟨hnone, hlength⟩
          refine ⟨hnone, ?_⟩
          rw [List.length_append, ← hlength, ← hconsumed]
          simp [Session.used]

end Decompressor

end Lz4Frame
