import Lz4Frame.Decompressor
import Lz4Frame.Proofs.Decoder.Runs

/-!
# Feeding a decompressor piece by piece

One call of a decompressor feeds its decoder as often as the chunks take (`update_ok`,
`update_failed`).  A `Session` is a row of calls, one for each piece of the input, that goes on to
the first failure or to the end of the frame.  Whatever the pieces and the lengths of the chunks
are, the session comes to what `Decoder.read` says of the whole input (`updates_*`).
-/

namespace Lz4Frame

open Decoder

/-! ## One call -/

/-- What a caller hands over in one call: a piece of a frame, and the length of chunks. -/
structure Portion where
  bytes : Bytes
  chunkLength : Nat

/-- A piece that is not empty, and a length of chunks that is not 0 and can be allocated. -/
structure Portion.Fits [Platform] (portion : Portion) : Prop where
  ne_nil : portion.bytes ≠ []
  chunk_pos : 0 < portion.chunkLength
  chunk_granted : Platform.grants portion.chunkLength = true

/-- Chunks of an assured size fit on every platform. -/
theorem Portion.Fits.of_assured [Platform] {bytes : Bytes} {chunkLength : Nat}
    (hne : bytes ≠ []) (hpos : 0 < chunkLength) (hassured : chunkLength < assuredSize) :
    (Portion.mk bytes chunkLength).Fits := ⟨hne, hpos, Platform.grants_assured hassured⟩

namespace Decompressor

variable [Platform]

theorem feed_nil (gate : Gate) {chunkLength : Nat} (hchunk : 0 < chunkLength) (decoder : Decoder)
    (out : Array UInt8) (hint consumed : Nat) (events : Array LockEvent) :
    feed gate chunkLength hchunk decoder [] out hint consumed events
      = ⟨decoder, .ok (out, hint, consumed), events⟩ := by
  rw [feed, dif_pos rfl]

section

variable (gate : Gate) {chunkLength : Nat} (hchunk : 0 < chunkLength)
  (hgranted : Platform.grants chunkLength = true) {decoder next : Decoder} {piece : Bytes}
  (hpiece : piece ≠ []) {out : Array UInt8}
include hgranted hpiece

/-- Feeding is a run, and feeding what the run leaves unless it has ended the frame. -/
theorem feed_run_eq {progress : Progress}
    (hrun : decoder.run piece (chunkLength - out.size % chunkLength) = (next, .ok progress))
    (hint consumed : Nat) (events : Array LockEvent) :
    feed gate chunkLength hchunk decoder piece out hint consumed events
      = if progress.hint = 0 then
          ⟨next, .ok (out ++ progress.written, 0, consumed + progress.consumed),
            events ++ gate.around (chunkLength - out.size % chunkLength)⟩
        else
          feed gate chunkLength hchunk next progress.rest (out ++ progress.written) progress.hint
            (consumed + progress.consumed)
            (events ++ gate.around (chunkLength - out.size % chunkLength)) := by
  rw [feed, dif_neg hpiece, nextChunk_of_grants hgranted]
  simp only
  split
  · rename_i hother
    rw [hrun] at hother
    cases hother
  · rename_i hother
    rw [hrun] at hother
    cases hother
    split <;> rfl

theorem feed_run {progress : Progress}
    (hrun : decoder.run piece (chunkLength - out.size % chunkLength) = (next, .ok progress))
    (hint consumed : Nat) (events : Array LockEvent) :
    ∃ events', feed gate chunkLength hchunk decoder piece out hint consumed events
      = if progress.hint = 0 then
          ⟨next, .ok (out ++ progress.written, 0, consumed + progress.consumed), events'⟩
        else
          feed gate chunkLength hchunk next progress.rest (out ++ progress.written) progress.hint
            (consumed + progress.consumed) events' :=
  ⟨_, feed_run_eq gate hchunk hgranted hpiece hrun hint consumed events⟩

/-- A run that fails ends the feeding. -/
theorem feed_failed_eq {code : ErrorCode}
    (hrun : decoder.run piece (chunkLength - out.size % chunkLength) = (next, .error code))
    (hint consumed : Nat) (events : Array LockEvent) :
    feed gate chunkLength hchunk decoder piece out hint consumed events
      = ⟨next, .error (.frame code),
          events ++ gate.around (chunkLength - out.size % chunkLength)⟩ := by
  rw [feed, dif_neg hpiece, nextChunk_of_grants hgranted]
  simp only
  split
  · rename_i hother
    rw [hrun] at hother
    cases hother
    rfl
  · rename_i hother
    rw [hrun] at hother
    cases hother

theorem feed_run_error {code : ErrorCode}
    (hrun : decoder.run piece (chunkLength - out.size % chunkLength) = (next, .error code))
    (hint consumed : Nat) (events : Array LockEvent) :
    ∃ events', feed gate chunkLength hchunk decoder piece out hint consumed events
      = ⟨next, .error (.frame code), events'⟩ :=
  ⟨_, feed_failed_eq gate hchunk hgranted hpiece hrun hint consumed events⟩

end

theorem feed_ok {gate : Gate} {chunkLength : Nat} {hchunk : 0 < chunkLength}
    {decoder next : Decoder} {piece : Bytes} {out out' : Array UInt8}
    {hint hint' consumed consumed' : Nat} {events events' : Array LockEvent} (hhint : 0 < hint)
    (h : feed gate chunkLength hchunk decoder piece out hint consumed events
      = ⟨next, .ok (out', hint', consumed'), events'⟩) :
    ∃ taken rest, piece = taken ++ rest ∧ consumed' = consumed + taken.length
      ∧ (hint' = 0 ∧ next = .new
            ∧ (∀ more, (decoder.read (piece ++ more)).prepend out.toList
              = ⟨out'.toList, .ended (rest ++ more)⟩)
          ∨ 0 < hint' ∧ rest = [] ∧ (piece ≠ [] → next.Waits)
            ∧ (∀ more, (decoder.read (piece ++ more)).prepend out.toList
              = (next.read more).prepend out'.toList)) := by
  -- on the runs; what was handed out so far stands in front of the reading
  fun_induction feed gate chunkLength hchunk decoder piece out hint consumed events with
  | case1 decoder out hint consumed events =>
      -- nothing is left of the piece
      simp only [Feed.mk.injEq, Except.ok.injEq, Prod.mk.injEq] at h
      rcases h with ⟨rfl, ⟨rfl, rfl, rfl⟩, -⟩
      exact ⟨[], [], rfl, rfl, .inr ⟨hhint, rfl, fun hne => absurd rfl hne, fun _ => rfl⟩⟩
  | case2 => simp at h
  | case3 => simp at h
  | case4 decoder piece out hint consumed events hpiece hasked room events₁ next₁ progress hrun
      grown used hzero =>
      -- the run has ended the frame
      simp only [Feed.mk.injEq, Except.ok.injEq, Prod.mk.injEq] at h
      rcases h with ⟨rfl, ⟨rfl, rfl, rfl⟩, -⟩
      rcases run_rest hrun with ⟨taken, htaken, hconsumed⟩
      have hnew : next₁ = .new := by
        rcases run_halts hrun with ⟨-, hnew⟩ | ⟨hpos, -⟩
        · exact hnew
        · omega
      refine ⟨taken, progress.rest, htaken, by omega, .inl ⟨rfl, hnew, fun more => ?_⟩⟩
      rw [run_read hrun more]
      simp [Progress.reading, hzero, Reading.prepend, grown]
  | case5 decoder piece out hint consumed events hpiece hasked room events₁ next₁ progress hrun
      grown used hnz hroom hlex ih =>
      -- the run has stopped inside the frame, and the next one goes on
      rcases run_rest hrun with ⟨taken, htaken, hconsumed⟩
      rcases ih (Nat.pos_of_ne_zero hnz) h with ⟨taken', rest, hrest, hconsumed', hresult⟩
      have hread (more : Bytes) : (decoder.read (piece ++ more)).prepend out.toList
          = (next₁.read (progress.rest ++ more)).prepend grown.toList := by
        calc
          (decoder.read (piece ++ more)).prepend out.toList
              = (progress.reading next₁ more).prepend out.toList := by rw [run_read hrun more]
          _ = (next₁.read (progress.rest ++ more)).prepend grown.toList := by
              simp [Progress.reading, hnz, grown]
      refine ⟨taken ++ taken', rest, ?_, ?_, ?_⟩
      · rw [List.append_assoc, ← hrest, ← htaken]
      · rw [List.length_append]
        omega
      · rcases hresult with ⟨hzero, hnew, hend⟩ | ⟨hpos, hnil, hwaits, hgo⟩
        · exact .inl ⟨hzero, hnew, fun more => (hread more).trans (hend more)⟩
        · refine .inr ⟨hpos, hnil, fun _ => ?_, fun more => (hread more).trans (hgo more)⟩
          by_cases hused : progress.rest = []
          · -- the piece was used up by this run, so no other followed
            rcases run_halts hrun with ⟨hzero, -⟩ | ⟨-, hstays, -⟩
            · exact absurd hzero hnz
            · rw [hused, feed] at h
              simp only [↓reduceDIte, Feed.mk.injEq] at h
              exact h.1 ▸ hstays
          · exact hwaits hused

theorem feed_error {gate : Gate} {chunkLength : Nat} {hchunk : 0 < chunkLength}
    (hgranted : Platform.grants chunkLength = true) {decoder next : Decoder} {piece : Bytes}
    {out : Array UInt8} {hint consumed : Nat} {events events' : Array LockEvent} {cause : Error}
    (h : feed gate chunkLength hchunk decoder piece out hint consumed events
      = ⟨next, .error cause, events'⟩) :
    ∃ code content, cause = .frame code
      ∧ ∀ more, decoder.read (piece ++ more) = ⟨content, .bad code⟩ := by
  fun_induction feed gate chunkLength hchunk decoder piece out hint consumed events with
  | case1 => simp at h
  | case2 decoder piece out hint consumed events hpiece refused hasked =>
      rw [nextChunk_of_grants hgranted] at hasked
      cases hasked
  | case3 decoder piece out hint consumed events hpiece hasked room events₁ next₁ code₁ hrun =>
      simp only [Feed.mk.injEq, Except.error.injEq] at h
      rcases run_read_error hrun with ⟨content, hread⟩
      exact ⟨code₁, content, h.2.1.symm, hread⟩
  | case4 => simp at h
  | case5 decoder piece out hint consumed events hpiece hasked room events₁ next₁ progress hrun
      grown used hnz hroom hlex ih =>
      -- a later run fails, behind what this one has handed out
      rcases ih h with ⟨code, content, hcause, hread⟩
      refine ⟨code, progress.written.toList ++ content, hcause, fun more => ?_⟩
      rw [run_read hrun more]
      simp [Progress.reading, hnz, hread, Reading.prepend]

/-- What has come out stays in front of what comes out later. -/
theorem feed_grows {gate : Gate} {chunkLength : Nat} {hchunk : 0 < chunkLength}
    {decoder next : Decoder} {piece : Bytes} {out out' : Array UInt8}
    {hint hint' consumed consumed' : Nat} {events events' : Array LockEvent} :
    feed gate chunkLength hchunk decoder piece out hint consumed events
        = ⟨next, .ok (out', hint', consumed'), events'⟩ →
      out.toList <+: out'.toList := by
  intro h
  fun_induction feed gate chunkLength hchunk decoder piece out hint consumed events with
  | case1 decoder out hint consumed events =>
      simp only [Feed.mk.injEq, Except.ok.injEq, Prod.mk.injEq] at h
      exact h.2.1.1 ▸ List.prefix_rfl
  | case2 => simp at h
  | case3 => simp at h
  | case4 decoder piece out hint consumed events hpiece hasked room events₁ next₁ progress hrun
      grown used hzero =>
      simp only [Feed.mk.injEq, Except.ok.injEq, Prod.mk.injEq] at h
      rw [← h.2.1.1]
      exact ⟨progress.written.toList, by simp [grown]⟩
  | case5 decoder piece out hint consumed events hpiece hasked room events₁ next₁ progress hrun
      grown used hnz hroom hlex ih =>
      exact List.IsPrefix.trans ⟨progress.written.toList, by simp [grown]⟩ (ih h)

/-- Content that waits comes out first, whatever follows. -/
theorem feed_pending {gate : Gate} {chunkLength : Nat} {hchunk : 0 < chunkLength}
    (hgranted : Platform.grants chunkLength = true) {body : Body} {content : Bytes}
    (ne_nil : content ≠ []) {next : Decoder} {piece : Bytes} (hpiece : piece ≠ [])
    {out out' : Array UInt8} {hint hint' consumed consumed' : Nat}
    {events events' : Array LockEvent} :
    feed gate chunkLength hchunk (.pending body content ne_nil) piece out hint consumed events
        = ⟨next, .ok (out', hint', consumed'), events'⟩ →
      out.toList ++ content <+: out'.toList := by
  intro h
  induction hlength : content.length using Nat.strongRecOn
    generalizing content out hint consumed events with
  | ind length ih =>
      by_cases hfits : content.length ≤ chunkLength - out.size % chunkLength
      · -- all of it is in front of what the run hands out
        rcases hrun : (Decoder.pending body content ne_nil).run piece
            (chunkLength - out.size % chunkLength) with ⟨middle, _ | progress⟩
        · rcases feed_run_error gate hchunk hgranted hpiece hrun hint consumed events
              with ⟨_, hfeed⟩
          rw [hfeed] at h
          cases h
        · rcases feed_run gate hchunk hgranted hpiece hrun hint consumed events with ⟨_, hfeed⟩
          rw [run, runFrom_go (step_pending body ne_nil _ hfits)] at hrun
          have hwritten : content <+: progress.written.toList := by simpa using runFrom_grows hrun
          have hgrown : out.toList ++ content <+: (out ++ progress.written).toList := by
            rw [Array.toList_append]
            exact (List.prefix_append_right_inj _).mpr hwritten
          rw [hfeed] at h
          split at h
          · simp only [Feed.mk.injEq, Except.ok.injEq, Prod.mk.injEq] at h
            exact h.2.1.1 ▸ hgrown
          · exact hgrown.trans (feed_grows h)
      · -- the run fills its chunk, and the next one goes on with the rest
        have hshort : chunkLength - out.size % chunkLength < content.length :=
          Nat.lt_of_not_le hfits
        have hpos : 0 < chunkLength - out.size % chunkLength :=
          Nat.sub_pos_of_lt (Nat.mod_lt out.size hchunk)
        have hrun := runFrom_stop (step_pending_part body ne_nil ⟨piece, 0⟩ hshort) #[]
        rcases feed_run gate hchunk hgranted hpiece hrun hint consumed events with ⟨_, hfeed⟩
        rw [hfeed, if_neg (by simp [idleHint])] at h
        have hrest := ih _ (by rw [← hlength, List.length_drop]; omega) _ h rfl
        simpa using hrest

/-- What a call answers to what feeding its piece has come to. -/
def answer (chunkLength : Nat) : Except Error (Array UInt8 × Nat × Nat) → Except Error Decoded
  | .error cause => .error cause
  | .ok (out, hint, consumed) => .ok ⟨chunksOf chunkLength out.toList, hint, consumed⟩

/-- A call with a piece, and with chunks that can be allocated, feeds its piece. -/
theorem update_fed (gate : Gate) {decoder next : Decoder} {piece : Bytes} {chunkLength : Nat}
    (hfits : Portion.Fits ⟨piece, chunkLength⟩)
    {result : Except Error (Array UInt8 × Nat × Nat)} {events : Array LockEvent}
    (hfeed : feed gate chunkLength hfits.chunk_pos decoder piece #[] 1 0 #[]
      = ⟨next, result, events⟩) :
    update ⟨gate, decoder⟩ piece chunkLength
      = (⟨gate, next⟩, ⟨answer chunkLength result, events.toList⟩) := by
  rw [update, if_neg (by simpa [List.isEmpty_iff] using hfits.ne_nil),
    dif_neg (Nat.ne_of_gt hfits.chunk_pos), allocate, if_pos hfits.chunk_granted]
  simp only [hfeed]
  cases result <;> rfl

/-- A call whose piece is used up by a single run. -/
theorem update_run (gate : Gate) {decoder next : Decoder} {piece : Bytes} {chunkLength : Nat}
    (hfits : Portion.Fits ⟨piece, chunkLength⟩) {consumed hint : Nat} {written : Array UInt8}
    (hrun : decoder.run piece chunkLength = (next, .ok ⟨consumed, written, hint, []⟩)) :
    ∃ events, update ⟨gate, decoder⟩ piece chunkLength
      = (⟨gate, next⟩, ⟨.ok ⟨chunksOf chunkLength written.toList, hint, consumed⟩, events⟩) := by
  have hfirst : decoder.run piece (chunkLength - (#[] : Array UInt8).size % chunkLength)
      = (next, .ok ⟨consumed, written, hint, []⟩) := by simpa using hrun
  rcases feed_run gate hfits.chunk_pos hfits.chunk_granted hfits.ne_nil hfirst 1 0 #[]
      with ⟨events, hfeed⟩
  have hfed : feed gate chunkLength hfits.chunk_pos decoder piece #[] 1 0 #[]
      = ⟨next, .ok (written, hint, consumed), events⟩ := by
    rw [hfeed]
    by_cases hzero : hint = 0
    · simp [hzero]
    · simp [hzero, feed_nil]
  exact ⟨events.toList, update_fed gate hfits hfed⟩

/-- Any other call is refused, and then nothing has happened. -/
theorem update_refused (decompressor : Decompressor) {piece : Bytes} {chunkLength : Nat}
    (hunfit : ¬ Portion.Fits ⟨piece, chunkLength⟩) :
    ∃ cause, decompressor.update piece chunkLength = (decompressor, ⟨.error cause, []⟩) := by
  by_cases hpiece : piece = []
  · exact ⟨_, by rw [update, if_pos (by simp [hpiece])]⟩
  have hempty : ¬ piece.isEmpty = true := by simpa [List.isEmpty_iff] using hpiece
  by_cases hchunk : chunkLength = 0
  · exact ⟨_, by rw [update, if_neg hempty, dif_pos hchunk]⟩
  have hdenied : ¬ Platform.grants chunkLength = true :=
    fun hgranted => hunfit ⟨hpiece, Nat.pos_of_ne_zero hchunk, hgranted⟩
  exact ⟨_, by rw [update, if_neg hempty, dif_neg hchunk, allocate, if_neg hdenied]⟩

/-- The ways a call can go. -/
theorem update_cases {decompressor next : Decompressor} {piece : Bytes} {chunkLength : Nat}
    {value : Except Error Decoded} {events : List LockEvent} :
    decompressor.update piece chunkLength = (next, ⟨value, events⟩) →
      (∃ hfits : Portion.Fits ⟨piece, chunkLength⟩, ∃ result events',
          feed decompressor.gate chunkLength hfits.chunk_pos decompressor.decoder piece #[] 1 0 #[]
            = ⟨next.decoder, result, events'⟩
          ∧ value = answer chunkLength result)
        ∨ ¬ Portion.Fits ⟨piece, chunkLength⟩ ∧ next = decompressor
          ∧ ∃ cause, value = .error cause := by
  intro h
  by_cases hfits : Portion.Fits ⟨piece, chunkLength⟩
  · rcases decompressor with ⟨gate, decoder⟩
    rcases hfeed : feed gate chunkLength hfits.chunk_pos decoder piece #[] 1 0 #[]
        with ⟨last, result, events'⟩
    rw [update_fed gate hfits hfeed] at h
    cases h
    exact .inl ⟨hfits, result, events', hfeed, rfl⟩
  · rcases decompressor.update_refused hfits with ⟨cause, hrefused⟩
    rw [hrefused] at h
    cases h
    exact .inr ⟨hfits, rfl, cause, rfl⟩

/-- A call that succeeds has fed its piece. -/
theorem update_feed {decompressor next : Decompressor} {piece : Bytes} {chunkLength : Nat}
    {decoded : Decoded} {events : List LockEvent} :
    decompressor.update piece chunkLength = (next, ⟨.ok decoded, events⟩) →
      ∃ hfits : Portion.Fits ⟨piece, chunkLength⟩, ∃ out events',
        decoded.chunks = chunksOf chunkLength out.toList
        ∧ feed decompressor.gate chunkLength hfits.chunk_pos decompressor.decoder piece #[] 1 0 #[]
          = ⟨next.decoder, .ok (out, decoded.hint, decoded.consumed), events'⟩ := by
  intro h
  rcases update_cases h with ⟨hfits, result, events', hfeed, hvalue⟩ | ⟨-, -, cause, hvalue⟩
  · cases result with
    | error code => cases hvalue
    | ok fed =>
        obtain rfl := Except.ok.inj hvalue
        exact ⟨hfits, fed.1, events', rfl, hfeed⟩
  · cases hvalue

/-- What a call that succeeds has done: it has ended the frame, or it has used up its piece and
waits for more. -/
theorem update_ok {decompressor next : Decompressor} {piece : Bytes} {chunkLength : Nat}
    {decoded : Decoded} {events : List LockEvent} :
    decompressor.update piece chunkLength = (next, ⟨.ok decoded, events⟩) →
      ∃ taken rest, piece = taken ++ rest ∧ decoded.consumed = taken.length
        ∧ (decoded.hint = 0 ∧ next.decoder = .new
              ∧ (∀ more, decompressor.decoder.read (piece ++ more)
                = ⟨decoded.content, .ended (rest ++ more)⟩)
            ∨ 0 < decoded.hint ∧ rest = [] ∧ next.decoder.Waits
              ∧ (∀ more, decompressor.decoder.read (piece ++ more)
                = (next.decoder.read more).prepend decoded.content)) := by
  intro h
  rcases update_feed h with ⟨hfits, out, events', hchunks, hfeed⟩
  have hcontent : decoded.content = out.toList := by
    rw [Decoded.content, hchunks, flatten_chunksOf]
  rcases feed_ok Nat.one_pos hfeed with ⟨taken, rest, hsplit, hconsumed, hresult⟩
  refine ⟨taken, rest, hsplit, by simpa using hconsumed, ?_⟩
  rw [hcontent]
  rcases hresult with ⟨hzero, hnew, hend⟩ | ⟨hpos, hnil, hwaits, hgo⟩
  · exact .inl ⟨hzero, hnew, by simpa using hend⟩
  · exact .inr ⟨hpos, hnil, hwaits hfits.ne_nil, by simpa using hgo⟩

end Decompressor

/-! ## Rows of calls -/

/-- The input that portions make up. -/
def joined (portions : List Portion) : Bytes :=
  portions.flatMap Portion.bytes

@[simp] theorem joined_nil : joined [] = [] := rfl

@[simp] theorem joined_cons (portion : Portion) (portions : List Portion) :
    joined (portion :: portions) = portion.bytes ++ joined portions := rfl

namespace Decompressor

variable [Platform]

theorem update_failed {decompressor next : Decompressor} {portion : Portion} {cause : Error}
    {events : List LockEvent} (hfits : portion.Fits)
    (h : decompressor.update portion.bytes portion.chunkLength = (next, ⟨.error cause, events⟩)) :
    ∃ code content, cause = .frame code
      ∧ ∀ more, decompressor.decoder.read (portion.bytes ++ more) = ⟨content, .bad code⟩ := by
  rcases update_cases h with ⟨_, result, events', hfeed, hvalue⟩ | ⟨hunfit, -⟩
  · cases result with
    | error cause' =>
        rw [Except.error.inj hvalue]
        exact feed_error hfits.chunk_granted hfeed
    | ok fed => cases hvalue
  · exact absurd hfits hunfit

/-- A row of calls: what they gave, one after another, and why the last failed if it did. -/
structure Session where
  answers : List Decoded
  failure : Option Error
  /-- The decompressor behind the last call. -/
  final : Decompressor

namespace Session

/-- All the content that came out. -/
def content (session : Session) : Bytes := session.answers.flatMap Decoded.content

/-- Whether the last call has ended the frame. -/
def IsComplete (session : Session) : Prop :=
  session.failure = none ∧ ∃ last ∈ session.answers.getLast?, last.hint = 0

/-- Whether no call has failed and none has ended the frame. -/
def IsShort (session : Session) : Prop :=
  session.failure = none ∧ ∀ answer ∈ session.answers, 0 < answer.hint

end Session

/-- Hands portions over, one by one, up to the first failure or the end of the frame. -/
def updates (decompressor : Decompressor) : List Portion → Session
  | [] => ⟨[], none, decompressor⟩
  | portion :: portions =>
      match decompressor.update portion.bytes portion.chunkLength with
      | (next, ⟨.error cause, _⟩) => ⟨[], some cause, next⟩
      | (next, ⟨.ok decoded, _⟩) =>
          if decoded.hint = 0 then
            ⟨[decoded], none, next⟩
          else
            let session := next.updates portions
            { session with answers := decoded :: session.answers }

/-! ## What a row of calls comes to -/

/-- A session that ended the frame: all calls but the last have used up their pieces, and the last
has left some of its piece. -/
structure Ended (portions : List Portion) (session : Session) (unread : Bytes) : Prop where
  no_failure : session.failure = none
  fresh : session.final.decoder = .new
  calls : ∃ before portion after answers last taken rest,
    portions = before ++ portion :: after ∧ session.answers = answers ++ [last]
      ∧ answers.map Decoded.consumed = before.map (·.bytes.length)
      ∧ (∀ answer ∈ answers, 0 < answer.hint) ∧ last.hint = 0
      ∧ portion.bytes = taken ++ rest ∧ last.consumed = taken.length
      ∧ unread = rest ++ joined after

/-- A session that used up all its pieces inside the frame. -/
structure Stalled (portions : List Portion) (session : Session) : Prop where
  no_failure : session.failure = none
  consumed : session.answers.map Decoded.consumed = portions.map (·.bytes.length)
  hints : ∀ answer ∈ session.answers, 0 < answer.hint
  waits : portions ≠ [] → session.final.decoder.Waits

omit [Platform] in
theorem Ended.cons {portion : Portion} {portions : List Portion} {decoded : Decoded}
    {session : Session} {unread : Bytes} (h : Ended portions session unread)
    (hconsumed : decoded.consumed = portion.bytes.length) (hhint : 0 < decoded.hint) :
    Ended (portion :: portions) { session with answers := decoded :: session.answers } unread := by
  rcases h.calls
      with ⟨before, portion', after, answers, last, taken, rest, hportions, hanswers, hused,
        hhints, hlast, htaken, hlastUsed, hunread⟩
  refine ⟨h.no_failure, h.fresh, portion :: before, portion', after, decoded :: answers, last,
    taken, rest, ?_, ?_, ?_, ?_, hlast, htaken, hlastUsed, hunread⟩
  · rw [hportions, List.cons_append]
  · rw [hanswers, List.cons_append]
  · simp [hconsumed, hused]
  · simpa [hhint] using hhints

omit [Platform] in
theorem Stalled.cons {portion : Portion} {portions : List Portion} {decoded : Decoded}
    {session : Session} (h : Stalled portions session)
    (hconsumed : decoded.consumed = portion.bytes.length) (hhint : 0 < decoded.hint)
    (hwaits : session.final.decoder.Waits) :
    Stalled (portion :: portions) { session with answers := decoded :: session.answers } where
  no_failure := h.no_failure
  consumed := by simp [hconsumed, h.consumed]
  hints := by simpa [hhint] using h.hints
  waits _ := hwaits

/-- Every session comes to what the decoder makes of the whole input: it fails as reading the input
fails, it ends the frame where reading does, or it waits with reading. -/
theorem updates_read (decompressor : Decompressor) {portions : List Portion} :
    (∀ portion ∈ portions, portion.Fits) →
      (∃ code tail, (decompressor.updates portions).failure = some (.frame code)
          ∧ decompressor.decoder.read (joined portions)
            = ⟨(decompressor.updates portions).content ++ tail, .bad code⟩)
        ∨ (∃ unread, Ended portions (decompressor.updates portions) unread
          ∧ decompressor.decoder.read (joined portions)
            = ⟨(decompressor.updates portions).content, .ended unread⟩)
        ∨ Stalled portions (decompressor.updates portions)
          ∧ ∀ more, decompressor.decoder.read (joined portions ++ more)
            = ((decompressor.updates portions).final.decoder.read more).prepend
                (decompressor.updates portions).content := by
  intro hfits
  -- on the portions; reading what is joined takes them one by one
  induction portions generalizing decompressor with
  | nil =>
      refine .inr (.inr ⟨⟨rfl, rfl, ?_, fun h => absurd rfl h⟩, fun more => rfl⟩)
      intro answer hmem
      cases hmem
  | cons portion portions ih =>
      have hfits' : ∀ portion ∈ portions, portion.Fits :=
        fun portion hmem => hfits portion (.tail _ hmem)
      have hportion := hfits portion (.head _)
      rw [updates]
      split
      · -- this call fails
        rename_i hupdate
        rcases update_failed hportion hupdate with ⟨code, content, hcause, hread⟩
        exact .inl ⟨code, content, congrArg some hcause, hread (joined portions)⟩
      · rename_i next decoded events hupdate
        rcases update_ok hupdate with ⟨taken, rest, hsplit, hconsumed, hresult⟩
        rcases hresult with ⟨hzero, hnew, hend⟩ | ⟨hpos, hnil, hwaits, hgo⟩
        · -- this call ends the frame
          rw [if_pos hzero]
          refine .inr (.inl ⟨rest ++ joined portions, ⟨rfl, hnew, [], portion, portions, [],
            decoded, taken, rest, rfl, rfl, rfl, ?_, hzero, hsplit, hconsumed, rfl⟩, ?_⟩)
          · intro answer hmem
            cases hmem
          · simpa [Session.content] using hend (joined portions)
        · -- this call uses up its piece, and the others go on
          rw [if_neg (Nat.ne_of_gt hpos)]
          have hused : decoded.consumed = portion.bytes.length := by
            rw [hconsumed, hsplit, hnil, List.append_nil]
          rcases ih next hfits' with ⟨code, tail, hfail, hread⟩ | ⟨unread, hended, hread⟩
            | ⟨hstalled, hread⟩
          · refine .inl ⟨code, tail, hfail, ?_⟩
            rw [joined_cons, hgo, hread]
            simp [Session.content, Reading.prepend]
          · refine .inr (.inl ⟨unread, hended.cons hused hpos, ?_⟩)
            rw [joined_cons, hgo, hread]
            simp [Session.content, Reading.prepend]
          · refine .inr (.inr ⟨hstalled.cons hused hpos ?_, fun more => ?_⟩)
            · cases portions with
              | nil => exact hwaits
              | cons portion' portions' => exact hstalled.waits (by simp)
            · rw [joined_cons, List.append_assoc, hgo, hread]
              simp [Session.content]

/-! ## Frames that come as a whole -/

/-- A row of calls that gives some content and ends the frame with its last call, `tail` in front of
the end of the input. -/
structure Delivers (portions : List Portion) (session : Session) (content tail : Bytes) : Prop where
  no_failure : session.failure = none
  calls : ∃ front portion answers last,
    portions = front ++ [portion] ∧ session.answers = answers ++ [last]
      ∧ answers.map Decoded.consumed = front.map (·.bytes.length)
      ∧ last.consumed + tail.length = portion.bytes.length
      ∧ (∀ answer ∈ answers, 0 < answer.hint) ∧ last.hint = 0
  /-- Whatever has come out so far is the front of the content. -/
  prefixes : ∀ n, (session.answers.take n).flatMap Decoded.content <+: content
  content_eq : session.content = content
  fresh : session.final.decoder = .new

/-- A frame that is there as a whole, and ends in the last portion, is delivered. -/
theorem updates_delivers {decompressor : Decompressor} {portions : List Portion}
    {content tail : Bytes} (hfits : ∀ portion ∈ portions, portion.Fits) (hne : portions ≠ [])
    (hread : decompressor.decoder.read (joined portions) = ⟨content, .ended tail⟩)
    (hlast : ∀ last ∈ portions.getLast?, tail.length < last.bytes.length) :
    Delivers portions (decompressor.updates portions) content tail := by
  -- the reading ends, so the session has not failed and does not wait
  rcases decompressor.updates_read hfits with ⟨code, _, _, hbad⟩ | ⟨unread, hended, hend⟩
    | ⟨hstalled, hmore⟩
  · rw [hread, Reading.mk.injEq] at hbad
    cases hbad.2
  · simp only [hread, Reading.mk.injEq, Verdict.ended.injEq] at hend
    rcases hend with ⟨hcontent, rfl⟩
    rcases hended.calls
        with ⟨front, portion, after, answers, last, taken, rest, hportions, hanswers, hused,
          hhints, hzero, htaken, hlastUsed, hunread⟩
    -- a portion behind the end of the frame would be longer than what is left unread
    have hafter : after = [] := by
      rcases List.eq_nil_or_concat after with hnil | ⟨others, final, rfl⟩
      · exact hnil
      · have hfinal := hlast final (by
          rw [hportions, List.concat_eq_append, ← List.cons_append, ← List.append_assoc]
          exact List.getLast?_concat)
        rw [hunread] at hfinal
        simp [joined] at hfinal
        omega
    subst hafter
    refine ⟨hended.no_failure, ⟨front, portion, answers, last, hportions, hanswers, hused, ?_,
      hhints, hzero⟩, fun n => ?_, hcontent.symm, hended.fresh⟩
    · rw [hlastUsed, htaken, hunread]
      simp
    · -- what comes out later follows what has come out so far
      rw [hcontent]
      refine ⟨((decompressor.updates portions).answers.drop n).flatMap Decoded.content, ?_⟩
      rw [← List.flatMap_append, List.take_append_drop]
      rfl
  · rcases read_nil_waits (hstalled.waits hne) with ⟨next, hwaiting⟩
    have hnone := hmore []
    rw [List.append_nil, hread] at hnone
    have hverdict := congrArg Reading.verdict hnone
    rw [Reading.verdict_prepend, hwaiting] at hverdict
    cases hverdict

/-- A frame that turns out bad fails the row of calls for the same reason, and the calls before have
given no more than a front of what was read. -/
theorem updates_bad {decompressor : Decompressor} {portions : List Portion} {out : Bytes}
    {code : ErrorCode} (hfits : ∀ portion ∈ portions, portion.Fits) (hne : portions ≠ [])
    (hread : decompressor.decoder.read (joined portions) = ⟨out, .bad code⟩) :
    (decompressor.updates portions).failure = some (.frame code)
      ∧ (decompressor.updates portions).content <+: out := by
  rcases decompressor.updates_read hfits with ⟨code', tail, hfailure, hbad⟩ | ⟨unread, -, hended⟩
    | ⟨hstalled, hmore⟩
  · rw [hread, Reading.mk.injEq, Verdict.bad.injEq] at hbad
    rcases hbad with ⟨rfl, rfl⟩
    exact ⟨hfailure, List.prefix_append ..⟩
  · rw [hread, Reading.mk.injEq] at hended
    cases hended.2
  · rcases read_nil_waits (hstalled.waits hne) with ⟨next, hwaiting⟩
    have hall := hmore []
    rw [List.append_nil, hread] at hall
    have hverdict := congrArg Reading.verdict hall
    rw [Reading.verdict_prepend, hwaiting] at hverdict
    cases hverdict

/-! ## Before a frame -/

/-- Decompressors that stand before a frame: fresh ones, ones that were reset, whatever happened to
them, and ones that have just ended another frame. -/
inductive Ready : Decompressor → Prop
  | fresh (gate : Gate) : Ready (.new gate)
  | reset (decompressor : Decompressor) : Ready decompressor.reset.1
  | ended {decompressor next : Decompressor} {piece : Bytes} {chunkLength : Nat}
      {decoded : Decoded} {events : List LockEvent}
      (update : decompressor.update piece chunkLength = (next, ⟨.ok decoded, events⟩))
      (complete : decoded.hint = 0) : Ready next

theorem Ready.decoder_eq {decompressor : Decompressor} :
    decompressor.Ready → decompressor.decoder = .new := by
  intro h
  cases h with
  | fresh gate => rfl
  | reset decompressor => rfl
  | ended update complete =>
      rcases update_ok update with ⟨_, _, _, _, hresult⟩
      rcases hresult with ⟨-, hnew, -⟩ | ⟨hpos, -⟩
      · exact hnew
      · omega

/-- What is bad as a frame fails a row of calls from its beginning. -/
theorem Ready.updates_bad {decompressor : Decompressor} (h : decompressor.Ready)
    {portions : List Portion} {out : Bytes} {code : ErrorCode}
    (hfits : ∀ portion ∈ portions, portion.Fits)
    (hread : Decoder.new.read (joined portions) = ⟨out, .bad code⟩) :
    (decompressor.updates portions).failure = some (.frame code)
      ∧ (decompressor.updates portions).content <+: out := by
  have hne : portions ≠ [] := by
    rintro rfl
    rw [joined_nil, read_nil (show Decoder.new.Waits from trivial) rfl] at hread
    cases hread
  rw [← h.decoder_eq] at hread
  exact Decompressor.updates_bad hfits hne hread

end Decompressor

end Lz4Frame
