import Lz4Frame.Proofs.Compressor.Lifecycle
import Lz4Frame.Proofs.Decompressor.Requests

/-!
# Calls that are refused

A call is refused for what was handed over with it, or because no frame is open: settings out of
range, no data, no such block size, a length that no memory can hold.  Which calls these are is
written down case by case (`Compressor.Refuses`, `Decompressor.Refuses`), and none of them leaves a
trace: the session is the same as before in all its parts, so every history of calls comes to what
it comes to without those that are refused (`refusals_leave_no_trace`).
-/

namespace Lz4Frame

/-! ## Histories with and without some of their requests -/

section

variable {State Request Reply : Type}

/-- Answers requests, one after another. -/
def served (serve : State → Request → State × Reply) (state : State) :
    List Request → State × List Reply
  | [] => (state, [])
  | request :: requests =>
      let (next, reply) := serve state request
      let (last, replies) := served serve next requests
      (last, reply :: replies)

/-- The requests of a history that are not answered by a refusal. -/
def granted (serve : State → Request → State × Reply) (refusal : Reply → Bool) (state : State) :
    List Request → List Request
  | [] => []
  | request :: requests =>
      let (next, reply) := serve state request
      if refusal reply then granted serve refusal next requests
      else request :: granted serve refusal next requests

/-- What is kept by each request is kept by a history. -/
theorem served_keeps {serve : State → Request → State × Reply} {Sound : State → Prop}
    (keeps : ∀ state, Sound state → ∀ request, Sound (serve state request).1) {state : State}
    (h : Sound state) (requests : List Request) : Sound (served serve state requests).1 := by
  induction requests generalizing state with
  | nil => exact h
  | cons request requests ih => exact ih (keeps state h request)

/-- A history behind another one. -/
theorem served_append (serve : State → Request → State × Reply) (state : State)
    (front rest : List Request) :
    served serve state (front ++ rest)
      = ((served serve (served serve state front).1 rest).1,
          (served serve state front).2 ++ (served serve (served serve state front).1 rest).2) := by
  induction front generalizing state with
  | nil => rfl
  | cons request front ih =>
      simp only [List.cons_append, served, ih]

/-- Where the refusals of a history leave everything as it is, it comes to the same without the
requests that are refused. -/
theorem served_granted_of {serve : State → Request → State × Reply} {refusal : Reply → Bool}
    (Allowed : State → List Request → Prop)
    (keeps : ∀ state request requests, Allowed state (request :: requests) →
      Allowed (serve state request).1 requests)
    (same : ∀ state request requests, Allowed state (request :: requests) →
      refusal (serve state request).2 = true → (serve state request).1 = state)
    {state : State} {requests : List Request} (h : Allowed state requests) :
    served serve state (granted serve refusal state requests)
      = ((served serve state requests).1,
          (served serve state requests).2.filter (!refusal ·)) := by
  induction requests generalizing state with
  | nil => rfl
  | cons request requests ih =>
      have hrest := ih (keeps state request requests h)
      cases hrefused : refusal (serve state request).2 with
      | true =>
          -- the request drops out, and the others find what they would have found
          have hsame := same state request requests h hrefused
          rw [hsame] at hrest
          simp only [granted, served, hrefused, hsame, hrest, ↓reduceIte, Bool.not_true,
            Bool.false_eq_true, not_false_eq_true, List.filter_cons_of_neg]
      | false =>
          simp only [granted, served, hrefused, hrest, Bool.false_eq_true, ↓reduceIte,
            Bool.not_false, List.filter_cons_of_pos]

/-- Where refusals leave everything as it is, a history comes to the same without the requests that
are refused. -/
theorem served_granted {serve : State → Request → State × Reply} {refusal : Reply → Bool}
    {Sound : State → Prop}
    (keeps : ∀ state, Sound state → ∀ request, Sound (serve state request).1)
    (same : ∀ state, Sound state → ∀ request, refusal (serve state request).2 = true →
      (serve state request).1 = state)
    {state : State} (h : Sound state) (requests : List Request) :
    served serve state (granted serve refusal state requests)
      = ((served serve state requests).1,
          (served serve state requests).2.filter (!refusal ·)) :=
  served_granted_of (fun state _ => Sound state) (fun state request _ h => keeps state h request)
    (fun state request _ h => same state h request) h

end

/-! ## Compressors -/

/-- Whether a compressor that fails like this has turned the call away. -/
def Error.turnsAway : Error → Bool
  | .parameter _ _ => true
  | .emptyInput => true
  | .frame code => code = .compressionStateUninitialized
  | .incompleteFrame => false
  | .allocation _ => true

namespace Compressor

/-- A request as it comes from outside: the block size of a frame may be given as a number. -/
inductive Request
  | plain (operation : Operation)
  | startNumbered (blockSizeId : Nat) (prefs : Preferences)

variable [Platform]

/-- Does what is requested. -/
def serve (compressor : Compressor) : Request → Compressor × Reply
  | .plain operation => compressor.perform operation
  | .startNumbered blockSizeId prefs =>
      let (next, answer) := compressor.startNumbered blockSizeId prefs
      (next, .bytes answer.value)

/-- Whether a call was turned away. -/
def Reply.isRefusal : Reply → Bool
  | .bytes (.error cause) => cause.turnsAway
  | _ => false

/-- The calls that are turned away, and why. -/
inductive Refuses (compressor : Compressor) : Request → Error → Prop
  | level {prefs : Preferences} (above : Level.highest < prefs.level) :
      Refuses compressor (.plain (.start prefs)) (.invalid .compressionLevel prefs.level)
  | unknownSize {id : Nat} {prefs : Preferences} (unknown : BlockSize.ofId? id = none) :
      Refuses compressor (.startNumbered id prefs) (.invalid .blockSizeId id)
  | numberedLevel {id : Nat} {size : BlockSize} {prefs : Preferences}
      (known : BlockSize.ofId? id = some size) (above : Level.highest < prefs.level) :
      Refuses compressor (.startNumbered id prefs) (.invalid .compressionLevel prefs.level)
  | nothingGiven : Refuses compressor (.plain (.update [])) .emptyInput
  | notOpen {operation : Operation} (idle : compressor.stage = .idle)
      (needs : operation.NeedsFrame) :
      Refuses compressor (.plain operation) (.frame .compressionStateUninitialized)
  /-- No room for the worst case of the update can be had. -/
  | noRoom {content : Bytes} {cause : Error} (active : compressor.stage = .active)
      (ne_nil : content ≠ [])
      (room_eq : roomFor compressor.prefs content.length = .error cause)
      (away : cause.turnsAway = true) : Refuses compressor (.plain (.update content)) cause

omit [Platform] in
/-- A start fails only where the level is too high. -/
theorem start_cases (compressor : Compressor) (prefs : Preferences) :
    (Level.highest < prefs.level
        ∧ compressor.start prefs
          = (compressor, ⟨.error (.invalid .compressionLevel prefs.level), []⟩))
      ∨ ¬ Level.highest < prefs.level
        ∧ ∃ next header, compressor.start prefs = (next, .ofCall (.ok header)) := by
  by_cases habove : Level.highest < prefs.level
  · have hvalid : prefs.validate = .error (.invalid .compressionLevel prefs.level) := if_pos habove
    exact .inl ⟨habove, by simp only [start, hvalid]⟩
  · have hvalid : prefs.validate = .ok () := if_neg habove
    rcases compressor.start_within hvalid with ⟨next, hstart, -⟩
    exact .inr ⟨habove, next, _, hstart⟩

omit [Platform] in
/-- The size is judged first, and then a start by a number is a start. -/
theorem startNumbered_cases (compressor : Compressor) (id : Nat) (prefs : Preferences) :
    (BlockSize.ofId? id = none
        ∧ compressor.startNumbered id prefs
          = (compressor, ⟨.error (.invalid .blockSizeId id), []⟩))
      ∨ ∃ size, BlockSize.ofId? id = some size
        ∧ compressor.startNumbered id prefs
          = compressor.start { prefs with blockSize := size } := by
  cases hid : BlockSize.ofId? id with
  | none =>
      have hnumber : prefs.ofNumbers id = .error (.invalid .blockSizeId id) := by
        simp only [Preferences.ofNumbers, BlockSize.ofNumber, hid]
        rfl
      exact .inl ⟨rfl, by simp only [startNumbered, hnumber]⟩
  | some size =>
      refine .inr ⟨size, rfl, ?_⟩
      by_cases habove : Level.highest < prefs.level
      · -- both find the same level too high
        have hvalid : Preferences.validate { prefs with blockSize := size }
            = .error (.invalid .compressionLevel prefs.level) := if_pos habove
        have hnumber : prefs.ofNumbers id = .error (.invalid .compressionLevel prefs.level) := by
          simp only [Preferences.ofNumbers, BlockSize.ofNumber, hid, bind, Except.bind, hvalid]
        simp only [startNumbered, hnumber, start, hvalid]
      · have hvalid : Preferences.validate { prefs with blockSize := size } = .ok () :=
          if_neg habove
        have hnumber : prefs.ofNumbers id = .ok { prefs with blockSize := size } := by
          simp only [Preferences.ofNumbers, BlockSize.ofNumber, hid, bind, Except.bind, hvalid]
          rfl
        simp only [startNumbered, hnumber]

/-- What comes of a request: it is turned away and nothing has happened, or it is not turned away
and has no reason to be. -/
def Settles (compressor : Compressor) (request : Request) : Prop :=
  (∃ cause, cause.turnsAway = true ∧ Refuses compressor request cause
      ∧ compressor.serve request = (compressor, .bytes (.error cause)))
    ∨ (compressor.serve request).2.isRefusal = false ∧ ∀ cause, ¬ Refuses compressor request cause

theorem start_settles (compressor : Compressor) (prefs : Preferences) :
    Settles compressor (.plain (.start prefs)) := by
  rcases compressor.start_cases prefs with ⟨habove, hstart⟩ | ⟨hnot, next, header, hstart⟩
  · exact .inl ⟨_, rfl, .level habove, by simp only [serve, perform, hstart]⟩
  · refine .inr ⟨by simp only [serve, perform, hstart]; rfl, fun cause hrefuses => ?_⟩
    cases hrefuses with
    | level above => exact hnot above
    | notOpen idle needs => exact needs

theorem startNumbered_settles (compressor : Compressor) (id : Nat) (prefs : Preferences) :
    Settles compressor (.startNumbered id prefs) := by
  rcases compressor.startNumbered_cases id prefs with ⟨hunknown, hstart⟩ | ⟨size, hknown, hstart⟩
  · exact .inl ⟨_, rfl, .unknownSize hunknown, by simp only [serve, hstart]⟩
  · rcases compressor.start_cases { prefs with blockSize := size }
      with ⟨habove, hplain⟩ | ⟨hnot, next, header, hplain⟩
    · rw [hplain] at hstart
      exact .inl ⟨_, rfl, .numberedLevel hknown habove, by simp only [serve, hstart]⟩
    · rw [hplain] at hstart
      refine .inr ⟨by simp only [serve, hstart]; rfl, fun cause hrefuses => ?_⟩
      cases hrefuses with
      | unknownSize unknown => cases unknown.symm.trans hknown
      | numberedLevel known above => exact hnot above

/-- Asking a compressor where it is is never turned away. -/
theorem look_settles (compressor : Compressor) {operation : Operation} :
    operation = .stage ∨ operation = .preferences → Settles compressor (.plain operation) := by
  rintro (rfl | rfl)
  · refine .inr ⟨rfl, fun cause hrefuses => ?_⟩
    cases hrefuses with
    | notOpen _ needs => exact needs
  · refine .inr ⟨rfl, fun cause hrefuses => ?_⟩
    cases hrefuses with
    | notOpen _ needs => exact needs

/-- Outside a frame whatever needs one is turned away. -/
theorem idle_settles {compressor : Compressor} (hidle : compressor.stage = .idle)
    {operation : Operation} (hneeds : operation.NeedsFrame) :
    Settles compressor (.plain operation) := by
  refine .inl ⟨_, rfl, .notOpen hidle hneeds, ?_⟩
  have hnoStart : ∀ prefs, operation ≠ .start prefs := by
    rintro prefs rfl
    exact hneeds
  rcases perform_idle hidle hnoStart with ⟨hsame, hadmits⟩
  refine Prod.ext hsame ?_
  show (compressor.perform operation).2 = _
  generalize (compressor.perform operation).2 = reply at hadmits
  cases hadmits with
  | notOpen => rfl
  | nothingGiven => exact absurd rfl hneeds
  | started => exact hneeds.elim
  | outOfRange => exact hneeds.elim
  | stage => exact hneeds.elim
  | preferences => exact hneeds.elim

/-- Inside a frame an update is turned away if it is empty or no room can be had for it. -/
theorem update_settles {compressor : Compressor} {prefs : Preferences} {content wire : Bytes}
    (h : compressor.Within prefs content wire) (input : Bytes) :
    Settles compressor (.plain (.update input)) := by
  rcases compressor with ⟨gate, encoder, prefs', stage⟩
  rcases h with ⟨rfl, rfl, hencoder⟩
  simp only at hencoder
  by_cases hne : input = []
  · subst hne
    exact .inl ⟨_, rfl, .nothingGiven, rfl⟩
  -- what is left is a want of room, found by the compressor or by its encoder
  have hwant {cause : Error} (hrefuses : Refuses ⟨gate, encoder, prefs', .active⟩
      (.plain (.update input)) cause) :
      roomFor prefs' input.length = .error cause ∧ cause.turnsAway = true := by
    cases hrefuses with
    | nothingGiven => exact absurd rfl hne
    | notOpen idle => cases idle
    | noRoom _ _ room_eq away => exact ⟨room_eq, away⟩
  cases hroom : roomFor prefs' input.length with
  | error cause =>
      have hupdate := update_eq_of_error gate encoder hne hroom
      cases haway : cause.turnsAway with
      | true =>
          exact .inl ⟨cause, haway, .noRoom rfl hne hroom haway, by
            simp only [serve, perform, hupdate]⟩
      | false =>
          refine .inr ⟨by simp only [serve, perform, hupdate, Reply.isRefusal, haway],
            fun other hrefuses => ?_⟩
          rcases hwant hrefuses with ⟨hother, hturned⟩
          cases hroom.symm.trans hother
          cases haway.symm.trans hturned
  | ok room =>
      have hupdate := update_eq gate encoder hne hroom
      refine .inr ⟨?_, fun other hrefuses => ?_⟩
      · rcases Encoder.update_cases hencoder room input
          with hshort | ⟨next, bytes, hdone, -⟩
        · simp only [serve, perform, hupdate, hshort, mapError_error]
          rfl
        · simp only [serve, perform, hupdate, hdone, mapError_ok]
          rfl
      · cases hroom.symm.trans (hwant hrefuses).1

/-- Inside a frame nothing else is turned away. -/
theorem active_settles {compressor : Compressor} {prefs : Preferences} {content wire : Bytes}
    (h : compressor.Within prefs content wire) (operation : Operation) :
    Settles compressor (.plain operation) := by
  have hactive := h.stage_eq
  cases operation with
  | start prefs => exact compressor.start_settles prefs
  | update input => exact update_settles h input
  | flush =>
      rcases flush_within h with ⟨next, bytes, hflush, -⟩
      refine .inr ⟨by simp only [serve, perform, hflush]; rfl, fun cause hrefuses => ?_⟩
      cases hrefuses with
      | notOpen idle => cases hactive.symm.trans idle
  | finish =>
      rcases finish_cases h with ⟨next, bytes, -, -, -, -, -, hfinish, -⟩
      refine .inr ⟨?_, fun cause hrefuses => ?_⟩
      · -- closing fails over a wrong length at most
        simp only [serve, perform, hfinish, Traced.ofCall]
        split <;> rfl
      · cases hrefuses with
        | notOpen idle => cases hactive.symm.trans idle
  | stage => exact compressor.look_settles (.inl rfl)
  | preferences => exact compressor.look_settles (.inr rfl)

theorem serve_settles {compressor : Compressor} (h : compressor.Sound) (request : Request) :
    Settles compressor request := by
  cases request with
  | startNumbered id prefs => exact compressor.startNumbered_settles id prefs
  | plain operation =>
      cases h with
      | inside within => exact active_settles within operation
      | outside stage_eq closed prefs_eq =>
          cases operation with
          | start prefs => exact compressor.start_settles prefs
          | update content =>
              by_cases hne : content = []
              · subst hne
                exact .inl ⟨_, rfl, .nothingGiven, rfl⟩
              · exact idle_settles stage_eq hne
          | flush => exact idle_settles stage_eq trivial
          | finish => exact idle_settles stage_eq trivial
          | stage => exact compressor.look_settles (.inl rfl)
          | preferences => exact compressor.look_settles (.inr rfl)

/-- A request leaves a sound compressor sound. -/
theorem serve_sound {compressor : Compressor} (h : compressor.Sound) (request : Request) :
    (compressor.serve request).1.Sound := by
  cases request with
  | plain operation => exact (perform_leads h operation).sound
  | startNumbered id prefs =>
      rcases compressor.startNumbered_cases id prefs with ⟨-, hstart⟩ | ⟨size, -, hstart⟩
      · simp only [serve, hstart]
        exact h
      · have hsound := (perform_leads h (.start { prefs with blockSize := size })).sound
        simp only [serve, hstart]
        exact hsound

/-- Whatever is turned away leaves a compressor as it was. -/
theorem serve_refused {compressor : Compressor} (h : compressor.Sound) (request : Request) :
    (compressor.serve request).2.isRefusal = true → (compressor.serve request).1 = compressor := by
  intro hrefusal
  rcases serve_settles h request with ⟨cause, -, -, hserve⟩ | ⟨hnot, -⟩
  · rw [hserve]
  · cases hnot.symm.trans hrefusal

/-- There is one reason at most. -/
theorem Refuses.unique {compressor : Compressor} {request : Request} {first second : Error}
    (hfirst : Refuses compressor request first) (hsecond : Refuses compressor request second) :
    first = second := by
  cases hfirst with
  | level above =>
      cases hsecond with
      | level => rfl
      | notOpen _ needs => exact needs.elim
  | unknownSize unknown =>
      cases hsecond with
      | unknownSize => rfl
      | numberedLevel known => cases unknown.symm.trans known
  | numberedLevel known above =>
      cases hsecond with
      | unknownSize unknown => cases unknown.symm.trans known
      | numberedLevel => rfl
  | nothingGiven =>
      cases hsecond with
      | nothingGiven => rfl
      | notOpen _ needs => exact absurd rfl needs
      | noRoom _ ne_nil => exact absurd rfl ne_nil
  | notOpen idle needs =>
      cases hsecond with
      | level => exact needs.elim
      | nothingGiven => exact absurd rfl needs
      | notOpen => rfl
      | noRoom active => cases idle.symm.trans active
  | noRoom active ne_nil room_eq =>
      cases hsecond with
      | nothingGiven => exact absurd rfl ne_nil
      | notOpen idle => cases idle.symm.trans active
      | noRoom _ _ other_eq => exact Except.error.inj (room_eq.symm.trans other_eq)

/-- A request is turned away for the reasons that there are, and for no other. -/
theorem serve_refuses_iff {compressor : Compressor} (h : compressor.Sound) (request : Request)
    {cause : Error} (haway : cause.turnsAway = true) :
    (compressor.serve request).2 = .bytes (.error cause) ↔ Refuses compressor request cause := by
  rcases serve_settles h request with ⟨other, -, hrefuses, hserve⟩ | ⟨hnot, hnone⟩
  · rw [hserve]
    refine ⟨fun hreply => ?_, fun hcause => by rw [hcause.unique hrefuses]⟩
    cases hreply
    exact hrefuses
  · refine ⟨fun hreply => ?_, fun hcause => absurd hcause (hnone cause)⟩
    rw [hreply] at hnot
    cases hnot.symm.trans haway

end Compressor

/-! ## Decompressors -/

namespace Decompressor

/-- Whether a call was turned away: it has failed, but not over the frame. -/
def Reply.isRefusal : Reply → Bool
  | .decoded (.error (.frame _)) => false
  | .decoded (.error _) => true
  | _ => false

variable [Platform]

/-- The calls that are turned away, and why. -/
inductive Refuses : Operation → Error → Prop
  | nothingGiven {chunkLength : Nat} : Refuses (.update [] chunkLength) .emptyInput
  | noChunk {piece : Bytes} (ne_nil : piece ≠ []) :
      Refuses (.update piece 0) (.invalid .chunkLength 0)
  | noMemory {piece : Bytes} {chunkLength : Nat} (ne_nil : piece ≠ [])
      (denied : ¬ Platform.grants chunkLength = true) :
      Refuses (.update piece chunkLength) (.allocation chunkLength)

/-- What a call without a reason to be turned away is for. -/
theorem fits_of_not_refuses {piece : Bytes} {chunkLength : Nat}
    (h : ∀ cause, ¬ Refuses (.update piece chunkLength) cause) :
    Portion.Fits ⟨piece, chunkLength⟩ := by
  have hne : piece ≠ [] := by
    rintro rfl
    exact h _ .nothingGiven
  refine ⟨hne, Nat.pos_of_ne_zero ?_, Decidable.byContradiction fun hdenied =>
    h _ (.noMemory hne hdenied)⟩
  rintro rfl
  exact h _ (.noChunk hne)

/-- A reason is given, and nothing has happened. -/
theorem perform_of_refuses (decompressor : Decompressor) {operation : Operation} {cause : Error} :
    Refuses operation cause →
      decompressor.perform operation = (decompressor, .decoded (.error cause))
        ∧ Reply.isRefusal (.decoded (.error cause)) = true := by
  intro h
  cases h with
  | nothingGiven => exact ⟨rfl, rfl⟩
  | @noChunk piece ne_nil =>
      have hempty : ¬ piece.isEmpty = true := by simpa [List.isEmpty_iff] using ne_nil
      exact ⟨by simp only [perform, update, if_neg hempty, ↓reduceDIte]; rfl, rfl⟩
  | @noMemory piece chunkLength ne_nil denied =>
      have hempty : ¬ piece.isEmpty = true := by simpa [List.isEmpty_iff] using ne_nil
      have hpos : ¬ chunkLength = 0 :=
        Nat.ne_of_gt (Nat.lt_of_lt_of_le (by decide) (Platform.le_of_denied denied))
      exact ⟨by simp only [perform, update, if_neg hempty, dif_neg hpos, allocate,
        if_neg denied], rfl⟩

/-- Without a reason no call is turned away. -/
theorem perform_not_refusal (decompressor : Decompressor) {operation : Operation}
    (h : ∀ cause, ¬ Refuses operation cause) :
    (decompressor.perform operation).2.isRefusal = false := by
  cases operation with
  | frameInfo => rfl
  | reset => rfl
  | update piece chunkLength =>
      rcases hupdate : decompressor.update piece chunkLength with ⟨next, value, events⟩
      simp only [perform, hupdate]
      rcases update_cases hupdate with ⟨hfits, result, _, hfeed, rfl⟩ | ⟨hunfit, -⟩
      · cases result with
        | error cause =>
            -- no chunk is denied, so it is the frame that is bad
            rcases feed_error hfits.chunk_granted hfeed with ⟨code, -, rfl, -⟩
            rfl
        | ok fed => rfl
      · exact absurd (fits_of_not_refuses h) hunfit

/-- Whatever is turned away leaves a decompressor as it was. -/
theorem perform_refused (decompressor : Decompressor) (operation : Operation) :
    (decompressor.perform operation).2.isRefusal = true →
      (decompressor.perform operation).1 = decompressor := by
  intro hrefusal
  by_cases hreason : ∃ cause, Refuses operation cause
  · rcases hreason with ⟨cause, hrefuses⟩
    rw [(decompressor.perform_of_refuses hrefuses).1]
  · have hnot := decompressor.perform_not_refusal (not_exists.mp hreason)
    cases hnot.symm.trans hrefusal

theorem perform_refuses_iff (decompressor : Decompressor) (operation : Operation) {cause : Error}
    (hcause : ∀ code, cause ≠ .frame code) :
    (decompressor.perform operation).2 = .decoded (.error cause) ↔ Refuses operation cause := by
  refine ⟨fun hreply => ?_, fun hrefuses => by rw [(decompressor.perform_of_refuses hrefuses).1]⟩
  by_cases hreason : ∃ other, Refuses operation other
  · rcases hreason with ⟨other, hrefuses⟩
    rw [(decompressor.perform_of_refuses hrefuses).1] at hreply
    cases hreply
    exact hrefuses
  · have hnot := decompressor.perform_not_refusal (not_exists.mp hreason)
    rw [hreply] at hnot
    cases cause with
    | frame code => exact absurd rfl (hcause code)
    | _ => cases hnot

end Decompressor

variable [Platform]

/-- Wherever a session stands, inside a frame or outside: a call is turned away exactly for the
reasons that are written down, it leaves the session as it was, and any history of later calls comes
to what it comes to without those that are turned away. -/
theorem refusals_leave_no_trace (gate : Gate) :
    (∀ past : List Compressor.Request,
        let compressor := (served Compressor.serve (.new gate) past).1
        (∀ request, (compressor.serve request).2.isRefusal = true →
            (compressor.serve request).1 = compressor)
          ∧ (∀ request cause, cause.turnsAway = true →
            ((compressor.serve request).2 = .bytes (.error cause)
              ↔ compressor.Refuses request cause))
          ∧ ∀ later, served Compressor.serve compressor
              (granted Compressor.serve Compressor.Reply.isRefusal compressor later)
            = ((served Compressor.serve compressor later).1,
                (served Compressor.serve compressor later).2.filter (!·.isRefusal)))
      ∧ ∀ past : List Decompressor.Operation,
        let decompressor := (served Decompressor.perform (.new gate) past).1
        (∀ request, (decompressor.perform request).2.isRefusal = true →
            (decompressor.perform request).1 = decompressor)
          ∧ (∀ request cause, (∀ code, cause ≠ .frame code) →
            ((decompressor.perform request).2 = .decoded (.error cause)
              ↔ Decompressor.Refuses request cause))
          ∧ ∀ later, served Decompressor.perform decompressor
              (granted Decompressor.perform Decompressor.Reply.isRefusal decompressor later)
            = ((served Decompressor.perform decompressor later).1,
                (served Decompressor.perform decompressor later).2.filter (!·.isRefusal)) := by
  refine ⟨fun past => ?_, fun past => ?_⟩
  · have hkeeps (compressor : Compressor) (h : compressor.Sound) (request : Compressor.Request) :=
      Compressor.serve_sound h request
    have hsound := served_keeps hkeeps (Compressor.new_sound gate) past
    exact ⟨fun request => Compressor.serve_refused hsound request,
      fun request cause => Compressor.serve_refuses_iff hsound request,
      served_granted hkeeps (fun _ h => Compressor.serve_refused h) hsound⟩
  · have hkeeps (decompressor : Decompressor) (h : decompressor.decoder.Settled)
        (request : Decompressor.Operation) := Decompressor.perform_settled h request
    have hsettled : (Decompressor.new gate).decoder.Settled := Decoder.new_settled
    exact ⟨fun request => Decompressor.perform_refused _ request,
      fun request cause => Decompressor.perform_refuses_iff _ request,
      served_granted hkeeps (fun decompressor _ => decompressor.perform_refused)
        (served_keeps hkeeps hsettled past)⟩

end Lz4Frame
