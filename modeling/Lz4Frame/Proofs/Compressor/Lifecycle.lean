import Lz4Frame.Platform.Reference
import Lz4Frame.Proofs.Compressor.Frames

/-!
# The life of a compressor

A compressor may be asked anything in any order.  Whatever it was asked before, its stage tells
whether its encoder is inside a frame, and the settings it reports are those of that frame
(`after_sound`).  From there it is plain what each request can be answered with, and that a refusal
for want of room is never among the answers (`lifecycle`), as long as the blocks of an update can be
counted.  Behind that limit the room that is found wraps around: an update may be refused
(`update_too_long`), or it may be granted and write past its room (`update_overruns`).  So a past
(`Past`) is a history in which no update did that.
-/

namespace Lz4Frame.Compressor

/-! ## Requests -/

/-- What can be asked of a compressor. -/
inductive Operation
  | start (prefs : Preferences)
  | update (content : Bytes)
  | flush
  | finish
  | stage
  | preferences

/-- What a compressor answers. -/
inductive Reply
  | bytes (result : Except Error Bytes)
  | stage (stage : Stage)
  | preferences (prefs : Preferences)

section

variable [Platform]

/-- Does what is asked. -/
def perform (compressor : Compressor) : Operation → Compressor × Reply
  | .start prefs =>
      let (next, answer) := compressor.start prefs
      (next, .bytes answer.value)
  | .update content =>
      let (next, answer) := compressor.update content
      (next, .bytes answer.value)
  | .flush =>
      let (next, answer) := compressor.flush
      (next, .bytes answer.value)
  | .finish =>
      let (next, answer) := compressor.finish
      (next, .bytes answer.value)
  | .stage => (compressor, .stage compressor.stage)
  | .preferences => (compressor, .preferences compressor.prefs)

/-- Does what is asked, one request after another. -/
def after (compressor : Compressor) (history : List Operation) : Compressor :=
  history.foldl (fun compressor operation => (compressor.perform operation).1) compressor

/-- Whether a request writes past its room; only an update can. -/
def Operation.Overruns (compressor : Compressor) : Operation → Prop
  | .update content => compressor.Overruns content
  | _ => False

instance (compressor : Compressor) :
    (operation : Operation) → Decidable (operation.Overruns compressor)
  | .update content => inferInstanceAs (Decidable (compressor.Overruns content))
  | .start _ => isFalse id
  | .flush => isFalse id
  | .finish => isFalse id
  | .stage => isFalse id
  | .preferences => isFalse id

/-- Whether no request of a history writes past its room. -/
def Spared : Compressor → List Operation → Prop
  | _, [] => True
  | compressor, operation :: history =>
      ¬ operation.Overruns compressor ∧ Spared (compressor.perform operation).1 history

instance decidableSpared :
    (compressor : Compressor) → (history : List Operation) → Decidable (compressor.Spared history)
  | _, [] => isTrue trivial
  | compressor, operation :: history =>
      have := decidableSpared (compressor.perform operation).1 history
      inferInstanceAs (Decidable (_ ∧ _))

/-- What a new compressor may have been asked before something is known of it: anything, as long as
no update wrote past its room. -/
structure Past (gate : Gate) where
  history : List Operation
  spared : (new gate).Spared history

namespace Past

/-- Nothing was asked. -/
def none (gate : Gate) : Past gate := ⟨[], trivial⟩

/-- The compressor behind a past. -/
def compressor {gate : Gate} (past : Past gate) : Compressor := (new gate).after past.history

end Past

/-! ## What a history leaves behind -/

/-- The stage behind a request: settings that are in range open a frame, and closing one counts
whether it succeeds or not. -/
def Operation.nextStage (before : Stage) : Operation → Stage
  | .start prefs =>
      match prefs.validate with
      | .ok () => .active
      | .error _ => before
  | .finish => .idle
  | _ => before

/-- The settings behind a request: those of the frame that was started last. -/
def Operation.nextSettings (before : Preferences) : Operation → Preferences
  | .start prefs =>
      match prefs.validate with
      | .ok () => prefs
      | .error _ => before
  | _ => before

/-- The stage behind a history of requests. -/
def stageOf (history : List Operation) : Stage :=
  history.foldl Operation.nextStage .idle

/-- The settings behind a history of requests. -/
def settingsOf (history : List Operation) : Preferences :=
  history.foldl Operation.nextSettings {}

/-! ## What can be answered -/

/-- A request whose blocks can be counted, if it is an update. -/
def Operation.Fits (settings : Preferences) : Operation → Prop
  | .update content => Bound.Countable settings content.length
  | _ => True

/-- A request that means something inside a frame only. -/
def Operation.NeedsFrame : Operation → Prop
  | .update content => content ≠ []
  | .flush => True
  | .finish => True
  | _ => False

/-- The answers that a request can have, at a stage and under the settings of the frame.  What is
sent has the room that was found for it. -/
inductive Admits (settings : Preferences) : Stage → Operation → Reply → Prop
  | started {stage : Stage} {prefs : Preferences} {header : Bytes} :
      prefs.validate = .ok () → header.length ≤ Header.maxLength →
        Admits settings stage (.start prefs) (.bytes (.ok header))
  | outOfRange {stage : Stage} {prefs : Preferences} {cause : Error} :
      prefs.validate = .error cause →
        Admits settings stage (.start prefs) (.bytes (.error cause))
  | nothingGiven {stage : Stage} :
      Admits settings stage (.update []) (.bytes (.error .emptyInput))
  | notOpen {operation : Operation} :
      operation.NeedsFrame →
        Admits settings .idle operation
          (.bytes (.error (.frame .compressionStateUninitialized)))
  | updated {content bytes : Bytes} {room : Nat} :
      content ≠ [] → roomFor settings content.length = .ok room → bytes.length ≤ room →
        Admits settings .active (.update content) (.bytes (.ok bytes))
  | flushed {bytes : Bytes} {room : Nat} :
      roomFor settings 0 = .ok room → bytes.length ≤ room →
        Admits settings .active .flush (.bytes (.ok bytes))
  | finished {bytes : Bytes} {room : Nat} :
      roomFor settings 0 = .ok room → bytes.length ≤ room →
        Admits settings .active .finish (.bytes (.ok bytes))
  | wrongLength :
      settings.declaredOrZero ≠ 0 →
        Admits settings .active .finish (.bytes (.error (.frame .frameSizeWrong)))
  | stage {stage : Stage} : Admits settings stage .stage (.stage stage)
  | preferences {stage : Stage} : Admits settings stage .preferences (.preferences settings)

/-- A refusal for want of room is no answer to any request. -/
theorem Admits.ne_tooSmall {settings : Preferences} {stage : Stage} {operation : Operation}
    {reply : Reply} (h : Admits settings stage operation reply) :
    reply ≠ .bytes (.error (.frame .dstMaxSizeTooSmall)) := by
  cases h with
  | outOfRange hrange =>
      rintro ⟨⟩
      -- the only refusal of settings names the one that is out of range
      unfold Preferences.validate at hrange
      split at hrange <;> simp [Error.invalid] at hrange
  | _ => simp

/-! ## The invariant -/

/-- A compressor is either outside any frame, with its encoder, or inside the frame of the settings
that it reports. -/
inductive Sound (compressor : Compressor) : Prop
  | outside (stage_eq : compressor.stage = .idle) (closed : compressor.encoder.isOpen = false)
      (prefs_eq : compressor.encoder.prefs = compressor.prefs)
  | inside {prefs : Preferences} {content wire : Bytes}
      (within : compressor.Within prefs content wire)

omit [Platform] in
theorem new_sound (gate : Gate) : (new gate).Sound :=
  .outside rfl rfl rfl

omit [Platform] in
theorem Sound.active_iff {compressor : Compressor} (h : compressor.Sound) :
    compressor.stage = .active ↔ compressor.encoder.isOpen = true := by
  cases h with
  | outside stage_eq closed _ => simp [stage_eq, closed]
  | inside within => simp [within.stage_eq, within.encoder.isOpen]

omit [Platform] in
theorem Sound.prefs_eq {compressor : Compressor} (h : compressor.Sound) :
    compressor.encoder.prefs = compressor.prefs := by
  cases h with
  | outside _ _ prefs_eq => exact prefs_eq
  | inside within => rw [within.encoder.prefs_eq, within.prefs_eq]

/-- A request leaves the stage and the settings that its history says. -/
structure Leads (compressor : Compressor) (operation : Operation) (next : Compressor) : Prop where
  sound : next.Sound
  stage_eq : next.stage = operation.nextStage compressor.stage
  prefs_eq : next.prefs = operation.nextSettings compressor.prefs

theorem start_leads {compressor : Compressor} (h : compressor.Sound) (prefs : Preferences) :
    compressor.Leads (.start prefs) (compressor.perform (.start prefs)).1
      ∧ Admits compressor.prefs compressor.stage (.start prefs)
          (compressor.perform (.start prefs)).2 := by
  cases hvalid : prefs.validate with
  | error cause =>
      have hrefused : compressor.start prefs = (compressor, ⟨.error cause, []⟩) := by
        simp only [start, hvalid]
      simp only [perform, hrefused]
      exact ⟨⟨h, by simp only [Operation.nextStage, hvalid],
        by simp only [Operation.nextSettings, hvalid]⟩, .outOfRange hvalid⟩
  | ok =>
      rcases compressor.start_within hvalid with ⟨next, hstart, hwithin⟩
      simp only [perform, hstart]
      refine ⟨⟨.inside hwithin, ?_, ?_⟩, .started hvalid (Header.encode_length_le _)⟩
      · rw [hwithin.stage_eq]
        simp only [Operation.nextStage, hvalid]
      · rw [hwithin.prefs_eq]
        simp only [Operation.nextSettings, hvalid]

/-- Outside a frame everything but a start is refused, and nothing changes. -/
theorem perform_idle {compressor : Compressor} (hidle : compressor.stage = .idle)
    {operation : Operation} :
    (∀ prefs, operation ≠ .start prefs) →
      (compressor.perform operation).1 = compressor
        ∧ Admits compressor.prefs .idle operation (compressor.perform operation).2 := by
  intro hnoStart
  rcases compressor with ⟨gate, encoder, prefs, stage⟩
  obtain rfl : stage = .idle := hidle
  cases operation with
  | start prefs => exact absurd rfl (hnoStart prefs)
  | update content =>
      by_cases hne : content = []
      · subst hne
        exact ⟨rfl, .nothingGiven⟩
      · have hrefused : update ⟨gate, encoder, prefs, .idle⟩ content
            = (⟨gate, encoder, prefs, .idle⟩,
              ⟨.error (.frame .compressionStateUninitialized), []⟩) := by
          rw [update, if_neg (by simpa [List.isEmpty_iff] using hne)]
        simp only [perform, hrefused]
        exact ⟨trivial, .notOpen hne⟩
  | flush => exact ⟨rfl, .notOpen trivial⟩
  | finish => exact ⟨rfl, .notOpen trivial⟩
  | stage => exact ⟨rfl, .stage⟩
  | preferences => exact ⟨rfl, .preferences⟩

/-- Inside a frame an update leads on, whether it is refused or not. -/
theorem update_leads {compressor : Compressor} {prefs : Preferences} {content wire : Bytes}
    (h : compressor.Within prefs content wire) (input : Bytes) :
    compressor.Leads (.update input) (compressor.perform (.update input)).1 := by
  rcases update_cases h input with ⟨cause, events, hrefused⟩
    | ⟨next, bytes, events, hupdate, hwithin⟩
  · simp only [perform, hrefused]
    exact ⟨.inside h, rfl, rfl⟩
  · simp only [perform, hupdate]
    exact ⟨.inside hwithin, by rw [hwithin.stage_eq, ← h.stage_eq]; rfl,
      by rw [hwithin.prefs_eq, ← h.prefs_eq]; rfl⟩

/-- Inside a frame an update whose blocks can be counted is granted, unless it is empty. -/
theorem update_admits {compressor : Compressor} {prefs : Preferences} {content wire : Bytes}
    (h : compressor.Within prefs content wire) {input : Bytes} :
    Bound.Countable prefs input.length →
      Admits prefs .active (.update input) (compressor.perform (.update input)).2 := by
  intro hcount
  by_cases hne : input = []
  · subst hne
    exact .nothingGiven
  · rcases update_within h hne hcount with ⟨next, bytes, events, hupdate, -, hlength⟩
    simp only [perform, hupdate]
    exact .updated hne (Bound.roomFor_eq hcount) hlength

theorem flush_leads {compressor : Compressor} {prefs : Preferences} {content wire : Bytes}
    (h : compressor.Within prefs content wire) :
    compressor.Leads .flush (compressor.perform .flush).1
      ∧ Admits prefs .active .flush (compressor.perform .flush).2 := by
  rcases flush_within h with ⟨next, bytes, hflush, hwithin, -, hlength⟩
  simp only [perform, hflush]
  refine ⟨⟨.inside hwithin, ?_, ?_⟩,
    .flushed (Bound.roomFor_eq (Bound.countable_zero prefs)) hlength⟩
  · rw [hwithin.stage_eq, ← h.stage_eq]
    rfl
  · rw [hwithin.prefs_eq, ← h.prefs_eq]
    rfl

theorem finish_leads {compressor : Compressor} {prefs : Preferences} {content wire : Bytes}
    (h : compressor.Within prefs content wire) :
    compressor.Leads .finish (compressor.perform .finish).1
      ∧ Admits prefs .active .finish (compressor.perform .finish).2 := by
  rcases finish_cases h
      with ⟨next, bytes, hidle, hclosed, hprefs, hencoder, hlength, hfinish, -⟩
  simp only [perform, hfinish, Traced.ofCall]
  refine ⟨⟨.outside hidle hclosed (by rw [hencoder, hprefs]), hidle, ?_⟩, ?_⟩
  · rw [hprefs, ← h.prefs_eq]
    rfl
  · split
    · rename_i hwrong
      exact .wrongLength hwrong.1
    · exact .finished (Bound.roomFor_eq (Bound.countable_zero prefs)) hlength

/-- One request: it leads where its history says, whatever it is. -/
theorem perform_leads {compressor : Compressor} (h : compressor.Sound) (operation : Operation) :
    compressor.Leads operation (compressor.perform operation).1 := by
  cases operation with
  | start prefs => exact (start_leads h prefs).1
  | stage => exact ⟨h, rfl, rfl⟩
  | preferences => exact ⟨h, rfl, rfl⟩
  | update content =>
      cases h with
      | outside stage_eq closed prefs_eq =>
          rw [(perform_idle stage_eq (by simp)).1]
          exact ⟨.outside stage_eq closed prefs_eq, rfl, rfl⟩
      | inside within => exact update_leads within content
  | flush =>
      cases h with
      | outside stage_eq closed prefs_eq =>
          rw [(perform_idle stage_eq (by simp)).1]
          exact ⟨.outside stage_eq closed prefs_eq, rfl, rfl⟩
      | inside within => exact (flush_leads within).1
  | finish =>
      cases h with
      | outside stage_eq closed prefs_eq =>
          rw [(perform_idle stage_eq (by simp)).1]
          exact ⟨.outside stage_eq closed prefs_eq, stage_eq, rfl⟩
      | inside within => exact (finish_leads within).1

/-- One request that fits: its answer is one of those that it can have. -/
theorem perform_admits {compressor : Compressor} (h : compressor.Sound) {operation : Operation} :
    operation.Fits compressor.prefs →
      Admits compressor.prefs compressor.stage operation (compressor.perform operation).2 := by
  intro hfits
  cases hstage : compressor.stage with
  | idle =>
      cases operation with
      | start prefs =>
          rw [← hstage]
          exact (start_leads h prefs).2
      | _ => exact (perform_idle hstage (by simp)).2
  | active =>
      cases h with
      | outside stage_eq _ _ => simp [stage_eq] at hstage
      | inside within =>
          obtain rfl := within.prefs_eq
          cases operation with
          | start prefs =>
              rw [← hstage]
              exact (start_leads (.inside within) prefs).2
          | update content => exact update_admits within hfits
          | flush => exact (flush_leads within).2
          | finish => exact (finish_leads within).2
          | stage =>
              rw [perform, hstage]
              exact .stage
          | preferences => exact .preferences

/-! ## Histories -/

/-- A history leads from one sound compressor to another, with the stage and the settings that its
requests say. -/
theorem after_sound {compressor : Compressor} (h : compressor.Sound) (history : List Operation) :
    (compressor.after history).Sound
      ∧ (compressor.after history).stage = history.foldl Operation.nextStage compressor.stage
      ∧ (compressor.after history).prefs
        = history.foldl Operation.nextSettings compressor.prefs := by
  -- on the history; each request leads on from where the one before it has led
  induction history generalizing compressor with
  | nil => exact ⟨h, rfl, rfl⟩
  | cons operation history ih =>
      rcases perform_leads h operation with ⟨hsound, hstage, hprefs⟩
      rw [List.foldl_cons, List.foldl_cons, ← hstage, ← hprefs]
      exact ih hsound

/-- An update whose blocks can be counted has the room that it takes. -/
theorem Sound.not_overruns {compressor : Compressor} (h : compressor.Sound)
    {operation : Operation} :
    operation.Fits compressor.prefs → ¬ operation.Overruns compressor := by
  intro hfits
  cases operation with
  | update content =>
      rw [Operation.Overruns, overruns_iff (Bound.roomFor_eq hfits)]
      cases h with
      | outside _ closed _ => simp [Encoder.update, closed, Encoder.Overrun]
      | inside within =>
          rw [within.prefs_eq] at hfits ⊢
          exact within.encoder.not_overrun _ hfits
  | _ => exact id

/-- Whatever a compressor was asked before, it is active exactly when its encoder is inside a frame,
it reports the settings which that frame was started with, and every request that fits has an answer
that it can have, none of which is a refusal for want of room; nor does it write past its room. -/
theorem lifecycle {gate : Gate} (past : Past gate) :
    let compressor := past.compressor
    (compressor.stage = .active ↔ compressor.encoder.isOpen = true)
      ∧ compressor.stage = stageOf past.history
      ∧ compressor.encoder.prefs = compressor.prefs
      ∧ compressor.prefs = settingsOf past.history
      ∧ ∀ operation : Operation, operation.Fits (settingsOf past.history) →
          Admits (settingsOf past.history) (stageOf past.history) operation
              (compressor.perform operation).2
            ∧ (compressor.perform operation).2
              ≠ .bytes (.error (.frame .dstMaxSizeTooSmall))
            ∧ ¬ operation.Overruns compressor := by
  rcases after_sound (new_sound gate) past.history with ⟨hsound, hstage, hprefs⟩
  refine ⟨hsound.active_iff, hstage, hsound.prefs_eq, hprefs, ?_⟩
  intro operation hfits
  have hadmits := perform_admits hsound (by rwa [hprefs])
  rw [hstage, hprefs] at hadmits
  exact ⟨hadmits, hadmits.ne_tooSmall, hsound.not_overruns (by rwa [hprefs])⟩

end

open Reference in
/-- A second update, on top of a byte that waits. -/
theorem lifecycle_second_update :
    (stageOf [.start {}, .update [1]] = .active ∧ settingsOf [.start {}, .update [1]] = {})
      ∧ (new .native).Spared [.start {}, .update [1]]
      ∧ Operation.Fits {} (.update [2, 3])
      ∧ Admits {} .active (.update [2, 3])
          (((new .native).after [.start {}, .update [1]]).perform (.update [2, 3])).2
      ∧ (((new .native).after [.start {}, .update [1]]).perform (.update [2, 3])).2
        ≠ .bytes (.error (.frame .dstMaxSizeTooSmall)) := by
  have hfits : Operation.Fits {} (.update [2, 3]) := by
    show (2 + (65536 - 1)) / 65536 < 0x100000000
    decide
  have hspared : (new .native).Spared [.start {}, .update [1]] := by decide +kernel
  rcases lifecycle ⟨_, hspared⟩ with ⟨-, -, -, -, hanswers⟩
  rcases hanswers (.update [2, 3]) hfits with ⟨hadmits, hne, -⟩
  exact ⟨⟨rfl, rfl⟩, hspared, hfits, hadmits, hne⟩

open Reference in
/-- An update of less than 2^48 bytes that is refused for want of room. -/
theorem update_too_long :
    (List.replicate 0xffffffffffff 0 : Bytes).length < 0x1000000000000
      ∧ stageOf [.start {}] = .active
      ∧ (((new .native).after [.start {}]).perform (.update (List.replicate 0xffffffffffff 0))).2
        = .bytes (.error (.frame .dstMaxSizeTooSmall)) := by
  have hvalid : Preferences.validate {} = .ok () := rfl
  rcases (new .native).start_within hvalid with ⟨started, hstart, hwithin⟩
  have hafter : (new .native).after [.start {}] = started := by
    simp only [after, List.foldl_cons, List.foldl_nil, perform, hstart]
  obtain ⟨input, hinput⟩ : ∃ input : Bytes, List.replicate 0xffffffffffff 0 = input := ⟨_, rfl⟩
  have hlength : input.length = 0xffffffffffff := by rw [← hinput, List.length_replicate]
  rcases update_wraps hwithin hlength with ⟨events, hupdate⟩
  rw [hinput, hafter, hlength]
  refine ⟨by decide, rfl, ?_⟩
  simp only [perform, hupdate]

open Reference in
/-- The same update on top of a byte that waits is granted in a room of four bytes, and writes past
its end. -/
theorem update_overruns :
    roomFor {} 0xffffffffffff = .ok 4
      ∧ ((new .native).after [.start {}, .update [0]]).Overruns
        (List.replicate 0xffffffffffff 0) := by
  have hroom : roomFor {} 0xffffffffffff = .ok 4 := Bound.roomFor_of_checked rfl (by decide)
  refine ⟨hroom, ?_⟩
  have hlength : (List.replicate 0xffffffffffff 0 : Bytes).length = 0xffffffffffff :=
    List.length_replicate
  have hheld : ((new .native).after [.start {}, .update [0]]).encoder.held.size = 1 := by
    decide +kernel
  generalize (List.replicate 0xffffffffffff 0 : Bytes) = input at hlength ⊢
  rcases (new .native).start_within (show Preferences.validate {} = .ok () from rfl)
      with ⟨started, hstart, hstarted⟩
  rcases update_within hstarted (show ([0] : Bytes) ≠ [] by simp)
      (show (1 + (65536 - 1)) / 65536 < 0x100000000 by decide)
      with ⟨waiting, bytes, events, hupdate, hwaiting, -⟩
  have hafter : (new .native).after [.start {}, .update [0]] = waiting := by
    simp only [after, List.foldl_cons, List.foldl_nil, perform, hstart, hupdate]
  rw [hafter] at hheld ⊢
  -- nothing was sent but the header
  have hwire : ((Header.ofPreferences {}).encode ++ bytes).length ≤ 15 := by
    rcases hwaiting.encoder.parts with ⟨sent, blocks, hcontent, hwire, hblocks, -⟩
    have hsent := congrArg List.length hcontent
    have hsize : waiting.encoder.held.toList.length = 1 := hheld
    have hblocks := hblocks.wire_length_le
    rw [List.nil_append, List.length_singleton, List.length_append, hsize] at hsent
    have hheader : (Header.ofPreferences {}).encode.length = 7 := rfl
    rw [hwire, List.length_append, hheader]
    omega
  have hgranted : (Bound.withHeld {} (UInt64.ofNat input.length)
      (UInt64.ofNat waiting.encoder.held.size)).toNat ≤ 4 := by
    rw [hlength, hheld]
    decide
  have hshort : 4 * Bound.mostHeld {}
      + Preferences.maxBlock {} * (((Header.ofPreferences {}).encode ++ bytes).length + 4)
        < 4 * (([] ++ [0] : Bytes).length + input.length) := by
    have hmax : Preferences.maxBlock {} = 65536 := rfl
    have hmost : Bound.mostHeld {} = 65535 := rfl
    rw [hlength, hmax, hmost]
    simp only [List.nil_append, List.length_singleton]
    omega
  rcases hwaiting.encoder.overrun hgranted hshort with ⟨next, blocks, hgrant, -, hover, -⟩
  rw [overruns_iff (by rw [hwaiting.prefs_eq, hlength, hroom]), hgrant]
  exact hover

end Lz4Frame.Compressor
