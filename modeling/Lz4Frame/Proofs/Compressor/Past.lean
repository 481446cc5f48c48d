import Lz4Frame.Platform.Reference
import Lz4Frame.Proofs.Compressor.Tidy
import Lz4Frame.Proofs.Made

/-!
# Frames and the past of a compressor

A compressor keeps its encoder from frame to frame, and the encoder its table.  Independent blocks
never show it: the table is cleared for them, or what it holds is told apart.  A linked frame goes
on with a table whose slots are wide, unless its indices have run far already, and they run on far
enough to put everything from before out of reach; any other table is cleared.  So there are two
ways for a linked frame to start, and frames that start the same way come out the same, whatever was
made before.

The two ways differ in one thing.  In a cleared table a slot that nothing was learned about reads as
index 0, and that is the place of the frame's first byte.  If the first four bytes of the content
come again and hash to such a slot, they are found in a cleared table and not found in a kept one
(`past_seen`).  Where that cannot happen the two ways come out the same as well (`past_unseen`).
-/

namespace Lz4Frame

open Block

/-! ## Relations between searchers with pasts of their own -/

namespace Encoder

/-- Fast searchers, whatever their tables remember. -/
def bothSound : Bond := fun _ _ first second =>
  ∃ table table', first = .fast table ∧ second = .fast table' ∧ table.Sound ∧ table'.Sound

variable [Platform]

theorem bothSound_lasting {prefs : Preferences} (hoff : prefs.linked = false) (content : Bytes)
    (early : Prop) : Lasting prefs content early bothSound where
  shorten h _ := h
  independent := by
    rintro sent block history first second - ⟨table, table', rfl, rfl, h, h'⟩ hblock
    have htidy : (Searcher.fast table).Tidy 0 := ⟨h, Nat.zero_le _⟩
    have htidy' : (Searcher.fast table').Tidy 0 := ⟨h', Nat.zero_le _⟩
    refine ⟨?_, _, _, rfl, rfl, (Searcher.independent_tidy htidy prefs hblock.ne_nil).1,
      (Searcher.independent_tidy htidy' prefs hblock.ne_nil).1⟩
    rw [Searcher.independent_cleared h', Searcher.independent_cleared h]
  linked := by simp [hoff]

/-- Fast searchers in frames of the same content. -/
def bothAbreast (content : Bytes) (unlearned : Prop) : Bond := fun sent history first second =>
  history.toList <:+ sent ∧ ∃ table table', first = .fast table ∧ second = .fast table'
    ∧ Searcher.Abreast content unlearned sent table table'

theorem bothAbreast_lasting {prefs : Preferences} (hon : prefs.linked = true) (content : Bytes)
    (unlearned : Prop) : Lasting prefs content unlearned (bothAbreast content unlearned) where
  shorten := by
    rintro sent history history' first second ⟨hhistory, htables⟩ hsuffix
    exact ⟨hsuffix.trans hhistory, htables⟩
  independent := by simp [hon]
  linked := by
    rintro sent block history first second - ⟨hhistory, table, table', rfl, rfl, h⟩ hblock joined
    rcases Searcher.linked_abreast h hblock.inside hblock.first prefs hhistory joined
        with ⟨hmade, hnext⟩
    refine ⟨hmade, ?_, hnext⟩
    rcases hhistory with ⟨before, rfl⟩
    exact ⟨before, by simp⟩

/-! ## Starting -/

/-- Whether an encoder has a table that a linked frame will keep. -/
def Seasoned (encoder : Encoder) : Prop :=
  ∃ table, encoder.searcher = .fast table ∧ table.Lasts

/-- The table that a frame starts with, if its search is the fast one. -/
def firstTable (encoder : Encoder) (prefs : Preferences) : Table :=
  match encoder.searcher with
  | .fast table => if prefs.linked then table.prepare 0 .wide else table
  | .long => .cleared

omit [Platform] in
theorem start_fast (encoder : Encoder) {room : Nat} (hroom : Header.maxLength ≤ room)
    {prefs : Preferences} (hfast : prefs.level < Level.firstHigh) :
    (encoder.start room prefs).1
      = { isOpen := true, prefs, searcher := .fast (encoder.firstTable prefs) } := by
  have hlow : prefs.isHighCompression = false := by
    rw [Preferences.isHighCompression, decide_eq_false_iff_not]
    omega
  rcases encoder with ⟨isOpen, prefs', searcher, history, held, total, digest⟩
  rw [start, if_neg (Nat.not_lt.mpr hroom), hlow]
  cases searcher <;> rfl

omit [Platform] in
theorem firstTable_sound {encoder : Encoder} (h : encoder.Tidy) {prefs : Preferences}
    (hoff : prefs.linked = false) : (encoder.firstTable prefs).Sound := by
  rcases encoder with ⟨isOpen, prefs', searcher, history, held, total, digest⟩
  cases searcher with
  | long => exact Table.cleared_sound
  | fast table =>
      simp only [firstTable, hoff, Bool.false_eq_true, ↓reduceIte]
      exact h.1.1

omit [Platform] in
/-- A linked frame starts with a table that knows nothing, or with one that knows nothing of the
frame. -/
theorem firstTable_linked {encoder : Encoder} (h : encoder.Tidy) {prefs : Preferences}
    (hon : prefs.linked = true) :
    (¬encoder.Seasoned ∧ encoder.firstTable prefs = .cleared)
      ∨ (encoder.Seasoned ∧ (encoder.firstTable prefs).slots.size = Table.slotCount
        ∧ ∀ slot < Table.slotCount,
          (encoder.firstTable prefs).slots.getD slot 0 < (encoder.firstTable prefs).next) := by
  rcases encoder with ⟨isOpen, prefs', searcher, history, held, total, digest⟩
  cases searcher with
  | long => exact .inl ⟨by simp [Seasoned], rfl⟩
  | fast table =>
      have hsound := Table.prepare_zero_sound h.1.1
      rcases Table.prepare_zero_wide h.1.1 with ⟨hwidth, hready⟩ | ⟨hwidth, hready⟩
      · refine .inl ⟨?_, by simp only [firstTable, hon, ↓reduceIte, hready]⟩
        rintro ⟨_, heq, hlasts⟩
        cases heq
        exact hwidth hlasts
      · refine .inr ⟨?_, ?_⟩
        · exact ⟨table, rfl, hwidth⟩
        · simp only [firstTable, hon, ↓reduceIte]
          exact ⟨hsound.size, hsound.met (by rw [hready]; simp [hwidth.1])⟩

omit [Platform] in
/-- Linked frames of the same content start alike if both tables were kept, or none was, or if the
slots that one of them knows nothing about tell nothing of the content. -/
theorem firstTable_abreast {first second : Encoder} (h : first.Tidy) (h' : second.Tidy)
    {prefs : Preferences} (hon : prefs.linked = true) {content : Bytes} {unlearned : Prop}
    (hplain : (first.Seasoned ↔ second.Seasoned)
      ∨ ∀ i, Echoes content i →
          unlearned ∧ byteAt content.toArray (i + 4) = byteAt content.toArray 4) :
    Searcher.Abreast content unlearned [] (first.firstTable prefs) (second.firstTable prefs) := by
  have hfree : (∀ i, Echoes content i →
      unlearned ∧ byteAt content.toArray (i + 4) = byteAt content.toArray 4) → ∀ slot,
        (unlearned → slot ≠ SlotWidth.wide.hash content.toArray 0) →
          Unechoed content .wide slot := by
    intro hplain slot hlearned i hecho hhash
    rcases hplain i hecho with ⟨hunlearned, hfifth⟩
    refine hlearned hunlearned ?_
    rw [← hhash, SlotWidth.hash, SlotWidth.hash, wideHash, wideHash, hecho.word, hfifth]
  refine ⟨(first.firstTable prefs).next, (second.firstTable prefs).next, rfl, rfl, ?_⟩
  rcases firstTable_linked h hon with ⟨hnew, hfirst⟩ | ⟨hold, hsize, hmet⟩
  · rcases firstTable_linked h' hon with ⟨hnew', hsecond⟩ | ⟨hold', hsize', hmet'⟩
    · rw [hfirst, hsecond]
      exact ⟨Table.cleared_sound.size, Table.cleared_sound.size, fun slot hslot _ =>
        .inl ⟨0, Table.getD_cleared hslot, Table.getD_cleared hslot⟩⟩
    · rw [hfirst]
      refine ⟨Table.cleared_sound.size, hsize', fun slot hslot hlearned =>
        .inr ⟨.inr ⟨rfl, Table.getD_cleared hslot, hfree (hplain.resolve_left ?_) slot
          (hlearned rfl)⟩, .inl (hmet' slot hslot)⟩⟩
      exact fun hboth => hnew (hboth.mpr hold')
  · rcases firstTable_linked h' hon with ⟨hnew', hsecond⟩ | ⟨hold', hsize', hmet'⟩
    · rw [hsecond]
      refine ⟨hsize, Table.cleared_sound.size, fun slot hslot hlearned =>
        .inr ⟨.inl (hmet slot hslot), .inr ⟨rfl, Table.getD_cleared hslot,
          hfree (hplain.resolve_left ?_) slot (hlearned rfl)⟩⟩⟩
      exact fun hboth => hnew' (hboth.mp hold)
    · exact ⟨hsize, hsize', fun slot hslot _ =>
        .inr ⟨.inl (hmet slot hslot), .inl (hmet' slot hslot)⟩⟩

end Encoder

/-! ## Calls, side by side -/

/-- Whether a call that makes the first block of a frame makes a long one, given how much waits. -/
def Call.Opens (autoflush : Bool) (waiting : Nat) : Call → Prop
  | .update content => autoflush = true → minCompressible ≤ content.length
  | .flush => waiting ≠ 0 → minCompressible ≤ waiting

namespace Compressor

/-- Compressors inside frames of the same content, whose encoders are twins. -/
structure Alongside (prefs : Preferences) (bond : Encoder.Bond) (taken : Bytes)
    (first second : Compressor) : Prop where
  stage_eq : second.stage = .active
  prefs_eq : second.prefs = prefs
  parts : ∃ sent, taken = sent ++ first.encoder.held.toList
    ∧ Encoder.Twins prefs bond sent first.encoder second.encoder

section SideBySide

variable {prefs : Preferences} {content : Bytes} {early : Prop} {bond : Encoder.Bond}
  {first second : Compressor} {taken wire : Bytes}

variable [Platform]

/-- A call is refused to both, or granted to both and sends the same.  As long as nothing is sent
behind a granted call, nothing was before it. -/
def SameAnswer (prefs : Preferences) (bond : Encoder.Bond) (taken : Bytes)
    (first second : Compressor) (call : Call) : Prop :=
  (∃ cause events events', first.call call = (first, ⟨.error cause, events⟩)
      ∧ second.call call = (second, ⟨.error cause, events'⟩))
    ∨ ∃ next next' bytes events events', first.call call = (next, ⟨.ok bytes, events⟩)
      ∧ second.call call = (next', ⟨.ok bytes, events'⟩)
      ∧ Alongside prefs bond (taken ++ call.content) next next'
      ∧ ((taken ++ call.content).length = next.encoder.held.size →
        taken.length = first.encoder.held.size)

theorem update_alongside (hlasting : Encoder.Lasting prefs content early bond)
    (hwithin : first.Within prefs taken wire) (h : Alongside prefs bond taken first second)
    {input : Bytes} (hgoes : ∀ bytes, (first.update input).2.value = .ok bytes →
      taken ++ input <+: content ∧ (early → taken.length = first.encoder.held.size →
        prefs.autoflush = true → minCompressible ≤ input.length)) :
    SameAnswer prefs bond taken first second (.update input) := by
  rcases first with ⟨gate, encoder, prefs₀, stage⟩
  rcases second with ⟨gate', encoder', settings, stage'⟩
  rcases hwithin with ⟨rfl, rfl, hencoder⟩
  rcases h with ⟨rfl, rfl, sent, htaken, htwins⟩
  simp only at hencoder htaken htwins hgoes
  by_cases hne : input = []
  · subst hne
    exact .inl ⟨_, _, _, rfl, rfl⟩
  cases hroom : roomFor settings input.length with
  | error cause =>
      exact .inl ⟨cause, [], [], update_eq_of_error gate encoder hne hroom,
        update_eq_of_error gate' encoder' hne hroom⟩
  | ok room =>
      have hcall := update_eq gate encoder hne hroom
      have hcall' := update_eq gate' encoder' hne hroom
      -- where the room suffices the update is granted, and its content goes on with what was taken
      have hblocks : (Bound.withHeld encoder.prefs (UInt64.ofNat input.length)
          (UInt64.ofNat encoder.held.size)).toNat ≤ room → encoder.missing ≤ input.length →
            Encoder.SendableAll content early sent (encoder.completed input) := by
        intro hfits hlong
        rw [htwins.prefs_eq] at hfits
        rcases Encoder.update_within hencoder room input hfits with ⟨next, bytes, hupdate, -⟩
        rcases hgoes bytes (by rw [hcall, hupdate]; rfl) with ⟨hinside, hopens⟩
        rw [htaken] at hinside hopens
        refine Encoder.sendableAll_completed ?_ hinside ?_ hlong
        · rw [htwins.prefs_eq]
          exact hencoder.held_le
        · intro hnil hearly hauto
          rw [htwins.prefs_eq] at hauto
          exact hopens hearly (by rw [hnil]; simp) hauto
      rcases Encoder.update_twins hlasting htwins hencoder.isOpen room hblocks
          with ⟨hrefused, hrefused'⟩
            | ⟨next, next', bytes, sent', hupdate, hupdate', hnext, hmore, hparts⟩
      · rw [hrefused] at hcall
        rw [hrefused'] at hcall'
        exact .inl ⟨_, _, _, hcall, hcall'⟩
      · rw [hupdate] at hcall
        rw [hupdate'] at hcall'
        rw [← htaken] at hparts
        refine .inr ⟨_, _, bytes, _, _, hcall, hcall', ⟨rfl, rfl, sent', hparts.symm, hnext⟩, ?_⟩
        intro hnone
        have hle := hmore.length_le
        have hlength := congrArg List.length hparts
        simp only [Call.content, htaken, List.length_append, Array.length_toList] at hnone hlength ⊢
        omega

theorem flush_alongside (hlasting : Encoder.Lasting prefs content early bond)
    (hwithin : first.Within prefs taken wire) (h : Alongside prefs bond taken first second)
    (hinside : taken <+: content)
    (hopens : early → taken.length = first.encoder.held.size → first.encoder.held.size ≠ 0 →
      minCompressible ≤ first.encoder.held.size) :
    SameAnswer prefs bond taken first second .flush := by
  rcases first with ⟨gate, encoder, prefs₀, stage⟩
  rcases second with ⟨gate', encoder', settings, stage'⟩
  rcases flush_within hwithin with ⟨last, sentBytes, hflushed, -, hheld, -⟩
  rcases hwithin with ⟨rfl, rfl, hencoder⟩
  rcases h with ⟨rfl, rfl, sent, htaken, htwins⟩
  simp only at hencoder htaken htwins hopens
  have hblocks : Encoder.SendableAll content early sent (Encoder.waiting encoder.held []) := by
    refine Encoder.sendableAll_waiting (by rwa [← htaken]) fun hnil hearly hsome =>
      hopens hearly ?_ hsome
    rw [htaken, hnil]
    simp
  have hcall := flush_eq gate encoder settings
  have hcall' := flush_eq gate' encoder' settings
  rcases Encoder.flush_twins hlasting htwins hencoder.isOpen
      (Bound.worst settings 0 (Bound.mostHeld settings)) hblocks
      with ⟨hrefused, hrefused'⟩ | ⟨next, next', bytes, hflush, hflush', hnext⟩
  · rw [hrefused] at hcall
    rw [hrefused'] at hcall'
    exact .inl ⟨_, _, _, hcall, hcall'⟩
  · rw [hflush] at hcall
    rw [hflush'] at hcall'
    have hnone : next.held = #[] := by
      cases hcall.symm.trans hflushed
      exact hheld
    refine .inr ⟨_, _, bytes, _, _, hcall, hcall', ⟨rfl, rfl, _, ?_, hnext⟩, ?_⟩
    · simp [Call.content, htaken, hnone]
    · intro hlength
      simp only [Call.content, htaken, hnone, List.length_append, List.length_nil,
        Array.length_toList, List.size_toArray] at hlength ⊢
      omega

/-- A call that goes on with the content has the same answer from both. -/
theorem call_alongside (hlasting : Encoder.Lasting prefs content early bond)
    (hwithin : first.Within prefs taken wire) (h : Alongside prefs bond taken first second)
    {call : Call} (hgoes : ∀ bytes, (first.call call).2.value = .ok bytes →
      taken ++ call.content <+: content ∧ (early → taken.length = first.encoder.held.size →
        call.Opens prefs.autoflush first.encoder.held.size)) :
    SameAnswer prefs bond taken first second call := by
  cases call with
  | update input => exact update_alongside hlasting hwithin h hgoes
  | flush =>
      rcases flush_within hwithin with ⟨next, bytes, hflush, -, -, -⟩
      rcases hgoes bytes (by simp only [call, hflush, Traced.ofCall]) with ⟨hinside, hopens⟩
      exact flush_alongside hlasting hwithin h (by simpa [Call.content] using hinside) hopens

/-- Closing the frame has the same answer from both. -/
theorem finish_alongside (hlasting : Encoder.Lasting prefs content early bond)
    (hwithin : first.Within prefs content wire) (h : Alongside prefs bond content first second)
    (hopens : early → content.length = first.encoder.held.size → first.encoder.held.size ≠ 0 →
      minCompressible ≤ first.encoder.held.size) :
    second.finish.2.value = first.finish.2.value := by
  rcases first with ⟨gate, encoder, prefs₀, stage⟩
  rcases second with ⟨gate', encoder', settings, stage'⟩
  rcases hwithin with ⟨rfl, rfl, hencoder⟩
  rcases h with ⟨rfl, rfl, sent, hcontent, htwins⟩
  simp only at hencoder hcontent htwins hopens
  have hblocks : Encoder.SendableAll content early sent (Encoder.waiting encoder.held []) := by
    refine Encoder.sendableAll_waiting (hcontent ▸ List.prefix_rfl)
      fun hnil hearly hsome => hopens hearly ?_ hsome
    rw [hcontent, hnil]
    simp
  have hanswer := (Encoder.finish_twins hlasting htwins hencoder.isOpen
    (Bound.worst settings 0 (Bound.mostHeld settings)) hblocks).1
  simp only [finish, Bound.roomFor_eq (Bound.countable_zero settings)]
  exact congrArg (Except.mapError Error.frame) hanswer

/-- How much content is taken before the first block is asked for: by a flush that finds something
waiting, by the end of the frame, or with autoflush by an update. -/
def lead (autoflush : Bool) : (waiting : Nat) → List Call → List (Except Error Bytes) → Nat
  | waiting, .update content :: row, .ok _ :: answers =>
      if autoflush then content.length else lead autoflush (waiting + content.length) row answers
  | waiting, .flush :: row, .ok _ :: answers =>
      if waiting = 0 then lead autoflush 0 row answers else waiting
  | waiting, _ :: row, .error _ :: answers => lead autoflush waiting row answers
  | waiting, _, _ => waiting

/-- As long as nothing was sent, what a granted call takes is waiting behind it. -/
theorem lead_of_granted (hwithin : first.Within prefs taken wire) {call : Call} {next : Compressor}
    {bytes : Bytes} {events : List LockEvent} {row : List Call}
    {answers : List (Except Error Bytes)} (hcall : first.call call = (next, ⟨.ok bytes, events⟩))
    (hnone : (taken ++ call.content).length = next.encoder.held.size)
    (hwaits : taken.length = first.encoder.held.size)
    (hlead : minCompressible
      ≤ lead prefs.autoflush first.encoder.held.size (call :: row) (.ok bytes :: answers)) :
    minCompressible ≤ lead prefs.autoflush next.encoder.held.size row answers := by
  cases call with
  | update input =>
      rcases update_cases hwithin input
          with ⟨cause, events', hrefused⟩ | ⟨next', bytes', events', hupdate, hnext⟩
      · cases hrefused.symm.trans hcall
      · cases hupdate.symm.trans hcall
        have hheld := hnext.encoder.held_le
        simp only [Call.content, List.length_append] at hnone
        simp only [lead] at hlead
        cases hauto : prefs.autoflush with
        | true =>
            -- with autoflush nothing waits
            simp only [hauto, ↓reduceIte, minCompressible] at hlead
            simp only [Bound.mostHeld, hauto, ↓reduceIte] at hheld
            omega
        | false =>
            rwa [hauto, if_neg Bool.false_ne_true, ← hwaits, hnone] at hlead
  | flush =>
      rcases flush_within hwithin with ⟨next', bytes', hflush, -, hheld, -⟩
      cases hflush.symm.trans hcall
      have hempty : next.encoder.held.size = 0 := by rw [hheld]; rfl
      have hzero : first.encoder.held.size = 0 := by
        simp only [Call.content, List.append_nil] at hnone
        omega
      rw [hempty]
      simpa only [lead, hzero, ↓reduceIte] using hlead

/-- Calls that go on with the content have the same answers from both. -/
theorem tries_alongside (hlasting : Encoder.Lasting prefs content early bond)
    (hwithin : first.Within prefs taken wire) (h : Alongside prefs bond taken first second)
    {row : List Call} {answers : List (Except Error Bytes)} {last : Compressor}
    (htries : first.tries row = (last, answers))
    (hcontent : taken ++ Lz4Frame.taken row answers = content)
    (hlead : early → taken.length = first.encoder.held.size →
      minCompressible ≤ lead prefs.autoflush first.encoder.held.size row answers) :
    ∃ last', second.tries row = (last', answers) ∧ Alongside prefs bond content last last'
      ∧ (early → content.length = last.encoder.held.size →
        minCompressible ≤ last.encoder.held.size) := by
  -- on the calls; each leaves compressors side by side, behind what it took
  induction row generalizing first second taken wire answers with
  | nil =>
      simp only [tries, Prod.mk.injEq] at htries
      rcases htries with ⟨rfl, rfl⟩
      obtain rfl : taken = content := by simpa [Lz4Frame.taken] using hcontent
      exact ⟨second, rfl, h, by simpa [lead] using hlead⟩
  | cons call row ih =>
      rcases tries_cons htries with ⟨later, hrest, rfl⟩
      have hgoes : ∀ bytes, (first.call call).2.value = .ok bytes →
          taken ++ call.content <+: content ∧ (early → taken.length = first.encoder.held.size →
            call.Opens prefs.autoflush first.encoder.held.size) := by
        intro bytes hvalue
        rw [hvalue] at hcontent hlead
        refine ⟨⟨Lz4Frame.taken row later, by rw [List.append_assoc]; exact hcontent⟩, ?_⟩
        intro hearly hwaits
        have hlong := hlead hearly hwaits
        cases call with
        | update input =>
            intro hauto
            simpa [lead, hauto] using hlong
        | flush =>
            intro hsome
            simpa [lead, hsome] using hlong
      rcases call_alongside hlasting hwithin h hgoes
          with ⟨cause, events, events', hcall, hcall'⟩
            | ⟨next, next', bytes, events, events', hcall, hcall', hnext, hwaits⟩
      · rw [hcall] at hrest hcontent hlead
        have hlead' : early → taken.length = first.encoder.held.size →
            minCompressible ≤ lead prefs.autoflush first.encoder.held.size row later := by
          cases call <;> exact hlead
        rcases ih hwithin h hrest hcontent hlead' with ⟨last₂, htries, hlast⟩
        refine ⟨last₂, ?_, hlast⟩
        simp only [tries, hcall, hcall', htries]
      · rw [hcall] at hrest hcontent hlead
        rcases call_cases hwithin call
            with ⟨cause, events₂, hrefused⟩ | ⟨next₂, bytes₂, events₂, hgranted, hwithin'⟩
        · cases hrefused.symm.trans hcall
        cases hgranted.symm.trans hcall
        have hcontent' : taken ++ call.content ++ Lz4Frame.taken row later = content := by
          rw [List.append_assoc]
          exact hcontent
        rcases ih hwithin' hnext hrest hcontent' (fun hearly hnone => lead_of_granted hwithin hcall
            hnone (hwaits hnone) (hlead hearly (hwaits hnone))) with ⟨last₂, htries, hlast⟩
        refine ⟨last₂, ?_, hlast⟩
        simp only [tries, hcall, hcall', htries]

end SideBySide

/-! ## Records -/

section

variable [Platform]

/-- What a compressor answers when it is asked to start a frame, to make some calls, whether they
are granted or not, and to close the frame. -/
def record (compressor : Compressor) (prefs : Preferences) (row : List Call) :
    List (Except Error Bytes) :=
  let (started, header) := compressor.start prefs
  let (active, answers) := started.tries row
  header.value :: answers ++ [active.finish.2.value]

/-- The content that such a compressor takes. -/
def takes (compressor : Compressor) (prefs : Preferences) (row : List Call) : Bytes :=
  taken row ((compressor.start prefs).1.tries row).2

/-- Whether a slot that nothing was learned about tells nothing of the content: where its first four
bytes come again, the fifth does as well, and then the first block is long enough to learn the place
where they came first. -/
def Plain (compressor : Compressor) (prefs : Preferences) (row : List Call) : Prop :=
  let content := compressor.takes prefs row
  ∀ i, Echoes content i →
    minCompressible ≤ lead prefs.autoflush 0 row ((compressor.start prefs).1.tries row).2
      ∧ byteAt content.toArray (i + 4) = byteAt content.toArray 4

omit [Platform] in
theorem start_fast (compressor : Compressor) {prefs : Preferences}
    (hfast : prefs.level < Level.firstHigh) :
    compressor.start prefs
      = (⟨compressor.gate,
          { isOpen := true, prefs, searcher := .fast (compressor.encoder.firstTable prefs) }, prefs,
          .active⟩, .ofCall (.ok (Header.ofPreferences prefs).encode)) := by
  have hencoder := compressor.encoder.start_fast (Nat.le_refl Header.maxLength) hfast
  rcases compressor.encoder.start_within (Nat.le_refl Header.maxLength) prefs
      with ⟨next, hstart, -⟩
  rw [hstart] at hencoder
  obtain rfl : next = _ := hencoder
  simp only [start, Preferences.validate_fast hfast, hstart]

/-- Started on the same content, encoders with pasts of their own are twins, in a relation that
lasts. -/
theorem start_twins {first second : Compressor} (h : first.encoder.Tidy)
    (h' : second.encoder.Tidy) {prefs : Preferences} (hfast : prefs.level < Level.firstHigh)
    {row : List Call} (hplain : prefs.linked = false
      ∨ (first.encoder.Seasoned ↔ second.encoder.Seasoned) ∨ first.Plain prefs row) :
    ∃ (early : Prop) (bond : Encoder.Bond),
      Encoder.Lasting prefs (first.takes prefs row) early bond
        ∧ (early → minCompressible
          ≤ lead prefs.autoflush 0 row ((first.start prefs).1.tries row).2)
        ∧ Encoder.Twins prefs bond [] (first.start prefs).1.encoder
          (second.start prefs).1.encoder := by
  rw [first.start_fast hfast, second.start_fast hfast]
  cases hlinked : prefs.linked with
  | false =>
      exact ⟨False, _, Encoder.bothSound_lasting hlinked _ _, nofun, rfl, rfl, _, _, rfl, rfl,
        Encoder.firstTable_sound h hlinked, Encoder.firstTable_sound h' hlinked⟩
  | true =>
      rcases hplain.resolve_left (by simp [hlinked]) with hboth | hplain
      · exact ⟨False, _, Encoder.bothAbreast_lasting hlinked _ _, nofun, rfl, rfl,
          List.nil_suffix, _, _, rfl, rfl, Encoder.firstTable_abreast h h' hlinked (.inl hboth)⟩
      · refine ⟨∃ i, Echoes (first.takes prefs row) i, _, Encoder.bothAbreast_lasting hlinked _ _,
          ?_, rfl, rfl, List.nil_suffix, _, _, rfl, rfl,
          Encoder.firstTable_abreast h h' hlinked (.inr fun i hecho => ⟨⟨i, hecho⟩, ?_⟩)⟩
        · rintro ⟨i, hecho⟩
          have := (hplain i hecho).1
          rwa [first.start_fast hfast] at this
        · exact (hplain i hecho).2

/-- It is enough to look at the places in the content that is taken. -/
theorem plain_of_takes {compressor : Compressor} {prefs : Preferences} {row : List Call}
    {content : Bytes} (htakes : compressor.takes prefs row = content)
    (hlead : minCompressible
      ≤ lead prefs.autoflush 0 row ((compressor.start prefs).1.tries row).2)
    (hfifth : ∀ i < content.length, wordAt content.toArray i = wordAt content.toArray 0 →
      i + matchMargin ≤ content.length →
        byteAt content.toArray (i + 4) = byteAt content.toArray 4) :
    compressor.Plain prefs row := by
  subst htakes
  intro i hecho
  have hroom := hecho.room
  simp only [matchMargin] at hroom
  exact ⟨hlead, hfifth i (by omega) hecho.word hecho.room⟩

/-- Whatever two compressors were asked before, a frame at a fast level gets the same answers from
both, call by call, refusals included: if its blocks are independent, if both go on with a table or
neither does, or if the content is plain. -/
theorem past_unseen {gate gate' : Gate} (past : Past gate) (past' : Past gate')
    {prefs : Preferences}
    (hfast : prefs.level < Level.firstHigh) (row : List Call)
    (hplain : prefs.linked = false
      ∨ (past.compressor.encoder.Seasoned ↔ past'.compressor.encoder.Seasoned)
      ∨ past.compressor.Plain prefs row) :
    past'.compressor.record prefs row = past.compressor.record prefs row := by
  have htidy : past.compressor.encoder.Tidy :=
    after_tidy (new_sound gate) Encoder.new_tidy past.history
  have htidy' : past'.compressor.encoder.Tidy :=
    after_tidy (new_sound gate') Encoder.new_tidy past'.history
  generalize past.compressor = first at *
  generalize past'.compressor = second at *
  rcases start_twins htidy htidy' hfast hplain with ⟨early, bond, hlasting, hlead, htwins⟩
  rcases first.start_within (Preferences.validate_fast hfast) with ⟨started, hstart, hwithin⟩
  rcases second.start_within (Preferences.validate_fast hfast) with ⟨started', hstart', hwithin'⟩
  rcases htries : started.tries row with ⟨active, answers⟩
  simp only [takes, hstart, htries] at hlasting hlead
  rw [hstart, hstart'] at htwins
  have hempty : started.encoder.held = #[] := by
    rcases hwithin.encoder.parts with ⟨sent, -, hnil, -⟩
    simpa using (List.append_eq_nil_iff.mp hnil.symm).2
  have hbeside : Alongside prefs bond [] started started' :=
    ⟨hwithin'.stage_eq, hwithin'.prefs_eq, [], by simp [hempty], htwins⟩
  rcases tries_alongside hlasting hwithin hbeside htries (List.nil_append _)
      (fun hearly _ => by simpa [hempty] using hlead hearly)
      with ⟨active', htries', hbeside', hopens⟩
  have hactive := tries_within hwithin htries
  rw [List.nil_append] at hactive
  have hfinish := finish_alongside hlasting hactive hbeside'
    fun hearly hnone _ => hopens hearly hnone
  simp only [record, hstart, hstart', htries, htries', hfinish]

end

open Reference in
/-- Content whose first five bytes come again, for a new compressor and for one that has made a
linked frame. -/
theorem past_unseen_repeat :
    Level.fast < Level.firstHigh
      ∧ (new .locked).Spared [.start {}, .update [0], .finish]
      ∧ (new .native).Plain {}
        [.update ([1, 2, 3, 4, 5, 6, 7, 8, 1, 2, 3, 4, 5] ++ List.replicate 23 0)]
      ∧ ((new .locked).after [.start {}, .update [0], .finish]).record {}
          [.update ([1, 2, 3, 4, 5, 6, 7, 8, 1, 2, 3, 4, 5] ++ List.replicate 23 0)]
        = (new .native).record {}
          [.update ([1, 2, 3, 4, 5, 6, 7, 8, 1, 2, 3, 4, 5] ++ List.replicate 23 0)] := by
  have htakes : (new .native).takes {}
      [.update ([1, 2, 3, 4, 5, 6, 7, 8, 1, 2, 3, 4, 5] ++ List.replicate 23 0)]
        = [1, 2, 3, 4, 5, 6, 7, 8, 1, 2, 3, 4, 5] ++ List.replicate 23 0 := by
    decide +kernel
  have hplain : (new .native).Plain {}
      [.update ([1, 2, 3, 4, 5, 6, 7, 8, 1, 2, 3, 4, 5] ++ List.replicate 23 0)] :=
    plain_of_takes htakes (by decide +kernel) (by decide +kernel)
  have hspared : (new .locked).Spared [.start {}, .update [0], .finish] := by decide +kernel
  exact ⟨by decide, hspared, hplain,
    past_unseen (.none .native) ⟨_, hspared⟩ (by decide) _ (.inr (.inr hplain))⟩

open Reference in
/-- Content whose first four bytes come again with another fifth. -/
theorem past_seen :
    ((new .native).after [.start {}, .update [0], .finish]).record {}
        [.update ([1, 2, 3, 4, 5, 6, 7, 8, 1, 2, 3, 4, 9] ++ List.replicate 23 0)]
      ≠ (new .native).record {}
        [.update ([1, 2, 3, 4, 5, 6, 7, 8, 1, 2, 3, 4, 9] ++ List.replicate 23 0)] := by
  intro hsame
  have hlengths := congrArg (List.map fun answer => answer.toOption.map List.length) hsame
  revert hlengths
  decide +kernel

end Compressor

end Lz4Frame
