import Lz4Frame.Codec
import Lz4Frame.Proofs.Compressor.Frames
import Lz4Frame.Proofs.Frame.Whole

/-!
# Frames that were made

Whatever was handed over, and however long it was: if making a frame has succeeded, in one call or
piece by piece, then it is a frame of what was taken (`Made.isFrame`).  Calls that are refused on
the way leave no trace in it.
-/

namespace Lz4Frame

/-! ## Calls that may be refused -/

/-- The content of the calls that were granted. -/
def taken : List Call → List (Except Error Bytes) → Bytes
  | call :: row, .ok _ :: answers => call.content ++ taken row answers
  | _ :: row, .error _ :: answers => taken row answers
  | _, _ => []

/-- The bytes that granted calls have sent. -/
def sentBy : List (Except Error Bytes) → Bytes
  | .ok bytes :: answers => bytes ++ sentBy answers
  | .error _ :: answers => sentBy answers
  | [] => []

namespace Compressor

variable [Platform]

/-- Makes calls, one after another, whether they are granted or not. -/
def tries (compressor : Compressor) : List Call → Compressor × List (Except Error Bytes)
  | [] => (compressor, [])
  | call :: row =>
      let (next, answer) := compressor.call call
      let (last, answers) := next.tries row
      (last, answer.value :: answers)

theorem tries_cons {compressor last : Compressor} {call : Call} {row : List Call}
    {answers : List (Except Error Bytes)} :
    compressor.tries (call :: row) = (last, answers) →
      ∃ later, (compressor.call call).1.tries row = (last, later)
        ∧ answers = (compressor.call call).2.value :: later := by
  intro h
  rcases hrest : (compressor.call call).1.tries row with ⟨last', later⟩
  simp only [tries, hrest, Prod.mk.injEq] at h
  exact ⟨later, by rw [h.1], h.2.symm⟩

/-- A call inside a frame is refused without a trace, or all of its content is taken. -/
theorem call_cases {compressor : Compressor} {prefs : Preferences} {content wire : Bytes}
    (h : compressor.Within prefs content wire) (call : Call) :
    (∃ cause events, compressor.call call = (compressor, ⟨.error cause, events⟩))
      ∨ ∃ next bytes events, compressor.call call = (next, ⟨.ok bytes, events⟩)
        ∧ next.Within prefs (content ++ call.content) (wire ++ bytes) := by
  cases call with
  | update input => exact update_cases h input
  | flush =>
      rcases flush_within h with ⟨next, bytes, hflush, hwithin, -, -⟩
      exact .inr ⟨next, bytes, _, hflush, by simpa [Call.content] using hwithin⟩

theorem tries_within {compressor last : Compressor} {prefs : Preferences} {content wire : Bytes}
    (h : compressor.Within prefs content wire) {row : List Call}
    {answers : List (Except Error Bytes)} :
    compressor.tries row = (last, answers) →
      last.Within prefs (content ++ taken row answers) (wire ++ sentBy answers) := by
  intro htries
  -- on the calls; each goes on from what was taken and sent before it
  induction row generalizing compressor content wire answers with
  | nil =>
      simp only [tries, Prod.mk.injEq] at htries
      rcases htries with ⟨rfl, rfl⟩
      simpa [taken, sentBy] using h
  | cons call row ih =>
      rcases tries_cons htries with ⟨later, hrest, rfl⟩
      rcases call_cases h call with ⟨cause, events, hcall⟩ | ⟨next, bytes, events, hcall, hnext⟩
      · rw [hcall] at hrest ⊢
        exact ih h hrest
      · rw [hcall] at hrest ⊢
        simpa [taken, sentBy] using ih hnext hrest

/-- Calls that fit are all granted. -/
theorem tries_fits {compressor last : Compressor} {prefs : Preferences} {content wire : Bytes}
    (h : compressor.Within prefs content wire) {row : List Call}
    (hfits : ∀ call ∈ row, call.Fits prefs) {answers : List (Except Error Bytes)} :
    compressor.tries row = (last, answers) → taken row answers = contentOf row := by
  intro htries
  induction row generalizing compressor content wire answers with
  | nil => rfl
  | cons call row ih =>
      rcases tries_cons htries with ⟨later, hrest, rfl⟩
      rcases call_within h (hfits call (.head _)) with ⟨next, bytes, events, hcall, hnext⟩
      rw [hcall] at hrest ⊢
      rw [taken, contentOf_cons, ih hnext (fun call hmem => hfits call (.tail _ hmem)) hrest]

/-- Nothing waits behind a flush, and with autoflush nothing ever does. -/
theorem tries_flushed {compressor last : Compressor} {prefs : Preferences} {content wire : Bytes}
    (h : compressor.Within prefs content wire) {row : List Call}
    (hends : prefs.autoflush = true ∨ row.getLast? = some .flush)
    {answers : List (Except Error Bytes)} :
    compressor.tries row = (last, answers) → last.encoder.held = #[] := by
  intro htries
  rcases hends with hauto | hlast
  · have hle := (tries_within h htries).encoder.held_le
    simp only [Bound.mostHeld, hauto, ↓reduceIte, Nat.le_zero] at hle
    exact Array.eq_empty_of_size_eq_zero hle
  · -- on the calls, up to the flush at their end
    induction row generalizing compressor content wire answers with
    | nil => cases hlast
    | cons call row ih =>
        rcases tries_cons htries with ⟨later, hrest, rfl⟩
        cases row with
        | nil =>
            obtain rfl : call = .flush := by simpa using hlast
            rcases flush_within h with ⟨next, bytes, hflush, -, hheld, -⟩
            simp only [call, hflush, tries, Prod.mk.injEq] at hrest
            exact hrest.1 ▸ hheld
        | cons call' row =>
            rw [List.getLast?_cons_cons] at hlast
            rcases call_cases h call
                with ⟨cause, events, hcall⟩ | ⟨next, bytes, events, hcall, hnext⟩
            · rw [hcall] at hrest
              exact ih h hrest hlast
            · rw [hcall] at hrest
              exact ih hnext hrest hlast

end Compressor

/-! ## In one piece -/

variable [Platform]

/-- A frame in one piece is a frame of the content, whatever room it was made in. -/
theorem Encoder.whole_ok {prefs : Preferences} {content frame : Bytes} {room : Nat}
    (hlength : content.length < 0x10000000000000000) :
    whole prefs room content = .ok frame →
      IsFrame (.ofPreferences (wholePreferences prefs content.length)) content frame := by
  intro h
  have hdeclared : (wholePreferences prefs content.length).declaredOrZero = 0
      ∨ (wholePreferences prefs content.length).declaredOrZero = content.length := by
    unfold wholePreferences Preferences.declaredOrZero
    split
    · exact .inl rfl
    · exact .inr rfl
  unfold whole at h
  simp only at h
  generalize wholePreferences prefs content.length = settings at h hdeclared ⊢
  split at h
  · cases h
  by_cases hheader : Header.maxLength ≤ room
  · rcases new.start_within hheader settings with ⟨started, hstart, hwithin⟩
    rw [hstart] at h
    simp only at h
    rcases update_cases hwithin (roomBehind room (Header.ofPreferences settings).encode.length)
        content
        with hrefused | ⟨updated, blocks, hupdate, hwithin'⟩
    · rw [hrefused] at h
      cases h
    · rw [hupdate] at h
      simp only at h
      rcases finish_cases hwithin'
          (roomBehind room ((Header.ofPreferences settings).encode.length + blocks.length))
          with ⟨-, closed, hrefused⟩ | ⟨closed, rest, -, -, -, hfinish, hframe⟩
      · rw [hrefused] at h
        cases h
      · rw [hfinish, if_neg (by simp only [List.nil_append]; omega)] at h
        simp only [Except.ok.injEq] at h
        subst h
        simpa using hframe (by omega) (by simpa using hdeclared)
  · rw [start, if_pos (Nat.lt_of_not_le hheader)] at h
    cases h

/-! ## Frames that were made -/

/-- The frames that a caller can come by: those made in one call, and those that a compressor in any
state was made to write piece by piece. -/
inductive Made : (content frame : Bytes) → Prop
  | inOneCall {gate : Gate} {prefs : Preferences} {content frame : Bytes}
      (length_lt : content.length < 0x10000000000000000)
      (made : (Codec.compress gate prefs content).value = .ok frame) : Made content frame
  | inParts {compressor started active closed : Compressor} {prefs : Preferences}
      {row : List Call} {answers : List (Except Error Bytes)} {header trailer : Bytes}
      {starting finishing : List LockEvent}
      (declared_lt : prefs.declaredOrZero < 0x10000000000000000)
      (start_eq : compressor.start prefs = (started, ⟨.ok header, starting⟩))
      (tries_eq : started.tries row = (active, answers))
      (finish_eq : active.finish = (closed, ⟨.ok trailer, finishing⟩)) :
      Made (taken row answers) (header ++ sentBy answers ++ trailer)

/-- What was made in one call was made in the room that was found for it. -/
theorem Codec.compress_whole {gate : Gate} {prefs : Preferences} {content frame : Bytes} :
    (Codec.compress gate prefs content).value = .ok frame →
      content ≠ [] ∧ prefs.validate = .ok ()
        ∧ ∃ room, Bound.checked (Bound.frame { prefs with declaredSize := some content.length }
            (UInt64.ofNat content.length)) = .ok room
          ∧ Encoder.whole { prefs with declaredSize := some content.length } room content
            = .ok frame := by
  intro made
  rw [Codec.compress] at made
  split at made
  · cases made
  · rename_i hempty
    simp only at made
    split at made
    · cases made
    · rename_i hsized
      rcases bind_eq_ok.mp hsized with ⟨_, hvalid, hsized⟩
      rcases bind_eq_ok.mp hsized with ⟨_, hroom, hsized⟩
      rcases bind_eq_ok.mp hsized with ⟨_, -, hsized⟩
      cases hsized
      exact ⟨by simpa [List.isEmpty_iff] using hempty, hvalid, _, hroom, mapError_eq_ok.mp made⟩

/-- What was made in one call, and within the room that was found for it, expands to less than all
memory. -/
theorem Codec.compress_length_lt {gate : Gate} {prefs : Preferences} {content frame : Bytes}
    (hwithin : ¬ Codec.Overruns prefs content) :
    (Codec.compress gate prefs content).value = .ok frame →
      Codec.maxExpansion * frame.length < assuredSize := by
  intro made
  rcases compress_whole made with ⟨-, -, room, hroom, hwhole⟩
  have hbound := Bound.frame_lt { prefs with declaredSize := some content.length }
    (UInt64.ofNat content.length)
  have hframe : frame.length ≤ room := by
    rw [Codec.overruns_iff prefs hroom, hwhole] at hwithin
    exact Nat.le_of_not_lt hwithin
  rw [← Bound.checked_eq hroom] at hbound
  unfold Codec.maxExpansion
  omega

/-- What was made in one call is a frame of the content, with the settings of a frame in one
piece. -/
theorem Codec.compress_ok {gate : Gate} {prefs : Preferences} {content frame : Bytes}
    (length_lt : content.length < 0x10000000000000000) :
    (Codec.compress gate prefs content).value = .ok frame →
      IsFrame (.ofPreferences (Encoder.wholePreferences
        { prefs with declaredSize := some content.length } content.length)) content frame := by
  intro made
  rcases compress_whole made with ⟨-, -, room, -, hwhole⟩
  exact Encoder.whole_ok length_lt hwhole

/-- What was made piece by piece is a frame of what was taken, and it starts with the header. -/
theorem Compressor.frame_ok {compressor started active closed : Compressor} {prefs : Preferences}
    {row : List Call} {answers : List (Except Error Bytes)} {header trailer : Bytes}
    {starting finishing : List LockEvent}
    (declared_lt : prefs.declaredOrZero < 0x10000000000000000)
    (start_eq : compressor.start prefs = (started, ⟨.ok header, starting⟩))
    (tries_eq : started.tries row = (active, answers))
    (finish_eq : active.finish = (closed, ⟨.ok trailer, finishing⟩)) :
    header = (Header.ofPreferences prefs).encode
      ∧ IsFrame (.ofPreferences prefs) (taken row answers)
        (header ++ sentBy answers ++ trailer) := by
  cases hvalid : prefs.validate with
  | error cause =>
      simp only [Compressor.start, hvalid] at start_eq
      cases start_eq
  | ok =>
      rcases compressor.start_within hvalid with ⟨started', hstart, hwithin⟩
      cases hstart.symm.trans start_eq
      have hactive := Compressor.tries_within hwithin tries_eq
      rcases Compressor.finish_cases hactive with ⟨closed', bytes, -, -, -, -, -, hfinish, hframe⟩
      rw [hfinish] at finish_eq
      split at finish_eq
      · cases finish_eq
      · rename_i hgood
        cases finish_eq
        simp only [List.nil_append] at hgood hframe
        exact ⟨rfl, hframe declared_lt (by omega)⟩

/-- What was made is a frame of what was taken, with the header of some settings. -/
theorem Made.isFrame_ofPreferences {content frame : Bytes} :
    Made content frame → ∃ prefs, IsFrame (.ofPreferences prefs) content frame := by
  intro h
  cases h with
  | inOneCall length_lt made => exact ⟨_, Codec.compress_ok length_lt made⟩
  | inParts declared_lt start_eq tries_eq finish_eq =>
      exact ⟨_, (Compressor.frame_ok declared_lt start_eq tries_eq finish_eq).2⟩

theorem Made.isFrame {content frame : Bytes} :
    Made content frame → ∃ header, IsFrame header content frame := by
  intro h
  rcases h.isFrame_ofPreferences with ⟨prefs, hframe⟩
  exact ⟨_, hframe⟩

/-- The frames that were made with these settings, in one call or piece by piece by a compressor in
any state. -/
inductive MadeWith (prefs : Preferences) : (content frame : Bytes) → Prop
  | inOneCall {gate : Gate} {content frame : Bytes}
      (length_lt : content.length < 0x10000000000000000)
      (made : (Codec.compress gate prefs content).value = .ok frame) : MadeWith prefs content frame
  | inParts {compressor started active closed : Compressor} {row : List Call}
      {answers : List (Except Error Bytes)} {header trailer : Bytes}
      {starting finishing : List LockEvent}
      (declared_lt : prefs.declaredOrZero < 0x10000000000000000)
      (start_eq : compressor.start prefs = (started, ⟨.ok header, starting⟩))
      (tries_eq : started.tries row = (active, answers))
      (finish_eq : active.finish = (closed, ⟨.ok trailer, finishing⟩)) :
      MadeWith prefs (taken row answers) (header ++ sentBy answers ++ trailer)

/-- What was made with some settings has the checksums that these ask for. -/
theorem MadeWith.isFrame {prefs : Preferences} {content frame : Bytes} :
    MadeWith prefs content frame →
      ∃ settings : Preferences, IsFrame (.ofPreferences settings) content frame
        ∧ settings.blockChecksum = prefs.blockChecksum
        ∧ settings.contentChecksum = prefs.contentChecksum := by
  intro h
  cases h with
  | inOneCall length_lt made => exact ⟨_, Codec.compress_ok length_lt made, rfl, rfl⟩
  | inParts declared_lt start_eq tries_eq finish_eq =>
      exact ⟨_, (Compressor.frame_ok declared_lt start_eq tries_eq finish_eq).2, rfl, rfl⟩

end Lz4Frame
