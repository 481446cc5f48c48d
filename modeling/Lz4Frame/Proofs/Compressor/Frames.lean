import Lz4Frame.Proofs.Frame.Encoding

/-!
# Frames from a compressor

A compressor finds room for the worst case before each call, so inside a frame no call is refused
for want of room, as long as the blocks of its input can be counted.  Whatever the compressor did
before, starting a frame, making any row of calls and closing the frame gives a frame of the content
that the calls handed over (`frame_isFrame`), with one block for each part of the content that was
sent (`calls_sends`, `frame_sends`).
-/

namespace Lz4Frame

/-! ## Calls inside a frame -/

/-- A call inside a frame. -/
inductive Call
  | update (content : Bytes)
  | flush

namespace Call

/-- The content that a call hands over. -/
def content : Call → Bytes
  | update content => content
  | flush => []

/-- A call that hands over something, but no more than blocks can be counted for. -/
def Fits (prefs : Preferences) : Call → Prop
  | update content => content ≠ [] ∧ Bound.Countable prefs content.length
  | flush => True

end Call

/-- The content of a row of calls. -/
def contentOf (calls : List Call) : Bytes := calls.flatMap Call.content

@[simp] theorem contentOf_nil : contentOf [] = [] := rfl

@[simp] theorem contentOf_cons (call : Call) (calls : List Call) :
    contentOf (call :: calls) = call.content ++ contentOf calls := rfl

namespace Compressor

variable [Platform]

/-- Makes a call. -/
def call (compressor : Compressor) : Call → Compressor × Traced (Except Error Bytes)
  | .update content => compressor.update content
  | .flush => compressor.flush

/-- Makes calls, one after another, up to the first failure; gives what each of them has sent. -/
def calls (compressor : Compressor) : List Call → Compressor × Except Error (List Bytes)
  | [] => (compressor, .ok [])
  | call :: rest =>
      match compressor.call call with
      | (next, ⟨.error cause, _⟩) => (next, .error cause)
      | (next, ⟨.ok bytes, _⟩) =>
          match next.calls rest with
          | (last, .error cause) => (last, .error cause)
          | (last, .ok outputs) => (last, .ok (bytes :: outputs))

/-! ## Inside a frame -/

/-- What a compressor has taken and sent since it started a frame. -/
structure Within (compressor : Compressor) (prefs : Preferences) (content wire : Bytes) : Prop where
  stage_eq : compressor.stage = .active
  prefs_eq : compressor.prefs = prefs
  encoder : compressor.encoder.Within prefs content wire

omit [Platform] in
/-- A frame can be started in any state. -/
theorem start_sends (compressor : Compressor) {prefs : Preferences} :
    prefs.validate = .ok () →
      ∃ next, compressor.start prefs = (next, .ofCall (.ok (Header.ofPreferences prefs).encode))
        ∧ next.Within prefs [] (Header.ofPreferences prefs).encode
        ∧ next.encoder.HasSent [] [] (Header.ofPreferences prefs).encode := by
  intro hvalid
  rcases compressor.encoder.start_sends (Nat.le_refl Header.maxLength) prefs
      with ⟨encoder, hstart, hwithin, hsent⟩
  refine ⟨{ compressor with encoder, prefs, stage := .active }, ?_, ⟨rfl, rfl, hwithin⟩, hsent⟩
  simp only [start, hvalid, hstart]

omit [Platform] in
theorem start_within (compressor : Compressor) {prefs : Preferences} :
    prefs.validate = .ok () →
      ∃ next, compressor.start prefs = (next, .ofCall (.ok (Header.ofPreferences prefs).encode))
        ∧ next.Within prefs [] (Header.ofPreferences prefs).encode := by
  intro hvalid
  rcases compressor.start_sends hvalid with ⟨next, hstart, hwithin, -⟩
  exact ⟨next, hstart, hwithin⟩

/-- An update for which room was found is one of the encoder. -/
theorem update_eq (gate : Gate) (encoder : Encoder) {prefs : Preferences} {input : Bytes}
    {room : Nat} :
    input ≠ [] → roomFor prefs input.length = .ok room →
      update ⟨gate, encoder, prefs, .active⟩ input
        = (⟨gate, (encoder.update room input).1, prefs, .active⟩,
          ⟨(encoder.update room input).2.mapError .frame, gate.around input.length⟩) := by
  intro hne hroom
  rw [update, if_neg (by simpa [List.isEmpty_iff] using hne)]
  simp only [hroom, Gate.run]

theorem update_nil (compressor : Compressor) :
    compressor.update [] = (compressor, ⟨.error .emptyInput, []⟩) :=
  rfl

/-- An update for which no room is found is refused. -/
theorem update_eq_of_error (gate : Gate) (encoder : Encoder) {prefs : Preferences} {input : Bytes}
    {cause : Error} :
    input ≠ [] → roomFor prefs input.length = .error cause →
      update ⟨gate, encoder, prefs, .active⟩ input
        = (⟨gate, encoder, prefs, .active⟩, ⟨.error cause, []⟩) := by
  intro hne hroom
  rw [update, if_neg (by simpa [List.isEmpty_iff] using hne)]
  simp only [hroom]

/-- An update that is refused changes nothing, and any other takes all of its content. -/
theorem update_cases {compressor : Compressor} {prefs : Preferences} {content wire : Bytes}
    (h : compressor.Within prefs content wire) (input : Bytes) :
    (∃ cause events, compressor.update input = (compressor, ⟨.error cause, events⟩))
      ∨ ∃ next bytes events, compressor.update input = (next, ⟨.ok bytes, events⟩)
        ∧ next.Within prefs (content ++ input) (wire ++ bytes) := by
  rcases compressor with ⟨gate, encoder, prefs', stage⟩
  rcases h with ⟨rfl, rfl, hencoder⟩
  simp only at hencoder ⊢
  by_cases hne : input = []
  · exact .inl ⟨.emptyInput, [], by rw [hne, update_nil]⟩
  · cases hroomFor : roomFor prefs' input.length with
    | error cause => exact .inl ⟨cause, [], update_eq_of_error gate encoder hne hroomFor⟩
    | ok room =>
        rw [update_eq gate encoder hne hroomFor]
        -- the room that was found may be too little, where the sums wrap around
        rcases Encoder.update_cases hencoder room input
            with hrefused | ⟨next, bytes, hupdate, hwithin⟩
        · rw [hrefused]
          exact .inl ⟨_, _, rfl⟩
        · rw [hupdate]
          exact .inr ⟨_, bytes, _, rfl, ⟨rfl, rfl, hwithin⟩⟩

/-- An update that fits is not refused, and what it sends has the room that was found for it. -/
theorem update_sends {compressor : Compressor} {prefs : Preferences} {parts : List Bytes}
    {content wire : Bytes} (h : compressor.Within prefs content wire)
    (hsent : compressor.encoder.HasSent parts content wire) {input : Bytes} :
    input ≠ [] → Bound.Countable prefs input.length →
      ∃ next bytes added events, compressor.update input = (next, ⟨.ok bytes, events⟩)
        ∧ next.Within prefs (content ++ input) (wire ++ bytes)
        ∧ next.encoder.HasSent (parts ++ added) (content ++ input) (wire ++ bytes)
        ∧ (prefs.autoflush = false → ∀ part ∈ added, part.length = prefs.maxBlock)
        ∧ bytes.length ≤ Bound.worst prefs input.length (Bound.mostHeld prefs) := by
  intro hne hcount
  rcases compressor with ⟨gate, encoder, prefs', stage⟩
  rcases h with ⟨rfl, rfl, hencoder⟩
  simp only at hencoder hsent ⊢
  -- room was found for the most that can be held, and no more than that is held
  have hworst : Bound.worst prefs' input.length encoder.held.size
      ≤ Bound.worst prefs' input.length (Bound.mostHeld prefs') :=
    Bound.worst_mono input.length hencoder.held_le
  have hroom : (Bound.withHeld prefs' (UInt64.ofNat input.length)
      (UInt64.ofNat encoder.held.size)).toNat
        ≤ Bound.worst prefs' input.length (Bound.mostHeld prefs') := by
    rwa [Bound.toNat_withHeld hcount hencoder.held_le]
  rcases Encoder.update_sends hencoder hsent _ input hroom
      with ⟨next, bytes, added, hupdate, hwithin, hadded, hfull, hlength⟩
  refine ⟨⟨gate, next, prefs', .active⟩, bytes, added, gate.around input.length, ?_,
    ⟨rfl, rfl, hwithin⟩, hadded, hfull, by omega⟩
  rw [update_eq gate encoder hne (Bound.roomFor_eq hcount), hupdate]
  rfl

theorem update_within {compressor : Compressor} {prefs : Preferences} {content wire : Bytes}
    (h : compressor.Within prefs content wire) {input : Bytes} :
    input ≠ [] → Bound.Countable prefs input.length →
      ∃ next bytes events, compressor.update input = (next, ⟨.ok bytes, events⟩)
        ∧ next.Within prefs (content ++ input) (wire ++ bytes)
        ∧ bytes.length ≤ Bound.worst prefs input.length (Bound.mostHeld prefs) := by
  intro hne hcount
  rcases h.encoder.hasSent with ⟨parts, hsent⟩
  rcases update_sends h hsent hne hcount
      with ⟨next, bytes, added, events, hupdate, hwithin, -, -, hlength⟩
  exact ⟨next, bytes, events, hupdate, hwithin, hlength⟩

/-- The count of the blocks of a long input wraps around, and the room that is found is that of the
end mark. -/
theorem update_wraps {compressor : Compressor} {linked : Bool} {wire : Bytes}
    (h : compressor.Within { linked } [] wire) {input : Bytes} :
    input.length = 0xffffffffffff →
      ∃ events, compressor.update input
        = (compressor, ⟨.error (.frame .dstMaxSizeTooSmall), events⟩) := by
  intro hlength
  rcases compressor with ⟨gate, encoder, prefs, stage⟩
  rcases h with ⟨rfl, rfl, hencoder⟩
  simp only at hencoder
  have hroom : roomFor { linked } input.length = .ok 4 := by
    rw [hlength]
    refine Bound.roomFor_of_checked ?_ (by decide)
    cases linked <;> rfl
  have hnone : encoder.held.size = 0 := by
    rcases hencoder.parts with ⟨sent, _, hcontent, -⟩
    have := congrArg List.length hcontent
    simp only [List.length_nil, List.length_append, Array.length_toList] at this
    omega
  have hneeded :
      4 < (Bound.withHeld { linked } (UInt64.ofNat 0xffffffffffff) (UInt64.ofNat 0)).toNat := by
    show 4 < (Bound.withHeld {} (UInt64.ofNat 0xffffffffffff) (UInt64.ofNat 0)).toNat
    decide
  have hrefused : encoder.update 4 input = (encoder, .error .dstMaxSizeTooSmall) := by
    refine Encoder.update_refused hencoder.isOpen ?_
    rw [hencoder.prefs_eq, hlength, hnone]
    exact hneeded
  have hne : input ≠ [] := List.ne_nil_of_length_pos (by omega)
  refine ⟨gate.around input.length, ?_⟩
  rw [update_eq gate encoder hne hroom, hrefused]
  rfl

/-- There is room for every flush. -/
theorem flush_eq (gate : Gate) (encoder : Encoder) (prefs : Preferences) :
    flush ⟨gate, encoder, prefs, .active⟩
      = (⟨gate, (encoder.flush (Bound.worst prefs 0 (Bound.mostHeld prefs))).1, prefs, .active⟩,
        .ofCall ((encoder.flush (Bound.worst prefs 0 (Bound.mostHeld prefs))).2.mapError
          .frame)) := by
  simp only [flush, Bound.roomFor_eq (Bound.countable_zero prefs)]

/-- A flush is never refused, and nothing waits behind it. -/
theorem flush_sends {compressor : Compressor} {prefs : Preferences} {parts : List Bytes}
    {content wire : Bytes} (h : compressor.Within prefs content wire) :
    compressor.encoder.HasSent parts content wire →
      ∃ next bytes, compressor.flush = (next, .ofCall (.ok bytes))
        ∧ next.Within prefs content (wire ++ bytes)
        ∧ next.encoder.HasSent (parts ++ Encoder.waiting compressor.encoder.held []) content
          (wire ++ bytes)
        ∧ next.encoder.held = #[]
        ∧ bytes.length ≤ Bound.worst prefs 0 (Bound.mostHeld prefs) := by
  intro hsent
  rcases compressor with ⟨gate, encoder, prefs', stage⟩
  rcases h with ⟨rfl, rfl, hencoder⟩
  simp only at hencoder hsent ⊢
  have hfour := Bound.four_le prefs'
  have hworst := fun hpos => Bound.flush_le_worst hencoder.held_le hpos
  rcases Encoder.flush_sends hencoder hsent (Bound.worst prefs' 0 (Bound.mostHeld prefs'))
      (fun hpos => by have := hworst hpos; omega)
      with ⟨next, bytes, hflush, hwithin, hparts, hheld, hlength⟩
  refine ⟨⟨gate, next, prefs', .active⟩, bytes, ?_, ⟨rfl, rfl, hwithin⟩, hparts, hheld, ?_⟩
  · simp only [flush_eq, hflush, mapError_ok]
  · split at hlength
    · omega
    · have := hworst (by omega)
      omega

theorem flush_within {compressor : Compressor} {prefs : Preferences} {content wire : Bytes} :
    compressor.Within prefs content wire →
      ∃ next bytes, compressor.flush = (next, .ofCall (.ok bytes))
        ∧ next.Within prefs content (wire ++ bytes) ∧ next.encoder.held = #[]
        ∧ bytes.length ≤ Bound.worst prefs 0 (Bound.mostHeld prefs) := by
  intro h
  rcases h.encoder.hasSent with ⟨parts, hsent⟩
  rcases flush_sends h hsent with ⟨next, bytes, hflush, hwithin, -, hheld, hlength⟩
  exact ⟨next, bytes, hflush, hwithin, hheld, hlength⟩

/-- Closing the frame has all the room it takes, and is what closing does to the encoder. -/
theorem finish_eq (gate : Gate) {encoder : Encoder} {prefs : Preferences} {content wire : Bytes} :
    encoder.Within prefs content wire →
      ∃ room, encoder.finishRoom ≤ room ∧ room = Bound.worst prefs 0 (Bound.mostHeld prefs)
        ∧ finish ⟨gate, encoder, prefs, .active⟩
          = (⟨gate, (encoder.finish room).1, prefs, .idle⟩,
            .ofCall ((encoder.finish room).2.mapError .frame)) := by
  intro h
  refine ⟨Bound.worst prefs 0 (Bound.mostHeld prefs), h.finishRoom_le, rfl, ?_⟩
  simp only [finish, Bound.roomFor_eq (Bound.countable_zero prefs)]

/-- Closing the frame closes it whatever it answers. -/
theorem finish_cases {compressor : Compressor} {prefs : Preferences} {content wire : Bytes} :
    compressor.Within prefs content wire →
      ∃ next bytes, next.stage = .idle ∧ next.encoder.isOpen = false
        ∧ next.prefs = prefs ∧ next.encoder.prefs = prefs
        ∧ bytes.length ≤ Bound.worst prefs 0 (Bound.mostHeld prefs)
        ∧ compressor.finish = (next, .ofCall
            (if prefs.declaredOrZero ≠ 0 ∧ prefs.declaredOrZero ≠ content.length then
              .error (.frame .frameSizeWrong) else .ok bytes))
        ∧ (prefs.declaredOrZero < 0x10000000000000000 →
            prefs.declaredOrZero = 0 ∨ prefs.declaredOrZero = content.length →
              IsFrame (.ofPreferences prefs) content (wire ++ bytes)) := by
  intro h
  rcases compressor with ⟨gate, encoder, prefs', stage⟩
  rcases h with ⟨rfl, rfl, hencoder⟩
  simp only at hencoder ⊢
  rcases finish_eq gate hencoder with ⟨room, hroom, hworst, hcall⟩
  rcases Encoder.finish_cases hencoder room
      with ⟨hshort, -⟩ | ⟨next, bytes, hclosed, hprefs, hlength, hfinish, hframe⟩
  · omega
  · refine ⟨⟨gate, next, prefs', .idle⟩, bytes, rfl, hclosed, rfl, hprefs, by omega, ?_, hframe⟩
    rw [hcall, hfinish]
    split <;> rfl

/-- Closing the frame sends what waits, the end mark and the checksum of the content. -/
theorem finish_sends {compressor : Compressor} {prefs : Preferences} {parts : List Bytes}
    {content wire : Bytes} (h : compressor.Within prefs content wire)
    (hsent : compressor.encoder.HasSent parts content wire) :
    prefs.declaredOrZero = 0 ∨ prefs.declaredOrZero = content.length →
      ∃ next bytes blocks, compressor.finish = (next, .ofCall (.ok bytes)) ∧ next.stage = .idle
        ∧ (parts ++ Encoder.waiting compressor.encoder.held []).flatten = content
        ∧ Row (.ofPreferences prefs) [] (parts ++ Encoder.waiting compressor.encoder.held []) blocks
        ∧ wire ++ bytes = (Header.ofPreferences prefs).encode ++ blocks ++ SizeWord.endMark
          ++ (if prefs.contentChecksum then Xxh32.field (Xxh32.of content) else []) := by
  intro hdeclared
  rcases compressor with ⟨gate, encoder, prefs', stage⟩
  rcases h with ⟨rfl, rfl, hencoder⟩
  simp only at hencoder hsent hdeclared ⊢
  rcases finish_eq gate hencoder with ⟨room, hroom, -, hcall⟩
  rcases Encoder.finish_sends hencoder hsent room
      with ⟨hshort, -⟩ | ⟨next, bytes, -, -, -, hfinish, hflatten, blocks, hrow, hwire⟩
  · omega
  · refine ⟨⟨gate, next, prefs', .idle⟩, bytes, blocks, ?_, rfl, hflatten, hrow, hwire⟩
    rw [hcall, hfinish, if_neg (by omega)]
    rfl

/-- Closing the frame makes a frame of all the content, unless another length was declared. -/
theorem finish_within {compressor : Compressor} {prefs : Preferences} {content wire : Bytes} :
    compressor.Within prefs content wire → prefs.declaredOrZero < 0x10000000000000000 →
      ∃ next, next.stage = .idle
        ∧ (prefs.declaredOrZero = 0 ∨ prefs.declaredOrZero = content.length →
            ∃ bytes, compressor.finish = (next, .ofCall (.ok bytes))
              ∧ IsFrame (.ofPreferences prefs) content (wire ++ bytes))
        ∧ (prefs.declaredOrZero ≠ 0 ∧ prefs.declaredOrZero ≠ content.length →
            compressor.finish = (next, .ofCall (.error (.frame .frameSizeWrong)))) := by
  intro h hsize
  rcases finish_cases h with ⟨next, bytes, hidle, -, -, -, -, hfinish, hframe⟩
  refine ⟨next, hidle, fun hdeclared => ?_, fun hwrong => by rw [hfinish, if_pos hwrong]⟩
  exact ⟨bytes, by rw [hfinish, if_neg (by omega)], hframe hsize hdeclared⟩

/-! ## What a granted call is -/

omit [Platform] in
/-- A start that was granted is one of the encoder. -/
theorem start_ok {compressor next : Compressor} {prefs : Preferences} {header : Bytes}
    {events : List LockEvent} :
    compressor.start prefs = (next, ⟨.ok header, events⟩) →
      ∃ encoder, compressor.encoder.start Header.maxLength prefs = (encoder, .ok header)
        ∧ next = ⟨compressor.gate, encoder, prefs, .active⟩ := by
  intro h
  unfold start at h
  split at h
  · cases h
  · split at h
    · cases h
    · rename_i hstart
      cases h
      exact ⟨_, hstart, rfl⟩

/-- An update that was granted is one of the encoder, in the room that was found for it. -/
theorem update_ok {gate : Gate} {encoder : Encoder} {next : Compressor} {prefs : Preferences}
    {input bytes : Bytes} {events : List LockEvent} :
    update ⟨gate, encoder, prefs, .active⟩ input = (next, ⟨.ok bytes, events⟩) →
      ∃ room updated, encoder.update room input = (updated, .ok bytes)
        ∧ next = ⟨gate, updated, prefs, .active⟩ := by
  intro h
  by_cases hne : input = []
  · rw [hne, update_nil] at h
    cases h
  cases hroom : roomFor prefs input.length with
  | error cause =>
      rw [update_eq_of_error gate encoder hne hroom] at h
      cases h
  | ok room =>
      rw [update_eq gate encoder hne hroom, Prod.mk.injEq, Traced.mk.injEq] at h
      rcases h with ⟨rfl, hbytes, -⟩
      exact ⟨room, _, Prod.ext rfl (mapError_eq_ok.mp hbytes), rfl⟩

/-- And so is a close. -/
theorem finish_ok {gate : Gate} {encoder : Encoder} {next : Compressor} {prefs : Preferences}
    {bytes : Bytes} {events : List LockEvent} :
    finish ⟨gate, encoder, prefs, .active⟩ = (next, ⟨.ok bytes, events⟩) →
      ∃ room closed, encoder.finish room = (closed, .ok bytes) := by
  intro h
  simp only [finish, Bound.roomFor_eq (Bound.countable_zero prefs), Traced.ofCall, Prod.mk.injEq,
    Traced.mk.injEq] at h
  exact ⟨_, _, Prod.ext rfl (mapError_eq_ok.mp h.2.1)⟩

/-! ## Rows of calls -/

/-- A row of calls behind another one. -/
theorem calls_append {first middle last : Compressor} {front rest : List Call}
    {outputs outputs' : List Bytes} (h : first.calls front = (middle, .ok outputs))
    (h' : middle.calls rest = (last, .ok outputs')) :
    first.calls (front ++ rest) = (last, .ok (outputs ++ outputs')) := by
  induction front generalizing first outputs with
  | nil =>
      cases h
      exact h'
  | cons call front ih =>
      rw [calls] at h
      split at h
      · cases h
      · next next bytes events hcall =>
          split at h
          · cases h
          · next behind others hothers =>
              cases h
              simp only [List.cons_append, calls, hcall, ih hothers]

theorem call_sends {compressor : Compressor} {prefs : Preferences} {parts : List Bytes}
    {content wire : Bytes} (h : compressor.Within prefs content wire)
    (hsent : compressor.encoder.HasSent parts content wire) {call : Call} :
    call.Fits prefs →
      ∃ next bytes added events, compressor.call call = (next, ⟨.ok bytes, events⟩)
        ∧ next.Within prefs (content ++ call.content) (wire ++ bytes)
        ∧ next.encoder.HasSent (parts ++ added) (content ++ call.content) (wire ++ bytes)
        ∧ (prefs.autoflush = false → call ≠ .flush →
            ∀ part ∈ added, part.length = prefs.maxBlock) := by
  intro hfits
  cases call with
  | update input =>
      rcases update_sends h hsent hfits.1 hfits.2
          with ⟨next, bytes, added, events, hupdate, hwithin, hadded, hfull, -⟩
      exact ⟨next, bytes, added, events, hupdate, hwithin, hadded, fun hoff _ => hfull hoff⟩
  | flush =>
      rcases flush_sends h hsent with ⟨next, bytes, hflush, hwithin, hadded, -, -⟩
      rw [← List.append_nil content] at hwithin hadded
      exact ⟨next, bytes, _, [.call none], hflush, hwithin, hadded, fun _ hne => absurd rfl hne⟩

/-- Calls that fit all succeed, and what they send stands for their content. -/
theorem calls_sends {compressor : Compressor} {prefs : Preferences} {parts : List Bytes}
    {content wire : Bytes} (h : compressor.Within prefs content wire)
    (hsent : compressor.encoder.HasSent parts content wire) {row : List Call} :
    (∀ call ∈ row, call.Fits prefs) →
      ∃ next outputs added, compressor.calls row = (next, .ok outputs)
        ∧ outputs.length = row.length
        ∧ next.Within prefs (content ++ contentOf row) (wire ++ outputs.flatten)
        ∧ next.encoder.HasSent (parts ++ added) (content ++ contentOf row) (wire ++ outputs.flatten)
        ∧ (prefs.autoflush = false → .flush ∉ row →
            ∀ part ∈ added, part.length = prefs.maxBlock) := by
  intro hfits
  -- on the calls; each goes on from what was taken and sent before it
  induction row generalizing compressor parts content wire with
  | nil => exact ⟨compressor, [], [], rfl, rfl, by simpa using h, by simpa using hsent, by simp⟩
  | cons call row ih =>
      rcases call_sends h hsent (hfits call (.head _))
          with ⟨middle, bytes, first, events, hcall, hmiddle, hfirst, hfull⟩
      rcases ih hmiddle hfirst fun call hmem => hfits call (.tail _ hmem)
          with ⟨next, outputs, second, hcalls, hlength, hnext, hsecond, hfull'⟩
      refine ⟨next, bytes :: outputs, first ++ second, ?_, by simp [hlength], by simpa using hnext,
        by simpa using hsecond, ?_⟩
      · simp only [calls, hcall, hcalls]
      · intro hoff hnone part hmem
        rw [List.mem_cons, not_or] at hnone
        rcases List.mem_append.mp hmem with hmem | hmem
        · exact hfull hoff (Ne.symm hnone.1) part hmem
        · exact hfull' hoff hnone.2 part hmem

theorem call_within {compressor : Compressor} {prefs : Preferences} {content wire : Bytes}
    (h : compressor.Within prefs content wire) {call : Call} :
    call.Fits prefs →
      ∃ next bytes events, compressor.call call = (next, ⟨.ok bytes, events⟩)
        ∧ next.Within prefs (content ++ call.content) (wire ++ bytes) := by
  intro hfits
  rcases h.encoder.hasSent with ⟨parts, hsent⟩
  rcases call_sends h hsent hfits with ⟨next, bytes, added, events, hcall, hwithin, -, -⟩
  exact ⟨next, bytes, events, hcall, hwithin⟩

/-! ## Whole frames -/

/-- Starts a frame, makes a row of calls and closes the frame, up to the first failure; gives all
the bytes that were sent. -/
def frame (compressor : Compressor) (prefs : Preferences) (row : List Call) :
    Compressor × Except Error Bytes :=
  match compressor.start prefs with
  | (next, ⟨.error cause, _⟩) => (next, .error cause)
  | (next, ⟨.ok header, _⟩) =>
      match next.calls row with
      | (next, .error cause) => (next, .error cause)
      | (next, .ok outputs) =>
          match next.finish with
          | (next, ⟨.error cause, _⟩) => (next, .error cause)
          | (next, ⟨.ok trailer, _⟩) => (next, .ok (header ++ outputs.flatten ++ trailer))

/-- Whatever a compressor did before, its calls make one row of blocks behind a header and in front
of the trailer; without autoflush and flushes only the last block can be short. -/
theorem frame_sends (compressor : Compressor) {prefs : Preferences}
    (hvalid : prefs.validate = .ok ()) {row : List Call} (hfits : ∀ call ∈ row, call.Fits prefs)
    (hdeclared : prefs.declaredOrZero = 0 ∨ prefs.declaredOrZero = (contentOf row).length) :
    ∃ next parts blocks, compressor.frame prefs row
        = (next, .ok ((Header.ofPreferences prefs).encode ++ blocks ++ SizeWord.endMark
          ++ (if prefs.contentChecksum then Xxh32.field (Xxh32.of (contentOf row)) else [])))
      ∧ next.stage = .idle
      ∧ parts.flatten = contentOf row
      ∧ Row (.ofPreferences prefs) [] parts blocks
      ∧ (prefs.autoflush = false → .flush ∉ row →
          ∀ part ∈ parts.dropLast, part.length = prefs.maxBlock) := by
  rcases compressor.start_sends hvalid with ⟨started, hstart, hwithin, hsent⟩
  rcases calls_sends hwithin hsent hfits
      with ⟨active, outputs, added, hcalls, -, hactive, hadded, hfull⟩
  rw [List.nil_append] at hactive hadded
  rw [List.nil_append] at hadded
  rcases finish_sends hactive hadded hdeclared
      with ⟨closed, trailer, blocks, hfinish, hidle, hflatten, hrow, hwire⟩
  refine ⟨closed, _, blocks, ?_, hidle, hflatten, hrow, fun hoff hnone part hmem => ?_⟩
  · simp only [frame, hstart, Traced.ofCall, hcalls, hfinish, hwire]
  · refine hfull hoff hnone part ?_
    unfold Encoder.waiting at hmem
    split at hmem
    · rw [List.append_nil] at hmem
      exact List.dropLast_subset _ hmem
    · simpa using hmem

/-- Whatever a compressor did before, it makes a frame of the content of its calls, unless another
length was declared. -/
theorem frame_isFrame (compressor : Compressor) {prefs : Preferences}
    (hvalid : prefs.validate = .ok ()) {row : List Call} (hfits : ∀ call ∈ row, call.Fits prefs)
    (hsize : prefs.declaredOrZero < 0x10000000000000000)
    (hdeclared : prefs.declaredOrZero = 0 ∨ prefs.declaredOrZero = (contentOf row).length) :
    ∃ next frame, compressor.frame prefs row = (next, .ok frame) ∧ next.stage = .idle
      ∧ IsFrame (.ofPreferences prefs) (contentOf row) frame := by
  rcases compressor.frame_sends hvalid hfits hdeclared
      with ⟨next, parts, blocks, hframe, hidle, hflatten, hrow, -⟩
  exact ⟨next, _, hframe, hidle, Encoder.isFrame_of_row hsize hdeclared hflatten hrow⟩

end Compressor

end Lz4Frame
