import Lz4Frame.Platform.Reference
import Lz4Frame.Proofs.Decompressor.FrameInfo

/-!
# One call and a stream of calls

A frame that is made in one call is the frame that a fresh compressor makes of one update, with the
settings that fit the content (`compress_streams`).  The two go through the same encoder and differ
in the room that they give it: one divides the room for a whole frame, the other finds room for each
call.  What an encoder sends does not depend on the room that it has, as long as it is enough
(`Encoder.Writes.unique`).
-/

namespace Lz4Frame

/-- A block size that was lowered for `n` bytes: the smallest size whose block holds them, if that
is below the requested one, and otherwise the requested one. -/
structure BlockSize.Lowered (requested : BlockSize) (n : Nat) (size : BlockSize) : Prop where
  kept_or_lowered : size = requested
    ∨ size ≠ .unspecified ∧ size.id < requested.id ∧ n ≤ size.bytes
  least : ∀ other : BlockSize, other ≠ .unspecified → other.id < requested.id → n ≤ other.bytes →
    size.id ≤ other.id

theorem BlockSize.fitting_lowered (requested : BlockSize) (n : Nat) :
    requested.Lowered n (requested.fitting n) := by
  unfold fitting
  cases hfind : [max64KiB, max256KiB, max1MiB].find? fun size =>
      size.id < requested.id ∧ n ≤ size.bytes with
  | none =>
      refine ⟨.inl rfl, fun other named hlt hother => ?_⟩
      exact absurd (decide_eq_true ⟨hlt, hother⟩)
        (List.find?_eq_none.mp hfind other (mem_smaller named hlt))
  | some size =>
      have hfound := List.find?_some hfind
      simp only [decide_eq_true_eq] at hfound
      have hnamed : size ≠ .unspecified := by
        rintro rfl
        simpa using List.mem_of_find?_eq_some hfind
      refine ⟨.inr ⟨hnamed, hfound⟩, fun other named hlt hother => ?_⟩
      exact find?_least id (by decide) hfind other (mem_smaller named hlt)
        (decide_eq_true ⟨hlt, hother⟩)

namespace Encoder

/-! ## Calls and their room -/

/-- A call that does the same in any room in which it is granted. -/
def Roomless (call : Nat → Encoder × Except ErrorCode Bytes) : Prop :=
  ∀ (room room' : Nat) (next next' : Encoder) (bytes bytes' : Bytes),
    call room = (next, .ok bytes) → call room' = (next', .ok bytes') →
      next = next' ∧ bytes = bytes'

/-- A call that looks at its room only to refuse. -/
theorem roomless_of_refuses {call : Nat → Encoder × Except ErrorCode Bytes} {least : Nat}
    {encoder : Encoder} {code : ErrorCode} {granted : Encoder × Except ErrorCode Bytes}
    (hcall : ∀ room, call room = if room < least then (encoder, .error code) else granted) :
    Roomless call := by
  intro room room' next next' bytes bytes' h h'
  rw [hcall] at h h'
  split at h
  · cases h
  split at h'
  · cases h'
  cases h.symm.trans h'
  exact ⟨rfl, rfl⟩

theorem roomless_start (encoder : Encoder) (prefs : Preferences) :
    Roomless fun room => encoder.start room prefs :=
  roomless_of_refuses fun _ => rfl

variable [Platform]

theorem roomless_update (encoder : Encoder) (input : Bytes) :
    Roomless fun room => encoder.update room input := by
  cases hopen : encoder.isOpen with
  | false =>
      intro room room' next next' bytes bytes' h
      simp [update, hopen] at h
  | true =>
      apply roomless_of_refuses
      intro room
      simp only [update, hopen, Bool.not_true, Bool.false_eq_true, ↓reduceIte]
      rfl

theorem roomless_flush (encoder : Encoder) : Roomless encoder.flush := by
  cases hempty : encoder.held.isEmpty with
  | true =>
      intro room room' next next' bytes bytes' h h'
      rw [flush, if_pos hempty] at h h'
      cases h.symm.trans h'
      exact ⟨rfl, rfl⟩
  | false =>
      cases hopen : encoder.isOpen with
      | false =>
          intro room room' next next' bytes bytes' h
          simp [flush, hempty, hopen] at h
      | true =>
          apply roomless_of_refuses
          intro room
          simp only [flush, hempty, hopen, Bool.not_true, Bool.false_eq_true, ↓reduceIte]
          rfl

theorem roomless_finish (encoder : Encoder) : Roomless encoder.finish := by
  intro room room' next next' bytes bytes' h h'
  rcases finish_ok h with ⟨flushed, block, hflush, -, rfl, rfl⟩
  rcases finish_ok h' with ⟨flushed', block', hflush', -, rfl, rfl⟩
  rcases encoder.roomless_flush _ _ _ _ _ _ hflush hflush' with ⟨rfl, rfl⟩
  exact ⟨rfl, rfl⟩

/-! ## A frame of one update -/

/-- A frame that a new encoder writes in three calls, whatever the rooms of these. -/
inductive Writes (prefs : Preferences) (content : Bytes) : Bytes → Prop
  | intro {started updated closed : Encoder} {room room' room'' : Nat} {header blocks rest : Bytes}
      (start_eq : new.start room prefs = (started, .ok header))
      (update_eq : started.update room' content = (updated, .ok blocks))
      (finish_eq : updated.finish room'' = (closed, .ok rest)) :
      Writes prefs content (header ++ blocks ++ rest)

/-- There is only one such frame. -/
theorem Writes.unique {prefs : Preferences} {content frame frame' : Bytes} :
    Writes prefs content frame → Writes prefs content frame' → frame = frame' := by
  rintro ⟨hstart, hupdate, hfinish⟩ ⟨hstart', hupdate', hfinish'⟩
  rcases roomless_start _ _ _ _ _ _ _ _ hstart hstart' with ⟨rfl, rfl⟩
  rcases roomless_update _ _ _ _ _ _ _ _ hupdate hupdate' with ⟨rfl, rfl⟩
  rcases roomless_finish _ _ _ _ _ _ _ hfinish hfinish' with ⟨-, rfl⟩
  rfl

/-- A frame in one piece is written so. -/
theorem whole_writes {prefs : Preferences} {content frame : Bytes} {room : Nat} :
    whole prefs room content = .ok frame →
      Writes (wholePreferences prefs content.length) content frame := by
  intro h
  unfold whole at h
  simp only at h
  split at h
  · cases h
  split at h
  · cases h
  · rename_i hstart
    split at h
    · cases h
    · rename_i hupdate
      split at h
      · cases h
      · rename_i hfinish
        cases h
        exact ⟨hstart, hupdate, hfinish⟩

end Encoder

namespace Compressor

variable [Platform]

/-- A frame that a fresh compressor makes of one update is written so too. -/
theorem frame_writes {gate : Gate} {next : Compressor} {prefs : Preferences}
    {content frame : Bytes} :
    (new gate).frame prefs [.update content] = (next, .ok frame) →
      Encoder.Writes prefs content frame := by
  intro h
  simp only [Compressor.frame, calls, call] at h
  split at h
  · cases h
  rename_i started header events hstart
  rcases start_ok hstart with ⟨encoder, hstart', rfl⟩
  split at h
  · cases h
  rename_i active outputs hcalls
  split at hcalls
  · cases hcalls
  rename_i taken blocks events' hupdate
  rcases update_ok hupdate with ⟨room, updated, hupdate', rfl⟩
  cases hcalls
  split at h
  · cases h
  rename_i closed trailer events'' hfinish
  rcases finish_ok hfinish with ⟨room', closed', hfinish'⟩
  cases h
  rw [List.flatten_singleton]
  exact ⟨hstart', hupdate', hfinish'⟩

end Compressor

/-! ## One call and three -/

namespace Codec

theorem settings_eq (prefs : Preferences) {content : Bytes} :
    content ≠ [] →
      settings prefs content = { prefs with
        blockSize := prefs.blockSize.fitting content.length
        linked := prefs.linked
          && decide ((prefs.blockSize.fitting content.length).bytes < content.length)
        autoflush := true
        declaredSize := some content.length } := by
  intro hne
  have hdeclared : ¬ content.length = 0 := by simpa using hne
  simp [settings, Encoder.wholePreferences, Preferences.declaredOrZero, hdeclared]

section

variable [Platform]

/-- What is compressed in one call by the fast search is, byte for byte, the frame that a fresh
compressor makes of one update with the settings that fit the content: its length is declared, the
block size is the smallest that holds it, if that is below the requested one, and blocks are linked
only if there are several.  The room that is found for the settings as they were is as much as these
ask for, and the frame is made within it. -/
theorem compress_streams (gate gate' : Gate) {prefs : Preferences}
    (hfast : prefs.level < Level.firstHigh) {content : Bytes} (hne : content ≠ [])
    (hcount : Bound.Countable prefs content.length) :
    ∃ blockSize adjusted next frame room,
      prefs.blockSize.Lowered content.length blockSize
        ∧ adjusted = { prefs with
            blockSize
            linked := prefs.linked && decide (blockSize.bytes < content.length)
            autoflush := true
            declaredSize := some content.length }
        ∧ (compress gate prefs content).value = .ok frame
        ∧ (Compressor.new gate').frame adjusted [.update content] = (next, .ok frame)
        ∧ Bound.checked (Bound.frame prefs (UInt64.ofNat content.length)) = .ok room
        ∧ (Bound.frame adjusted (UInt64.ofNat content.length)).toNat ≤ room
        ∧ frame.length ≤ room := by
  have hvalid := Preferences.validate_fast hfast
  rcases compress_isFrame gate hvalid hne hcount with ⟨frame, hcompress, -⟩
  rcases compress_whole hcompress with ⟨-, -, room, hroom, hwhole⟩
  have hsize := declaredOrZero_settings prefs hne
  have hvalid' : (settings prefs content).validate = .ok () := hvalid
  have hcount' : Bound.Countable { prefs with declaredSize := some content.length }
      content.length := hcount
  have hfits : ∀ call ∈ [Call.update content], call.Fits (settings prefs content) :=
    List.forall_mem_singleton.mpr ⟨hne, Encoder.countable_wholePreferences hcount'⟩
  have hlength : (contentOf [Call.update content]).length = content.length := by
    simp [Call.content]
  rcases (Compressor.new gate').frame_sends hvalid' hfits (.inr (hsize.trans hlength.symm))
      with ⟨next, parts, blocks, hframe, -⟩
  have hwithin := not_overruns hcount
  rw [overruns_iff prefs hroom, hwhole] at hwithin
  obtain rfl := (Encoder.whole_writes hwhole).unique (Compressor.frame_writes hframe)
  have hsame : Bound.frame { prefs with declaredSize := some content.length }
      (UInt64.ofNat content.length) = Bound.frame prefs (UInt64.ofNat content.length) := rfl
  rw [hsame] at hroom
  have hbound : (Bound.frame (settings prefs content) (UInt64.ofNat content.length)).toNat
      = (Bound.frame prefs (UInt64.ofNat content.length)).toNat :=
    Encoder.frame_wholePreferences hcount'
  exact ⟨_, _, next, _, room, prefs.blockSize.fitting_lowered content.length,
    settings_eq prefs hne, hcompress, hframe, hroom,
    Nat.le_of_eq (hbound.trans (Bound.checked_eq hroom).symm), Nat.le_of_not_lt hwithin⟩

end

open Reference in
/-- Three bytes with blocks of 1 MiB, which are lowered to 64 KiB and not linked. -/
theorem compress_streams_three_bytes :
    ∃ next frame room,
      Level.fast < Level.firstHigh
        ∧ (compress .native { blockSize := .max1MiB } [7, 7, 7]).value = .ok frame
        ∧ (Compressor.new .native).frame
            { blockSize := .max64KiB, linked := false, autoflush := true, declaredSize := some 3 }
            [.update [7, 7, 7]] = (next, .ok frame)
        ∧ Bound.checked (Bound.frame { blockSize := .max1MiB } 3) = .ok room
        ∧ frame.length ≤ room := by
  have hcount : Bound.Countable { blockSize := .max1MiB } 3 := by
    show (3 + (1048576 - 1)) / 1048576 < 0x100000000
    decide
  rcases compress_streams .native .native (by decide) (show ([7, 7, 7] : Bytes) ≠ [] by simp) hcount
      with ⟨size, adjusted, next, frame, room, hlowered, rfl, hcompress, hframe, hroom, -, hle⟩
  have hleast := hlowered.least .max64KiB (by decide) (by decide) (by decide)
  have hsize : size = .max64KiB := by
    rcases hlowered.kept_or_lowered with rfl | ⟨hnamed, -⟩
    · exact absurd hleast (by decide)
    · revert hleast hnamed
      cases size <;> decide
  subst hsize
  exact ⟨next, frame, room, by decide, hcompress, hframe, hroom, hle⟩

open Reference in
/-- For content of 2^48 bytes the room that is found is that of a header and an end mark, and the
frame is longer. -/
theorem compress_not_streamed :
    Bound.checked (Bound.frame {} (UInt64.ofNat 0x1000000000000)) = .ok 23
      ∧ ∃ frame, (compress .native {} (List.replicate 0x1000000000000 0)).value = .ok frame
        ∧ 23 < frame.length := by
  have hlength : (List.replicate 0x1000000000000 0 : Bytes).length = 0x1000000000000 :=
    List.length_replicate
  generalize (List.replicate 0x1000000000000 0 : Bytes) = content at hlength ⊢
  exact ⟨rfl, (compress_long .native hlength).2⟩

end Codec

end Lz4Frame
