import Lz4Frame.Proofs.Frame.Encoding

/-!
# Frames in one piece

A frame that is made in one piece takes the smallest block size that holds its content.  The room
that its caller finds, for the block size that was asked for, is enough (`frame_wholePreferences`),
and the frame is one of the whole content, made within that room (`whole_isFrame`), as long as the
blocks can be counted.  Where the count of the blocks wraps around, the frame can be longer than its
room (`whole_overruns`).
-/

namespace Lz4Frame

/-! ## The block size -/

/-- Sizes grow with the identifiers that name them. -/
theorem BlockSize.bytes_mono {size other : BlockSize} :
    size.id ≤ other.id → size.bytes ≤ other.bytes := by
  cases size <;> cases other <;> decide

/-- A smaller block size is chosen only if a single block holds everything. -/
theorem BlockSize.fitting_cases (requested : BlockSize) (n : Nat) :
    requested.fitting n = requested
      ∨ n ≤ (requested.fitting n).bytes ∧ n ≤ requested.bytes := by
  unfold fitting
  cases hfind : [max64KiB, max256KiB, max1MiB].find? fun size =>
      size.id < requested.id ∧ n ≤ size.bytes with
  | none => exact .inl rfl
  | some size =>
      have hfound := List.find?_some hfind
      simp only [decide_eq_true_eq] at hfound
      exact .inr ⟨hfound.2, Nat.le_trans hfound.2 (bytes_mono (Nat.le_of_lt hfound.1))⟩

namespace Encoder

/-- As many blocks are counted for the chosen block size as for the one that was asked for. -/
theorem blocks_wholePreferences (prefs : Preferences) (length : Nat) :
    (length + ((wholePreferences prefs length).maxBlock - 1))
        / (wholePreferences prefs length).maxBlock
      = (length + (prefs.maxBlock - 1)) / prefs.maxBlock := by
  have hone {size : Nat} (hsize : 0 < size) (hle : length ≤ size) :
      (length + (size - 1)) / size = if length = 0 then 0 else 1 := by
    split
    · rename_i hzero
      rw [hzero, Nat.zero_add, Nat.div_eq_of_lt (by omega)]
    · rw [show length + (size - 1) = length - 1 + size by omega, Nat.add_div_right _ hsize,
        Nat.div_eq_of_lt (by omega)]
  unfold Preferences.maxBlock wholePreferences
  rcases prefs.blockSize.fitting_cases length with hsame | ⟨hfits, hfits'⟩
  · rw [hsame]
  · rw [hone (BlockSize.bytes_pos _) hfits, hone (BlockSize.bytes_pos _) hfits']

theorem countable_wholePreferences {prefs : Preferences} {length : Nat} :
    Bound.Countable prefs length → Bound.Countable (wholePreferences prefs length) length := by
  intro h
  unfold Bound.Countable
  rw [blocks_wholePreferences]
  exact h

/-- The settings of a frame in one piece take no more room than those that were asked for. -/
theorem frame_wholePreferences {prefs : Preferences} {length : Nat} :
    Bound.Countable prefs length →
      (Bound.frame (wholePreferences prefs length) (UInt64.ofNat length)).toNat
        = (Bound.frame prefs (UInt64.ofNat length)).toNat := by
  intro h
  have hblocks := blocks_wholePreferences prefs length
  have hworst : Bound.worst { wholePreferences prefs length with autoflush := true } length 0
      = Bound.worst { prefs with autoflush := true } length 0 := by
    rw [Bound.worst_autoflush rfl, Bound.worst_autoflush rfl]
    simp only [Preferences.maxBlock] at hblocks ⊢
    rw [hblocks]
    rfl
  calc
    (Bound.frame (wholePreferences prefs length) (UInt64.ofNat length)).toNat
        = Header.maxLength
          + Bound.worst { wholePreferences prefs length with autoflush := true } length 0 :=
          Bound.toNat_frame (countable_wholePreferences h)
    _ = Header.maxLength + Bound.worst { prefs with autoflush := true } length 0 := by rw [hworst]
    _ = (Bound.frame prefs (UInt64.ofNat length)).toNat := (Bound.toNat_frame h).symm

/-! ## The frame -/

variable [Platform]

/-- A frame in one piece is a frame of the content, if there is the room that it asks for, and it is
made within that room. -/
theorem whole_isFrame {prefs : Preferences} {content : Bytes} {room : Nat}
    (hcount : Bound.Countable prefs content.length)
    (hlength : content.length < 0x10000000000000000)
    (hroom : (Bound.frame prefs (UInt64.ofNat content.length)).toNat ≤ room)
    (hword : room < 0x10000000000000000) :
    ∃ frame, whole prefs room content = .ok frame
      ∧ IsFrame (.ofPreferences (wholePreferences prefs content.length)) content frame
      ∧ frame.length ≤ room := by
  rw [← frame_wholePreferences hcount] at hroom
  have hcount' := countable_wholePreferences hcount
  unfold whole
  simp only
  generalize hwhole : wholePreferences prefs content.length = settings at hroom hcount' ⊢
  have hauto : settings.autoflush = true := by rw [← hwhole]; rfl
  have hheld : Bound.mostHeld settings = 0 := if_pos hauto
  have hdeclared : settings.declaredOrZero = 0 ∨ settings.declaredOrZero = content.length := by
    rw [← hwhole]
    unfold wholePreferences Preferences.declaredOrZero
    split
    · exact .inl rfl
    · exact .inr rfl
  rw [if_neg (Nat.not_lt.mpr hroom)]
  have hsettings : { settings with autoflush := true } = settings := by rw [← hauto]
  rw [Bound.toNat_frame hcount', hsettings] at hroom
  have hheader := (Header.ofPreferences settings).encode_length_le
  -- the room is divided among the header, the blocks and the trailer
  rcases new.start_within (show Header.maxLength ≤ room by omega) settings
      with ⟨started, hstart, hwithin⟩
  have hnone : started.held.size = 0 := by
    have := hwithin.held_le
    omega
  have hbehind : roomBehind room (Header.ofPreferences settings).encode.length
      = room - (Header.ofPreferences settings).encode.length := roomBehind_eq (by omega) hword
  rcases update_within hwithin
    (roomBehind room (Header.ofPreferences settings).encode.length) content (by
      rw [hnone, Bound.toNat_withHeld hcount' (Nat.zero_le _), hbehind]
      omega) with ⟨updated, blocks, hupdate, hwithin', hblocks⟩
  rw [hnone] at hblocks
  have hbehind' : roomBehind room ((Header.ofPreferences settings).encode.length + blocks.length)
      = room - ((Header.ofPreferences settings).encode.length + blocks.length) :=
    roomBehind_eq (by omega) hword
  have hroomLeft : updated.finishRoom
      ≤ roomBehind room ((Header.ofPreferences settings).encode.length + blocks.length) := by
    have hle := hwithin'.held_le
    rw [finishRoom, if_pos (by omega), hwithin'.prefs_eq, hbehind']
    omega
  rcases finish_within hwithin' (by omega) hroomLeft with ⟨closed, rest, -, hgood, -⟩
  rcases hgood (by simpa using hdeclared) with ⟨hfinish, hframe, hrest⟩
  refine ⟨(Header.ofPreferences settings).encode ++ blocks ++ rest, ?_, by simpa using hframe, ?_⟩
  · simp only [hstart, hupdate, hfinish]
  · rw [List.length_append, List.length_append]
    omega

/-- The count of the blocks of a long content wraps around, and the room that is found is that of a
header and an end mark.  The frame is made all the same, past the end of that room. -/
theorem whole_overruns {content : Bytes} (hlength : content.length = 0x1000000000000) :
    ∃ frame, whole { declaredSize := some 0x1000000000000 } 23 content = .ok frame
      ∧ 23 < frame.length := by
  generalize hsettings :
    wholePreferences { declaredSize := some 0x1000000000000 } 0x1000000000000 = settings
  have hauto : settings.autoflush = true := by rw [← hsettings]; rfl
  have hheld : Bound.mostHeld settings = 0 := if_pos hauto
  have hmax : settings.maxBlock = 65536 := by rw [← hsettings]; rfl
  have hheader : (Header.ofPreferences settings).encode.length = 15 := by rw [← hsettings]; rfl
  have hdeclared : settings.declaredOrZero = 0x1000000000000 := by rw [← hsettings]; rfl
  have hroom : ¬ 23 < (Bound.frame settings (UInt64.ofNat 0x1000000000000)).toNat := by
    rw [← hsettings]
    decide
  rcases new.start_within (show Header.maxLength ≤ 23 by decide) settings
      with ⟨started, hstart, hwithin⟩
  have hnone : started.held.size = 0 := by
    have := hwithin.held_le
    omega
  have hgranted : (Bound.withHeld settings (UInt64.ofNat content.length)
      (UInt64.ofNat started.held.size)).toNat ≤ 8 := by
    rw [hlength, hnone, ← hsettings]
    decide
  have hworst : Bound.worst settings 0x1000000000000 0 ≤ 0x8000000000000000 := by
    rw [← hsettings]
    decide
  rcases hwithin.overrun hgranted (by rw [hheld, hmax, hheader, hlength]; decide)
      with ⟨updated, blocks, hupdate, hwithin', hover, hle⟩
  rw [hlength, hnone] at hle
  -- the rest of the room is a difference below zero, which as a word is more than enough
  have hbehind : updated.finishRoom ≤ roomBehind 23 (15 + blocks.length) := by
    have htrailer : Bound.trailerLength settings ≤ 8 := by rw [← hsettings]; decide
    have hempty := hwithin'.held_le
    rw [finishRoom, if_pos (by omega), hwithin'.prefs_eq, roomBehind, UInt64.toNat_sub,
      UInt64.toNat_ofNat', UInt64.toNat_ofNat']
    omega
  rcases finish_within hwithin' (by omega) hbehind with ⟨closed, rest, -, hgood, -⟩
  rcases hgood (.inr (by simp [hdeclared, hlength])) with ⟨hfinish, -, -⟩
  refine ⟨(Header.ofPreferences settings).encode ++ blocks ++ rest, ?_, ?_⟩
  · have hsame : roomBehind 23 15 = 8 := rfl
    simp only [whole, hlength, hsettings, hroom, hstart, hheader, hsame, hupdate, hfinish,
      ↓reduceIte]
  · rw [List.length_append, List.length_append, hheader]
    omega

end Encoder

end Lz4Frame
