import Lz4Frame.Platform.Reference
import Lz4Frame.Proofs.Codec.Decoding
import Lz4Frame.Proofs.Compressor.Frames
import Lz4Frame.Proofs.Decompressor.Session
import Lz4Frame.Proofs.Frame.Whole

/-!
# Round trips

What was compressed comes back, however it was handed over and whatever compressor and decompressor
did before: `frame_delivers` for frames that are made and read piece by piece.
-/

namespace Lz4Frame

open Decoder Decompressor

/-! ## Piece by piece -/

section

variable [Platform]

/-- A decompressor before a frame gives its content back from any pieces. -/
theorem IsFrame.delivers {header : Header} {content frame tail : Bytes}
    (h : IsFrame header content frame) {decompressor : Decompressor} (hready : decompressor.Ready)
    {portions : List Portion} (hportions : ∀ portion ∈ portions, portion.Fits)
    (hjoined : joined portions = frame ++ tail)
    (hlast : ∀ last ∈ portions.getLast?, tail.length < last.bytes.length) :
    Delivers portions (decompressor.updates portions) content tail := by
  have hne : portions ≠ [] := by
    intro hnil
    have hlength := congrArg List.length hjoined
    have hframeLength := h.length_ge
    simp only [hnil, joined_nil, List.length_nil, List.length_append] at hlength
    unfold Header.minLength at hframeLength
    omega
  -- a decompressor before a frame reads the frame as its content
  refine updates_delivers hportions hne ?_ hlast
  rw [hready.decoder_eq, hjoined]
  exact h.read tail

/-- A compressor in any state makes a frame of any row of calls, and a decompressor before a frame
gives its content back from any pieces, in chunks of any lengths. -/
theorem frame_delivers (compressor : Compressor) {prefs : Preferences}
    (hvalid : prefs.validate = .ok ()) {row : List Call} (hfits : ∀ call ∈ row, call.Fits prefs)
    (hdeclared : prefs.declaredSize = none
      ∨ 0 < (contentOf row).length ∧ (contentOf row).length < 0x10000000000000000
        ∧ prefs.declaredSize = some (contentOf row).length) :
    ∃ next frame, compressor.frame prefs row = (next, .ok frame)
      ∧ ∀ (decompressor : Decompressor) (portions : List Portion) (tail : Bytes),
          decompressor.Ready → (∀ portion ∈ portions, portion.Fits) →
          joined portions = frame ++ tail →
          (∀ last ∈ portions.getLast?, tail.length < last.bytes.length) →
          Delivers portions (decompressor.updates portions) (contentOf row) tail := by
  have hsize : prefs.declaredOrZero = 0
      ∨ prefs.declaredOrZero = (contentOf row).length
        ∧ (contentOf row).length < 0x10000000000000000 := by
    unfold Preferences.declaredOrZero
    rcases hdeclared with hnone | ⟨-, hlt, hsome⟩
    · exact .inl (by rw [hnone]; rfl)
    · exact .inr ⟨by rw [hsome]; rfl, hlt⟩
  rcases compressor.frame_isFrame hvalid hfits (by omega) (by omega)
      with ⟨next, frame, hframe, -, hisFrame⟩
  refine ⟨next, frame, hframe, ?_⟩
  intro decompressor portions tail hready hportions hjoined hlast
  exact hisFrame.delivers hready hportions hjoined hlast

end

open Reference in
/-- Two updates and a flush in between, read back from two pieces by a decompressor that was reset,
with two more bytes behind the frame. -/
theorem frame_delivers_two_updates :
    ∃ next frame, Compressor.frame (.new .native) {} [.update [1, 2], .flush, .update [3]]
        = (next, .ok frame)
      ∧ Delivers [⟨frame.take 9, 1⟩, ⟨frame.drop 9 ++ [7, 7], 2⟩]
          (updates (reset (.new .native)).1 [⟨frame.take 9, 1⟩, ⟨frame.drop 9 ++ [7, 7], 2⟩])
          [1, 2, 3] [7, 7] := by
  have hcount (n : Nat) (hn : n < 100) : Bound.Countable {} n := by
    unfold Bound.Countable
    show (n + (65536 - 1)) / 65536 < 0x100000000
    omega
  have hfits : ∀ call ∈ [Call.update [1, 2], .flush, .update [3]], call.Fits {} := by
    intro call hmem
    simp only [List.mem_cons, List.not_mem_nil, or_false] at hmem
    rcases hmem with rfl | rfl | rfl
    · exact ⟨by simp, hcount _ (by decide)⟩
    · trivial
    · exact ⟨by simp, hcount _ (by decide)⟩
  rcases frame_delivers (.new .native) rfl hfits (.inl rfl) with ⟨next, frame, hframe, hdelivers⟩
  rcases Compressor.frame_isFrame (.new .native) rfl hfits (by decide) (.inl rfl)
      with ⟨next', frame', hframe', -, hisFrame⟩
  rw [hframe, Prod.mk.injEq, Except.ok.injEq] at hframe'
  rcases hframe' with ⟨-, rfl⟩
  have hlength := hisFrame.length_ge
  unfold Header.minLength at hlength
  refine ⟨next, frame, hframe, hdelivers _ _ _ (.reset _) ?_ ?_ ?_⟩
  · intro portion hmem
    simp only [List.mem_cons, List.not_mem_nil, or_false] at hmem
    rcases hmem with rfl | rfl
    · refine .of_assured (List.ne_nil_of_length_pos ?_) Nat.one_pos (by decide)
      rw [List.length_take]
      omega
    · exact .of_assured (by simp) Nat.two_pos (by decide)
  · rw [joined_cons, joined_cons, joined_nil, List.append_nil, ← List.append_assoc,
      List.take_append_drop]
  · intro last hmem
    obtain rfl : ⟨frame.drop 9 ++ [7, 7], 2⟩ = last := by simpa using hmem
    simp only [List.length_append, List.length_drop, List.length_cons, List.length_nil]
    omega

section

variable [Platform]

/-- An update whose blocks cannot be counted ends the frame before it is made. -/
theorem update_uncountable {linked : Bool} {input : Bytes} :
    input.length = 0xffffffffffff →
      (Compressor.frame (.new .native) { linked } [.update input]).2
        = .error (.frame .dstMaxSizeTooSmall) := by
  intro hlength
  have hvalid : Preferences.validate { linked } = .ok () := rfl
  rcases (Compressor.new .native).start_within hvalid with ⟨started, hstart, hwithin⟩
  rcases Compressor.update_wraps hwithin hlength with ⟨events, hupdate⟩
  simp only [Compressor.frame, hstart, Traced.ofCall, Compressor.calls, Compressor.call, hupdate]

end

open Reference in
/-- Chunks can be too long for any memory, and an update too long for its blocks to be counted. -/
theorem frame_not_delivered :
    (∃ next frame, Compressor.frame (.new .native) {} [.update [1, 2, 3]] = (next, .ok frame)
        ∧ (updates (.new .native) [⟨frame, assuredSize⟩]).failure
          = some (.allocation assuredSize))
      ∧ (Compressor.frame (.new .native) {} [.update (List.replicate 0xffffffffffff 0)]).2
        = .error (.frame .dstMaxSizeTooSmall) := by
  refine ⟨?_, ?_⟩
  · have hfits : ∀ call ∈ [Call.update [1, 2, 3]], call.Fits {} := by
      intro call hmem
      obtain rfl : call = .update [1, 2, 3] := by simpa using hmem
      refine ⟨by simp, ?_⟩
      show (3 + (65536 - 1)) / 65536 < 0x100000000
      decide
    rcases Compressor.frame_isFrame (.new .native) rfl hfits (by decide) (.inl rfl)
        with ⟨next, frame, hframe, -, hisFrame⟩
    refine ⟨next, frame, hframe, ?_⟩
    have hlength := hisFrame.length_ge
    have hne : frame ≠ [] := List.ne_nil_of_length_pos (by omega)
    have hpos : assuredSize ≠ 0 := by decide
    simp [updates, update, hne, hpos, Reference.allocate_assuredSize]
  · exact update_uncountable List.length_replicate

/-! ## In one call -/

namespace Codec

section

variable [Platform]

/-- A frame that declares no length reads as its content, unless memory runs out; it does not run
out if the hint, and ten times the content, can be allocated. -/
theorem decompress_undeclared (gate : Gate) {header : Header} {content frame : Bytes}
    (hframe : IsFrame header content frame) (hnone : header.contentSize.getD 0 = 0) {hint : Nat} :
    1 ≤ hint →
      (decompress gate hint frame).value = .ok content
        ∨ ∃ requested, (decompress gate hint frame).value = .error (.allocation requested)
          ∧ (¬ Platform.grants hint = true ∨ assuredSize ≤ 10 * content.length) := by
  intro hpos
  have hread := hframe.read []
  have hheader := hframe.readHeader []
  rw [List.append_nil] at hread hheader
  have hge := hframe.length_ge
  have hle := hframe.length_le
  have hne : frame ≠ [] := List.ne_nil_of_length_pos (by omega)
  unfold Header.maxLength at hle
  rcases decompress_of_header gate hne hpos hheader with hvalue | ⟨requested, hvalue, hlimit⟩
  · refine .inl ?_
    rw [hvalue, hread]
    rfl
  · refine .inr ⟨requested, hvalue, ?_⟩
    have hinfo : (infoWith freshHint header).declared = 0 := hnone
    rw [hread, hinfo, List.length_drop] at hlimit
    unfold assuredSize at hlimit ⊢
    rcases hlimit with htwice | ⟨hdeclared, -⟩ | ⟨-, hhint | hrest⟩
    · simp only at htwice
      exact .inr (by omega)
    · exact absurd hdeclared (by decide)
    · exact .inl hhint
    · exact .inr (by omega)

/-- The settings that a frame made in one call has. -/
def settings (prefs : Preferences) (content : Bytes) : Preferences :=
  Encoder.wholePreferences { prefs with declaredSize := some content.length } content.length

omit [Platform] in
theorem declaredOrZero_settings (prefs : Preferences) {content : Bytes} :
    content ≠ [] → (settings prefs content).declaredOrZero = content.length := by
  intro hne
  simp [settings, Encoder.wholePreferences, Preferences.declaredOrZero, hne]

/-- Content whose blocks can be counted makes a frame, within the bound. -/
theorem whole_of_countable {prefs : Preferences} {content : Bytes}
    (hcount : Bound.Countable prefs content.length) :
    let declaring := { prefs with declaredSize := some content.length }
    let bound := (Bound.frame declaring (UInt64.ofNat content.length)).toNat
    bound < assuredSize ∧ ∃ frame, Encoder.whole declaring bound content = .ok frame
      ∧ IsFrame (.ofPreferences (settings prefs content)) content frame
      ∧ frame.length ≤ bound := by
  intro declaring bound
  have hlength := hcount.length_lt
  have hbounds := Bound.maxBlock_bounds prefs
  have hcount' : Bound.Countable declaring content.length := hcount
  have hroom : bound < assuredSize := by
    have hworst : Bound.worst { declaring with autoflush := true } content.length 0
        < 0x100000000000000 := Bound.worst_lt hcount' (Nat.zero_le _)
    have hbound : bound = _ := Bound.toNat_frame hcount'
    unfold Header.maxLength at hbound
    unfold assuredSize
    omega
  rcases Encoder.whole_isFrame hcount' (by omega) (Nat.le_refl _) (UInt64.toNat_lt _)
      with ⟨frame, hwhole, hframe, hle⟩
  exact ⟨hroom, frame, hwhole, hframe, hle⟩

/-- Content that is not empty makes a frame that declares its length. -/
theorem compress_isFrame (gate : Gate) {prefs : Preferences} (hvalid : prefs.validate = .ok ())
    {content : Bytes} :
    content ≠ [] → Bound.Countable prefs content.length →
      ∃ frame, (compress gate prefs content).value = .ok frame
        ∧ IsFrame (.ofPreferences (settings prefs content)) content frame := by
  intro hne hcount
  have hempty : ¬ content.isEmpty = true := by simpa [List.isEmpty_iff] using hne
  rcases whole_of_countable hcount with ⟨hroom, frame, hwhole, hframe, -⟩
  refine ⟨frame, ?_, hframe⟩
  rw [compress, if_neg hempty]
  simp only [hvalid, Bound.checked_of_lt hroom, allocate_of_assured hroom, bind, Except.bind, pure,
    Except.pure, Gate.run, hwhole, mapError_ok]

/-- Content whose blocks can be counted is compressed within the room that is found for it. -/
theorem not_overruns {prefs : Preferences} {content : Bytes} :
    Bound.Countable prefs content.length → ¬ Overruns prefs content := by
  intro hcount
  rcases whole_of_countable hcount with ⟨hroom, frame, hwhole, -, hle⟩
  rw [overruns_iff prefs (Bound.checked_of_lt hroom), hwhole]
  exact Nat.not_lt.mpr hle

/-- What was compressed in one call comes back in one call, whatever the hint and whatever follows
the frame. -/
theorem decompress_compress (gate gate' : Gate) {prefs : Preferences}
    (hvalid : prefs.validate = .ok ()) {content : Bytes} (hne : content ≠ [])
    (hcount : Bound.Countable prefs content.length) :
    ∃ frame, (compress gate prefs content).value = .ok frame ∧ ¬ Overruns prefs content
      ∧ ∀ (hint : Nat) (tail : Bytes), 1 ≤ hint →
          (decompress gate' hint (frame ++ tail)).value = .ok content := by
  rcases compress_isFrame gate hvalid hne hcount with ⟨frame, hcompress, hframe⟩
  refine ⟨frame, hcompress, not_overruns hcount, ?_⟩
  intro hint tail hpos
  have hread := hframe.read tail
  have hlength := hcount.length_lt
  have hbounds := Bound.maxBlock_bounds prefs
  have hcontent := List.length_pos_iff.mpr hne
  have hdeclared : (Header.ofPreferences (settings prefs content)).contentSize.getD 0
      = content.length := by
    simp [Header.ofPreferences, settings, Encoder.wholePreferences, Preferences.declaredOrZero,
      hne]
  have hlimit : 2 * content.length < assuredSize := by
    unfold assuredSize
    omega
  have hheader := hframe.readHeader tail
  have hne' : frame ++ tail ≠ [] := by
    have := hframe.length_ge
    exact List.ne_nil_of_length_pos (by rw [List.length_append]; omega)
  rcases decompress_of_header gate' hne' hpos hheader with hvalue | ⟨requested, -, hlimit'⟩
  · rw [hvalue, hread]
    rfl
  · -- the declared length is all the room that is needed
    have hinfo : (infoWith freshHint (Header.ofPreferences (settings prefs content))).declared
        = content.length := hdeclared
    rw [hread, hinfo] at hlimit'
    simp only at hlimit'
    omega

end

open Reference in
/-- Three bytes, through the smallest buffer and with a byte behind the frame. -/
theorem decompress_compress_three_bytes :
    ∃ frame, (compress .native {} [7, 7, 7]).value = .ok frame
      ∧ (decompress .native 1 (frame ++ [1])).value = .ok [7, 7, 7] := by
  have hcount : Bound.Countable {} 3 := by
    show (3 + (65536 - 1)) / 65536 < 0x100000000
    decide
  have hvalid : Preferences.validate {} = .ok () := rfl
  have hne : ([7, 7, 7] : Bytes) ≠ [] := by simp
  rcases decompress_compress .native .native hvalid hne hcount
      with ⟨frame, hcompress, -, hdecompress⟩
  exact ⟨frame, hcompress, hdecompress 1 [1] (Nat.le_refl 1)⟩

section

variable [Platform]

/-- The room that is found for content of 2^48 bytes is that of a header and an end mark, and the
frame is made past its end. -/
theorem compress_long (gate : Gate) {content : Bytes} (hlength : content.length = 0x1000000000000) :
    Bound.checked (Bound.frame { declaredSize := some content.length }
        (UInt64.ofNat content.length)) = .ok 23
      ∧ ∃ frame, (compress gate {} content).value = .ok frame ∧ 23 < frame.length := by
  have hempty : ¬ content.isEmpty = true := by
    rw [List.isEmpty_iff, ← List.length_eq_zero_iff, hlength]
    decide
  have hbound : Bound.checked (Bound.frame { declaredSize := some 0x1000000000000 }
      (UInt64.ofNat 0x1000000000000)) = .ok 23 := rfl
  have hallocate : allocate 23 = .ok () := allocate_of_assured (by decide)
  have hvalid : Preferences.validate {} = .ok () := rfl
  rcases Encoder.whole_overruns hlength with ⟨frame, hwhole, hover⟩
  refine ⟨by rw [hlength, hbound], frame, ?_, hover⟩
  rw [compress, if_neg hempty]
  simp only [hlength, hvalid, hbound, hallocate, bind, Except.bind, pure, Except.pure, Gate.run,
    hwhole, mapError_ok]

end

open Reference in
/-- So content of 2^48 bytes is not compressed: other memory is written to. -/
theorem compress_too_long :
    Preferences.validate {} = .ok ()
      ∧ Bound.checked (Bound.frame { declaredSize := some 0x1000000000000 }
        (UInt64.ofNat 0x1000000000000)) = .ok 23
      ∧ Overruns {} (List.replicate 0x1000000000000 0) := by
  have hlength : (List.replicate 0x1000000000000 0 : Bytes).length = 0x1000000000000 :=
    List.length_replicate
  refine ⟨rfl, rfl, ?_⟩
  generalize (List.replicate 0x1000000000000 0 : Bytes) = content at hlength ⊢
  rcases compress_long .native hlength with ⟨hroom, -⟩
  rcases Encoder.whole_overruns hlength with ⟨frame, hwhole, hover⟩
  rw [overruns_iff {} hroom, hlength, hwhole]
  exact hover

end Codec

end Lz4Frame
