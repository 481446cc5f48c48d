import Lz4Frame.Platform.Reference
import Lz4Frame.Proofs.Codec.DeclaredLength
import Lz4Frame.Proofs.Decoder.Standing
import Lz4Frame.Proofs.Decompressor.Requests
import Lz4Frame.Proofs.Truncation

/-!
# What is known about a frame, and when

A decompressor tells what the header of its frame said from the last byte of the header to the last
but one of the frame, wherever the pieces were cut; before the first byte and behind the last there
is no header, and within the header it has only begun (`Decompressor.told`).  What the header said
is what the frame was made with (`Decompressor.frame_info_of_made`).
-/

namespace Lz4Frame

open Decoder

/-! ## The block size of a frame in one piece -/

/-- Of the sizes not above the requested one the smallest whose block holds `n` bytes, or else the
requested one; a size that was left open is told as what it stands for. -/
structure BlockSize.Chosen (requested : BlockSize) (n : Nat) (chosen : BlockSize) : Prop where
  named : chosen ≠ .unspecified
  le_requested : chosen.bytes ≤ requested.bytes
  holds : n ≤ requested.bytes → n ≤ chosen.bytes
  least : n ≤ requested.bytes → ∀ other : BlockSize, other ≠ .unspecified → n ≤ other.bytes →
    chosen.id ≤ other.id
  otherwise : requested.bytes < n → chosen = requested.resolved

/-- What is found first in a row that grows is the least of all that could be found. -/
theorem find?_least {α : Type} {p : α → Bool} (measure : α → Nat) {row : List α} {found : α}
    (grows : row.Pairwise fun first second => measure first < measure second) :
    row.find? p = some found → ∀ other ∈ row, p other = true → measure found ≤ measure other := by
  intro hfind other hmem hfits
  induction grows with
  | nil => cases hmem
  | cons hfirst _ ih =>
      rw [List.find?_cons] at hfind
      split at hfind
      · obtain rfl := Option.some.inj hfind
        rcases List.mem_cons.mp hmem with rfl | hmem
        · exact Nat.le_refl _
        · exact Nat.le_of_lt (hfirst other hmem)
      · rename_i hunfit
        rcases List.mem_cons.mp hmem with rfl | hmem
        · rw [hfits] at hunfit
          cases hunfit
        · exact ih hfind hmem

namespace BlockSize

theorem mem_smaller {size requested : BlockSize} (named : size ≠ .unspecified) :
    size.id < requested.id → size ∈ [max64KiB, max256KiB, max1MiB] := by
  cases requested <;> cases size <;> simp_all [id]

theorem resolved_of_ne {size : BlockSize} : size ≠ .unspecified → size.resolved = size := by
  cases size <;> simp [resolved]

theorem id_resolved_le {size other : BlockSize} (named : other ≠ .unspecified) :
    size.id ≤ other.id → size.resolved.id ≤ other.id := by
  cases other <;> cases size <;> simp_all [id, resolved]

theorem fitting_chosen (requested : BlockSize) (n : Nat) :
    requested.Chosen n (requested.fitting n).resolved := by
  unfold fitting
  cases hfind : [max64KiB, max256KiB, max1MiB].find? fun size =>
      size.id < requested.id ∧ n ≤ size.bytes with
  | none =>
      -- no smaller size would do
      have hleast {other : BlockSize} (named : other ≠ .unspecified) (hother : n ≤ other.bytes) :
          requested.id ≤ other.id := by
        refine Nat.le_of_not_lt fun hlt => ?_
        have hunfit := List.find?_eq_none.mp hfind other (mem_smaller named hlt)
        exact hunfit (decide_eq_true ⟨hlt, hother⟩)
      have hbytes := Header.bytes_resolved requested
      exact ⟨Header.resolved_ne requested, Nat.le_of_eq hbytes, fun hfits => hbytes ▸ hfits,
        fun _ other named hother => id_resolved_le named (hleast named hother), fun _ => rfl⟩
  | some size =>
      have hfound := List.find?_some hfind
      simp only [decide_eq_true_eq] at hfound
      have hbytes := bytes_mono (Nat.le_of_lt hfound.1)
      have hnamed : size ≠ .unspecified := by
        rintro rfl
        simpa using List.mem_of_find?_eq_some hfind
      rw [Option.getD_some, resolved_of_ne hnamed]
      refine ⟨hnamed, hbytes, fun _ => hfound.2, fun _ other named hother => ?_,
        fun hlong => absurd (Nat.le_trans hfound.2 hbytes) (Nat.not_le_of_lt hlong)⟩
      by_cases hlt : other.id < requested.id
      · exact find?_least id (by decide) hfind other (mem_smaller named hlt)
          (decide_eq_true ⟨hlt, hother⟩)
      · omega

end BlockSize

/-! ## What is told along a frame -/

namespace Decompressor

section

variable [Platform]

/-- What a decompressor tells about a frame behind the calls of a session: nothing of it is there,
the header has only begun, the header has been read, or the frame has ended. -/
structure Told (headerLength frameLength : Nat) (facts : Nat → FrameInfo)
    (portions : List Portion) (session : Session) : Prop where
  /-- Pieces and chunks that can be taken are. -/
  fed : (∀ portion ∈ portions, portion.Fits) →
    session.failure = none ∧ session.used = (joined portions).length
  none_used : session.used = 0 →
    session.final.frameInfo.2.value = .error (.frame .frameHeaderIncomplete)
  in_header : 0 < session.used → session.used < headerLength →
    session.final.frameInfo.2.value = .error (.frame .frameDecodingAlreadyStarted)
  behind_header : headerLength ≤ session.used → session.used < frameLength →
    ∃ hint, 0 < hint ∧ session.final.frameInfo.2.value = .ok (facts hint)
  complete : session.used = frameLength →
    session.final.frameInfo.2.value = .error (.frame .frameHeaderIncomplete)

/-- Along a frame what is told depends on the bytes that were used alone. -/
theorem told {header : Header} {content frame : Bytes} (h : IsFrame header content frame)
    {decompressor : Decompressor} (ready : decompressor.Ready) {portions : List Portion}
    (hfront : joined portions <+: frame) :
    Told header.encode.length frame.length (fun hint => infoWith hint header) portions
      (decompressor.updates portions) := by
  rcases along_new h with ⟨wire, hframe, -, halong⟩
  rw [← ready.decoder_eq] at halong
  rcases updates_along h.writable halong hfront with ⟨hreached, hfed⟩
  generalize decompressor.updates portions = session at hreached hfed
  have hmin := h.length_ge
  have hlength := congrArg List.length hframe
  rw [List.length_append] at hlength
  rcases hreached.place with ⟨hall, hnew, -⟩ | ⟨hplace, -⟩
  · -- the frame has ended
    have htold := frameInfo_of_new hnew
    exact ⟨hfed, fun _ => htold, fun _ hshort => by omega, fun _ hshort => by omega,
      fun _ => htold⟩
  · have hle := hreached.used_le
    have hused : session.used < frame.length := by
      have := List.length_pos_iff.mpr hplace.rest_ne
      rw [List.length_drop] at this
      omega
    have htold := frameInfo_value hplace.stands.waits
    generalize hdecoder : session.final.decoder = decoder at hplace htold
    cases hplace.stands with
    | @opening held _ joined =>
        -- what is held of the header is what was used
        have hheld := congrArg List.length joined
        simp only [List.length_append, List.length_drop, Array.length_toList] at hheld
        have hlt := held.size_lt
        have hheader := header.minLength_le
        have hempty : held.bytes.isEmpty = decide (held.bytes.size = 0) := rfl
        rw [info?, hempty] at htold
        refine ⟨hfed, fun hnone => ?_, fun hsome _ => ?_, fun hlong _ => by omega,
          fun hall => by omega⟩
        · rw [htold, decide_eq_true (by omega)]
          rfl
        · rw [htold, decide_eq_false (by omega)]
          rfl
    | @longHeader held _ started joined =>
        have hheld := congrArg List.length joined
        simp only [List.length_append, List.length_drop, Array.length_toList] at hheld
        have hlt := held.size_lt
        exact ⟨hfed, fun hnone => by omega, fun _ _ => htold, fun hlong _ => by omega,
          fun hall => by omega⟩
    | inside header_eq behind =>
        have hbehind := behind.length_le
        rw [List.length_drop] at hbehind
        rw [info?_of_header? header_eq] at htold
        refine ⟨hfed, fun hnone => ?_, fun _ hshort => by omega, fun _ _ => ?_,
          fun hall => by omega⟩
        · have := header.minLength_le
          unfold Header.minLength at this
          omega
        · exact ⟨_, idleHint_pos (waits_of_header? header_eq), htold⟩

/-! ## What a frame was made with -/

omit [Platform] in
theorem infoWith_ofPreferences (hint : Nat) (prefs : Preferences) :
    infoWith hint (.ofPreferences prefs) = {
      hint
      declared := prefs.declaredOrZero
      blockSize := prefs.blockSize.resolved
      linked := prefs.linked
      contentChecksum := prefs.contentChecksum
      blockChecksum := prefs.blockChecksum } := by
  rw [infoWith, Header.contentSize_ofPreferences]
  rfl

/-- Of a frame that a compressor in any state was made to write, and of a frame that was made in one
call, a decompressor that stands before a frame tells what it was made with, as long as some but not
all of the bytes behind the header are still to come.  A frame in one piece declares the length of
its content; its blocks are no larger than it takes, and they are linked only if there are
several. -/
theorem frame_info_of_made :
    (∀ {compressor started active closed : Compressor} {prefs : Preferences} {row : List Call}
        {answers : List (Except Error Bytes)} {header trailer : Bytes}
        {starting finishing : List LockEvent},
      prefs.declaredOrZero < 0x10000000000000000 →
      compressor.start prefs = (started, ⟨.ok header, starting⟩) →
      started.tries row = (active, answers) →
      active.finish = (closed, ⟨.ok trailer, finishing⟩) →
      ∀ {decompressor : Decompressor} {portions : List Portion}, decompressor.Ready →
        joined portions <+: header ++ sentBy answers ++ trailer →
        Told header.length (header ++ sentBy answers ++ trailer).length
          (fun hint => {
            hint
            declared := prefs.declaredSize.getD 0
            blockSize := prefs.blockSize.resolved
            linked := prefs.linked
            contentChecksum := prefs.contentChecksum
            blockChecksum := prefs.blockChecksum })
          portions (decompressor.updates portions))
      ∧ ∀ {gate : Gate} {prefs : Preferences} {content frame : Bytes},
        content.length < 0x10000000000000000 →
        (Codec.compress gate prefs content).value = .ok frame →
        ∃ blockSize, prefs.blockSize.Chosen content.length blockSize
          ∧ ∀ {decompressor : Decompressor} {portions : List Portion}, decompressor.Ready →
            joined portions <+: frame →
            Told 15 frame.length
              (fun hint => {
                hint
                declared := content.length
                blockSize
                linked := prefs.linked && decide (blockSize.bytes < content.length)
                contentChecksum := prefs.contentChecksum
                blockChecksum := prefs.blockChecksum })
              portions (decompressor.updates portions) := by
  constructor
  · intro compressor started active closed prefs row answers header trailer starting finishing
      declared_lt start_eq tries_eq finish_eq decompressor portions ready hfront
    rcases Compressor.frame_ok declared_lt start_eq tries_eq finish_eq with ⟨rfl, hframe⟩
    have htold := told hframe ready hfront
    simp only [infoWith_ofPreferences] at htold
    exact htold
  · intro gate prefs content frame length_lt made
    rcases Codec.compress_whole made with ⟨hne, -, -, -, -⟩
    have hframe : IsFrame (.ofPreferences (Codec.settings prefs content)) content frame :=
      Codec.compress_ok length_lt made
    have hdeclared := Codec.declaredOrZero_settings prefs hne
    have hpos := List.length_pos_iff.mpr hne
    refine ⟨_, prefs.blockSize.fitting_chosen content.length, fun ready hfront => ?_⟩
    have htold := told hframe ready hfront
    rw [Header.length_encode_ofPreferences, hdeclared, if_neg (Nat.ne_of_gt hpos)] at htold
    simp only [infoWith_ofPreferences, hdeclared] at htold
    rw [Header.bytes_resolved]
    exact htold

end

open Reference in
/-- Nine bytes of a frame that was made piece by piece, and all of one that was made in one call. -/
theorem frame_info_of_made_three_bytes :
    (∃ hint, 0 < hint ∧ ((new .native).updates [⟨threeBytes.take 9, 1⟩]).final.frameInfo.2.value
        = .ok ⟨hint, 0, .max64KiB, true, false, false⟩)
      ∧ ∃ frame, (Codec.compress .native {} [7, 7, 7]).value = .ok frame
        ∧ ((new .native).updates [⟨frame, 1⟩]).final.frameInfo.2.value
          = .error (.frame .frameHeaderIncomplete) := by
  constructor
  · rcases threeBytes_calls with ⟨started, active, closed, _, _, hstart, htries, hfinish⟩
    have htold := frame_info_of_made.1 (by decide) hstart htries hfinish (.fresh .native)
      (show joined [⟨threeBytes.take 9, 1⟩] <+: threeBytes from ⟨threeBytes.drop 9, rfl⟩)
    have hused := (htold.fed (List.forall_mem_singleton.mpr
      ⟨by decide, by decide, by decide⟩)).2
    exact htold.behind_header (by rw [hused]; decide) (by rw [hused]; decide)
  · rcases Codec.compress_threeBytes with ⟨-, frame, hcompress⟩
    have hframe := Codec.compress_ok (by decide) hcompress
    rcases frame_info_of_made.2 (by decide) hcompress with ⟨blockSize, -, htold⟩
    have htold' := htold (.fresh .native) (show joined [⟨frame, 1⟩] <+: frame from by simp)
    refine ⟨frame, hcompress, htold'.complete ?_⟩
    have hlength := hframe.length_ge
    have hfits : (Portion.mk frame 1).Fits :=
      .of_assured (List.ne_nil_of_length_pos (Nat.lt_of_lt_of_le (by decide) hlength))
        Nat.one_pos (by decide)
    simpa using (htold'.fed (List.forall_mem_singleton.mpr hfits)).2

end Decompressor

end Lz4Frame
