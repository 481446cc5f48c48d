import Lz4Frame.Platform.Reference
import Lz4Frame.Proofs.Compressor.Lifecycle
import Lz4Frame.Proofs.Made

/-!
# Declared lengths

A frame that declares a length is held to it when it is closed: whatever the compressor did before,
and however the content was cut, closing fails exactly if another length was taken
(`declared_checked`).  A declared length of 0 is the exception.  It reaches the encoder as "not
declared", is not written into the header, and is not held against anything (`declared_zero`).
Failing closes the frame too, and the next one is made as if nothing had happened.
-/

namespace Lz4Frame.Compressor

section

variable [Platform]

/-- Whatever a compressor was asked before, a frame that declares a length can be started and its
calls be made, and closing it succeeds, with a frame of what was taken, exactly if 0 or the length
that was taken is declared; otherwise it fails for the wrong length.  Either way the frame is
closed, and the compressor makes correct frames behind it.  Calls whose blocks can be counted are
all granted, so what is taken is all that they hand over. -/
theorem declared_checked (gate : Gate) (past : List Operation) {prefs : Preferences}
    (hvalid : prefs.validate = .ok ()) {declared : Nat}
    (hdeclared : prefs.declaredSize = some declared) (hlt : declared < 0x10000000000000000)
    (row : List Call) :
    ∃ started active closed header answers result,
      ((new gate).after past).start prefs = (started, .ofCall (.ok header))
        ∧ started.tries row = (active, answers)
        ∧ ((∀ call ∈ row, call.Fits prefs) → taken row answers = contentOf row)
        ∧ active.finish = (closed, .ofCall result) ∧ closed.stage = .idle
        ∧ (declared = 0 ∨ declared = (taken row answers).length →
            ∃ trailer, result = .ok trailer
              ∧ IsFrame (.ofPreferences prefs) (taken row answers)
                (header ++ sentBy answers ++ trailer))
        ∧ (declared ≠ 0 ∧ declared ≠ (taken row answers).length →
            result = .error (.frame .frameSizeWrong))
        ∧ ∀ (prefs' : Preferences) (row' : List Call), prefs'.validate = .ok () →
            (∀ call ∈ row', call.Fits prefs') → prefs'.declaredOrZero < 0x10000000000000000 →
            prefs'.declaredOrZero = 0 ∨ prefs'.declaredOrZero = (contentOf row').length →
              ∃ next frame, closed.frame prefs' row' = (next, .ok frame) ∧ next.stage = .idle
                ∧ IsFrame (.ofPreferences prefs') (contentOf row') frame := by
  have hzero : prefs.declaredOrZero = declared := by
    rw [Preferences.declaredOrZero, hdeclared]
    rfl
  rcases ((new gate).after past).start_within hvalid with ⟨started, hstart, hwithin⟩
  obtain ⟨⟨active, answers⟩, htries⟩ : ∃ tried, started.tries row = tried := ⟨_, rfl⟩
  have hactive := tries_within hwithin htries
  rw [List.nil_append] at hactive
  -- closing answers by the length that was declared and the length that was taken
  rcases finish_cases hactive with ⟨closed, trailer, hidle, -, -, -, -, hfinish, hframe⟩
  rw [hzero] at hfinish hframe
  refine ⟨started, active, closed, _, answers, _, hstart, htries,
    fun hfits => tries_fits hwithin hfits htries, hfinish, hidle, fun haccepted => ?_,
    fun hwrong => by rw [if_pos hwrong], fun prefs' row' hvalid' hfits' hsize' haccepted' =>
      closed.frame_isFrame hvalid' hfits' hsize' haccepted'⟩
  exact ⟨trailer, by rw [if_neg (by omega)], hframe hlt haccepted⟩

end

open Reference in
/-- Three bytes under their own length, behind a frame that was given up. -/
theorem declared_checked_three_bytes :
    Preferences.validate { declaredSize := some 3 } = .ok ()
      ∧ (Preferences.declaredSize { declaredSize := some 3 }) = some 3
      ∧ 3 < 0x10000000000000000
      ∧ ∃ started active closed answers trailer,
        ((new .native).after [.start {}, .update [1]]).start { declaredSize := some 3 }
            = (started, .ofCall (.ok (Header.ofPreferences { declaredSize := some 3 }).encode))
          ∧ started.tries [.update [7], .flush, .update [8, 9]] = (active, answers)
          ∧ active.finish = (closed, .ofCall (.ok trailer)) := by
  have hvalid : Preferences.validate { declaredSize := some 3 } = .ok () := rfl
  have hfits : ∀ call ∈ [Call.update [7], .flush, .update [8, 9]],
      call.Fits { declaredSize := some 3 } := by
    intro call hmem
    simp only [List.mem_cons, List.not_mem_nil, or_false] at hmem
    rcases hmem with rfl | rfl | rfl
    · refine ⟨by simp, ?_⟩
      show (1 + (65536 - 1)) / 65536 < 0x100000000
      decide
    · trivial
    · refine ⟨by simp, ?_⟩
      show (2 + (65536 - 1)) / 65536 < 0x100000000
      decide
  rcases declared_checked .native [.start {}, .update [1]] hvalid rfl (by decide)
      [.update [7], .flush, .update [8, 9]]
      with ⟨started, active, closed, header, answers, result, hstart, htries, htaken, hfinish, -,
        hgranted, -, -⟩
  rcases hgranted (.inr (by rw [htaken hfits]; rfl)) with ⟨trailer, rfl, -⟩
  rcases ((new .native).after [.start {}, .update [1]]).start_within hvalid
      with ⟨started', hstart', -⟩
  cases hstart'.symm.trans hstart
  exact ⟨hvalid, rfl, by decide, started, active, closed, answers, trailer, hstart, htries,
    hfinish⟩

open Reference in
/-- A frame that declares no byte, and holds one. -/
theorem declared_zero :
    ∃ last frame, (new .native).frame { declaredSize := some 0 } [.update [0]] = (last, .ok frame)
      ∧ (contentOf [.update [0]]).length ≠ 0
      ∧ Decoder.new.read frame = ⟨[0], .ended []⟩ := by
  have hvalid : Preferences.validate { declaredSize := some 0 } = .ok () := rfl
  have hfits : ∀ call ∈ [Call.update [0]], call.Fits { declaredSize := some 0 } := by
    intro call hmem
    obtain rfl : call = .update [0] := by simpa using hmem
    refine ⟨by simp, ?_⟩
    show (1 + (65536 - 1)) / 65536 < 0x100000000
    decide
  rcases (new .native).frame_isFrame hvalid hfits (by decide) (.inl rfl)
      with ⟨last, frame, hframe, -, hisFrame⟩
  refine ⟨last, frame, hframe, by decide, ?_⟩
  exact (congrArg Decoder.new.read (List.append_nil frame)).symm.trans (hisFrame.read [])

end Lz4Frame.Compressor
