import Lz4Frame.Frame.Decoder.Info
import Lz4Frame.Proofs.Frame.Grammar

/-!
# Headers that are read ahead

A decoder before a frame may be given the header alone, to tell what it says.  Going on behind it
comes to the same as reading everything from the start (`read_of_readHeader`), and a header that is
refused is refused for the same reason (`read_of_readHeader_error`).
-/

namespace Lz4Frame

namespace Decoder

/-! ## Frames to be skipped -/

variable [Platform]

/-- What is skipped behind the magic number and the size that a stream starts with. -/
def skipping (bytes : Bytes) : Reading :=
  let size := LittleEndian.value ((bytes.take 8).drop 4)
  (skip size size).read (bytes.drop 8)

/-- It does not matter how much of magic number and size was read before. -/
theorem read_skipSize (held : Partial 8) {bytes whole : Bytes} :
    held.bytes.toList ++ bytes = whole → 8 ≤ whole.length →
      (skipSize held).read bytes = skipping whole := by
  intro hwhole hlen
  have hlt := held.size_lt
  have hlength := congrArg List.length hwhole
  rw [List.length_append, Array.length_toList] at hlength
  rcases held.fill_of_le bytes 0 (by
    unfold Partial.missing
    omega) with ⟨_, hfull⟩
  have htake : whole.take 8 = held.bytes.toList ++ bytes.take held.missing := by
    rw [← hwhole, List.take_append, Array.length_toList, List.take_of_length_le (by
      rw [Array.length_toList]; omega)]
    rfl
  have hdrop : whole.drop 8 = bytes.drop held.missing := by
    rw [← hwhole, List.drop_append, Array.length_toList, List.drop_of_length_le (by
      rw [Array.length_toList]; omega), List.nil_append]
    rfl
  rw [read_eq, skipping, htake, hdrop]
  simp only [step, hfull]
  simp [Array.toList_appendList]

/-- A stream that starts with the magic number of a frame to be skipped. -/
theorem read_new_skippable {bytes : Bytes} :
    Header.opening bytes = .ok .skippable → 8 ≤ bytes.length → new.read bytes = skipping bytes := by
  intro hopening hlen
  have hmin : Header.minLength ≤ bytes.length := Nat.le_trans (by decide) hlen
  rcases read_new hmin with ⟨_, hread⟩
  simp only [afterOpening, Header.opening_take (show 5 ≤ Header.minLength by decide), hopening,
    reading_go, List.append_nil, Reading.prepend_nil] at hread
  rw [hread]
  exact read_skipSize _ (by simp) hlen

/-! ## Refused headers -/

/-- A stream whose opening is refused. -/
theorem read_new_refused {bytes : Bytes} {code : ErrorCode} :
    Header.opening bytes = .error code → Header.minLength ≤ bytes.length →
      new.read bytes = ⟨[], .bad code⟩ := by
  intro hopening hlen
  rcases read_new hlen with ⟨_, hread⟩
  simpa only [afterOpening, Header.opening_take (show 5 ≤ Header.minLength by decide), hopening,
    reading_fail] using hread

/-! ## Reading ahead -/

omit [Platform] in
theorem minLength_le_lengthFor (flags : UInt8) : Header.minLength ≤ Header.lengthFor flags := by
  unfold Header.lengthFor
  omega

omit [Platform] in
theorem lengthFor_le_maxLength (flags : UInt8) : Header.lengthFor flags ≤ Header.maxLength := by
  unfold Header.lengthFor Header.minLength Header.maxLength
  split <;> split <;> omega

omit [Platform] in
/-- Openings behind the right magic number tell the length of the header. -/
theorem opening_eq {bytes : Bytes} {opening : Header.Opening} :
    ¬ Header.isSkippableMagic (Header.magicOf bytes) = true → Header.opening bytes = .ok opening →
      opening = .frame (Header.lengthFor (Header.flagsOf bytes)) := by
  intro hskippable h
  unfold Header.opening at h
  rw [if_neg hskippable] at h
  repeat' split at h
  all_goals simp_all

omit [Platform] in
/-- A header that is accepted is read ahead if all of it is there. -/
theorem readHeader_eq {input : Bytes} {length : Nat} {header : Header}
    (hopening : Header.opening input = .ok (.frame length))
    (hdecode : Header.decode (input.take length) = .ok header) :
    readHeader input = if length ≤ input.length then
        .ok (beforeBlock (.ofHeader header), infoWith freshHint header, length)
      else .error .frameHeaderIncomplete := by
  have hskip : ¬ Header.isSkippableMagic (Header.magicOf input) = true := by
    intro hskip
    rw [Header.opening, if_pos hskip] at hopening
    cases hopening
  have hmagic : Header.magicOf input = Header.magic := by
    rw [Header.opening, if_neg hskip] at hopening
    split at hopening
    · cases hopening
    · exact Decidable.not_not.mp ‹_›
  obtain rfl := Header.Opening.frame.inj (opening_eq hskip hopening)
  have hmin := minLength_le_lengthFor (Header.flagsOf input)
  unfold Header.minLength at hmin
  have htake := hopening
  rw [← Header.opening_take (show 5 ≤ Header.lengthFor (Header.flagsOf input) by omega)] at htake
  rw [hmagic] at hskip
  simp only [readHeader, Bool.not_eq_true', Bool.eq_false_iff, ne_eq, hasAtLeast_iff, hmagic, hskip,
    htake, hdecode, bind, Except.bind, not_true_eq_false, ↓reduceIte]
  rw [if_neg (show ¬ false = true by decide)]
  by_cases hlen : Header.lengthFor (Header.flagsOf input) ≤ input.length
  · rw [if_neg (by omega), if_neg (not_not_intro hlen), if_pos hlen]
  · rw [if_pos hlen, if_neg hlen, ite_self]

omit [Platform] in
/-- A header that is there as a whole is read ahead. -/
theorem readHeader_encode {header : Header} (h : header.Writable) (more : Bytes) :
    readHeader (header.encode ++ more)
      = .ok (beforeBlock (.ofHeader header), infoWith freshHint header, header.encode.length) := by
  have hdecode : Header.decode ((header.encode ++ more).take header.encode.length)
      = .ok header := by
    rw [List.take_left, Header.decode_encode h]
  rw [readHeader_eq (header.opening_encode more) hdecode, if_pos (by simp)]

omit [Platform] in
/-- A header of which only the front is there is not read ahead. -/
theorem readHeader_take (header : Header) (more : Bytes) {k : Nat} :
    k < header.encode.length →
      readHeader ((header.encode ++ more).take k) = .error .frameHeaderIncomplete := by
  intro hk
  have hlength : ((header.encode ++ more).take k).length = k := by
    rw [List.length_take, List.length_append]
    omega
  have hmagic : Header.isSkippableMagic Header.magic = false := by decide
  simp only [readHeader, Bool.not_eq_true', Bool.eq_false_iff, ne_eq, hasAtLeast_iff, hlength]
  by_cases hshort : 5 ≤ k
  · -- the magic number and the flags are there, and the flags tell how long the header is
    rw [Header.magicOf_take (by omega), Header.flagsOf_take hshort, header.magicOf_encode,
      header.flagsOf_encode, ← header.length_encode_eq, if_neg (by omega),
      if_neg (by simp [hmagic]), if_neg (by simp), if_pos (by omega)]
  · rw [if_pos hshort]

/-- Going on behind a header that was read ahead comes to the same as reading from the start. -/
theorem read_of_readHeader {input : Bytes} {next : Decoder} {info : FrameInfo} {length : Nat} :
    readHeader input = .ok (next, info, length) →
      new.read input = next.read (input.drop length) := by
  intro h
  unfold readHeader at h
  split at h
  · cases h
  · split at h
    · rename_i hskippable
      split at h
      · cases h
      · rename_i hlen
        simp only [Except.ok.injEq, Prod.mk.injEq] at h
        rcases h with ⟨rfl, -, rfl⟩
        have hlen' : 8 ≤ input.length := by simpa using hlen
        rw [read_new_skippable (by rw [Header.opening, if_pos hskippable]) hlen']
        exact (read_skipSize _ (by simp) hlen').symm
    · rename_i hskippable
      split at h
      · cases h
      · simp only at h
        split at h
        · cases h
        · rename_i hlen
          have hlen' : Header.lengthFor (Header.flagsOf input) ≤ input.length := by
            simpa using hlen
          have hmin := minLength_le_lengthFor (Header.flagsOf input)
          rw [Header.opening_take (by unfold Header.minLength at hmin; omega)] at h
          rcases bind_eq_ok.mp h with ⟨_, hopening, h⟩
          obtain rfl := opening_eq hskippable hopening
          rcases bind_eq_ok.mp h with ⟨header, hdecode, h⟩
          cases h
          rw [read_new_frame hopening hmin hlen', afterHeader, hdecode]
          simp [nextBlock]

/-- A header that is refused ahead is refused for the same reason. -/
theorem read_of_readHeader_error {input : Bytes} {code : ErrorCode} :
    readHeader input = .error code → Header.maxLength ≤ input.length →
      new.read input = ⟨[], .bad code⟩ := by
  intro h hlen
  unfold Header.maxLength at hlen
  unfold readHeader at h
  split at h
  · rename_i hshort
    simp only [Bool.not_eq_true', Bool.eq_false_iff, ne_eq, hasAtLeast_iff] at hshort
    omega
  · split at h
    · split at h
      · rename_i hshort
        simp only [Bool.not_eq_true', Bool.eq_false_iff, ne_eq, hasAtLeast_iff] at hshort
        omega
      · cases h
    · rename_i hskippable
      split at h
      · rename_i hmagic
        cases h
        refine read_new_refused ?_ (by unfold Header.minLength; omega)
        rw [Header.opening, if_neg hskippable, if_pos hmagic]
      · simp only at h
        have hmin := minLength_le_lengthFor (Header.flagsOf input)
        have hmax := lengthFor_le_maxLength (Header.flagsOf input)
        unfold Header.maxLength at hmax
        split at h
        · rename_i hshort
          simp only [Bool.not_eq_true', Bool.eq_false_iff, ne_eq, hasAtLeast_iff] at hshort
          omega
        · rw [Header.opening_take (by unfold Header.minLength at hmin; omega)] at h
          cases hopening : Header.opening input with
          | error code' =>
              simp only [hopening, bind, Except.bind, Except.error.injEq] at h
              exact h ▸ read_new_refused hopening (by unfold Header.minLength; omega)
          | ok opening =>
              obtain rfl := opening_eq hskippable hopening
              cases hdecode : Header.decode
                  (input.take (Header.lengthFor (Header.flagsOf input))) with
              | error code' =>
                  simp only [hopening, hdecode, bind, Except.bind, Except.error.injEq] at h
                  rw [read_new_frame hopening hmin (by omega), afterHeader, hdecode]
                  simp [h]
              | ok header => simp [hopening, hdecode, bind, Except.bind] at h

end Decoder

variable [Platform]

omit [Platform] in
/-- The header of a frame is read ahead, whatever follows the frame. -/
theorem IsFrame.readHeader {header : Header} {content frame : Bytes}
    (h : IsFrame header content frame) (more : Bytes) :
    Decoder.readHeader (frame ++ more)
      = .ok (Decoder.beforeBlock (.ofHeader header), Decoder.infoWith Decoder.freshHint header,
          header.encode.length) := by
  rcases h.parts with ⟨blocks, -, rfl⟩
  rw [List.append_assoc, List.append_assoc, List.append_assoc]
  exact Decoder.readHeader_encode h.writable _

end Lz4Frame
