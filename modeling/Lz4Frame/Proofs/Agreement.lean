import Lz4Frame.Proofs.Codec.Decoding
import Lz4Frame.Proofs.Decoder.Indifferent
import Lz4Frame.Proofs.Decompressor.Session
import Lz4Frame.Proofs.Stream.Reader

/-!
# Three ways to decode

A byte string can be decoded in one call, in portions, and from a source.  All three find out the
same about it, which is what `Decoder.read` makes of it (`decoders_agree`).
-/

namespace Lz4Frame

open Decompressor

/-! ## Findings -/

/-- What a caller may find out about a byte string: the content of the frame in front, the error
that the frame has, or that it ends inside the frame. -/
structure Findings where
  gives : Bytes → Prop
  fails : ErrorCode → Prop
  runsOut : Prop

namespace Findings

/-- Findings that are the same. -/
structure Agree (first second : Findings) : Prop where
  gives : ∀ content, first.gives content ↔ second.gives content
  fails : ∀ code, first.fails code ↔ second.fails code
  runsOut : first.runsOut ↔ second.runsOut

theorem Agree.symm {first second : Findings} (h : first.Agree second) : second.Agree first where
  gives content := (h.gives content).symm
  fails code := (h.fails code).symm
  runsOut := h.runsOut.symm

theorem Agree.trans {first second third : Findings} (h : first.Agree second)
    (h' : second.Agree third) : first.Agree third where
  gives content := (h.gives content).trans (h'.gives content)
  fails code := (h.fails code).trans (h'.fails code)
  runsOut := h.runsOut.trans h'.runsOut

/-- What one call finds out. -/
def ofCall (result : Except Error Bytes) : Findings where
  gives content := result = .ok content
  fails code := result = .error (.frame code)
  runsOut := result = .error .incompleteFrame

/-- What a row of calls finds out: it runs out if every call uses up its portion and asks for
more. -/
def ofSession (portions : List Portion) (session : Session) : Findings where
  gives content := session.IsComplete ∧ session.content = content
  fails code := session.failure = some (.frame code)
  runsOut := session.IsShort
    ∧ session.answers.map Decoded.consumed = portions.map (·.bytes.length)

/-- What reading to the end finds out. -/
def ofReader (result : Except IoError Bytes) : Findings where
  gives content := result = .ok content
  fails code := ∃ cause, result = .error cause ∧ cause.code? = some code
  runsOut := ∃ cause, result = .error cause ∧ cause.kind = .unexpectedEof

/-! ## What each of them finds out -/

theorem ofReader_agree (reading : Decoder.Reading) :
    (ofReader (reading.result.mapError .codec)).Agree (ofCall reading.result) := by
  rcases reading with ⟨content, verdict⟩
  cases verdict with
  | ended rest =>
      refine ⟨fun content' => ?_, fun code => ?_, ?_⟩
      · simp [ofReader, ofCall, Decoder.Reading.result]
      · simp [ofReader, ofCall, Decoder.Reading.result]
      · simp [ofReader, ofCall, Decoder.Reading.result]
  | bad code =>
      refine ⟨fun content' => ?_, fun code' => ?_, ?_⟩
      · simp [ofReader, ofCall, Decoder.Reading.result]
      · simp [ofReader, ofCall, Decoder.Reading.result, IoError.code?,
          Error.code?]
      · simp [ofReader, ofCall, Decoder.Reading.result, IoError.kind,
          Error.ioKind]
  | waiting place =>
      refine ⟨fun content' => ?_, fun code => ?_, ?_⟩
      · simp [ofReader, ofCall, Decoder.Reading.result]
      · simp [ofReader, ofCall, Decoder.Reading.result, IoError.code?,
          Error.code?]
      · simp [ofReader, ofCall, Decoder.Reading.result, IoError.kind,
          Error.ioKind]

variable [Platform]

theorem ofSession_agree (decompressor : Decompressor) {portions : List Portion} :
    (∀ portion ∈ portions, portion.Fits) → portions ≠ [] →
      (ofSession portions (decompressor.updates portions)).Agree
        (ofCall (decompressor.decoder.read (joined portions)).result) := by
  intro hfits hne
  rcases decompressor.updates_read hfits with ⟨code, tail, hfailure, hread⟩
    | ⟨unread, hended, hread⟩ | ⟨hstalled, hmore⟩
  · -- the last call failed
    rw [hread]
    refine ⟨fun content => ?_, fun code' => ?_, ?_⟩
    · simp [ofSession, ofCall, Session.IsComplete, hfailure, Decoder.Reading.result]
    · simp [ofSession, ofCall, hfailure, Decoder.Reading.result]
    · simp [ofSession, ofCall, Session.IsShort, hfailure, Decoder.Reading.result]
  · -- the last call ended the frame
    rcases hended.calls
        with ⟨before, portion, after, answers, last, taken, rest, -, hanswers, -, -, hzero, -⟩
    have hlast : last ∈ (decompressor.updates portions).answers := by
      rw [hanswers]
      exact List.mem_append_right _ (.head _)
    have hcomplete : (decompressor.updates portions).IsComplete := by
      refine ⟨hended.no_failure, last, ?_, hzero⟩
      rw [hanswers, List.getLast?_concat]
      rfl
    have hnotShort : ¬ (decompressor.updates portions).IsShort := by
      intro hshort
      exact absurd hzero (Nat.ne_of_gt (hshort.2 last hlast))
    rw [hread]
    refine ⟨fun content => ?_, fun code => ?_, ?_⟩
    · simp [ofSession, ofCall, hcomplete, Decoder.Reading.result]
    · simp [ofSession, ofCall, hended.no_failure, Decoder.Reading.result]
    · simp [ofSession, ofCall, hnotShort, Decoder.Reading.result]
  · -- all portions are used up
    have hshort : (decompressor.updates portions).IsShort :=
      ⟨hstalled.no_failure, hstalled.hints⟩
    have hnotComplete : ¬ (decompressor.updates portions).IsComplete := by
      rintro ⟨-, last, hlast, hzero⟩
      exact absurd hzero (Nat.ne_of_gt (hstalled.hints last (List.mem_of_getLast? hlast)))
    rcases Decoder.read_nil_waits (hstalled.waits hne) with ⟨place, hwaiting⟩
    have hread := hmore []
    rw [List.append_nil] at hread
    rw [hread]
    refine ⟨fun content => ?_, fun code => ?_, ?_⟩
    · simp [ofSession, ofCall, hnotComplete, Decoder.Reading.result, hwaiting]
    · simp [ofSession, ofCall, hstalled.no_failure, Decoder.Reading.result, hwaiting]
    · simp [ofSession, ofCall, hshort, hstalled.consumed, Decoder.Reading.result, hwaiting]

end Findings

open Findings

/-- A byte string that is long enough for any header is the same to a row of calls, whatever its
portions and chunks, to a reader, whatever delays its source, and to one call, whatever the hint,
unless that runs out of memory.  It does not if the hint, and twice what the byte string can expand
to, can be allocated.  Chunks and hints decide where the history of a block lies, so each of the
three is on a platform of its own, and the blocks have to be indifferent to that. -/
theorem decoders_agree (first second third : Platform) (gate gate' gate'' : Gate) {input : Bytes}
    (hlong : Header.maxLength ≤ input.length) (hindifferent : Decoder.new.Indifferent input)
    {hint : Nat} (hpos : 1 ≤ hint) {portions : List Portion}
    (hfits : ∀ portion ∈ portions, @Portion.Fits first portion)
    (hjoined : joined portions = input) {source : Source} (hsteady : source.Steady)
    (hrest : source.rest = input) :
    let session := @Decompressor.updates first (.new gate) portions
    let reader := @Reader.readAll second (.new gate' source) #[] []
    let call := @Codec.decompress third gate'' hint input
    (ofSession portions session).Agree (ofReader reader.2.value)
      ∧ ((∀ requested, call.value ≠ .error (.allocation requested)) →
          (ofCall call.value).Agree (ofSession portions session))
      ∧ (third.grants hint = true → 2 * Codec.maxExpansion * input.length < assuredSize →
          ∀ requested, call.value ≠ .error (.allocation requested)) := by
  intro session reader call
  have hne : portions ≠ [] := by
    intro hnil
    rw [hnil, joined_nil] at hjoined
    rw [← hjoined] at hlong
    exact absurd hlong (by decide)
  -- three readings, one on each platform, and all of them the same
  have hsession : (ofSession portions session).Agree
      (ofCall (@Decoder.read first .new input).result) := by
    have h := @ofSession_agree first (.new gate) _ hfits hne
    rwa [hjoined] at h
  have hreader : reader.2.value = (@Decoder.read first .new input).result.mapError .codec := by
    rw [hindifferent.read_congr first second, ← hrest]
    exact @Reader.readAll_new second gate' _ hsteady
  have hcall : call.value = (@Decoder.read first .new input).result
      ∨ ∃ requested, call.value = .error (.allocation requested)
        ∧ (¬ third.grants hint = true
          ∨ assuredSize ≤ 2 * Codec.maxExpansion * input.length) := by
    rw [hindifferent.read_congr first third]
    exact @Codec.decompress_value third gate'' _ _ hpos hlong
  refine ⟨?_, fun hmemory => ?_, fun hhint hroom requested hfailed => ?_⟩
  · rw [hreader]
    exact hsession.trans (ofReader_agree _).symm
  · rcases hcall with hvalue | ⟨requested, hfailed, -⟩
    · rw [hvalue]
      exact hsession.symm
    · exact absurd hfailed (hmemory requested)
  · rcases hcall with hvalue | ⟨_, -, hdenied | hlimit⟩
    · rw [hvalue] at hfailed
      revert hfailed
      unfold Decoder.Reading.result
      split <;> simp
    · exact hdenied hhint
    · omega

open Reference in
/-- A frame whose second block repeats the first, with a byte behind it, in two portions, from a
source that is interrupted, and by a call whose histories lie elsewhere. -/
theorem decoders_agree_short_frame :
    let input : Bytes := [0x04, 0x22, 0x4d, 0x18, 0x40, 0x40, 0xc0,
      0x08, 0x00, 0x00, 0x80, 0x01, 0x02, 0x03, 0x04, 0x05, 0x06, 0x07, 0x08,
      0x09, 0x00, 0x00, 0x00, 0x04, 0x08, 0x00, 0x50, 0x01, 0x02, 0x03, 0x04, 0x05,
      0x00, 0x00, 0x00, 0x00, 0x2a]
    let portions : List Portion := [⟨input.take 9, 1⟩, ⟨input.drop 9, 2⟩]
    let source : Source := { rest := input, reads := [.limit 2, .fail .interrupted "interrupted"] }
    let session := @Decompressor.updates platform (.new .native) portions
    (ofSession portions session).Agree
        (ofReader (@Reader.readAll platform (.new .native source) #[] []).2.value)
      ∧ (ofCall (@Codec.decompress apart .native 1 input).value).Agree
          (ofSession portions session) := by
  intro input portions source session
  have hfits : ∀ portion ∈ portions, portion.Fits := by
    intro portion hmem
    simp only [portions, List.mem_cons, List.not_mem_nil, or_false] at hmem
    rcases hmem with rfl | rfl
    · exact .of_assured (by decide) Nat.one_pos (by decide)
    · exact .of_assured (by decide) Nat.two_pos (by decide)
  have hsteady : source.Steady := by
    intro answer hmem
    simp only [source, List.mem_cons, List.not_mem_nil, or_false] at hmem
    rcases hmem with rfl | rfl
    · exact Nat.two_pos
    · rfl
  have hlong : Header.maxLength ≤ input.length := by decide
  have hindifferent : Decoder.new.Indifferent input := by
    have hstored : (Block.Payload.stored [1, 2, 3, 4, 5, 6, 7, 8]).Means
        ((Header.ofPreferences {}).history []) (Header.ofPreferences {}).blockSize.bytes
        [1, 2, 3, 4, 5, 6, 7, 8] := ⟨rfl, by decide⟩
    have hcompressed : (Block.Payload.compressed [4, 8, 0, 0x50, 1, 2, 3, 4, 5]).Means
        ((Header.ofPreferences {}).history [1, 2, 3, 4, 5, 6, 7, 8])
        (Header.ofPreferences {}).blockSize.bytes [1, 2, 3, 4, 5, 6, 7, 8, 1, 2, 3, 4, 5] := by
      refine ⟨by decide, fun placement => ?_⟩
      cases placement <;> decide +kernel
    have hframe : WellFormed (.ofPreferences {}) _ (input.take 36) :=
      ⟨Header.writable_ofPreferences (by decide), .inl rfl, _,
        .cons hstored (.cons hcompressed .nil), by decide +kernel⟩
    exact hframe.indifferent [0x2a]
  rcases decoders_agree platform platform apart .native .native .native hlong hindifferent
    (Nat.le_refl 1) hfits rfl hsteady rfl with ⟨hread, hcalled, hmemory⟩
  exact ⟨hread, hcalled (hmemory (apart.grants_assured (by decide)) (by decide))⟩

open Reference in
/-- Chunks can be too long for any memory, a frame can have more content than memory holds, and a
block can depend on where its history lies. -/
theorem decoders_disagree :
    ((Codec.decompress .native 1 (List.replicate 19 0)).value
          = .error (.frame .frameTypeUnknown)
        ∧ ((Decompressor.new .native).updates [⟨List.replicate 19 0, assuredSize⟩]).failure
          = some (.allocation assuredSize))
      ∧ (∃ input, Header.maxLength ≤ input.length
        ∧ ((Decompressor.new .native).updates [⟨input, 1⟩]).IsComplete
        ∧ ∃ requested, (Codec.decompress .native 1 input).value
          = .error (.allocation requested))
      ∧ Header.maxLength ≤ Decoder.sensitiveFrame.length
        ∧ (@Decompressor.updates platform (.new .native) [⟨Decoder.sensitiveFrame, 1⟩]).IsComplete
        ∧ (@Codec.decompress apart .native 1 Decoder.sensitiveFrame).value
          = .error (.frame .decompressionFailed) := by
  have hcompletes {input content : Bytes} (hlong : Header.maxLength ≤ input.length)
      (hread : Decoder.new.read input = ⟨content, .ended []⟩) :
      ((Decompressor.new .native).updates [⟨input, 1⟩]).IsComplete := by
    have hfits : ∀ portion ∈ [Portion.mk input 1], portion.Fits := by
      intro portion hmem
      obtain rfl : portion = ⟨input, 1⟩ := by simpa using hmem
      exact .of_assured (List.ne_nil_of_length_pos (Nat.lt_of_lt_of_le (by decide) hlong))
        Nat.one_pos (by decide)
    have hsession := ofSession_agree (.new .native) hfits (by simp)
    have hresult : (Decoder.new.read (joined [⟨input, 1⟩])).result = .ok content := by
      rw [joined_cons, joined_nil, List.append_nil, hread]
      rfl
    exact ((hsession.gives content).mpr hresult).1
  refine ⟨⟨rfl, by decide +kernel⟩, ?_, ?_⟩
  · -- a frame of blocks with one byte each, as much content as there is memory
    obtain ⟨content, hlength⟩ : ∃ content : Bytes, content.length = assuredSize :=
      ⟨List.replicate assuredSize 0, List.length_replicate⟩
    rcases Blocks.bytewise (.ofPreferences {}) [] content with ⟨wire, hwire⟩
    generalize hinput : (Header.ofPreferences {}).encode ++ wire ++ SizeWord.endMark ++ [] = input
    have hframe : IsFrame (.ofPreferences {}) content input :=
      ⟨Header.writable_ofPreferences (by decide), .inl rfl, wire, hwire, hinput.symm⟩
    have hread := hframe.read []
    rw [List.append_nil] at hread
    have hlong : Header.maxLength ≤ input.length := by
      have hwireLength : 4 * content.length ≤ 65536 * wire.length := hwire.length_le
      rw [hlength] at hwireLength
      rw [← hinput]
      simp only [List.length_append]
      unfold assuredSize at hwireLength
      unfold Header.maxLength
      omega
    refine ⟨input, hlong, hcompletes hlong hread, ?_⟩
    rcases Codec.decompress_value .native (Nat.le_refl 1) hlong
      with hvalue | ⟨requested, hfailed, -⟩
    · rw [hread] at hvalue
      rcases Codec.decompress_granted hvalue with ⟨size, hgranted, hle⟩
      rw [hlength] at hle
      exact absurd (of_decide_eq_true hgranted) (Nat.not_lt.mpr hle)
    · exact ⟨requested, hfailed⟩
  · -- a block behind one byte, which is in front of it here and elsewhere there
    have hlong : Header.maxLength ≤ Decoder.sensitiveFrame.length := by
      rw [Decoder.length_sensitiveFrame]
      decide
    rcases Decoder.read_sensitiveFrame_adjoining with ⟨content, hread⟩
    refine ⟨hlong, hcompletes hlong hread, ?_⟩
    rcases @Codec.decompress_value apart .native _ _ (Nat.le_refl 1) hlong
      with hvalue | ⟨requested, -, hdenied | hlimit⟩
    · rw [hvalue, Decoder.read_sensitiveFrame_apart]
      rfl
    · exact absurd (apart.grants_assured (by decide)) hdenied
    · rw [Decoder.length_sensitiveFrame] at hlimit
      exact absurd hlimit (by decide)

end Lz4Frame
