import Lz4Frame.Platform.Reference
import Lz4Frame.Proofs.Decoder.Counting
import Lz4Frame.Proofs.Decoder.Hints
import Lz4Frame.Proofs.Host.Accounting
import Lz4Frame.Proofs.Made
import Lz4Frame.Proofs.RoundTrip

/-!
# Room for a declared length

A frame that is decoded in one call has as much content as it declares, and no input is too short to
expand to that, so the buffer that is allocated first has exactly the declared length
(`Codec.declared_kept`).  For a frame that was made in one call this is all there is: a single run
fills the buffer and ends the frame.
-/

namespace Lz4Frame

open Block Decoder

/-! ## Whole frames in one run -/

section

variable [Platform]

/-- A run with room for all of the content that is left ends right behind the frame. -/
theorem Remainder.runFrom_eq {body : Body} {content wire : Bytes}
    (h : Remainder body content wire) (more : Bytes) (used : Nat) (out : Array UInt8)
    {room : Nat} :
    content.length ≤ room →
      ∃ used', (beforeBlock body).runFrom ⟨wire ++ more, used⟩ room out
        = (.new, .ok ⟨used', out ++ content, 0, more⟩) := by
  intro hroom
  -- on the rest of the frame; each block leaves room for those behind it
  induction h generalizing used out room with
  | @last body none_left =>
      have hstep := step_endMark body
        ((if body.header.contentChecksum then Xxh32.field body.digest.digest else []) ++ more) used
        room
      rw [afterBlocks, if_neg (not_not_intro none_left)] at hstep
      rw [List.append_assoc]
      cases hsum : body.header.contentChecksum with
      | false =>
          simp only [hsum, Bool.false_eq_true, ↓reduceIte, List.nil_append] at hstep ⊢
          exact ⟨_, runFrom_stop hstep out⟩
      | true =>
          simp only [hsum, ↓reduceIte] at hstep ⊢
          rw [runFrom_go hstep, runFrom_stop (step_trailer body more ..), Array.appendList_nil]
          exact ⟨_, rfl⟩
  | @block body before block content wire payload history_eq ne_nil length_le holds _ ih =>
      rw [List.length_append] at hroom
      have hfits : block.length ≤ room := by omega
      have hroom' : content.length ≤ room - block.length := by omega
      rw [List.append_assoc]
      cases payload with
      | stored bytes =>
          obtain rfl : bytes = block := holds
          have hpos := List.length_pos_iff.mpr ne_nil
          rcases ih _ (out ++ bytes) hroom' with ⟨last, hlast⟩
          refine ⟨last, ?_⟩
          rw [encode_stored, runFrom_go (step_storedWord body hpos length_le ..), List.length_nil,
            Nat.sub_zero, Array.appendList_nil, runFrom_stored hpos _ _ _ hfits, hlast,
            append_list_append]
      | compressed bytes =>
          rcases length_compressed holds length_le with ⟨hpos, hle⟩
          have hgoes : ¬ (room = 0
              ∨ (bytes ++ blockField body bytes ++ (wire ++ more)).isEmpty = true) := by
            have hblock := List.length_pos_iff.mpr ne_nil
            rintro (hzero | hempty)
            · omega
            · simp [List.ne_nil_of_length_pos hpos] at hempty
          have hword := step_compressedWord body hpos hle
            (bytes ++ blockField body bytes ++ (wire ++ more)) used room
          rw [if_neg hgoes] at hword
          rcases ih _ (out ++ block) hroom' with ⟨last, hlast⟩
          refine ⟨last, ?_⟩
          rw [encode_compressed, runFrom_go hword, List.length_nil, Nat.sub_zero,
            Array.appendList_nil, runFrom_compressed history_eq ne_nil holds.1 _ _ _ _ hfits, hlast,
            append_list_append]

/-- The rest of a frame behind its header is read in one run, if there is room for the content. -/
theorem IsFrame.run_eq {header : Header} {content frame wire : Bytes}
    (h : IsFrame header content frame) (hframe : frame = header.encode ++ wire) (more : Bytes)
    {room : Nat} :
    content.length ≤ room →
      (beforeBlock (.ofHeader header)).run (wire ++ more) room
        = (.new, .ok ⟨wire.length, content.toArray, 0, more⟩) := by
  intro hroom
  rcases h.remainder with ⟨wire', hframe', hleft⟩
  obtain rfl : wire = wire' := List.append_cancel_left (hframe.symm.trans hframe')
  rcases hleft.runFrom_eq more 0 #[] hroom with ⟨used, hrun⟩
  rcases run_rest hrun with ⟨taken, hsplit, rfl⟩
  obtain rfl : wire = taken := List.append_cancel_right hsplit
  rw [Decoder.run, hrun]
  simp

/-! ## Declared lengths -/

/-- A byte string that starts with a header of `length` bytes, which declares `n` bytes of
content. -/
structure Declares (input : Bytes) (length n : Nat) : Prop where
  opening_eq : Header.opening input = .ok (.frame length)
  declared : ∃ header, Header.decode (input.take length) = .ok header
    ∧ header.contentSize = some n

namespace Codec

/-- What decoding in one call sets up before its loop: the decoder behind a header of `length`
bytes, what the header says, and a buffer. -/
structure SetUp (hint : Nat) (input : Bytes) (decoder : Decoder) (info : FrameInfo) (length : Nat)
    (buffer : OutputBuffer) : Prop where
  header_eq : Decoder.new.frameInfo input = (decoder, .ok (info, length))
  buffer_eq : initialBuffer info.declared (input.drop length).length hint = .ok buffer

/-- Content that was decoded had everything set up. -/
theorem setUp_of_ok {gate : Gate} {hint : Nat} {input content : Bytes} :
    (decompress gate hint input).value = .ok content →
      1 ≤ hint ∧ ∃ decoder info length buffer, SetUp hint input decoder info length buffer := by
  intro h
  unfold decompress at h
  split at h
  · cases h
  split at h
  · cases h
  · rename_i hhint
    refine ⟨Nat.pos_of_ne_zero hhint, ?_⟩
    split at h
    · cases h
    · rename_i decoder info length hheader
      simp only at h
      split at h
      · cases h
      · rename_i buffer hbuffer
        exact ⟨decoder, info, length, buffer, hheader, hbuffer⟩

section Starting

variable {hint length : Nat} {input : Bytes} {decoder : Decoder} {info : FrameInfo}
  {buffer : OutputBuffer} (h : SetUp hint input decoder info length buffer)
include h

theorem SetUp.spare_pos : 0 < buffer.spare := by
  have hbuffer := h.buffer_eq
  unfold initialBuffer at hbuffer
  split at hbuffer <;> exact OutputBuffer.new_spare_pos hbuffer

theorem SetUp.written_eq : buffer.written = #[] := by
  have hbuffer := h.buffer_eq
  unfold initialBuffer at hbuffer
  split at hbuffer <;> exact (OutputBuffer.new_eq_ok hbuffer).1

/-- For a declared length the buffer is no larger than what the input can expand to. -/
theorem SetUp.capacity_eq :
    0 < info.declared →
      buffer.capacity = max 1 (min info.declared
        (min ((input.drop length).length * maxExpansion) largestLength)) := by
  intro hpos
  have hbuffer := h.buffer_eq
  rw [initialBuffer, if_pos hpos] at hbuffer
  exact (OutputBuffer.new_eq_ok hbuffer).2

theorem SetUp.readHeader_eq : readHeader input = .ok (decoder, info, length) := by
  have hinfo := h.header_eq
  rw [frameInfo_new] at hinfo
  split at hinfo
  · cases hinfo
    assumption
  · cases hinfo

theorem SetUp.ne_nil : input ≠ [] := by
  rintro rfl
  cases h.readHeader_eq

/-- Once everything is set up the loop does the rest. -/
theorem SetUp.decompress_eq (gate : Gate) :
    1 ≤ hint →
      decompress gate hint input
        = decodeAll gate decoder (input.drop length) (input.drop length).length buffer
            #[.call none] h.spare_pos := by
  intro hhint
  have hempty : ¬ input.isEmpty = true := by simpa [List.isEmpty_iff] using h.ne_nil
  rw [decompress, if_neg hempty, if_neg (by omega)]
  simp only [h.header_eq]
  split
  · rename_i hother
    cases hother.symm.trans h.buffer_eq
  · rename_i hsame
    cases hsame.symm.trans h.buffer_eq
    rfl

/-- Then decoding comes to what the input reads as, unless there is no memory for twice the
content. -/
theorem SetUp.value_eq (gate : Gate) :
    1 ≤ hint →
      (decompress gate hint input).value = (new.read input).result
        ∨ ∃ requested, (decompress gate hint input).value = .error (.allocation requested)
          ∧ assuredSize ≤ 2 * (new.read input).content.length := by
  intro hhint
  rw [h.decompress_eq gate hhint, read_of_readHeader h.readHeader_eq]
  rcases decodeAll_value gate decoder (input.drop length) (input.drop length).length buffer
    #[.call none] h.spare_pos with hvalue | ⟨requested, hvalue, hlimit⟩
  · exact .inl (by rw [hvalue, h.written_eq, Array.toList_empty, Reading.prepend_nil])
  · exact .inr ⟨requested, hvalue, by simpa [h.written_eq] using hlimit⟩

end Starting

section Room

variable {input : Bytes} {decoder : Decoder} {info : FrameInfo} {length : Nat}
  (hheader : readHeader input = .ok (decoder, info, length)) (hpos : 0 < info.declared)
include hheader hpos

/-- The buffer for a declared length is no larger than what the input can expand to. -/
theorem setUp_of_header
    (hgranted : Platform.grants
      (max 1 (min info.declared (maxExpansion * (input.drop length).length))) = true)
    (hint : Nat) :
    ∃ buffer, SetUp hint input decoder info length buffer
      ∧ buffer.capacity
        = max 1 (min info.declared (maxExpansion * (input.drop length).length)) := by
  generalize hreach : maxExpansion * (input.drop length).length = reach at hgranted ⊢
  have hlimit := Platform.le_of_grants hgranted
  unfold largestAllocation at hlimit
  have hroom : min info.declared (min ((input.drop length).length * maxExpansion) largestLength)
      = min info.declared reach := by
    rw [Nat.mul_comm, hreach]
    unfold largestLength
    omega
  have hallocate : allocate (max 1 (min info.declared reach)) = .ok () :=
    allocate_of_grants hgranted
  refine ⟨⟨#[], max 1 (min info.declared reach), true, #[], Nat.zero_le _, by omega⟩, ⟨?_, ?_⟩, rfl⟩
  · rw [frameInfo_new, hheader]
  · rw [initialBuffer, if_pos hpos, hroom, OutputBuffer.new, hallocate]
    rfl

/-- A length that the input can expand to is met exactly. -/
theorem setUp_exact (hreach : info.declared ≤ maxExpansion * (input.drop length).length)
    (hgranted : Platform.grants info.declared = true) (hint : Nat) :
    ∃ buffer, SetUp hint input decoder info length buffer ∧ buffer.capacity = info.declared := by
  have hexact : max 1 (min info.declared (maxExpansion * (input.drop length).length))
      = info.declared := by omega
  rcases setUp_of_header hheader hpos (by rwa [hexact]) hint with ⟨buffer, hsetUp, hcapacity⟩
  exact ⟨buffer, hsetUp, hcapacity.trans hexact⟩

end Room

end Codec

/-- Content that is decoded has the declared length. -/
theorem Declares.length_eq {gate : Gate} {hint length n : Nat} {input content : Bytes}
    (h : Declares input length n) (hpos : 0 < n) :
    (Codec.decompress gate hint input).value = .ok content →
      content.length = n ∧ n ≤ Codec.maxExpansion * (input.drop length).length
        ∧ ∃ decoder info buffer, Codec.SetUp hint input decoder info length buffer
          ∧ buffer.capacity = n := by
  intro hvalue
  rcases Codec.setUp_of_ok hvalue with ⟨hhint, decoder, info, length', buffer, hsetUp⟩
  rcases h.declared with ⟨header, hdecode, hsize⟩
  have hheader := readHeader_eq h.opening_eq hdecode
  rw [hsetUp.readHeader_eq] at hheader
  split at hheader
  · rw [Except.ok.injEq, Prod.mk.injEq, Prod.mk.injEq] at hheader
    rcases hheader with ⟨rfl, rfl, rfl⟩
    have hdeclared : (infoWith freshHint header).declared = n := by
      simp only [infoWith, hsize, Option.getD_some]
    rcases hsetUp.value_eq gate hhint with hresult | ⟨requested, hfailed, -⟩
    · rcases Codec.decompress_granted hvalue with ⟨size, hgranted, hle⟩
      have hlimit := Nat.le_trans hle (Platform.le_of_grants hgranted)
      have hcapacity := hsetUp.capacity_eq (hdeclared.symm ▸ hpos)
      have hbound := read_length (beforeBlock (.ofHeader header)) (input.drop length')
      rw [hresult, read_of_readHeader hsetUp.readHeader_eq] at hvalue
      rcases hread : (beforeBlock (.ofHeader header)).read (input.drop length')
        with ⟨whole, verdict⟩
      rw [hread] at hvalue hbound
      cases verdict with
      | ended rest =>
          obtain rfl : whole = content := Except.ok.inj hvalue
          have hlength := read_declared hsize hpos (Header.decode_contentSize_lt hdecode hsize)
            (Nat.lt_of_le_of_lt hlimit (by decide)) hread
          have hreach : n ≤ Codec.maxExpansion * (input.drop length').length := by
            rw [← hlength]
            exact Nat.le_trans hbound (Nat.le_of_eq (Nat.zero_add _))
          refine ⟨hlength, hreach, _, _, buffer, hsetUp, ?_⟩
          rw [hcapacity, hdeclared, Nat.mul_comm]
          unfold largestAllocation at hlimit
          unfold largestLength
          omega
      | _ => cases hvalue
    · rw [hfailed] at hvalue
      cases hvalue
  · -- a header that is cut off is not accepted
    cases hheader

namespace Codec

/-- A frame that was made in one call has a long header, which declares the length of the
content. -/
theorem compress_header {gate : Gate} {prefs : Preferences} {content frame : Bytes}
    (length_lt : content.length < 0x10000000000000000) :
    (compress gate prefs content).value = .ok frame →
      ∃ header, IsFrame header content frame ∧ header.contentSize = some content.length
        ∧ header.dictionaryId = none ∧ header.encode.length = 15 := by
  intro made
  rcases compress_whole made with ⟨hne, -⟩
  have hdeclared := declaredOrZero_settings prefs hne
  have hpos := List.length_pos_iff.mpr hne
  refine ⟨.ofPreferences (settings prefs content), compress_ok length_lt made, ?_, rfl, ?_⟩
  · simp only [Header.ofPreferences, hdeclared]
    rw [if_neg (by omega)]
  · rw [Header.length_encode_ofPreferences, hdeclared, if_neg (by omega)]

/-- For a frame that declares its length there is a buffer of that length, whatever follows the
frame. -/
theorem setUp_frame {header : Header} {content frame : Bytes}
    (hframe : IsFrame header content frame)
    (hsize : header.contentSize = some content.length) (hpos : 0 < content.length)
    (hmemory : maxExpansion * frame.length < assuredSize) (tail : Bytes) (hint : Nat) :
    ∃ buffer, SetUp hint (frame ++ tail) (beforeBlock (.ofHeader header))
        (infoWith freshHint header) header.encode.length buffer
      ∧ buffer.capacity = content.length := by
  have hheader := hframe.readHeader tail
  have hread := hframe.read []
  have hexpand := read_new_length frame
  have hbound := read_length (beforeBlock (.ofHeader header))
    ((frame ++ tail).drop header.encode.length)
  have hdeclared : (infoWith freshHint header).declared = content.length := by
    simp only [infoWith, hsize, Option.getD_some]
  -- the content is no more than the frame can expand to, which is less than all memory
  rw [List.append_nil] at hread
  rw [hread] at hexpand
  rw [← read_of_readHeader hheader, hframe.read tail] at hbound
  rw [← hdeclared] at hpos hexpand hbound ⊢
  exact setUp_exact hheader hpos (Nat.le_trans hbound (Nat.le_of_eq (Nat.zero_add _)))
    (Platform.grants_assured (Nat.lt_of_le_of_lt hexpand hmemory)) hint

/-- A declared length is kept, and the buffer is made for it.  A frame that was made in one call, in
the room that was found for it, declares its length, and decoding it is a single run, which fills
the buffer and ends the frame, whatever stands behind. -/
theorem declared_kept (gate gate' : Gate) (hint : Nat) :
    (∀ (input content : Bytes) (length n : Nat), Declares input length n → 0 < n →
      (decompress gate hint input).value = .ok content →
        content.length = n ∧ n ≤ maxExpansion * (input.drop length).length
          ∧ ∃ decoder info buffer, SetUp hint input decoder info length buffer
            ∧ buffer.capacity = n)
      ∧ ∀ (prefs : Preferences) (content frame tail : Bytes),
        content.length < 0x10000000000000000 → 1 ≤ hint → ¬ Overruns prefs content →
        (compress gate' prefs content).value = .ok frame →
          Declares (frame ++ tail) 15 content.length
            ∧ ∃ decoder info buffer, SetUp hint (frame ++ tail) decoder info 15 buffer
              ∧ buffer.capacity = content.length
              ∧ decoder.run ((frame ++ tail).drop 15) buffer.spare
                = (.new, .ok ⟨frame.length - 15, content.toArray, 0, tail⟩)
              ∧ decompress gate hint (frame ++ tail)
                = ⟨.ok content,
                    .call none :: gate.around ((frame ++ tail).drop 15).length⟩ := by
  refine ⟨fun input content length n h hpos hvalue => h.length_eq hpos hvalue,
    fun prefs content frame tail length_lt hhint hwithin made => ?_⟩
  rcases compress_header length_lt made with ⟨header, hframe, hsize, -, hlength⟩
  rcases compress_whole made with ⟨hne, -⟩
  rcases setUp_frame hframe hsize (List.length_pos_iff.mpr hne) (compress_length_lt hwithin made)
      tail hint with ⟨buffer, hsetUp, hcapacity⟩
  rcases hframe.remainder with ⟨wire, rfl, -⟩
  rw [hlength] at hsetUp
  have hrest : (header.encode ++ wire ++ tail).drop 15 = wire ++ tail := by
    rw [List.append_assoc, List.drop_left' hlength]
  have hspare : buffer.spare = content.length := by
    simp [OutputBuffer.spare, hsetUp.written_eq, hcapacity]
  have hrun := hframe.run_eq rfl tail (Nat.le_of_eq hspare.symm)
  refine ⟨⟨?_, header, ?_, hsize⟩, _, _, buffer, hsetUp, hcapacity, ?_, ?_⟩
  · rw [List.append_assoc, ← hlength]
    exact header.opening_encode _
  · rw [List.append_assoc, List.take_left' hlength, Header.decode_encode hframe.writable]
  · rw [hrest, hrun, List.length_append, hlength, Nat.add_sub_cancel_left]
  · rw [hsetUp.decompress_eq gate hhint, hrest, decodeAll_run gate hrun]
    simp [hsetUp.written_eq]

theorem compress_threeBytes :
    ¬ Overruns {} [7, 7, 7] ∧ ∃ frame, (compress .native {} [7, 7, 7]).value = .ok frame := by
  have hcount : Bound.Countable {} 3 := by
    show (3 + (65536 - 1)) / 65536 < 0x100000000
    decide
  have hne : ([7, 7, 7] : Bytes) ≠ [] := by simp
  rcases compress_isFrame .native rfl hne hcount with ⟨frame, hcompress, -⟩
  exact ⟨not_overruns hcount, frame, hcompress⟩

end Codec

end

namespace Codec

open Reference in
/-- Three bytes, through the smallest hint and with a byte behind the frame. -/
theorem declared_kept_three_bytes :
    ∃ frame, (compress .native {} [7, 7, 7]).value = .ok frame ∧ ¬ Overruns {} [7, 7, 7]
      ∧ (∃ decoder info buffer, SetUp 1 (frame ++ [1]) decoder info 15 buffer
        ∧ buffer.capacity = 3)
      ∧ (decompress .native 1 (frame ++ [1])).events.length = 2
      ∧ (decompress .native 1 (frame ++ [1])).value = .ok [7, 7, 7]
      ∧ 3 ≤ maxExpansion * ((frame ++ [1]).drop 15).length := by
  rcases compress_threeBytes with ⟨hwithin, frame, hcompress⟩
  rcases declared_kept .native .native 1 with ⟨hkept, hmade⟩
  rcases hmade {} [7, 7, 7] frame [1] (by decide) (Nat.le_refl 1) hwithin hcompress
      with ⟨hdeclares, decoder, info, buffer, hsetUp, hcapacity, -, hdecompress⟩
  have hvalue : (decompress .native 1 (frame ++ [1])).value = .ok [7, 7, 7] := by rw [hdecompress]
  rcases hkept _ _ _ _ hdeclares (by decide) hvalue with ⟨-, hreach, -⟩
  refine ⟨frame, hcompress, hwithin, ⟨decoder, info, buffer, hsetUp, hcapacity⟩, ?_, hvalue,
    hreach⟩
  rw [hdecompress]
  rfl

end Codec

end Lz4Frame
