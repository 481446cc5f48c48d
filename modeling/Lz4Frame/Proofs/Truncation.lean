import Lz4Frame.Platform.Reference
import Lz4Frame.Proofs.Codec.Decoding
import Lz4Frame.Proofs.Decompressor.Session
import Lz4Frame.Proofs.Made
import Lz4Frame.Proofs.Stream.Failures

/-!
# Frames that are cut off

No front of a frame is taken for a frame, wherever it ends: decoding it in one call tells what is
missing, a row of calls gives a front of the content and asks for more, and a reader gives a front
of the content and then fails once (`cut_off`).  Decoding in one call may run out of memory instead;
this takes a header that is there as a whole (`cut_off_out_of_memory`).
-/

namespace Lz4Frame

open Decoder

/-! ## Reading a front -/

section

variable [Platform]

/-- The front of a frame reads as a front of the content, and reading waits for the rest. -/
theorem IsFrame.read_take {header : Header} {content frame : Bytes}
    (h : IsFrame header content frame) {k : Nat} :
    k < frame.length →
      ∃ out place, new.read (frame.take k) = ⟨out, .waiting place⟩ ∧ out <+: content := by
  intro hk
  have hwhole := h.read []
  have hleft : frame.drop k ≠ [] := by
    rw [ne_eq, List.drop_eq_nil_iff]
    omega
  rw [List.append_nil, ← List.take_append_drop k frame, read_append] at hwhole
  rcases hread : new.read (frame.take k) with ⟨out, verdict⟩
  rw [hread] at hwhole
  cases verdict with
  | ended rest =>
      -- the whole frame would have to end as early
      simp only [Reading.goOn, Reading.mk.injEq, Verdict.ended.injEq] at hwhole
      exact absurd (List.append_eq_nil_iff.mp hwhole.2).2 hleft
  | bad code => simp [Reading.goOn] at hwhole
  | waiting place =>
      refine ⟨out, place, rfl, ?_⟩
      exact ⟨(place.read (frame.drop k)).content, congrArg Reading.content hwhole⟩

namespace Codec

/-- What decoding `k` bytes of a longer frame in one call tells, if its header has this length. -/
def cutError (headerLength k : Nat) : Error :=
  if k = 0 then
    .emptyInput
  else if k < headerLength then
    .frame .frameHeaderIncomplete
  else
    .incompleteFrame

/-- Behind the header of some settings, decoding in one call comes to what reading comes to, unless
memory runs out: for twice the content, for the declared length if the input could expand to as
much, or, where no length is declared, for the hint or for as much as the input. -/
theorem decompress_of_settings (gate : Gate) {hint : Nat} (hhint : 1 ≤ hint) {prefs : Preferences}
    (writable : (Header.ofPreferences prefs).Writable) {input wire : Bytes}
    (starts : input = (Header.ofPreferences prefs).encode ++ wire) :
    (decompress gate hint input).value = (new.read input).result
      ∨ ∃ requested, (decompress gate hint input).value = .error (.allocation requested)
        ∧ (assuredSize ≤ 2 * (new.read input).content.length
          ∨ assuredSize ≤ (Header.ofPreferences prefs).contentSize.getD 0
            ∧ assuredSize ≤ maxExpansion * input.length
          ∨ (Header.ofPreferences prefs).encode.length = 7
            ∧ (¬ Platform.grants hint = true ∨ assuredSize ≤ input.length)) := by
  have hmin := (Header.ofPreferences prefs).minLength_le
  have hne : input ≠ [] := by
    refine List.ne_nil_of_length_pos ?_
    rw [starts, List.length_append]
    exact Nat.lt_of_lt_of_le (by decide) (Nat.le_add_right_of_le hmin)
  have hheader := readHeader_encode writable wire
  rw [← starts] at hheader
  rcases decompress_of_header gate hne hhint hheader with hvalue | ⟨requested, hvalue, hlimit⟩
  · exact .inl hvalue
  · refine .inr ⟨requested, hvalue, ?_⟩
    have hrest : (input.drop (Header.ofPreferences prefs).encode.length).length ≤ input.length := by
      rw [List.length_drop]
      exact Nat.sub_le ..
    rcases hlimit with hlarge | ⟨hdeclared, hlarge⟩ | ⟨hnone, hlarge⟩
    · exact .inl hlarge
    · refine .inr (.inl ⟨hdeclared, Nat.le_trans hlarge ?_⟩)
      rw [Nat.mul_comm]
      exact Nat.mul_le_mul_left _ hrest
    · rcases Header.length_ofPreferences prefs with hshort | ⟨-, hdeclares⟩
      · exact .inr (.inr ⟨hshort, hlarge.imp_right fun h => Nat.le_trans h hrest⟩)
      · exact absurd hnone hdeclares

/-- Decoding a front of a frame in one call tells what is missing, unless memory runs out behind the
header. -/
theorem decompress_take (gate : Gate) {hint : Nat} (hhint : 1 ≤ hint) {prefs : Preferences}
    {content frame : Bytes} (h : IsFrame (.ofPreferences prefs) content frame) {k : Nat}
    (hk : k < frame.length) :
    let headerLength := (Header.ofPreferences prefs).encode.length
    (decompress gate hint (frame.take k)).value = .error (cutError headerLength k)
      ∨ headerLength ≤ k
        ∧ ∃ requested,
          (decompress gate hint (frame.take k)).value = .error (.allocation requested)
          ∧ (headerLength = 7 ∧ ¬ Platform.grants hint = true
            ∨ assuredSize ≤ 2 * maxExpansion * k) := by
  intro headerLength
  rcases h.parts with ⟨blocks, -, hframe⟩
  simp only [List.append_assoc] at hframe
  generalize blocks ++ (SizeWord.endMark ++ _) = rest at hframe
  have hlength : (frame.take k).length = k := by
    rw [List.length_take]
    omega
  by_cases hnone : k = 0
  · subst hnone
    exact .inl rfl
  have hne : frame.take k ≠ [] := List.ne_nil_of_length_pos (by omega)
  by_cases hcut : k < headerLength
  · -- the header is cut
    have hempty : ¬ (frame.take k).isEmpty = true := by simpa [List.isEmpty_iff] using hne
    have hheader := readHeader_take (Header.ofPreferences prefs) rest hcut
    rw [← hframe] at hheader
    refine .inl ?_
    rw [decompress, if_neg hempty, if_neg (by omega), cutError, if_neg hnone, if_pos hcut]
    simp only [frameInfo_new, hheader]
  · -- the header is there, and reading goes on to the end of the front
    have hsplit : frame.take k
        = (Header.ofPreferences prefs).encode ++ rest.take (k - headerLength) := by
      rw [hframe, List.take_append, List.take_of_length_le (Nat.le_of_not_lt hcut)]
    rcases h.read_take hk with ⟨out, place, hread, -⟩
    rcases decompress_of_settings gate hhint h.writable hsplit
        with hvalue | ⟨requested, hvalue, hlimit⟩
    · refine .inl ?_
      rw [hvalue, hread, cutError, if_neg hnone, if_neg hcut]
      rfl
    · refine .inr ⟨Nat.le_of_not_lt hcut, requested, hvalue, ?_⟩
      have hcontent := read_new_length (frame.take k)
      rw [hlength] at hcontent hlimit
      unfold maxExpansion at hlimit ⊢
      rcases hlimit with hlarge | ⟨-, hlarge⟩ | ⟨hshort, hlarge | hlarge⟩
      · exact .inr (by omega)
      · exact .inr (by omega)
      · exact .inl ⟨hshort, hlarge⟩
      · exact .inr (by omega)

end Codec

/-! ## A row of calls -/

namespace Decompressor

/-- A row of calls with a front of a frame fails nowhere, uses all of it, gives a front of the
content and asks for more. -/
theorem updates_take {decompressor : Decompressor} (ready : decompressor.Ready) {header : Header}
    {content frame : Bytes} (h : IsFrame header content frame) {k : Nat} (hk : k < frame.length)
    {portions : List Portion} (hfits : ∀ portion ∈ portions, portion.Fits)
    (hjoined : joined portions = frame.take k) :
    Stalled portions (decompressor.updates portions)
      ∧ (decompressor.updates portions).content <+: content := by
  rcases h.read_take hk with ⟨out, place, hread, hfront⟩
  rw [← hjoined] at hread
  rcases decompressor.updates_read hfits with ⟨code, tail, -, hbad⟩ | ⟨unread, -, hended⟩
    | ⟨hstalled, hwaits⟩
  · rw [ready.decoder_eq, hread, Reading.mk.injEq] at hbad
    cases hbad.2
  · rw [ready.decoder_eq, hread, Reading.mk.injEq] at hended
    cases hended.2
  · refine ⟨hstalled, ?_⟩
    have hall := hwaits []
    rw [List.append_nil, ready.decoder_eq, hread] at hall
    exact List.IsPrefix.trans ⟨_, (congrArg Reading.content hall).symm⟩ hfront

end Decompressor

/-! ## Chunk by chunk -/

namespace Reader

/-- A reader of a front of a frame gives a front of the content and fails once. -/
theorem nexts_take (gate : Gate) {source : Source} (hsteady : source.Steady) {header : Header}
    {content frame : Bytes} (h : IsFrame header content frame) {k : Nat} (hk : k < frame.length)
    (hrest : source.rest = frame.take k) :
    ∃ chunks : List Bytes, chunks.flatten <+: content ∧ (∀ chunk ∈ chunks, chunk ≠ [])
      ∧ ∀ extra, ((new gate source).nexts (chunks.length + (extra + 1))).2
        = chunks.map (fun chunk => some (.ok chunk))
          ++ some (.error (.codec .incompleteFrame)) :: List.replicate extra none := by
  rcases h.read_take hk with ⟨out, place, hread, hfront⟩
  rw [← hrest] at hread
  have hfails : (Decoder.new.read source.rest).result = .error .incompleteFrame := by
    rw [hread]
    rfl
  rcases nexts_new gate hsteady hfails with ⟨chunks, hchunks, hne, hasked⟩
  rw [hread] at hchunks
  exact ⟨chunks, hchunks.trans hfront, hne, hasked⟩

end Reader

/-! ## Fronts of frames that were made -/

/-- No front of a frame that was made is taken for a frame.  Its header has 7 bytes, or 15 with a
declared length.  In one call, decoding a front tells that it is empty, that the header is
incomplete or that the frame is, in this order; it runs out of memory instead only where the header
is there and the hint or the input takes too much.  A reader gives chunks of a front of the content,
fails once, and gives nothing any more.  A row of calls on a decompressor that stands before a frame
fails nowhere, uses up all of its pieces, gives a front of the content and asks for more. -/
theorem cut_off {content frame : Bytes} (made : Made content frame) {k : Nat}
    (hk : k < frame.length) :
    let headerLength := Header.lengthFor (Header.flagsOf frame)
    (∃ header, IsFrame header content frame ∧ header.encode.length = headerLength)
      ∧ (headerLength = 7 ∨ headerLength = 15)
      ∧ (∀ (gate : Gate) (hint : Nat), 1 ≤ hint →
        (Codec.decompress gate hint (frame.take k)).value = .error (Codec.cutError headerLength k)
        ∨ headerLength ≤ k
          ∧ (∃ requested, (Codec.decompress gate hint (frame.take k)).value
            = .error (.allocation requested))
          ∧ (headerLength = 7 ∧ ¬ Platform.grants hint = true
            ∨ assuredSize ≤ 2 * Codec.maxExpansion * k))
      ∧ (∀ (gate : Gate) (source : Source), source.Steady → source.rest = frame.take k →
        ∃ chunks : List Bytes, chunks.flatten <+: content ∧ (∀ chunk ∈ chunks, chunk ≠ [])
          ∧ (∀ extra, ((Reader.new gate source).nexts (chunks.length + (extra + 1))).2
            = chunks.map (fun chunk => some (.ok chunk))
              ++ some (.error (.codec .incompleteFrame)) :: List.replicate extra none)
          ∧ (IoError.codec .incompleteFrame).kind = .unexpectedEof)
      ∧ ∀ (decompressor : Decompressor) (portions : List Portion), decompressor.Ready →
        (∀ portion ∈ portions, portion.Fits) → joined portions = frame.take k →
        (decompressor.updates portions).IsShort
          ∧ (decompressor.updates portions).answers.map Decoded.consumed
            = portions.map (·.bytes.length)
          ∧ (decompressor.updates portions).content <+: content := by
  rcases made.isFrame_ofPreferences with ⟨prefs, hframe⟩
  have hlength : (Header.ofPreferences prefs).encode.length
      = Header.lengthFor (Header.flagsOf frame) := by
    rcases hframe.parts with ⟨blocks, -, hparts⟩
    rw [hparts, List.append_assoc, List.append_assoc, Header.flagsOf_encode,
      Header.length_encode_eq]
  refine ⟨⟨_, hframe, hlength⟩, ?_, fun gate hint hhint => ?_, fun gate source hsteady hrest => ?_,
    fun decompressor portions ready hfits hjoined => ?_⟩
  · rw [← hlength]
    exact (Header.length_ofPreferences prefs).imp_right And.left
  · rw [← hlength]
    rcases Codec.decompress_take gate hhint hframe hk
      with hvalue | ⟨hheader, requested, hvalue, hlimit⟩
    · exact .inl hvalue
    · exact .inr ⟨hheader, ⟨requested, hvalue⟩, hlimit⟩
  · rcases Reader.nexts_take gate hsteady hframe hk hrest with ⟨chunks, hfront, hne, hasked⟩
    exact ⟨chunks, hfront, hne, hasked, rfl⟩
  · rcases Decompressor.updates_take ready hframe hk hfits hjoined with ⟨hstalled, hfront⟩
    exact ⟨⟨hstalled.no_failure, hstalled.hints⟩, hstalled.consumed, hfront⟩

/-- A frame of three bytes in a block that is stored. -/
def threeBytes : Bytes :=
  [0x04, 0x22, 0x4d, 0x18, 0x40, 0x40, 0xc0, 0x03, 0x00, 0x00, 0x80, 0x01, 0x02, 0x03,
    0x00, 0x00, 0x00, 0x00]

omit [Platform] in
theorem ok_of_toOption {result : Except Error Bytes} {bytes : Bytes} :
    result.toOption = some bytes → result = .ok bytes := by
  cases result <;> simp [Except.toOption]

/-- A frame of one update, from what its three calls give. -/
theorem calls_of_values {prefs : Preferences} {content header bytes trailer : Bytes}
    (hstart : ((Compressor.new .native).start prefs).2.value = .ok header)
    (hupdate : (((Compressor.new .native).start prefs).1.update content).2.value = .ok bytes)
    (hfinish : (((Compressor.new .native).start prefs).1.update content).1.finish.2.value
      = .ok trailer) :
    ∃ started active closed : Compressor, ∃ starting finishing : List LockEvent,
      (Compressor.new .native).start prefs = (started, ⟨.ok header, starting⟩)
        ∧ started.tries [.update content] = (active, [.ok bytes])
        ∧ active.finish = (closed, ⟨.ok trailer, finishing⟩) := by
  rcases hstarted : (Compressor.new .native).start prefs with ⟨started, value, starting⟩
  rw [hstarted] at hstart hupdate hfinish
  rcases hclosed : (started.update content).1.finish with ⟨closed, value', finishing⟩
  rw [hclosed] at hfinish
  obtain rfl : value = .ok header := hstart
  obtain rfl : value' = .ok trailer := hfinish
  exact ⟨started, (started.update content).1, closed, starting, finishing, rfl,
    Prod.ext rfl (congrArg (fun value => [value]) hupdate), hclosed⟩

end

open Reference in
theorem threeBytes_calls :
    ∃ started active closed : Compressor, ∃ starting finishing : List LockEvent,
      (Compressor.new .native).start {} = (started, ⟨.ok (threeBytes.take 7), starting⟩)
        ∧ started.tries [.update [1, 2, 3]] = (active, [.ok []])
        ∧ active.finish = (closed, ⟨.ok (threeBytes.drop 7), finishing⟩) :=
  calls_of_values rfl (ok_of_toOption (by decide +kernel)) (ok_of_toOption (by decide +kernel))

open Reference in
theorem made_threeBytes : Made [1, 2, 3] threeBytes := by
  rcases threeBytes_calls with ⟨started, active, closed, _, _, hstart, htries, hfinish⟩
  exact .inParts (by decide) hstart htries hfinish

open Reference in
/-- The frame without its end mark. -/
theorem cut_off_three_bytes :
    Made [1, 2, 3] threeBytes ∧ 14 < threeBytes.length
      ∧ (Codec.decompress .native 1 (threeBytes.take 14)).value = .error .incompleteFrame
      ∧ ((Decompressor.new .native).updates
        [⟨threeBytes.take 9, 1⟩, ⟨(threeBytes.take 14).drop 9, 2⟩]).IsShort
      ∧ ∃ chunks : List Bytes, chunks.flatten <+: [1, 2, 3]
        ∧ ((Reader.new .native { rest := threeBytes.take 14 }).nexts (chunks.length + 2)).2
          = chunks.map (fun chunk => some (.ok chunk))
            ++ [some (.error (.codec .incompleteFrame)), none] := by
  rcases cut_off made_threeBytes (show 14 < threeBytes.length by decide)
    with ⟨-, -, hdecompress, hreader, hcalls⟩
  refine ⟨made_threeBytes, by decide, ?_, ?_, ?_⟩
  · rcases hdecompress .native 1 (Nat.le_refl 1) with hvalue | ⟨-, -, hlimit⟩
    · exact hvalue
    · exact absurd hlimit (by decide)
  · refine (hcalls (.new .native) [⟨threeBytes.take 9, 1⟩, ⟨(threeBytes.take 14).drop 9, 2⟩]
      (.fresh .native) ?_ rfl).1
    intro portion hmem
    simp only [List.mem_cons, List.not_mem_nil, or_false] at hmem
    rcases hmem with rfl | rfl
    · exact ⟨by decide, by decide, by decide⟩
    · exact ⟨by decide, by decide, by decide⟩
  · rcases hreader .native { rest := threeBytes.take 14 } (by intro answer hmem; cases hmem) rfl
      with ⟨chunks, hfront, -, hasked, -⟩
    exact ⟨chunks, hfront, hasked 1⟩

open Reference in
/-- Behind the header, a hint that no memory can hold comes first. -/
theorem cut_off_out_of_memory :
    Made [1, 2, 3] threeBytes ∧ 7 < threeBytes.length
      ∧ Header.lengthFor (Header.flagsOf threeBytes) = 7
      ∧ (Codec.decompress .native assuredSize (threeBytes.take 7)).value
        = .error (.allocation assuredSize) :=
  ⟨made_threeBytes, by decide, by decide, rfl⟩

end Lz4Frame
