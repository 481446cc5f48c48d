import Lz4Frame.Platform.Reference
import Lz4Frame.Proofs.Codec.DeclaredLength
import Lz4Frame.Proofs.Stream.Failures

/-!
# Frames that declare a false length

If the declared length of a frame is replaced by another one, and the checksum of the header made
right again, every way of decoding the frame finds out that its length is wrong
(`false_length_reported`): at the end mark the count of the content does not come to nothing.  The
room that is set aside at first is bounded by what the input can expand to, however much is
declared.
-/

namespace Lz4Frame

open Decoder

/-! ## Another declared length -/

/-- A frame with a long header, with `n` as its declared length and the checksum byte that goes with
it. -/
def redeclare (frame : Bytes) (n : Nat) : Bytes :=
  let body := (frame.drop 4).take 2 ++ LittleEndian.encode 8 n
  frame.take 4 ++ body ++ [Header.checksumByte body] ++ frame.drop 15

/-- The header that declares `n` bytes, and otherwise says the same. -/
def Header.declaring (header : Header) (n : Nat) : Header := { header with contentSize := some n }

section Redeclared

variable {header : Header} {m : Nat} (sized : header.contentSize = some m)
  (undictated : header.dictionaryId = none)
include sized undictated

/-- A header that declares a length, part by part. -/
theorem encode_declaring (n : Nat) :
    (header.declaring n).encode = LittleEndian.encode 4 Header.magic
      ++ ([header.flags, UInt8.ofNat (header.blockSize.id * 16)] ++ LittleEndian.encode 8 n)
      ++ [Header.checksumByte ([header.flags, UInt8.ofNat (header.blockSize.id * 16)]
        ++ LittleEndian.encode 8 n)] := by
  have hflags : (header.declaring n).flags = header.flags := by
    rw [Header.flags, Header.flags, sized]
    rfl
  have hbody : (header.declaring n).body
      = [header.flags, UInt8.ofNat (header.blockSize.id * 16)] ++ LittleEndian.encode 8 n := by
    rw [Header.body, hflags]
    simp [Header.declaring, Header.optionalField, undictated]
  rw [Header.encode, hbody]

/-- Only the header of a frame changes. -/
theorem redeclare_eq (wire : Bytes) (n : Nat) :
    redeclare (header.encode ++ wire) n = (header.declaring n).encode ++ wire := by
  have hsame : header.declaring m = header := by rw [Header.declaring, ← sized]
  have hparts := encode_declaring sized undictated m
  rw [hsame] at hparts
  have hmagic := LittleEndian.length_encode 4 Header.magic
  have hlength : header.encode.length = 15 := by
    simp [hparts]
  have hfront : (header.encode ++ wire).take 4 = LittleEndian.encode 4 Header.magic := by
    rw [hparts, List.append_assoc, List.append_assoc, List.take_left' hmagic]
  have hchoices : ((header.encode ++ wire).drop 4).take 2
      = [header.flags, UInt8.ofNat (header.blockSize.id * 16)] := by
    rw [hparts, List.append_assoc, List.append_assoc, List.drop_left' hmagic]
    rfl
  rw [redeclare, hfront, hchoices, List.drop_left' hlength, encode_declaring sized undictated]

end Redeclared

theorem Header.Writable.declaring {header : Header} (h : header.Writable) {n : Nat} :
    n < 0x10000000000000000 → (header.declaring n).Writable := by
  intro hn
  refine ⟨h.blockSize_ne, fun m hm => ?_, h.dictionaryId_lt⟩
  obtain rfl : n = m := Option.some.inj hm
  exact hn

/-- Blocks are the same whatever length is declared. -/
theorem Blocks.declaring {header : Header} {before content wire : Bytes} (n : Nat) :
    Blocks header before content wire → Blocks (header.declaring n) before content wire := by
  intro h
  induction h with
  | nil => exact .nil
  | cons ne_nil length_le holds _ ih => exact .cons ne_nil length_le holds ih

namespace Decoder

variable [Platform]

/-- At the end mark a count that does not come to nothing is found out. -/
theorem read_endMark_wrong {body : Body} (hleft : body.remaining ≠ 0) (more : Bytes) :
    (beforeBlock body).read (SizeWord.endMark ++ more) = ⟨[], .bad .frameSizeWrong⟩ := by
  rw [read_mark, afterBlocks, if_pos hleft, reading_fail]

omit [Platform] in
/-- The count behind content of another length than was declared. -/
theorem remaining_wrong {header : Header} {content : Bytes} {n : Nat}
    (hcontent : content.length < 0x10000000000000000) (hpos : 1 ≤ n)
    (hn : n < 0x10000000000000000) (hne : n ≠ content.length) :
    ((Body.ofHeader (header.declaring n)).append content).remaining ≠ 0 := by
  have hsized : (Body.ofHeader (header.declaring n)).header.contentSize.getD 0 ≠ 0 :=
    Nat.ne_of_gt hpos
  rw [remaining_append, if_neg hsized]
  intro hzero
  have hsame : UInt64.ofNat n = UInt64.ofNat content.length := by
    have hback := UInt64.sub_add_cancel (UInt64.ofNat n) (UInt64.ofNat content.length)
    rw [← hback]
    exact (congrArg (· + UInt64.ofNat content.length) hzero).trans (UInt64.zero_add _)
  have hnat := congrArg UInt64.toNat hsame
  rw [UInt64.toNat_ofNat', UInt64.toNat_ofNat'] at hnat
  omega

end Decoder

section Misdeclared

variable {header : Header} {content frame : Bytes} (hframe : IsFrame header content frame)
  (sized : header.contentSize = some content.length) (undictated : header.dictionaryId = none)
  {n : Nat} (hpos : 1 ≤ n) (hn : n < 0x10000000000000000)
include hframe sized undictated hpos hn

variable [Platform]

/-- A frame with a false declared length reads as its content, and then its length is wrong. -/
theorem read_redeclare (hne : n ≠ content.length) :
    Decoder.new.read (redeclare frame n) = ⟨content, .bad .frameSizeWrong⟩ := by
  rcases hframe.parts with ⟨blocks, hblocks, rfl⟩
  have hcontent := hframe.writable.contentSize_lt content.length sized
  rw [List.append_assoc, List.append_assoc, redeclare_eq sized undictated,
    read_front (hframe.writable.declaring hn) (hblocks.declaring n).payloads,
    read_endMark_wrong (remaining_wrong hcontent hpos hn hne)]
  simp [Reading.prepend]

/-- Whatever is declared, the header is accepted, and a buffer that is no larger than what the frame
could expand to. -/
theorem setUp_redeclare (hmemory : Codec.maxExpansion * frame.length < assuredSize)
    (hint : Nat) :
    ∃ decoder info buffer, Codec.SetUp hint (redeclare frame n) decoder info 15 buffer
      ∧ buffer.capacity ≤ max 1 (Codec.maxExpansion * ((redeclare frame n).length - 15)) := by
  rcases hframe.remainder with ⟨wire, rfl, -⟩
  have hlength : (header.declaring n).encode.length = 15 := by
    simp [encode_declaring sized undictated]
  have hheader := readHeader_encode (hframe.writable.declaring hn) wire
  have hrest : ((header.declaring n).encode ++ wire).drop 15 = wire := List.drop_left' hlength
  have hwire : Codec.maxExpansion * wire.length < assuredSize := by
    refine Nat.lt_of_le_of_lt (Nat.mul_le_mul_left _ ?_) hmemory
    rw [List.length_append]
    omega
  rw [hlength] at hheader
  rw [redeclare_eq sized undictated, List.length_append, hlength, Nat.add_sub_cancel_left]
  have hassured : max 1 (min n (Codec.maxExpansion * wire.length)) < assuredSize := by
    unfold assuredSize at hwire ⊢
    omega
  rcases Codec.setUp_of_header hheader hpos (by
      rw [hrest]
      exact Platform.grants_assured hassured) hint
      with ⟨buffer, hsetUp, hcapacity⟩
  rw [hrest] at hcapacity
  exact ⟨_, _, buffer, hsetUp, by omega⟩

end Misdeclared

section

variable [Platform]

/-- Every way of decoding a frame reports that its length is wrong: decoding in one call, unless
there is no memory for twice the content, a row of calls, whatever the portions and chunks, and a
reader, whatever delays its source. -/
structure LengthReported (content frame : Bytes) : Prop where
  /-- No more is allocated at first than the frame could expand to. -/
  firstRoom : ∀ hint,
    ∃ decoder info buffer, Codec.SetUp hint frame decoder info 15 buffer
      ∧ buffer.capacity ≤ max 1 (Codec.maxExpansion * (frame.length - 15))
  inOneCall : ∀ (gate : Gate) (hint : Nat), 1 ≤ hint →
    (Codec.decompress gate hint frame).value = .error (.frame .frameSizeWrong)
      ∨ ∃ requested, (Codec.decompress gate hint frame).value = .error (.allocation requested)
        ∧ assuredSize ≤ 2 * content.length
  inParts : ∀ (decompressor : Decompressor) (portions : List Portion), decompressor.Ready →
    (∀ portion ∈ portions, portion.Fits) → joined portions = frame →
      (decompressor.updates portions).failure = some (.frame .frameSizeWrong)
  readToEnd : ∀ (gate : Gate) (source : Source), source.Steady → source.rest = frame →
    ((Reader.new gate source).readAll #[] []).2.value = .error (.codec (.frame .frameSizeWrong))
  inChunks : ∀ (gate : Gate) (source : Source), source.Steady → source.rest = frame →
    ∃ chunks : List Bytes, chunks.flatten <+: content ∧ (∀ chunk ∈ chunks, chunk ≠ [])
      ∧ ∀ extra, ((Reader.new gate source).nexts (chunks.length + (extra + 1))).2
        = chunks.map (fun chunk => some (.ok chunk))
          ++ some (.error (.codec (.frame .frameSizeWrong))) :: List.replicate extra none

/-- A frame that was made in one call, in the room that was found for it, and whose declared length
was then replaced by a false one is reported. -/
theorem false_length_reported {gate : Gate} {prefs : Preferences} {content frame : Bytes}
    (length_lt : content.length < 0x10000000000000000)
    (hwithin : ¬ Codec.Overruns prefs content)
    (made : (Codec.compress gate prefs content).value = .ok frame) {n : Nat} (hpos : 1 ≤ n)
    (hn : n < 0x10000000000000000) (hne : n ≠ content.length) :
    LengthReported content (redeclare frame n) := by
  rcases Codec.compress_header length_lt made with ⟨header, hframe, sized, undictated, -⟩
  have hread := read_redeclare hframe sized undictated hpos hn hne
  have hsetUp := setUp_redeclare hframe sized undictated hpos hn
    (Codec.compress_length_lt hwithin made)
  refine ⟨hsetUp, fun gate hint hhint => ?_,
    fun decompressor portions hready hfits hjoined => ?_, fun gate source hsteady hrest => ?_,
    fun gate source hsteady hrest => ?_⟩
  · rcases hsetUp hint with ⟨decoder, info, buffer, hstarts, -⟩
    have hvalue := hstarts.value_eq gate hhint
    rw [hread] at hvalue
    exact hvalue
  · exact (hready.updates_bad hfits (hjoined ▸ hread)).1
  · rw [Reader.readAll_new gate hsteady, hrest, hread]
    rfl
  · rw [← hrest] at hread
    have hfails : (Decoder.new.read source.rest).result = .error (.frame .frameSizeWrong) := by
      rw [hread]
      rfl
    rcases Reader.nexts_new gate hsteady hfails with ⟨chunks, hchunks, hall, hasked⟩
    rw [hread] at hchunks
    exact ⟨chunks, hchunks, hall, hasked⟩

end

open Reference in
/-- Three bytes of content that are declared to be five, or two. -/
theorem false_length_reported_three_bytes :
    ∃ frame, (Codec.compress .native {} [7, 7, 7]).value = .ok frame
      ∧ ¬ Codec.Overruns {} [7, 7, 7]
      ∧ LengthReported [7, 7, 7] (redeclare frame 5)
      ∧ LengthReported [7, 7, 7] (redeclare frame 2) := by
  rcases Codec.compress_threeBytes with ⟨hwithin, frame, hcompress⟩
  exact ⟨frame, hcompress, hwithin,
    false_length_reported (by decide) hwithin hcompress (by decide) (by decide) (by decide),
    false_length_reported (by decide) hwithin hcompress (by decide) (by decide) (by decide)⟩

open Reference in
/-- Chunks can be too long for any memory, and then that is reported instead. -/
theorem false_length_unreported :
    ∃ frame, (Codec.compress .native {} [7, 7, 7]).value = .ok frame
      ∧ ((Decompressor.new .native).updates [⟨redeclare frame 5, assuredSize⟩]).failure
        = some (.allocation assuredSize) := by
  rcases Codec.compress_threeBytes with ⟨-, frame, hcompress⟩
  refine ⟨frame, hcompress, ?_⟩
  have hne' : redeclare frame 5 ≠ [] := by simp [redeclare]
  have hpos : assuredSize ≠ 0 := by decide
  simp [Decompressor.updates, Decompressor.update, hne', hpos, Reference.allocate_assuredSize]

end Lz4Frame
