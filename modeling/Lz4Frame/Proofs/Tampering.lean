import Lz4Frame.Platform.Reference
import Lz4Frame.Proofs.Truncation

/-!
# Checksums that were tampered with

If the checksum of the content or that of any block is replaced by anything else, every way of
decoding the frame finds it out, and says which kind of checksum it was (`tampering_reported`).  No
more than a front of the content comes out before.

Where the checksums of blocks stand can be told from the size words alone (`blockSums`).  In front
of each stands its block, and in front of that a row of blocks (`Row.mem_sumPlaces`), which reads as
it did before (`Row.read_overwrite`).
-/

namespace Lz4Frame

open Block Decoder

/-! ## Fields in a frame -/

/-- Where the checksums of blocks stand, if each block has one: behind the payload, whose length is
in the size word. -/
def sumPlaces (bytes : Bytes) : List Nat :=
  let number := LittleEndian.value (bytes.take 4)
  if h : hasAtLeast bytes 4 = true ∧ number ≠ 0 then
    have : 4 ≤ bytes.length := (hasAtLeast_iff bytes 4).mp h.1
    let place := 4 + (SizeWord.ofNumber number).size
    place :: (sumPlaces (bytes.drop (place + 4))).map (place + 4 + ·)
  else
    []
termination_by bytes.length
decreasing_by simp only [List.length_drop]; omega

/-- Where the checksums of its blocks stand in a frame. -/
def blockSums (frame : Bytes) : List Nat :=
  let length := Header.lengthFor (Header.flagsOf frame)
  (sumPlaces (frame.drop length)).map (length + ·)

/-! ## Payloads and their checksums -/

/-- The bytes that the checksum of a block is made over. -/
def Block.Payload.bytes : Payload → Bytes
  | .stored bytes => bytes
  | .compressed bytes => bytes

theorem Block.Payload.encode_true (payload : Payload) :
    payload.encode true = payload.encode false ++ Xxh32.field (Xxh32.of payload.bytes) := by
  cases payload <;> simp [Payload.encode, Payload.bytes]

theorem Block.Payload.length_encode_true (payload : Payload) :
    (payload.encode true).length = (payload.encode false).length + 4 := by
  rw [payload.encode_true, List.length_append, Xxh32.length_field]

/-- The payload of a block has bytes, and no more than fit in a block. -/
theorem Block.Payload.Holds.length_bytes {history : Array UInt8} {capacity : Nat}
    {payload : Payload} {block : Bytes} (h : payload.Holds history capacity block)
    (ne_nil : block ≠ []) (length_le : block.length ≤ capacity) :
    0 < payload.bytes.length ∧ payload.bytes.length ≤ capacity := by
  cases payload with
  | stored bytes =>
      obtain rfl : bytes = block := h
      exact ⟨List.length_pos_iff.mpr ne_nil, length_le⟩
  | compressed bytes => exact length_compressed h length_le

/-- The size word of a block gives away where its checksum stands. -/
theorem sumPlaces_encode {payload : Payload} (hpos : 0 < payload.bytes.length)
    (hlt : payload.bytes.length < SizeWord.storedMark) (more : Bytes) :
    sumPlaces (payload.encode true ++ more)
      = (payload.encode false).length
        :: (sumPlaces more).map ((payload.encode true).length + ·) := by
  obtain ⟨word, hfront, hsize, hnumber⟩ : ∃ word : SizeWord,
      payload.encode false = word.encode ++ payload.bytes ∧ word.size = payload.bytes.length
        ∧ word.number ≠ 0 := by
    cases payload with
    | stored bytes => exact ⟨⟨true, _⟩, by simp [Payload.encode, Payload.bytes], rfl, by
        simp [SizeWord.number, SizeWord.storedMark]⟩
    | compressed bytes => exact ⟨⟨false, _⟩, by simp [Payload.encode, Payload.bytes], rfl,
        Nat.ne_of_gt hpos⟩
  have hword : word.size < SizeWord.storedMark := hsize ▸ hlt
  have hlength : (payload.encode false).length = 4 + payload.bytes.length := by
    rw [hfront, List.length_append, length_sizeWord]
  have hvalue : LittleEndian.value ((payload.encode true ++ more).take 4) = word.number := by
    rw [payload.encode_true, hfront, List.append_assoc, List.append_assoc,
      List.take_left' (length_sizeWord word), value_sizeWord hword]
  have hlong : hasAtLeast (payload.encode true ++ more) 4 = true := by
    rw [hasAtLeast_iff, List.length_append, payload.length_encode_true]
    omega
  have hplace : 4 + word.size + 4 = (payload.encode true).length := by
    rw [payload.length_encode_true, hlength, hsize]
  rw [sumPlaces]
  simp only [hvalue, hlong, hnumber, ne_eq, not_false_eq_true, and_self, ↓reduceDIte,
    SizeWord.ofNumber_number hword, hplace, List.drop_left]
  rw [hlength, hsize]

/-- The checksums stand one behind another. -/
theorem sumPlaces_increasing (bytes : Bytes) : (sumPlaces bytes).Pairwise (· < ·) := by
  fun_induction sumPlaces bytes with
  | case1 bytes number hword _ place ih =>
      refine .cons (fun place hplace => ?_) ?_
      · rcases List.mem_map.mp hplace with ⟨place', -, rfl⟩
        omega
      · rw [List.pairwise_map]
        exact ih.imp fun hlt => by omega
  | case2 => exact .nil

theorem sumPlaces_endMark (more : Bytes) : sumPlaces (SizeWord.endMark ++ more) = [] := by
  have hvalue : LittleEndian.value ((SizeWord.endMark ++ more).take 4) = 0 := rfl
  rw [sumPlaces]
  simp [hvalue]

/-- Before the end mark there is one checksum for each block. -/
theorem Row.length_sumPlaces {header : Header} {before wire : Bytes} {parts : List Bytes}
    (h : Row header before parts wire) (hon : header.blockChecksum = true) (more : Bytes) :
    (sumPlaces (wire ++ (SizeWord.endMark ++ more))).length = parts.length := by
  have hmark := bytes_lt_storedMark header.blockSize
  induction h with
  | nil => simp [sumPlaces_endMark]
  | cons ne_nil length_le holds _ ih =>
      rcases holds.length_bytes ne_nil length_le with ⟨hpos, hle⟩
      rw [hon, List.append_assoc, sumPlaces_encode hpos (by omega)]
      simpa using ih

/-- What stands in front of a checksum: a block, and the blocks before it. -/
theorem Row.mem_sumPlaces {header : Header} {before wire : Bytes} {parts : List Bytes}
    (h : Row header before parts wire) (hon : header.blockChecksum = true) {more : Bytes}
    {place : Nat} :
    place ∈ sumPlaces (wire ++ (SizeWord.endMark ++ more)) →
      ∃ front frontWire part payload backWire, Blocks header before front frontWire
        ∧ part ≠ [] ∧ part.length ≤ header.blockSize.bytes
        ∧ payload.Holds (header.history (before ++ front)) header.blockSize.bytes part
        ∧ wire = frontWire ++ (Payload.encode payload true ++ backWire)
        ∧ place = frontWire.length + (payload.encode false).length
        ∧ front ++ part <+: parts.flatten := by
  have hmark := bytes_lt_storedMark header.blockSize
  -- on the row; the checksum is that of its first block, or of one behind it
  induction h generalizing place with
  | nil => simp [sumPlaces_endMark]
  | @cons before part wire parts payload ne_nil length_le holds _ ih =>
      intro hplace
      rcases holds.length_bytes ne_nil length_le with ⟨hpos, hle⟩
      rw [hon, List.append_assoc, sumPlaces_encode hpos (by omega)] at hplace
      rw [hon, List.flatten_cons]
      rcases List.mem_cons.mp hplace with rfl | hplace
      · exact ⟨[], [], part, payload, wire, .nil, ne_nil, length_le, by simpa using holds,
          List.nil_append _, by simp, List.prefix_append ..⟩
      · rcases List.mem_map.mp hplace with ⟨place', hplace', rfl⟩
        rcases ih hplace' with ⟨front, frontWire, part', payload', backWire, hfront, ne_nil',
          length_le', holds', rfl, rfl, hparts⟩
        have hblocks := Blocks.cons ne_nil length_le holds hfront
        rw [hon] at hblocks
        refine ⟨part ++ front, _, part', payload', backWire, hblocks, ne_nil', length_le', ?_, ?_,
          ?_, ?_⟩
        · rwa [List.append_assoc] at holds'
        · rw [List.append_assoc]
        · rw [List.length_append, Nat.add_assoc]
        · rw [List.append_assoc]
          exact (List.prefix_append_right_inj part).mpr hparts

/-! ## Reading them -/

namespace Decoder

variable [Platform]

/-- Any other field than the checksum of the content is found out. -/
theorem read_trailer_wrong {body : Body} {field : Bytes} (hlength : field.length = 4)
    (hne : field ≠ Xxh32.field body.digest.digest) (more : Bytes) :
    (trailer body (.empty (by decide))).read (field ++ more)
      = ⟨[], .bad .contentChecksumInvalid⟩ := by
  rcases Partial.fill_empty (show 0 < 4 by decide) (field ++ more) 0 (by simp [hlength])
      with ⟨_, hfull⟩
  rw [read_eq]
  simp [step, hfull, List.take_left' hlength, hne]

/-- Any other field than the checksum of a stored block is found out. -/
theorem read_storedChecksum_wrong (body : Body) {sum : UInt32} {field : Bytes}
    (hlength : field.length = 4) (hne : field ≠ Xxh32.field sum) (more : Bytes) :
    (storedChecksum body sum (.empty (by decide))).read (field ++ more)
      = ⟨[], .bad .blockChecksumInvalid⟩ := by
  rcases Partial.fill_empty (show 0 < 4 by decide) (field ++ more) 0 (by simp [hlength])
      with ⟨_, hfull⟩
  rw [read_eq]
  simp [step, hfull, List.take_left' hlength, hne]

/-- Behind the end mark of a frame that was counted down, any other field than the checksum of the
content is found out. -/
theorem read_endMark_trailer_wrong {body : Body} (hnone : body.remaining = 0)
    (hon : body.header.contentChecksum = true) {field : Bytes} (hlength : field.length = 4)
    (hne : field ≠ Xxh32.field body.digest.digest) :
    (beforeBlock body).read (SizeWord.endMark ++ field) = ⟨[], .bad .contentChecksumInvalid⟩ := by
  have hread := read_trailer_wrong hlength hne []
  rw [List.append_nil] at hread
  rw [read_mark, afterBlocks, if_neg (not_not_intro hnone), if_pos hon]
  simp only [reading_go, List.append_nil, Reading.prepend_nil, hread]

/-- A block with any other field than its checksum is found out.  What is stored was handed out
before; what is compressed is not even decoded. -/
theorem read_block_wrong {body : Body} {before block : Bytes} {payload : Payload}
    (hon : body.header.blockChecksum = true) (ne_nil : block ≠ [])
    (length_le : block.length ≤ body.header.blockSize.bytes)
    (holds : payload.Holds (body.header.history before) body.header.blockSize.bytes block)
    {field : Bytes} (hlength : field.length = 4)
    (hne : field ≠ Xxh32.field (Xxh32.of payload.bytes)) (more : Bytes) :
    ∃ out, (beforeBlock body).read (payload.encode false ++ (field ++ more))
        = ⟨out, .bad .blockChecksumInvalid⟩
      ∧ out <+: block := by
  rcases holds.length_bytes ne_nil length_le with ⟨hpos, hle⟩
  cases payload with
  | stored bytes =>
      obtain rfl : bytes = block := holds
      simp only [Payload.bytes] at hpos hle hne
      have hfront : (Payload.stored bytes).encode false ++ (field ++ more)
          = (SizeWord.mk true bytes.length).encode ++ (bytes ++ (field ++ more)) := by
        simp [Payload.encode]
      refine ⟨bytes, ?_, List.prefix_rfl⟩
      rw [hfront, read_storedWord body hpos hle, read_stored_summed hon,
        read_storedChecksum_wrong _ hlength hne]
      simp [Reading.prepend]
  | compressed bytes =>
      simp only [Payload.bytes] at hpos hle hne
      have hsum : body.checksumLength = 4 := if_pos hon
      have hfront : (Payload.compressed bytes).encode false ++ (field ++ more)
          = (SizeWord.mk false bytes.length).encode ++ (bytes ++ field ++ more) := by
        simp [Payload.encode]
      have hmore : bytes ++ field ++ more ≠ [] := by
        have hbytes : bytes ≠ [] := List.ne_nil_of_length_pos hpos
        simp [hbytes]
      have hfield : (bytes ++ field).length = bytes.length + body.checksumLength := by
        rw [List.length_append, hlength, hsum]
      have hwhole : (bytes ++ field).length - body.checksumLength = bytes.length := by omega
      refine ⟨[], ?_, List.nil_prefix⟩
      rw [hfront, read_compressedWord body hpos hle hmore, read_compressed body _ hfield more,
        afterCompressed]
      simp only [hwhole, List.take_left, List.drop_left]
      rw [if_pos ⟨hon, hne⟩, reading_fail]

end Decoder

section

variable [Platform]

/-- Whichever checksum of a row of blocks is replaced, reading finds it out when it comes to it. -/
theorem Row.read_overwrite {header : Header} {before wire : Bytes} {parts : List Bytes}
    (h : Row header before parts wire) (hon : header.blockChecksum = true) {body : Body}
    (hheader : body.header = header) (hhistory : body.history = header.history before)
    {more field : Bytes} {place : Nat} (hlength : field.length = 4) :
    let bytes := wire ++ (SizeWord.endMark ++ more)
    place ∈ sumPlaces bytes → field ≠ (bytes.drop place).take 4 →
      ∃ out, (beforeBlock body).read (overwrite bytes place field)
          = ⟨out, .bad .blockChecksumInvalid⟩
        ∧ out <+: parts.flatten := by
  intro bytes hplace hne
  rcases h.mem_sumPlaces hon hplace with ⟨front, frontWire, part, payload, backWire, hfront, ne_nil,
    length_le, holds, rfl, rfl, hparts⟩
  have hsum := Xxh32.length_field (Xxh32.of payload.bytes)
  have hbytes : bytes = frontWire ++ (payload.encode false
      ++ (Xxh32.field (Xxh32.of payload.bytes) ++ (backWire ++ (SizeWord.endMark ++ more)))) := by
    simp only [bytes, payload.encode_true, List.append_assoc]
  have hheader' : (body.append front).header = header := (header_append ..).trans hheader
  -- what stood there was the right checksum, so the new field is wrong
  rw [hbytes, List.drop_length_add_append, List.drop_left, List.take_left' hsum] at hne
  rw [← hheader'] at hon length_le holds
  rcases read_block_wrong hon ne_nil length_le holds hlength hne
      (backWire ++ (SizeWord.endMark ++ more)) with ⟨out, hread, hout⟩
  -- the blocks in front read as they stand
  refine ⟨front ++ out, ?_, ((List.prefix_append_right_inj front).mpr hout).trans hparts⟩
  rw [hbytes, overwrite_behind, overwrite_field (hlength.trans hsum.symm),
    read_payloads hfront.payloads hheader hhistory, hread]
  rfl

namespace IsFrame

variable {header : Header} {content frame : Bytes} (h : IsFrame header content frame)
include h

/-- A frame whose checksum of the content is replaced reads as its content, and then the checksum is
wrong. -/
theorem read_trailer_overwrite (hon : header.contentChecksum = true) {field : Bytes}
    (hlength : field.length = 4) (hne : field ≠ frame.drop (frame.length - 4)) :
    ∃ wire, overwrite frame (frame.length - 4) field = header.encode ++ wire
      ∧ new.read (header.encode ++ wire) = ⟨content, .bad .contentChecksumInvalid⟩ := by
  rcases h.parts with ⟨blocks, hblocks, hframe⟩
  rcases h.wellFormed.kept with ⟨hnone, hsum⟩
  have hheader : ((Body.ofHeader header).append content).header = header := header_append ..
  have hlast := Xxh32.length_field (Xxh32.of content)
  rw [if_pos hon] at hframe
  rw [if_pos hon, if_pos hon] at hsum
  -- the checksum is all that stands behind the end mark
  generalize hfront : header.encode ++ blocks ++ SizeWord.endMark = front at hframe
  have hplace : frame.length - 4 = front.length := by
    rw [hframe, List.length_append, hlast, Nat.add_sub_cancel]
  rw [hplace, hframe, List.drop_left, hsum] at hne
  refine ⟨blocks ++ (SizeWord.endMark ++ field), ?_, ?_⟩
  · rw [hplace, hframe, ← List.append_nil (Xxh32.field _),
      overwrite_field (hlength.trans hlast.symm), ← hfront]
    simp
  · rw [read_front h.writable hblocks.payloads,
      read_endMark_trailer_wrong hnone (by rw [hheader, hon]) hlength hne]
    simp [Reading.prepend]

omit [Platform] in
/-- The checksums of blocks stand in the row behind the header, one for each block. -/
theorem blockSums_row (hon : header.blockChecksum = true) :
    ∃ parts wire trailer, Row header [] parts wire ∧ content = parts.flatten
      ∧ frame = header.encode ++ (wire ++ (SizeWord.endMark ++ trailer))
      ∧ (blockSums frame).length = parts.length
      ∧ blockSums frame = (sumPlaces (frame.drop header.encode.length)).map
        (header.encode.length + ·) := by
  rcases h.parts with ⟨wire, hblocks, hframe⟩
  rcases hblocks.row with ⟨parts, hparts, hrow⟩
  simp only [List.append_assoc] at hframe
  have hsums : blockSums frame = (sumPlaces (frame.drop header.encode.length)).map
      (header.encode.length + ·) := by
    rw [blockSums, hframe, Header.flagsOf_encode, Header.length_encode_eq]
  refine ⟨parts, wire, _, hrow, hparts, hframe, ?_, hsums⟩
  rw [hsums, List.length_map, hframe, List.drop_left, hrow.length_sumPlaces hon]

omit [Platform] in
/-- At each of these places the checksum of a payload stands, right behind it. -/
theorem mem_blockSums (hon : header.blockChecksum = true) {place : Nat} :
    place ∈ blockSums frame →
      ∃ front payload back, frame = front ++ (Payload.encode payload false
          ++ (Xxh32.field (Xxh32.of payload.bytes) ++ back))
        ∧ place = front.length + (payload.encode false).length := by
  intro hplace
  rcases h.blockSums_row hon with ⟨parts, wire, trailer, hrow, -, rfl, -, hsums⟩
  rw [hsums, List.drop_left] at hplace
  rcases List.mem_map.mp hplace with ⟨place', hplace', rfl⟩
  rcases hrow.mem_sumPlaces hon hplace' with ⟨front, frontWire, part, payload, backWire, -, -, -, -,
    rfl, rfl, -⟩
  refine ⟨header.encode ++ frontWire, payload, backWire ++ (SizeWord.endMark ++ trailer), ?_, ?_⟩
  · simp only [payload.encode_true, List.append_assoc]
  · rw [List.length_append, Nat.add_assoc]

/-- A frame in which the checksum of a block is replaced reads as a front of its content, and then
the checksum is wrong. -/
theorem read_blockSum_overwrite (hon : header.blockChecksum = true) {place : Nat}
    (hplace : place ∈ blockSums frame) {field : Bytes} (hlength : field.length = 4)
    (hne : field ≠ (frame.drop place).take 4) :
    ∃ wire out, overwrite frame place field = header.encode ++ wire
      ∧ new.read (header.encode ++ wire) = ⟨out, .bad .blockChecksumInvalid⟩
      ∧ out <+: content := by
  rcases h.blockSums_row hon with ⟨parts, wire, trailer, hrow, rfl, rfl, -, hsums⟩
  rw [hsums, List.drop_left] at hplace
  rcases List.mem_map.mp hplace with ⟨place', hplace', rfl⟩
  rw [List.drop_length_add_append] at hne
  rcases hrow.read_overwrite hon rfl (history_ofHeader header) hlength hplace' hne
      with ⟨out, hread, hfront⟩
  refine ⟨_, out, overwrite_behind .., ?_, hfront⟩
  rw [read_header h.writable, hread]

end IsFrame

/-! ## What the decoders report -/

/-- Every way of decoding a frame fails with this code, and no more than a front of the content
comes out before: decoding in one call, unless there is no memory for twice the content or, where no
length is declared, for the hint or for as much as the input; a row of calls, whatever the portions
and chunks; and a reader, whatever delays its source. -/
structure Reported (content frame : Bytes) (code : ErrorCode) : Prop where
  inOneCall : ∀ (gate : Gate) (hint : Nat), 1 ≤ hint →
    (Codec.decompress gate hint frame).value = .error (.frame code)
      ∨ ∃ requested, (Codec.decompress gate hint frame).value = .error (.allocation requested)
        ∧ (assuredSize ≤ 2 * content.length
          ∨ Header.lengthFor (Header.flagsOf frame) = 7
            ∧ (¬ Platform.grants hint = true ∨ assuredSize ≤ frame.length))
  inParts : ∀ (decompressor : Decompressor) (portions : List Portion), decompressor.Ready →
    (∀ portion ∈ portions, portion.Fits) → joined portions = frame →
      (decompressor.updates portions).failure = some (.frame code)
        ∧ (decompressor.updates portions).content <+: content
  readToEnd : ∀ (gate : Gate) (source : Source), source.Steady → source.rest = frame →
    ((Reader.new gate source).readAll #[] []).2.value = .error (.codec (.frame code))
  inChunks : ∀ (gate : Gate) (source : Source), source.Steady → source.rest = frame →
    ∃ chunks : List Bytes, chunks.flatten <+: content ∧ (∀ chunk ∈ chunks, chunk ≠ [])
      ∧ ∀ extra, ((Reader.new gate source).nexts (chunks.length + (extra + 1))).2
        = chunks.map (fun chunk => some (.ok chunk))
          ++ some (.error (.codec (.frame code))) :: List.replicate extra none

/-- What reads as bad behind the header of some settings is reported. -/
theorem Reported.of_read {prefs : Preferences} (writable : (Header.ofPreferences prefs).Writable)
    {content wire out : Bytes} {code : ErrorCode}
    (declared : (Header.ofPreferences prefs).contentSize.getD 0 = 0
      ∨ (Header.ofPreferences prefs).contentSize = some content.length)
    (hread : new.read ((Header.ofPreferences prefs).encode ++ wire) = ⟨out, .bad code⟩)
    (hfront : out <+: content) :
    Reported content ((Header.ofPreferences prefs).encode ++ wire) code := by
  refine ⟨fun gate hint hhint => ?_, fun decompressor portions ready hfits hjoined => ?_,
    fun gate source hsteady hrest => ?_, fun gate source hsteady hrest => ?_⟩
  · rw [Header.flagsOf_encode, ← Header.length_encode_eq]
    rcases Codec.decompress_of_settings gate hhint writable rfl
        with hvalue | ⟨requested, hvalue, hlimit⟩
    · rw [hread] at hvalue
      exact .inl hvalue
    · refine .inr ⟨requested, hvalue, ?_⟩
      rw [hread] at hlimit
      rcases hlimit with hlarge | ⟨hlarge, -⟩ | hlarge
      · exact .inl (Nat.le_trans hlarge (Nat.mul_le_mul_left 2 hfront.length_le))
      · -- a declared length is the content's
        have hpos : 0 < assuredSize := by decide
        rcases declared with hnone | hsize
        · omega
        · rw [hsize, Option.getD_some] at hlarge
          exact .inl (by omega)
      · exact .inr hlarge
  · rcases ready.updates_bad hfits (hjoined ▸ hread) with ⟨hfailure, hcontent⟩
    exact ⟨hfailure, hcontent.trans hfront⟩
  · rw [Reader.readAll_new gate hsteady, hrest, hread]
    rfl
  · rw [← hrest] at hread
    have hfails : (new.read source.rest).result = .error (.frame code) := by rw [hread]; rfl
    rcases Reader.nexts_new gate hsteady hfails with ⟨chunks, hchunks, hne, hasked⟩
    rw [hread] at hchunks
    exact ⟨chunks, hchunks.trans hfront, hne, hasked⟩

/-- Tampering with the checksums of a frame that was made is reported, with the kind of checksum
that was wrong: whatever the last four bytes are replaced by if the content has a checksum, and
whatever the checksum of any one block is replaced by if blocks have them.  There are as many of
those as blocks, one behind another, and each stands behind the payload that it was made over. -/
theorem tampering_reported {prefs : Preferences} {content frame : Bytes}
    (made : MadeWith prefs content frame) :
    (prefs.contentChecksum = true → ∀ field : Bytes, field.length = 4 →
        field ≠ frame.drop (frame.length - 4) →
        Reported content (overwrite frame (frame.length - 4) field) .contentChecksumInvalid)
      ∧ (prefs.blockChecksum = true →
        (∃ header parts wire trailer, header.blockChecksum = true ∧ Row header [] parts wire
          ∧ content = parts.flatten
          ∧ frame = header.encode ++ (wire ++ (SizeWord.endMark ++ trailer))
          ∧ (blockSums frame).length = parts.length ∧ (blockSums frame).Pairwise (· < ·))
        ∧ ∀ place ∈ blockSums frame,
          (∃ front payload back, frame = front ++ (Payload.encode payload false
              ++ (Xxh32.field (Xxh32.of payload.bytes) ++ back))
            ∧ place = front.length + (payload.encode false).length)
          ∧ ∀ field : Bytes, field.length = 4 → field ≠ (frame.drop place).take 4 →
            Reported content (overwrite frame place field) .blockChecksumInvalid) := by
  rcases made.isFrame with ⟨settings, hframe, hblocks, hcontent⟩
  refine ⟨fun hon field hlength hne => ?_,
    fun hon => ⟨?_, fun place hplace => ⟨hframe.mem_blockSums (hblocks.trans hon) hplace,
      fun field hlength hne => ?_⟩⟩⟩
  · rcases hframe.read_trailer_overwrite (hcontent.trans hon) hlength hne with ⟨wire, hwire, hread⟩
    exact hwire ▸ Reported.of_read hframe.writable hframe.declared hread List.prefix_rfl
  · rcases hframe.blockSums_row (hblocks.trans hon)
        with ⟨parts, wire, trailer, hrow, hparts, htrailer, hlength, hsums⟩
    refine ⟨_, parts, wire, trailer, hblocks.trans hon, hrow, hparts, htrailer, hlength, ?_⟩
    rw [hsums, List.pairwise_map]
    exact (sumPlaces_increasing _).imp fun hlt => by omega
  · rcases hframe.read_blockSum_overwrite (hblocks.trans hon) hplace hlength hne
        with ⟨wire, out, hwire, hread, hfront⟩
    exact hwire ▸ Reported.of_read hframe.writable hframe.declared hread hfront

/-- A frame of three bytes in one block, with both kinds of checksums. -/
def checkedBytes : Bytes :=
  [0x04, 0x22, 0x4d, 0x18, 0x54, 0x40, 0xae, 0x03, 0x00, 0x00, 0x80, 0x01, 0x02, 0x03,
    0xc4, 0x78, 0x9c, 0xf5, 0x00, 0x00, 0x00, 0x00, 0xc4, 0x78, 0x9c, 0xf5]

end

theorem blockSums_checkedBytes : blockSums checkedBytes = [14] := by
  decide +kernel

open Reference in
theorem checkedBytes_calls :
    ∃ started active closed : Compressor, ∃ starting finishing : List LockEvent,
      (Compressor.new .native).start { blockChecksum := true, contentChecksum := true }
          = (started, ⟨.ok (checkedBytes.take 7), starting⟩)
        ∧ started.tries [.update [1, 2, 3]] = (active, [.ok []])
        ∧ active.finish = (closed, ⟨.ok (checkedBytes.drop 7), finishing⟩) :=
  calls_of_values rfl (ok_of_toOption (by decide +kernel)) (ok_of_toOption (by decide +kernel))

open Reference in
theorem madeWith_checkedBytes :
    MadeWith { blockChecksum := true, contentChecksum := true } [1, 2, 3] checkedBytes := by
  rcases checkedBytes_calls with ⟨started, active, closed, _, _, hstart, htries, hfinish⟩
  exact .inParts (by decide) hstart htries hfinish

open Reference in
/-- Both checksums of the frame, one at a time, replaced by zeros. -/
theorem tampering_reported_three_bytes :
    MadeWith { blockChecksum := true, contentChecksum := true } [1, 2, 3] checkedBytes
      ∧ Reported [1, 2, 3] (overwrite checkedBytes 22 [0, 0, 0, 0]) .contentChecksumInvalid
      ∧ Reported [1, 2, 3] (overwrite checkedBytes 14 [0, 0, 0, 0]) .blockChecksumInvalid := by
  rcases tampering_reported madeWith_checkedBytes with ⟨hcontent, hblocks⟩
  exact ⟨madeWith_checkedBytes, hcontent rfl [0, 0, 0, 0] rfl (by decide),
    ((hblocks rfl).2 14 (by simp [blockSums_checkedBytes])).2 [0, 0, 0, 0] rfl (by decide)⟩

open Reference in
/-- A hint of nothing is refused, and chunks can be too long for any memory; then that is reported
instead. -/
theorem tampering_unreported :
    MadeWith { blockChecksum := true, contentChecksum := true } [1, 2, 3] checkedBytes
      ∧ (Codec.decompress .native 0 (overwrite checkedBytes 22 [0, 0, 0, 0])).value
        = .error (.invalid .bufferSize 0)
      ∧ ((Decompressor.new .native).updates
          [⟨overwrite checkedBytes 22 [0, 0, 0, 0], assuredSize⟩]).failure
        = some (.allocation assuredSize) := by
  refine ⟨madeWith_checkedBytes, rfl, ?_⟩
  have hne : overwrite checkedBytes 22 [0, 0, 0, 0] ≠ [] := by decide
  have hpos : assuredSize ≠ 0 := by decide
  simp [Decompressor.updates, Decompressor.update, hne, hpos, Reference.allocate_assuredSize]

end Lz4Frame
