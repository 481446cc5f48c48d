import Lz4Frame.Frame.Encoder
import Lz4Frame.Proofs.Block.RoundTrip
import Lz4Frame.Proofs.Decoder.Cutting
import Lz4Frame.Proofs.Frame.Header

/-!
# The grammar of frames

`Blocks` says what a row of blocks stands for, `Row` which part of it each block stands for, and
`IsFrame` what a whole frame does: a header, the blocks, an end mark and the checksum of the content
if the header promises one.  The format allows more blocks than are ever written, such as empty ones
(`Payloads`), and so more frames (`WellFormed`).  All of them read as their content, and reading
stops right behind them (`WellFormed.read`).
-/

namespace Lz4Frame

open Block Decoder

/-! ## Blocks -/

/-- The history that a block sees behind some content. -/
def Header.history (header : Header) (content : Bytes) : Array UInt8 :=
  if header.linked then content.toArray else #[]

/-- A row of blocks behind the content `before`: what it stands for, and how it is written. -/
inductive Blocks (header : Header) : (before content wire : Bytes) → Prop
  | nil {before : Bytes} : Blocks header before [] []
  | cons {before block content wire : Bytes} {payload : Payload} (ne_nil : block ≠ [])
      (length_le : block.length ≤ header.blockSize.bytes)
      (holds : payload.Holds (header.history before) header.blockSize.bytes block)
      (rest : Blocks header (before ++ block) content wire) :
      Blocks header before (block ++ content) (payload.encode header.blockChecksum ++ wire)

/-- The same row, with the parts of the content that its blocks stand for, one by one. -/
inductive Row (header : Header) : (before : Bytes) → (parts : List Bytes) → (wire : Bytes) → Prop
  | nil {before : Bytes} : Row header before [] []
  | cons {before part wire : Bytes} {parts : List Bytes} {payload : Payload} (ne_nil : part ≠ [])
      (length_le : part.length ≤ header.blockSize.bytes)
      (holds : payload.Holds (header.history before) header.blockSize.bytes part)
      (rest : Row header (before ++ part) parts wire) :
      Row header before (part :: parts) (payload.encode header.blockChecksum ++ wire)

theorem Row.blocks {header : Header} {before wire : Bytes} {parts : List Bytes} :
    Row header before parts wire → Blocks header before parts.flatten wire := by
  intro h
  induction h with
  | nil => exact .nil
  | cons ne_nil length_le holds _ ih => exact .cons ne_nil length_le holds ih

theorem Blocks.row {header : Header} {before content wire : Bytes} :
    Blocks header before content wire →
      ∃ parts, content = parts.flatten ∧ Row header before parts wire := by
  intro h
  induction h with
  | nil => exact ⟨[], rfl, .nil⟩
  | @cons before part _ _ _ ne_nil length_le holds _ ih =>
      rcases ih with ⟨parts, rfl, hrow⟩
      exact ⟨part :: parts, rfl, .cons ne_nil length_le holds hrow⟩

theorem Row.single {header : Header} {before part : Bytes} {payload : Payload}
    (ne_nil : part ≠ []) (length_le : part.length ≤ header.blockSize.bytes) :
    payload.Holds (header.history before) header.blockSize.bytes part →
      Row header before [part] (payload.encode header.blockChecksum) := by
  intro holds
  simpa using Row.cons ne_nil length_le holds .nil

theorem Blocks.single {header : Header} {before block : Bytes} {payload : Payload}
    (ne_nil : block ≠ []) (length_le : block.length ≤ header.blockSize.bytes) :
    payload.Holds (header.history before) header.blockSize.bytes block →
      Blocks header before block (payload.encode header.blockChecksum) := by
  intro holds
  simpa using (Row.single ne_nil length_le holds).blocks

theorem Row.append {header : Header} {before wire wire' : Bytes} {first second : List Bytes} :
    Row header before first wire → Row header (before ++ first.flatten) second wire' →
      Row header before (first ++ second) (wire ++ wire') := by
  intro h h'
  induction h with
  | nil => simpa using h'
  | cons ne_nil length_le holds _ ih =>
      rw [List.append_assoc]
      exact .cons ne_nil length_le holds (ih (by simpa using h'))

/-- A row of blocks is empty, or it has a last block. -/
theorem Blocks.nil_or_last {header : Header} {before content wire : Bytes} :
    Blocks header before content wire →
      content = [] ∧ wire = []
        ∨ ∃ front block frontWire payload, content = front ++ block
          ∧ wire = frontWire ++ Payload.encode payload header.blockChecksum
          ∧ Blocks header before front frontWire ∧ block ≠ []
          ∧ block.length ≤ header.blockSize.bytes
          ∧ payload.Holds (header.history (before ++ front)) header.blockSize.bytes block := by
  intro h
  induction h with
  | nil => exact .inl ⟨rfl, rfl⟩
  | @cons before block content wire payload ne_nil length_le holds _ ih =>
      rcases ih with ⟨rfl, rfl⟩
        | ⟨front, last, frontWire, payload', rfl, rfl, hfront, ne_nil', length_le', holds'⟩
      · exact .inr ⟨[], block, [], payload, by simp, by simp, .nil, ne_nil, length_le,
          by simpa using holds⟩
      · refine .inr ⟨block ++ front, last, _, payload', by simp, by rw [List.append_assoc],
          .cons ne_nil length_le holds hfront, ne_nil', length_le', ?_⟩
        rwa [List.append_assoc] at holds'

/-- A block in a frame has its size word at least. -/
theorem Block.Payload.four_le_length_encode (payload : Payload) (withChecksum : Bool) :
    4 ≤ (payload.encode withChecksum).length := by
  cases payload <;> simp [encode, SizeWord.encode]

/-- Every block has a size word, so a row of blocks cannot be much shorter than its content. -/
theorem Blocks.length_le {header : Header} {before content wire : Bytes} :
    Blocks header before content wire →
      4 * content.length ≤ header.blockSize.bytes * wire.length := by
  intro h
  -- on the row; the size word alone has four bytes
  induction h with
  | nil => exact Nat.zero_le _
  | @cons before block content wire payload _ length_le _ _ ih =>
      have hword := payload.four_le_length_encode header.blockChecksum
      rw [List.length_append, List.length_append, Nat.mul_add, Nat.mul_add]
      refine Nat.add_le_add ?_ ih
      calc 4 * block.length ≤ 4 * header.blockSize.bytes := Nat.mul_le_mul_left 4 length_le
        _ = header.blockSize.bytes * 4 := Nat.mul_comm ..
        _ ≤ header.blockSize.bytes * (payload.encode header.blockChecksum).length :=
            Nat.mul_le_mul_left _ hword

/-- A block takes no more than its content and what stands in front of and behind it. -/
theorem Block.Payload.Holds.length_encode_le {history : Array UInt8} {capacity : Nat}
    {payload : Payload} {block : Bytes} (h : payload.Holds history capacity block)
    (withChecksum : Bool) :
    (payload.encode withChecksum).length ≤ (if withChecksum then 8 else 4) + block.length := by
  have hsum (bytes : Bytes) : (if withChecksum then Xxh32.field (Xxh32.of bytes) else []).length + 4
      = if withChecksum then 8 else 4 := by
    split <;> simp
  cases payload with
  | stored bytes =>
      obtain rfl : bytes = block := h
      have := hsum bytes
      simp only [Payload.encode, SizeWord.encode, List.length_append, LittleEndian.length_encode]
      omega
  | compressed bytes =>
      have := hsum bytes
      have := h.2
      simp only [Payload.encode, SizeWord.encode, List.length_append, LittleEndian.length_encode]
      omega

/-- No block is empty, so what stands around payloads is no more than eight times the content. -/
theorem Blocks.wire_length_le {header : Header} {before content wire : Bytes} :
    Blocks header before content wire → wire.length ≤ 9 * content.length := by
  intro h
  induction h with
  | nil => exact Nat.zero_le _
  | @cons before block content wire payload ne_nil _ holds _ ih =>
      have hpos := List.length_pos_iff.mpr ne_nil
      have hencode := holds.length_encode_le header.blockChecksum
      rw [List.length_append, List.length_append]
      split at hencode <;> omega

/-- Any content can be written, in blocks of one byte. -/
theorem Blocks.bytewise (header : Header) (before content : Bytes) :
    ∃ wire, Blocks header before content wire := by
  induction content generalizing before with
  | nil => exact ⟨[], .nil⟩
  | cons byte content ih =>
      rcases ih (before ++ [byte]) with ⟨wire, hwire⟩
      refine ⟨(Payload.stored [byte]).encode header.blockChecksum ++ wire, ?_⟩
      have hone : [byte] ≠ [] := by simp
      exact .cons hone header.blockSize.bytes_pos rfl hwire

/-! ## What the format allows -/

/-- What the format lets a payload stand for: its own bytes, or what they decode to.  Either may be
nothing, and a compressed payload may be longer than its content, but no payload is longer than a
block. -/
def Block.Payload.Means (history : Array UInt8) (capacity : Nat) (block : Bytes) : Payload → Prop
  | .stored bytes => bytes = block ∧ bytes.length ≤ capacity
  | .compressed bytes =>
      bytes.length ≤ capacity ∧ Block.Decodes history capacity bytes block

/-- A payload that shortens its block, or stores it, is one that the format allows. -/
theorem Block.Payload.Holds.means {history : Array UInt8} {capacity : Nat} {payload : Payload}
    {block : Bytes} (length_le : block.length ≤ capacity) :
    payload.Holds history capacity block → payload.Means history capacity block := by
  intro h
  cases payload with
  | stored bytes =>
      obtain rfl : bytes = block := h
      exact ⟨rfl, length_le⟩
  | compressed bytes => exact ⟨Nat.le_trans (Nat.le_of_lt h.2) length_le, h.1⟩

/-- A row of payloads behind the content `before`: what it stands for, and how it is written. -/
inductive Payloads (header : Header) : (before content wire : Bytes) → Prop
  | nil {before : Bytes} : Payloads header before [] []
  | cons {before block content wire : Bytes} {payload : Payload}
      (means : payload.Means (header.history before) header.blockSize.bytes block)
      (rest : Payloads header (before ++ block) content wire) :
      Payloads header before (block ++ content) (payload.encode header.blockChecksum ++ wire)

theorem Blocks.payloads {header : Header} {before content wire : Bytes} :
    Blocks header before content wire → Payloads header before content wire := by
  intro h
  induction h with
  | nil => exact .nil
  | cons _ length_le holds _ ih => exact .cons (holds.means length_le) ih

/-! ## Fields in one piece -/

namespace Decoder

variable [Platform]

theorem step_beforeBlock (body : Body) {word : Bytes} (hword : word.length = 4) (more : Bytes)
    (used room : Nat) :
    (beforeBlock body).step ⟨word ++ more, used⟩ room
      = afterBlockSize body (LittleEndian.value word) ⟨more, used + 4⟩ room := by
  rcases Partial.fill_empty (show 0 < 4 by decide) (word ++ more) used (by
    simp [hword]) with ⟨_, hfull⟩
  simp only [beforeBlock, step, hfull, List.take_left' hword, List.drop_left' hword]

theorem read_beforeBlock (body : Body) {word : Bytes} (hword : word.length = 4) (more : Bytes)
    (room : Nat) :
    (beforeBlock body).read (word ++ more)
      = (afterBlockSize body (LittleEndian.value word) ⟨more, 0⟩ room).reading [] := by
  rw [read_eq, step_beforeBlock body hword]
  simpa using reading_afterBlockSize body (LittleEndian.value word) more [] _ 0 _ room

/-- The end mark leads behind the last block. -/
theorem step_endMark (body : Body) (more : Bytes) (used room : Nat) :
    (beforeBlock body).step ⟨SizeWord.endMark ++ more, used⟩ room
      = afterBlocks body ⟨more, used + 4⟩ := by
  have hvalue : LittleEndian.value SizeWord.endMark = 0 := rfl
  rw [step_beforeBlock body (show SizeWord.endMark.length = 4 from rfl), hvalue, afterBlockSize,
    if_pos rfl]

theorem read_mark (body : Body) (more : Bytes) :
    (beforeBlock body).read (SizeWord.endMark ++ more)
      = (afterBlocks body ⟨more, 0 + 4⟩).reading [] := by
  rw [read_eq, step_endMark]

theorem step_storedChecksum (body : Body) (sum : UInt32) (more : Bytes) (used room : Nat) :
    (storedChecksum body sum (.empty (by decide))).step ⟨Xxh32.field sum ++ more, used⟩ room
      = nextBlock body ⟨more, used + 4⟩ [] := by
  have hlen := Xxh32.length_field sum
  rcases Partial.fill_empty (show 0 < 4 by decide) (Xxh32.field sum ++ more) used (by
    simp [hlen]) with ⟨_, hfull⟩
  simp [step, hfull, List.take_left' hlen, List.drop_left' hlen]

theorem read_storedChecksum (body : Body) (sum : UInt32) (more : Bytes) :
    (storedChecksum body sum (.empty (by decide))).read (Xxh32.field sum ++ more)
      = (beforeBlock body).read more := by
  rw [read_eq, step_storedChecksum]
  simp [nextBlock, Step.reading]

theorem step_trailer (body : Body) (more : Bytes) (used room : Nat) :
    (trailer body (.empty (by decide))).step ⟨Xxh32.field body.digest.digest ++ more, used⟩ room
      = .stop new ⟨more, used + 4⟩ [] 0 := by
  have hlen := Xxh32.length_field body.digest.digest
  rcases Partial.fill_empty (show 0 < 4 by decide) (Xxh32.field body.digest.digest ++ more) used (by
    simp [hlen]) with ⟨_, hfull⟩
  simp [step, hfull, List.take_left' hlen, List.drop_left' hlen]

theorem read_trailer (body : Body) (more : Bytes) :
    (trailer body (.empty (by decide))).read (Xxh32.field body.digest.digest ++ more)
      = ⟨[], .ended more⟩ := by
  rw [read_eq, step_trailer]
  simp [Step.reading]

theorem step_compressed (body : Body) {length : Nat} (hpos : 0 < length) {bytes : Bytes}
    (hlen : bytes.length = length) (more : Bytes) (used room : Nat) :
    (compressed body (.empty hpos)).step ⟨bytes ++ more, used⟩ room
      = afterCompressed body bytes ⟨more, used + length⟩ := by
  rcases Partial.fill_empty hpos (bytes ++ more) used (by simp [hlen]) with ⟨_, hfull⟩
  simp only [step, hfull, List.take_left' hlen, List.drop_left' hlen]

theorem read_compressed (body : Body) {length : Nat} (hpos : 0 < length) {bytes : Bytes}
    (hlen : bytes.length = length) (more : Bytes) :
    (compressed body (.empty hpos)).read (bytes ++ more)
      = (afterCompressed body bytes ⟨more, 0⟩).reading [] := by
  rw [read_eq, step_compressed body hpos hlen]
  simpa using reading_afterCompressed body bytes more [] _ 0

/-- A stored block that is there as a whole. -/
theorem read_stored (body : Body) (bytes : Bytes) (hpos : 0 < bytes.length) (more : Bytes) :
    (stored body .empty bytes.length hpos).read (bytes ++ more)
      = (afterStored (body.append bytes) (blockSum body .empty bytes) ⟨more, 0⟩ bytes).reading
          [] := by
  have hsize : bytes.length = min bytes.length (bytes ++ more).length := by
    rw [List.length_append]
    omega
  rw [read_stored_eq body .empty hpos rfl hsize, dif_neg (Nat.lt_irrefl _)]
  simpa using reading_afterStored _ _ more [] _ _ 0

/-! ## Headers -/

theorem step_new {bytes : Bytes} (hlen : Header.minLength ≤ bytes.length) (used room : Nat) :
    ∃ size_eq, new.step ⟨bytes, used⟩ room
      = afterOpening (bytes.take Header.minLength).toArray size_eq
          ⟨bytes.drop Header.minLength, used + Header.minLength⟩ := by
  rcases Partial.fill_empty (show 0 < Header.minLength by decide) bytes used hlen
      with ⟨size_eq, hfull⟩
  exact ⟨size_eq, by simp only [new, step, hfull]⟩

/-- The first seven bytes decide how reading goes on. -/
theorem read_new {bytes : Bytes} :
    Header.minLength ≤ bytes.length →
      ∃ size_eq, new.read bytes
        = (afterOpening (bytes.take Header.minLength).toArray size_eq
            ⟨bytes.drop Header.minLength, Header.minLength⟩).reading [] := by
  intro hlen
  rcases step_new hlen 0 (new.ample bytes) with ⟨size_eq, hstep⟩
  rw [Nat.zero_add] at hstep
  exact ⟨size_eq, by rw [read_eq, hstep]⟩

omit [Platform] in
theorem encode_split (header : Header) :
    ∃ piece fields, piece ++ fields = header.encode ∧ piece.length = Header.minLength := by
  have hmin := header.minLength_le
  refine ⟨header.encode.take Header.minLength, _, List.take_append_drop .., ?_⟩
  rw [List.length_take]
  omega

/-- Behind its first seven bytes a header goes on, or it is complete. -/
theorem step_header {header : Header} (writable : header.Writable) {piece fields : Bytes}
    (joined : piece ++ fields = header.encode) (hlen : piece.length = Header.minLength)
    (more : Bytes) (used room : Nat) :
    (∃ size_lt, fields.length = header.encode.length - piece.toArray.size
        ∧ new.step ⟨piece ++ more, used⟩ room
          = .go (@longHeader header.encode.length ⟨piece.toArray, size_lt⟩)
            ⟨more, used + Header.minLength⟩ [])
      ∨ fields = [] ∧ new.step ⟨piece ++ more, used⟩ room
        = nextBlock (.ofHeader header) ⟨more, used + Header.minLength⟩ [] := by
  have hlong : Header.minLength ≤ (piece ++ more).length := by
    rw [List.length_append]
    omega
  have htake : header.encode.take Header.minLength = piece := by
    rw [← joined, List.take_left' hlen]
  have hopening : Header.opening piece = .ok (.frame header.encode.length) := by
    rw [← htake, Header.opening_take (by decide)]
    simpa using header.opening_encode []
  have hsize : header.encode.length = piece.toArray.size + fields.length := by
    rw [← joined, List.length_append, List.size_toArray]
  rcases step_new hlong used room with ⟨size_eq, hstep⟩
  simp only [List.take_left' hlen, List.drop_left' hlen] at size_eq hstep
  simp only [hstep, afterOpening, hopening]
  by_cases hgoes : piece.toArray.size < header.encode.length
  · exact .inl ⟨hgoes, by omega, dif_pos hgoes⟩
  · obtain rfl : fields = [] := List.eq_nil_of_length_eq_zero (by omega)
    rw [List.append_nil] at joined
    rw [dif_neg hgoes]
    exact .inr ⟨rfl, by simp only [joined, afterHeader, Header.decode_encode writable]⟩

/-- The fields behind the first seven bytes complete the header. -/
theorem step_longHeader {header : Header} {length : Nat} {held : Partial length} {fields : Bytes}
    (writable : header.Writable) (joined : held.bytes.toList ++ fields = header.encode)
    (fields_length : fields.length = held.missing) (more : Bytes) (used room : Nat) :
    (longHeader held).step ⟨fields ++ more, used⟩ room
      = nextBlock (.ofHeader header) ⟨more, used + held.missing⟩ [] := by
  rcases held.fill_of_le (fields ++ more) used (by simp [fields_length]) with ⟨_, hfull⟩
  simp only [step, hfull, Array.toList_appendList, List.take_left' fields_length,
    List.drop_left' fields_length, joined, afterHeader, Header.decode_encode writable]

/-- A frame whose opening is accepted and whose header is there as a whole. -/
theorem read_new_frame {bytes : Bytes} {length : Nat}
    (hopening : Header.opening bytes = .ok (.frame length)) (hmin : Header.minLength ≤ length)
    (hlen : length ≤ bytes.length) :
    new.read bytes
      = (afterHeader (bytes.take length) ⟨bytes.drop length, 0⟩).reading [] := by
  rcases read_new (Nat.le_trans hmin hlen) with ⟨size_eq, hread⟩
  simp only [afterOpening, Header.opening_take (show 5 ≤ Header.minLength by decide), hopening]
    at hread
  rw [hread]
  by_cases hlong : Header.minLength < length
  · -- the header goes on behind its first seven bytes
    have hshort : (bytes.take Header.minLength).toArray.size < length := by rwa [size_eq]
    rcases Partial.fill_of_le ⟨(bytes.take Header.minLength).toArray, hshort⟩
      (bytes.drop Header.minLength) 0 (by
        rw [Partial.missing, size_eq, List.length_drop]
        omega) with ⟨_, hfull⟩
    have htake : bytes.take Header.minLength
        ++ (bytes.drop Header.minLength).take (length - Header.minLength) = bytes.take length := by
      rw [← List.take_add, Nat.add_sub_cancel' hmin]
    have hdrop : (bytes.drop Header.minLength).drop (length - Header.minLength)
        = bytes.drop length := by
      rw [List.drop_drop, Nat.add_sub_cancel' hmin]
    rw [dif_pos hshort]
    simp only [reading_go, List.append_nil, Reading.prepend_nil]
    rw [read_eq]
    simp only [step, hfull, Partial.missing, size_eq, Array.toList_appendList, htake, hdrop]
    simpa using reading_afterHeader (bytes.take length) (bytes.drop length) [] _ 0
  · obtain rfl : length = Header.minLength := by omega
    have hshort : ¬ (bytes.take Header.minLength).toArray.size < Header.minLength := by
      rw [size_eq]
      exact hlong
    rw [dif_neg hshort]
    simpa using reading_afterHeader (bytes.take Header.minLength) (bytes.drop Header.minLength) []
      _ 0

/-- A header reads as itself. -/
theorem read_header {header : Header} (h : header.Writable) (more : Bytes) :
    new.read (header.encode ++ more) = (beforeBlock (.ofHeader header)).read more := by
  rw [read_new_frame (header.opening_encode more) header.minLength_le (by
    rw [List.length_append]
    omega), List.take_left, List.drop_left, afterHeader, Header.decode_encode h]
  simp [nextBlock, Step.reading]

/-! ## Blocks -/

omit [Platform] in
theorem bytes_lt_storedMark (size : BlockSize) : size.bytes < SizeWord.storedMark := by
  cases size <;> decide

omit [Platform] in
theorem length_sizeWord (word : SizeWord) : word.encode.length = 4 :=
  LittleEndian.length_encode ..

omit [Platform] in
theorem value_sizeWord {word : SizeWord} :
    word.size < SizeWord.storedMark → LittleEndian.value word.encode = word.number := by
  intro h
  have hlt : word.number < LittleEndian.modulus 4 := by
    unfold SizeWord.storedMark at h
    unfold SizeWord.number SizeWord.storedMark
    simp only [LittleEndian.modulus]
    split <;> omega
  rw [SizeWord.encode, LittleEndian.value_encode, Nat.mod_eq_of_lt hlt]

/-- Behind the size word of a stored block its bytes are taken as they come. -/
theorem step_storedWord (body : Body) {length : Nat} (hpos : 0 < length)
    (length_le : length ≤ body.header.blockSize.bytes) (more : Bytes) (used room : Nat) :
    (beforeBlock body).step ⟨(SizeWord.mk true length).encode ++ more, used⟩ room
      = .go (.stored body .empty length hpos) ⟨more, used + 4⟩ [] := by
  have hmark := bytes_lt_storedMark body.header.blockSize
  have hsize : (SizeWord.mk true length).size < SizeWord.storedMark := by
    show length < _
    omega
  have hne : (SizeWord.mk true length).number ≠ 0 := by
    simp [SizeWord.number, SizeWord.storedMark]
  rw [step_beforeBlock body (length_sizeWord _), value_sizeWord hsize]
  simp only [afterBlockSize, SizeWord.ofNumber_number hsize, hne, ↓reduceIte,
    Nat.not_lt.mpr length_le, Nat.ne_of_gt hpos, ↓reduceDIte]

/-- Behind the size word of a compressed block all of it is waited for, in a run of its own if room
or input has run out. -/
theorem step_compressedWord (body : Body) {length : Nat} (hpos : 0 < length)
    (length_le : length ≤ body.header.blockSize.bytes) (more : Bytes) (used room : Nat) :
    (beforeBlock body).step ⟨(SizeWord.mk false length).encode ++ more, used⟩ room
      = if room = 0 ∨ more.isEmpty then
          .stop (.compressed body (.empty (Nat.add_pos_left hpos body.checksumLength)))
            ⟨more, used + 4⟩ [] (4 + (length + body.checksumLength))
        else
          .go (.compressed body (.empty (Nat.add_pos_left hpos body.checksumLength)))
            ⟨more, used + 4⟩ [] := by
  have hmark := bytes_lt_storedMark body.header.blockSize
  have hsize : (SizeWord.mk false length).size < SizeWord.storedMark := by
    show length < _
    omega
  have hne : (SizeWord.mk false length).number ≠ 0 := Nat.ne_of_gt hpos
  have hword := SizeWord.ofNumber_number hsize
  rw [step_beforeBlock body (length_sizeWord _), value_sizeWord hsize]
  generalize (SizeWord.mk false length).number = number at hne hword ⊢
  have hstored : (SizeWord.ofNumber number).stored = false := by rw [hword]
  obtain rfl : (SizeWord.ofNumber number).size = length := by rw [hword]
  simp only [afterBlockSize, hne, ↓reduceIte, Nat.not_lt.mpr length_le, Nat.ne_of_gt hpos,
    ↓reduceDIte, hstored, Bool.false_eq_true]

theorem read_storedWord (body : Body) {length : Nat} (hpos : 0 < length)
    (length_le : length ≤ body.header.blockSize.bytes) (more : Bytes) :
    (beforeBlock body).read ((SizeWord.mk true length).encode ++ more)
      = (stored body .empty length hpos).read more := by
  rw [read_eq, step_storedWord body hpos length_le]
  simp

theorem read_compressedWord (body : Body) {length : Nat} (hpos : 0 < length)
    (length_le : length ≤ body.header.blockSize.bytes) {more : Bytes} (hmore : more ≠ []) :
    (beforeBlock body).read ((SizeWord.mk false length).encode ++ more)
      = (compressed body (.empty (Nat.add_pos_left hpos body.checksumLength))).read more := by
  have hroomy (input : Bytes) :
      ¬ ((beforeBlock body).ample input = 0 ∨ more.isEmpty = true) := by
    simp [hmore, ample]
  rw [read_eq, step_compressedWord body hpos length_le, if_neg (hroomy _)]
  simp

/-- A stored block with a checksum is handed out before its checksum is seen. -/
theorem read_stored_summed {body : Body} (hon : body.header.blockChecksum = true) (bytes : Bytes)
    (hpos : 0 < bytes.length) (more : Bytes) :
    (stored body .empty bytes.length hpos).read (bytes ++ more)
      = ((storedChecksum (body.append bytes) (Xxh32.of bytes) (.empty (by decide))).read
          more).prepend bytes := by
  have hsum : (blockSum body .empty bytes).digest = Xxh32.of bytes := by
    rw [blockSum, if_pos hon]
    rfl
  rw [read_stored body bytes hpos, afterStored, header_append, if_pos hon, hsum]
  simp

/-- The checksum behind the payload of a block. -/
def blockField (body : Body) (bytes : Bytes) : Bytes :=
  if body.header.blockChecksum then Xxh32.field (Xxh32.of bytes) else []

omit [Platform] in
theorem length_blockField (body : Body) (bytes : Bytes) :
    (blockField body bytes).length = body.checksumLength := by
  unfold blockField Body.checksumLength
  cases body.header.blockChecksum <;> simp

omit [Platform] in
theorem length_withField (body : Body) (bytes : Bytes) :
    (bytes ++ blockField body bytes).length = bytes.length + body.checksumLength := by
  rw [List.length_append, length_blockField]

omit [Platform] in
theorem encode_stored (body : Body) (bytes more : Bytes) :
    (Payload.stored bytes).encode body.header.blockChecksum ++ more
      = (SizeWord.mk true bytes.length).encode ++ (bytes ++ (blockField body bytes ++ more)) := by
  simp only [Payload.encode, blockField, List.append_assoc]

omit [Platform] in
theorem encode_compressed (body : Body) (bytes more : Bytes) :
    (Payload.compressed bytes).encode body.header.blockChecksum ++ more
      = (SizeWord.mk false bytes.length).encode ++ (bytes ++ blockField body bytes ++ more) := by
  simp only [Payload.encode, blockField, List.append_assoc]

/-- A stored block without bytes is passed over. -/
theorem read_emptyBlock (body : Body) (more : Bytes) :
    (beforeBlock body).read ((Payload.stored []).encode body.header.blockChecksum ++ more)
      = (beforeBlock body).read more := by
  have hsize : (SizeWord.mk true 0).size < SizeWord.storedMark := by decide
  have hne : (SizeWord.mk true 0).number ≠ 0 := by decide
  rw [encode_stored, List.length_nil, read_beforeBlock body (length_sizeWord _) _ 0,
    value_sizeWord hsize]
  simp only [afterBlockSize, hne, SizeWord.ofNumber_number hsize, Nat.not_lt_zero, ↓reduceIte,
    ↓reduceDIte, afterStored, blockField, List.nil_append]
  cases body.header.blockChecksum with
  | false => simp [nextBlock, Step.reading]
  | true =>
      simp only [↓reduceIte, Step.reading, List.append_nil, Reading.prepend_nil]
      rw [show Xxh32.empty.digest = Xxh32.of [] from rfl, read_storedChecksum]

/-- A stored block reads as its bytes. -/
theorem read_storedBlock {body : Body} {bytes : Bytes}
    (length_le : bytes.length ≤ body.header.blockSize.bytes) (more : Bytes) :
    (beforeBlock body).read ((Payload.stored bytes).encode body.header.blockChecksum ++ more)
      = ((beforeBlock (body.append bytes)).read more).prepend bytes := by
  by_cases hnone : bytes = []
  · rw [hnone, read_emptyBlock, append_nil, Reading.prepend_nil]
  · have hpos := List.length_pos_iff.mpr hnone
    rw [encode_stored, read_storedWord body hpos length_le, blockField]
    cases hon : body.header.blockChecksum with
    | false =>
        rw [read_stored body bytes hpos, afterStored, header_append, hon]
        simp [nextBlock, Step.reading]
    | true => rw [if_pos rfl, read_stored_summed hon, read_storedChecksum]

/-- The content of a compressed block, and the place behind it. -/
theorem expand?_holds {body : Body} {before block bytes : Bytes}
    (hhistory : body.history = body.header.history before)
    (h : Block.Decodes (body.header.history before) body.header.blockSize.bytes bytes block) :
    body.expand? bytes = some (body.append block, block) := by
  have hcontent : ((body.history ++ block).extract body.history.size
      (body.history ++ block).size).toList = block := by
    simp [size_append_list]
  rcases body with ⟨header, remaining, digest, history⟩
  simp only at hhistory h hcontent
  rw [← hhistory] at h
  simp only [Body.expand?, h _, hcontent, Body.append]
  cases hlinked : header.linked with
  | true =>
      have hpush : block.foldl Array.push history = history ++ block := rfl
      simp [Body.account, hlinked, hpush]
  | false =>
      have hnone : history = #[] := by
        rw [hhistory, Header.history, hlinked]
        rfl
      simp [Body.account, hlinked, hnone]

/-- Behind a payload with the right checksum it is decoded. -/
theorem afterCompressed_withField (body : Body) (bytes : Bytes) (input : Input) :
    afterCompressed body (bytes ++ blockField body bytes) input
      = match body.expand? bytes with
        | none => .fail .decompressionFailed
        | some (body, content) =>
            if h : content = [] then nextBlock body input []
            else .go (.pending body content h) input [] := by
  have hlen := length_withField body bytes
  have htake : (bytes ++ blockField body bytes).take
      ((bytes ++ blockField body bytes).length - body.checksumLength) = bytes :=
    List.take_left' (by omega)
  have hdrop : (bytes ++ blockField body bytes).drop
      ((bytes ++ blockField body bytes).length - body.checksumLength) = blockField body bytes :=
    List.drop_left' (by omega)
  have hgood : ¬ (body.header.blockChecksum = true
      ∧ blockField body bytes ≠ Xxh32.field (Xxh32.of bytes)) := by
    rintro ⟨hon, hbad⟩
    exact hbad (if_pos hon)
  rw [afterCompressed]
  simp only [htake, hdrop]
  exact if_neg hgood

/-- Payload and checksum, which are one field, turn into what the payload decodes to. -/
theorem afterCompressed_field {body : Body} {before block bytes : Bytes}
    (hhistory : body.history = body.header.history before)
    (hdecode : Block.Decodes (body.header.history before) body.header.blockSize.bytes bytes
      block) (input : Input) :
    afterCompressed body (bytes ++ blockField body bytes) input
      = if ne_nil : block = [] then nextBlock (body.append block) input []
        else .go (.pending (body.append block) block ne_nil) input [] := by
  rw [afterCompressed_withField, expand?_holds hhistory hdecode]

theorem afterCompressed_block {body : Body} {before block bytes : Bytes}
    (hhistory : body.history = body.header.history before) (ne_nil : block ≠ [])
    (hdecode : Block.Decodes (body.header.history before) body.header.blockSize.bytes bytes
      block) (input : Input) :
    afterCompressed body (bytes ++ blockField body bytes) input
      = .go (.pending (body.append block) block ne_nil) input [] := by
  rw [afterCompressed_field hhistory hdecode, dif_neg ne_nil]

omit [Platform] in
/-- What decodes to anything, be it to nothing, has bytes. -/
theorem length_decoded {history : Array UInt8} {capacity : Nat} {bytes content : Bytes} :
    Block.Decodes history capacity bytes content → 0 < bytes.length := by
  intro hdecodes
  have hdecode := hdecodes .adjoining
  rw [List.length_pos_iff]
  rintro rfl
  simp [Block.decode, readSequences] at hdecode

omit [Platform] in
/-- A compressed payload that stands for anything is not empty, and it fits in a block. -/
theorem length_compressed {history : Array UInt8} {capacity : Nat} {bytes block : Bytes} :
    (Payload.compressed bytes).Holds history capacity block → block.length ≤ capacity →
      0 < bytes.length ∧ bytes.length ≤ capacity := by
  rintro ⟨hdecode, hshorter⟩ hle
  exact ⟨length_decoded hdecode, by omega⟩

/-- A compressed block is read as a whole, whatever becomes of it. -/
theorem read_compressedPayload {body : Body} {bytes : Bytes} (hpos : 0 < bytes.length)
    (hfits : bytes.length ≤ body.header.blockSize.bytes) (more : Bytes) :
    (beforeBlock body).read ((Payload.compressed bytes).encode body.header.blockChecksum ++ more)
      = (afterCompressed body (bytes ++ blockField body bytes) ⟨more, 0⟩).reading [] := by
  have hlen := length_withField body bytes
  have hmore : bytes ++ blockField body bytes ++ more ≠ [] := by
    simp [List.ne_nil_of_length_pos hpos]
  rw [encode_compressed, read_compressedWord body hpos hfits hmore,
    read_compressed body _ hlen more]

/-- A compressed block reads as what it decodes to. -/
theorem read_compressedBlock {body : Body} {before block bytes : Bytes}
    (hhistory : body.history = body.header.history before)
    (hfits : bytes.length ≤ body.header.blockSize.bytes)
    (hdecode : Block.Decodes (body.header.history before) body.header.blockSize.bytes bytes
      block) (more : Bytes) :
    (beforeBlock body).read ((Payload.compressed bytes).encode body.header.blockChecksum ++ more)
      = ((beforeBlock (body.append block)).read more).prepend block := by
  rw [read_compressedPayload (length_decoded hdecode) hfits, afterCompressed_field hhistory hdecode]
  by_cases hnone : block = []
  · simp [hnone, nextBlock, Step.reading]
  · rw [dif_neg hnone]
    simpa using read_pending ..

omit [Platform] in
/-- Content that is taken becomes history. -/
theorem history_append {body : Body} {before : Bytes}
    (hhistory : body.history = body.header.history before) (block : Bytes) :
    (body.append block).history = (body.append block).header.history (before ++ block) := by
  rw [header_append]
  unfold Body.append
  simp only [header_account, history_account, hhistory]
  cases hlinked : body.header.linked with
  | false => simp [Header.history, hlinked, hhistory]
  | true => simp [Header.history, hlinked]

/-- A payload reads as what it means. -/
theorem read_payload {body : Body} {before block : Bytes} {payload : Payload}
    (hhistory : body.history = body.header.history before)
    (means : payload.Means (body.header.history before) body.header.blockSize.bytes block)
    (more : Bytes) :
    (beforeBlock body).read (payload.encode body.header.blockChecksum ++ more)
      = ((beforeBlock (body.append block)).read more).prepend block := by
  cases payload with
  | stored bytes =>
      obtain rfl : bytes = block := means.1
      exact read_storedBlock means.2 _
  | compressed bytes => exact read_compressedBlock hhistory means.1 means.2 _

/-- A row of payloads reads as its content. -/
theorem read_payloads {header : Header} {before content wire : Bytes}
    (h : Payloads header before content wire) {body : Body} (hheader : body.header = header)
    (hhistory : body.history = header.history before) (more : Bytes) :
    (beforeBlock body).read (wire ++ more)
      = ((beforeBlock (body.append content)).read more).prepend content := by
  -- on the row; each block becomes history for the blocks behind it
  induction h generalizing body with
  | nil => simp
  | @cons before block content wire payload means _ ih =>
      subst hheader
      have hhistory' : (body.append block).history = body.header.history (before ++ block) := by
        rw [history_append hhistory, header_append]
      rw [List.append_assoc, read_payload hhistory means, ih (header_append ..) hhistory',
        append_append]
      simp

omit [Platform] in
theorem history_ofHeader (header : Header) :
    (Body.ofHeader header).history = header.history [] := by
  simp [Body.ofHeader, Header.history]

/-- A header and blocks read as what the blocks stand for, and reading goes on before a block. -/
theorem read_front {header : Header} (hwritable : header.Writable) {content blocks : Bytes}
    (h : Payloads header [] content blocks) (more : Bytes) :
    new.read (header.encode ++ (blocks ++ more))
      = ((beforeBlock ((Body.ofHeader header).append content)).read more).prepend content := by
  rw [read_header hwritable, read_payloads h rfl (history_ofHeader header)]

/-- Without an end mark a frame reads as its content so far, and reading waits for a block. -/
theorem read_unfinished {header : Header} (hwritable : header.Writable) {content blocks : Bytes}
    (h : Blocks header [] content blocks) :
    new.read (header.encode ++ blocks)
      = ⟨content, .waiting (beforeBlock ((Body.ofHeader header).append content))⟩ := by
  have hwaits : (beforeBlock ((Body.ofHeader header).append content)).Waits := trivial
  rw [← List.append_nil blocks, read_front hwritable h.payloads, read_nil hwaits rfl]
  simp [Reading.prepend]

end Decoder

/-! ## Whole frames -/

/-- What a frame with this header is made of: the header, blocks, the end mark and, if the header
promises it, the checksum of the content. -/
structure IsFrame (header : Header) (content frame : Bytes) : Prop where
  writable : header.Writable
  /-- A declared length is the content's; 0 declares nothing. -/
  declared : header.contentSize.getD 0 = 0 ∨ header.contentSize = some content.length
  parts : ∃ blocks, Blocks header [] content blocks
    ∧ frame = header.encode ++ blocks ++ SizeWord.endMark
      ++ (if header.contentChecksum then Xxh32.field (Xxh32.of content) else [])

/-- What the format takes for a frame with this header: the same parts around any blocks that it
allows. -/
structure WellFormed (header : Header) (content frame : Bytes) : Prop where
  writable : header.Writable
  /-- A declared length is the content's; 0 declares nothing. -/
  declared : header.contentSize.getD 0 = 0 ∨ header.contentSize = some content.length
  parts : ∃ blocks, Payloads header [] content blocks
    ∧ frame = header.encode ++ blocks ++ SizeWord.endMark
      ++ (if header.contentChecksum then Xxh32.field (Xxh32.of content) else [])

theorem IsFrame.wellFormed {header : Header} {content frame : Bytes} :
    IsFrame header content frame → WellFormed header content frame := by
  intro h
  rcases h.parts with ⟨blocks, hblocks, hframe⟩
  exact ⟨h.writable, h.declared, blocks, hblocks.payloads, hframe⟩

/-- A frame has a header and an end mark. -/
theorem IsFrame.length_ge {header : Header} {content frame : Bytes} :
    IsFrame header content frame → Header.minLength + 4 ≤ frame.length := by
  intro h
  rcases h.parts with ⟨blocks, -, rfl⟩
  have hmin := header.minLength_le
  have hmark : SizeWord.endMark.length = 4 := rfl
  simp only [List.length_append, hmark]
  omega

/-- A frame is not much longer than its content. -/
theorem IsFrame.length_le {header : Header} {content frame : Bytes} :
    IsFrame header content frame → frame.length ≤ Header.maxLength + 8 + 9 * content.length := by
  intro h
  rcases h.parts with ⟨blocks, hblocks, rfl⟩
  have hmax := header.encode_length_le
  have hwire := hblocks.wire_length_le
  have hmark : SizeWord.endMark.length = 4 := rfl
  have hsum : (if header.contentChecksum then Xxh32.field (Xxh32.of content) else []).length
      ≤ 4 := by
    split <;> simp
  simp only [List.length_append, hmark]
  omega

namespace Decoder

theorem remaining_append (body : Body) (content : Bytes) :
    (body.append content).remaining
      = if body.header.contentSize.getD 0 = 0 then body.remaining
        else body.remaining - UInt64.ofNat content.length := by
  unfold Body.append Body.account
  simp only
  split <;> rfl

theorem digest_append (body : Body) (content : Bytes) :
    (body.append content).digest
      = if body.header.contentChecksum then body.digest.update content else body.digest := by
  unfold Body.append Body.account
  simp only
  split <;> rfl

end Decoder

variable [Platform]

/-- The end mark, and the checksum if one was promised, end a frame whose declared length has been
counted down to nothing. -/
theorem Decoder.read_endMark {body : Body} (hnone : body.remaining = 0) (more : Bytes) :
    (beforeBlock body).read (SizeWord.endMark
      ++ ((if body.header.contentChecksum then Xxh32.field body.digest.digest else []) ++ more))
      = ⟨[], .ended more⟩ := by
  rw [read_mark, afterBlocks, if_neg (not_not_intro hnone)]
  cases hsum : body.header.contentChecksum with
  | false => simp [Step.reading]
  | true =>
      simp only [↓reduceIte, reading_go, List.append_nil, Reading.prepend_nil]
      exact read_trailer body more

omit [Platform] in
/-- The content of a frame has the length and the checksum that the frame promises. -/
theorem WellFormed.kept {header : Header} {content frame : Bytes}
    (h : WellFormed header content frame) :
    ((Body.ofHeader header).append content).remaining = 0
      ∧ (if header.contentChecksum then Xxh32.field (Xxh32.of content) else [])
        = if header.contentChecksum then
            Xxh32.field ((Body.ofHeader header).append content).digest.digest else [] := by
  constructor
  · rw [remaining_append]
    rcases h.declared with hzero | hsize
    · simp [Body.ofHeader, hzero]
    · split <;> simp_all [Body.ofHeader]
  · cases hon : header.contentChecksum with
    | false => simp
    | true => simp [digest_append, Body.ofHeader, hon, Xxh32.of]

/-- A frame of the format reads as its content, and reading stops right behind it. -/
theorem WellFormed.read {header : Header} {content frame : Bytes}
    (h : WellFormed header content frame) (more : Bytes) :
    Decoder.new.read (frame ++ more) = ⟨content, .ended more⟩ := by
  rcases h.parts with ⟨blocks, hblocks, rfl⟩
  rcases h.kept with ⟨hnone, hsum⟩
  generalize hbody : (Body.ofHeader header).append content = body at hnone hsum
  have hheader : body.header = header := by
    rw [← hbody, header_append]
    rfl
  rw [hsum, List.append_assoc, List.append_assoc, List.append_assoc, ← hheader]
  generalize hrest : SizeWord.endMark ++ ((if body.header.contentChecksum then
    Xxh32.field body.digest.digest else []) ++ more) = rest
  calc
    Decoder.new.read (body.header.encode ++ (blocks ++ rest))
        = ((beforeBlock body).read rest).prepend content := by
        rw [hheader, read_front h.writable hblocks, hbody]
    _ = Reading.prepend content ⟨[], .ended more⟩ := by rw [← hrest, read_endMark hnone]
    _ = ⟨content, .ended more⟩ := by simp [Reading.prepend]

/-- A frame reads as its content, and reading stops right behind it. -/
theorem IsFrame.read {header : Header} {content frame : Bytes} (h : IsFrame header content frame)
    (more : Bytes) : Decoder.new.read (frame ++ more) = ⟨content, .ended more⟩ :=
  h.wellFormed.read more

end Lz4Frame
