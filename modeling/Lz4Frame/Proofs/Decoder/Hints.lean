import Lz4Frame.Proofs.Decoder.Runs
import Lz4Frame.Proofs.Frame.Grammar

/-!
# What a decoder asks for

Every hint names bytes that the frame still has: a caller who hands over exactly as many bytes as
the decoder has asked for each time never goes beyond the end of the frame.  A decoder that is
served in this way stands in front of a field whenever it is asked, mostly right behind a size word,
and what it asks for is that field and the size word behind it (`Due`).  Given what is due, and room
for one block, it uses all of it, and either the frame has ended or something is due again
(`Due.run`).
-/

namespace Lz4Frame

open Block Decoder

/-! ## What is left of a frame -/

/-- The end of a frame from a block on: the content that it stands for, and how it is written. -/
inductive Remainder : Body → (content wire : Bytes) → Prop
  | last {body : Body} (none_left : body.remaining = 0) :
      Remainder body [] (SizeWord.endMark
        ++ (if body.header.contentChecksum then Xxh32.field body.digest.digest else []))
  | block {body : Body} {before block content wire : Bytes} {payload : Payload}
      (history_eq : body.history = body.header.history before) (ne_nil : block ≠ [])
      (length_le : block.length ≤ body.header.blockSize.bytes)
      (holds : payload.Holds (body.header.history before) body.header.blockSize.bytes block)
      (next : Remainder (body.append block) content wire) :
      Remainder body (block ++ content) (payload.encode body.header.blockChecksum ++ wire)

/-- Blocks, and what is left behind them. -/
theorem Blocks.remainder {header : Header} {before content wire rest : Bytes}
    (h : Blocks header before content wire) {body : Body} (hheader : body.header = header)
    (hhistory : body.history = header.history before) :
    Remainder (body.append content) [] rest → Remainder body content (wire ++ rest) := by
  intro hrest
  -- on the row; each block becomes history for the blocks behind it
  induction h generalizing body with
  | nil => simpa using hrest
  | @cons before block content wire payload ne_nil length_le holds _ ih =>
      subst hheader
      have hnext : Remainder (body.append block) content (wire ++ rest) := by
        refine ih (by simp) ?_ (by rwa [append_append] at hrest)
        simpa using history_append hhistory block
      rw [List.append_assoc]
      exact .block hhistory ne_nil length_le holds hnext

/-- Behind its header a frame has all of its content left. -/
theorem IsFrame.remainder {header : Header} {content frame : Bytes}
    (h : IsFrame header content frame) :
    ∃ wire, frame = header.encode ++ wire ∧ Remainder (.ofHeader header) content wire := by
  rcases h.parts with ⟨blocks, hblocks, hframe⟩
  rcases h.wellFormed.kept with ⟨hnone, hsum⟩
  have hlast := Remainder.last hnone
  rw [header_append, show (Body.ofHeader header).header = header from rfl, ← hsum] at hlast
  refine ⟨_, ?_, hblocks.remainder rfl (history_ofHeader header) hlast⟩
  rw [hframe]
  simp only [List.append_assoc]

/-! ## What is due -/

/-- A decoder in front of a field, with its hint, the content that has not come out yet, and how the
rest of the frame is written. -/
inductive Due (header : Header) : Decoder → (hint : Nat) → (content wire : Bytes) → Prop
  /-- In front of a frame. -/
  | opening {content wire : Bytes} (writable : header.Writable)
      (left : Remainder (.ofHeader header) content wire) :
      Due header .new Header.minLength content (header.encode ++ wire)
  /-- Behind the first seven bytes of a longer header. -/
  | longHeader {length : Nat} {held : Partial length} {fields content wire : Bytes}
      (writable : header.Writable) (joined : held.bytes.toList ++ fields = header.encode)
      (fields_length : fields.length = held.missing)
      (left : Remainder (.ofHeader header) content wire) :
      Due header (.longHeader held) (held.missing + 4) content (fields ++ wire)
  /-- In front of a size word, which only a short header is. -/
  | word {body : Body} {content wire : Bytes} (header_eq : body.header = header)
      (left : Remainder body content wire) :
      Due header (beforeBlock body) 4 content wire
  /-- Behind the size word of a stored block. -/
  | stored {body : Body} {bytes content wire : Bytes} (header_eq : body.header = header)
      (pos : 0 < bytes.length) (length_le : bytes.length ≤ header.blockSize.bytes)
      (left : Remainder (body.append bytes) content wire) :
      Due header (.stored body .empty bytes.length pos) (bytes.length + body.checksumLength + 4)
        (bytes ++ content) (bytes ++ (blockField body bytes ++ wire))
  /-- Behind the size word of a compressed block. -/
  | compressed {body : Body} {before block bytes content wire : Bytes}
      (header_eq : body.header = header) (history_eq : body.history = body.header.history before)
      (ne_nil : block ≠ []) (length_le : block.length ≤ header.blockSize.bytes)
      (decodes : Block.Decodes (body.header.history before) body.header.blockSize.bytes bytes
        block)
      (pos : 0 < bytes.length + body.checksumLength)
      (left : Remainder (body.append block) content wire) :
      Due header (.compressed body (.empty pos)) (4 + (bytes.length + body.checksumLength))
        (block ++ content) (bytes ++ blockField body bytes ++ wire)
  /-- Behind the end mark, if the checksum of the content follows. -/
  | trailer {body : Body} (header_eq : body.header = header) :
      Due header (.trailer body (.empty (by decide))) 4 [] (Xxh32.field body.digest.digest)

/-- The frame has ended, or something is due. -/
def Onward (header : Header) (decoder : Decoder) (hint : Nat) (content wire : Bytes) : Prop :=
  hint = 0 ∧ content = [] ∧ wire = [] ∨ Due header decoder hint content wire

theorem Due.waits {header : Header} {decoder : Decoder} {hint : Nat} {content wire : Bytes} :
    Due header decoder hint content wire → decoder.Waits := by
  intro h
  cases h <;> trivial

theorem Due.hint_pos {header : Header} {decoder : Decoder} {hint : Nat} {content wire : Bytes} :
    Due header decoder hint content wire → 0 < hint := by
  intro h
  cases h with
  | opening => decide
  | compressed => exact Nat.add_pos_left (by decide) _
  | _ => omega

/-- Whether a decoder is still waiting for the end of a header. -/
def Decoder.BeforeBody : Decoder → Prop
  | .opening _ => True
  | .longHeader _ => True
  | _ => False

namespace Decoder

/-! ## Runs on what is due -/

variable [Platform]

/-- A run on nothing but a size word. -/
theorem runFrom_word {body : Body} {content wire : Bytes} (h : Remainder body content wire)
    (used room : Nat) (out : Array UInt8) :
    ∃ word left, wire = word ++ left ∧ word.length = 4
      ∧ ∃ next hint, (beforeBlock body).runFrom ⟨word, used⟩ room out
          = (next, .ok ⟨used + 4, out, hint, []⟩)
        ∧ Onward body.header next hint content left := by
  cases h with
  | last none_left =>
      have hlen : SizeWord.endMark.length = 4 := rfl
      have hstep := step_endMark body [] used room
      rw [List.append_nil, afterBlocks, if_neg (not_not_intro none_left)] at hstep
      refine ⟨_, _, rfl, hlen, ?_⟩
      cases hsum : body.header.contentChecksum with
      | false =>
          rw [hsum] at hstep
          exact ⟨new, 0, by rw [runFrom_stop hstep]; simp, .inl ⟨rfl, rfl, rfl⟩⟩
      | true =>
          rw [hsum] at hstep
          have hwaits : (trailer body (.empty (by decide))).Waits := trivial
          refine ⟨_, 4, ?_, .inr (.trailer rfl)⟩
          rw [runFrom_go hstep, runFrom_stop (step_nil hwaits rfl ..)]
          simp [idleHint, Partial.missing, Partial.empty]
  | @block _ before block content wire payload history_eq ne_nil length_le holds next =>
      cases payload with
      | stored bytes =>
          obtain rfl : bytes = block := holds
          have hpos := List.length_pos_iff.mpr ne_nil
          have hstep := step_storedWord body hpos length_le [] used room
          rw [List.append_nil] at hstep
          have hwaits : (stored body .empty bytes.length hpos).Waits := trivial
          refine ⟨(SizeWord.mk true bytes.length).encode, bytes ++ (blockField body bytes ++ wire),
            encode_stored .., length_sizeWord _, _, _, ?_, .inr (.stored rfl hpos length_le next)⟩
          rw [runFrom_go hstep, runFrom_stop (step_nil hwaits rfl ..)]
          simp [idleHint]
      | compressed bytes =>
          rcases length_compressed holds length_le with ⟨hpos, hfits⟩
          have hstep := step_compressedWord body hpos hfits [] used room
          rw [List.append_nil, if_pos (.inr rfl)] at hstep
          refine ⟨(SizeWord.mk false bytes.length).encode, bytes ++ blockField body bytes ++ wire,
            encode_compressed .., length_sizeWord _, _, _, ?_,
            .inr (.compressed rfl history_eq ne_nil length_le holds.1
              (Nat.add_pos_left hpos body.checksumLength) next)⟩
          rw [runFrom_stop hstep]
          simp

/-- A run that has room for a stored block goes on behind it. -/
theorem runFrom_stored {body : Body} {bytes : Bytes} (hpos : 0 < bytes.length) (more : Bytes)
    (used : Nat) (out : Array UInt8) {room : Nat} :
    bytes.length ≤ room →
      (stored body .empty bytes.length hpos).runFrom
          ⟨bytes ++ (blockField body bytes ++ more), used⟩ room out
        = (beforeBlock (body.append bytes)).runFrom
          ⟨more, used + bytes.length + body.checksumLength⟩ (room - bytes.length)
          (out ++ bytes) := by
  intro hroom
  have hpiece : bytes.length
      = min (min bytes.length room) (bytes ++ (blockField body bytes ++ more)).length := by
    rw [List.length_append]
    omega
  have hstep := step_stored body .empty hpos ⟨bytes ++ (blockField body bytes ++ more), used⟩ room
    rfl hpiece
  rw [dif_neg (Nat.lt_irrefl _), afterStored, header_append] at hstep
  cases hsum : body.header.blockChecksum with
  | false =>
      -- the next field stands right behind the block
      simp only [hsum, Bool.false_eq_true, ↓reduceIte, blockField, List.nil_append,
        nextBlock] at hstep ⊢
      simp only [runFrom_go hstep, Body.checksumLength, hsum, Bool.false_eq_true, ↓reduceIte,
        Nat.add_zero]
  | true =>
      -- the checksum of the block is read in a step of its own
      have hof : (Xxh32.empty.update bytes).digest = Xxh32.of bytes := rfl
      simp only [hsum, ↓reduceIte, blockField, blockSum, hof] at hstep ⊢
      have hfield := step_storedChecksum (body.append bytes) (Xxh32.of bytes) more
        (used + bytes.length) (room - bytes.length)
      rw [runFrom_go hstep, runFrom_go hfield, List.length_nil, Nat.sub_zero, Array.appendList_nil]
      simp only [Body.checksumLength, hsum, ↓reduceIte]

/-- A run that has room for what a compressed block stands for goes on behind it. -/
theorem runFrom_compressed {body : Body} {before block bytes : Bytes}
    (hhistory : body.history = body.header.history before) (ne_nil : block ≠ [])
    (hdecode : Block.Decodes (body.header.history before) body.header.blockSize.bytes bytes
        block)
    (hpos : 0 < bytes.length + body.checksumLength) (more : Bytes) (used : Nat)
    (out : Array UInt8) {room : Nat} :
    block.length ≤ room →
      (compressed body (.empty hpos)).runFrom ⟨bytes ++ blockField body bytes ++ more, used⟩ room
          out
        = (beforeBlock (body.append block)).runFrom
          ⟨more, used + (bytes.length + body.checksumLength)⟩ (room - block.length)
          (out ++ block) := by
  intro hroom
  have hstep := step_compressed body hpos (length_withField body bytes) more used room
  have hout := step_pending (body.append block) ne_nil
    ⟨more, used + (bytes.length + body.checksumLength)⟩ hroom
  rw [afterCompressed_block hhistory ne_nil hdecode] at hstep
  rw [runFrom_go hstep, List.length_nil, Nat.sub_zero, Array.appendList_nil, runFrom_go hout]

/-- A run on a stored block and the size word behind it. -/
theorem run_storedBlock {body : Body} {bytes content wire : Bytes} (hpos : 0 < bytes.length)
    (left : Remainder (body.append bytes) content wire) {room : Nat} :
    bytes.length ≤ room →
      ∃ word rest, wire = word ++ rest ∧ word.length = 4
        ∧ ∃ next hint, (stored body .empty bytes.length hpos).run
              (bytes ++ (blockField body bytes ++ word)) room
            = (next, .ok ⟨bytes.length + body.checksumLength + 4, bytes.toArray, hint, []⟩)
          ∧ Onward body.header next hint content rest := by
  intro hroom
  rcases runFrom_word left (bytes.length + body.checksumLength) (room - bytes.length)
      bytes.toArray with ⟨word, rest, hwire, hword, next, hint, hrun, hnext⟩
  rw [header_append] at hnext
  refine ⟨word, rest, hwire, hword, next, hint, ?_, hnext⟩
  rw [run, runFrom_stored hpos word 0 #[] hroom]
  simpa using hrun

/-- A run on a compressed block and the size word behind it. -/
theorem run_compressedBlock {body : Body} {before block bytes content wire : Bytes}
    (hhistory : body.history = body.header.history before) (ne_nil : block ≠ [])
    (hdecode : Block.Decodes (body.header.history before) body.header.blockSize.bytes bytes
        block)
    (hpos : 0 < bytes.length + body.checksumLength)
    (left : Remainder (body.append block) content wire) {room : Nat} :
    block.length ≤ room →
      ∃ word rest, wire = word ++ rest ∧ word.length = 4
        ∧ ∃ next hint, (compressed body (.empty hpos)).run
              (bytes ++ blockField body bytes ++ word) room
            = (next, .ok ⟨bytes.length + body.checksumLength + 4, block.toArray, hint, []⟩)
          ∧ Onward body.header next hint content rest := by
  intro hroom
  rcases runFrom_word left (bytes.length + body.checksumLength) (room - block.length)
      block.toArray with ⟨word, rest, hwire, hword, next, hint, hrun, hnext⟩
  rw [header_append] at hnext
  refine ⟨word, rest, hwire, hword, next, hint, ?_, hnext⟩
  rw [run, runFrom_compressed hhistory ne_nil hdecode hpos word 0 #[] hroom]
  simpa using hrun

/-- A run on the first seven bytes of a header asks for the rest of it and a size word, or for the
size word alone if they were all of it. -/
theorem run_header {header : Header} (writable : header.Writable) {piece fields : Bytes}
    (joined : piece ++ fields = header.encode) (hlen : piece.length = Header.minLength)
    (room : Nat) :
    (∃ size_lt, fields.length = header.encode.length - piece.toArray.size
        ∧ new.run piece room = (@longHeader header.encode.length ⟨piece.toArray, size_lt⟩,
          .ok ⟨Header.minLength, #[], fields.length + 4, []⟩))
      ∨ fields = [] ∧ new.run piece room
        = (beforeBlock (.ofHeader header), .ok ⟨Header.minLength, #[], 4, []⟩) := by
  rcases step_header writable joined hlen [] 0 room with ⟨hlong, hsize, hstep⟩ | ⟨rfl, hstep⟩
  · rw [List.append_nil, Nat.zero_add] at hstep
    have hwaits : (longHeader ⟨piece.toArray, hlong⟩).Waits := trivial
    refine .inl ⟨hlong, hsize, ?_⟩
    rw [run, runFrom_go hstep, runFrom_stop (step_nil hwaits rfl ..), hsize]
    simp [idleHint, Partial.missing]
  · rw [List.append_nil, Nat.zero_add] at hstep
    have hwaits : (beforeBlock (.ofHeader header)).Waits := trivial
    have hidle : (beforeBlock (.ofHeader header)).idleHint = 4 := rfl
    refine .inr ⟨rfl, ?_⟩
    rw [run, runFrom_go hstep, runFrom_stop (step_nil hwaits rfl ..), hidle]
    simp

/-- A run on the first seven bytes of a frame. -/
theorem run_opening {header : Header} {content wire : Bytes} (writable : header.Writable)
    (left : Remainder (.ofHeader header) content wire) (room : Nat) :
    ∃ piece rest, header.encode ++ wire = piece ++ rest ∧ piece.length = Header.minLength
      ∧ ∃ next hint, new.run piece room = (next, .ok ⟨Header.minLength, #[], hint, []⟩)
        ∧ Due header next hint content rest := by
  rcases encode_split header with ⟨piece, fields, hjoined, hlen⟩
  refine ⟨piece, fields ++ wire, by rw [← hjoined, List.append_assoc], hlen, ?_⟩
  rcases run_header writable hjoined hlen room with ⟨hlong, hsize, hrun⟩ | ⟨rfl, hrun⟩
  · exact ⟨_, _, hrun, hsize ▸ .longHeader writable hjoined hsize left⟩
  · exact ⟨_, _, hrun, .word rfl left⟩

/-- A run on the rest of a longer header and the size word behind it. -/
theorem run_longHeader {header : Header} {length : Nat} {held : Partial length}
    {fields content wire : Bytes} (writable : header.Writable)
    (joined : held.bytes.toList ++ fields = header.encode)
    (fields_length : fields.length = held.missing)
    (left : Remainder (.ofHeader header) content wire) (room : Nat) :
    ∃ word rest, wire = word ++ rest ∧ word.length = 4
      ∧ ∃ next hint, (longHeader held).run (fields ++ word) room
          = (next, .ok ⟨held.missing + 4, #[], hint, []⟩)
        ∧ Onward header next hint content rest := by
  rcases runFrom_word left held.missing room #[]
      with ⟨word, rest, hwire, hword, next, hint, hrun, hnext⟩
  refine ⟨word, rest, hwire, hword, next, hint, ?_, hnext⟩
  have hstep := step_longHeader writable joined fields_length word 0 room
  rw [Nat.zero_add] at hstep
  rw [run, runFrom_go hstep]
  simpa using hrun

end Decoder

variable [Platform]

/-- A decoder that is given what is due, and has room for a block unless it is still waiting for
the end of the header, uses all of it and no byte behind the frame. -/
theorem Due.run {header : Header} {decoder : Decoder} {hint : Nat} {content wire : Bytes}
    (h : Due header decoder hint content wire) {room : Nat} :
    decoder.BeforeBody ∨ header.blockSize.bytes ≤ room →
      ∃ piece rest, wire = piece ++ rest ∧ piece.length = hint
        ∧ ∃ next out content' hint',
          decoder.run piece room = (next, .ok ⟨hint, out.toArray, hint', []⟩)
            ∧ content = out ++ content' ∧ Onward header next hint' content' rest := by
  intro hroom
  cases h with
  | opening writable left =>
      rcases run_opening writable left room
          with ⟨piece, rest, hwire, hlen, next, hint', hrun, hdue⟩
      exact ⟨piece, rest, hwire, hlen, next, [], content, hint', hrun, rfl, .inr hdue⟩
  | @longHeader length held fields _ wire writable joined fields_length left =>
      rcases run_longHeader writable joined fields_length left room
          with ⟨word, rest, rfl, hword, next, hint', hrun, hnext⟩
      exact ⟨fields ++ word, rest, by simp, by simp [fields_length, hword], next, [], content,
        hint', hrun, rfl, hnext⟩
  | @word body _ wire header_eq left =>
      rcases runFrom_word left 0 room #[] with ⟨word, rest, rfl, hword, next, hint', hrun, hnext⟩
      refine ⟨word, rest, rfl, hword, next, [], content, hint', ?_, rfl, header_eq ▸ hnext⟩
      rw [Decoder.run, hrun]
  | @stored body bytes content wire header_eq pos length_le left =>
      have hblock := hroom.resolve_left id
      rcases run_storedBlock pos left (Nat.le_trans length_le hblock)
          with ⟨word, rest, rfl, hword, next, hint', hrun, hnext⟩
      refine ⟨bytes ++ (blockField body bytes ++ word), rest, by simp, ?_, next, bytes, content,
        hint', hrun, rfl, header_eq ▸ hnext⟩
      simp only [List.length_append, length_blockField, hword, Nat.add_assoc]
  | @compressed body before block bytes content wire header_eq history_eq ne_nil length_le decodes
      pos left =>
      have hblock := hroom.resolve_left id
      rcases run_compressedBlock history_eq ne_nil decodes pos left
          (Nat.le_trans length_le hblock) with ⟨word, rest, rfl, hword, next, hint', hrun, hnext⟩
      rw [Nat.add_comm (bytes.length + body.checksumLength)] at hrun
      refine ⟨bytes ++ blockField body bytes ++ word, rest, by simp, ?_, next, block, content,
        hint', hrun, rfl, header_eq ▸ hnext⟩
      simp only [List.length_append, length_blockField, hword]
      omega
  | @trailer body header_eq =>
      have hstep := step_trailer body [] 0 room
      rw [List.append_nil] at hstep
      refine ⟨Xxh32.field body.digest.digest, [], by simp, Xxh32.length_field _, new, [], [], 0, ?_,
        rfl, .inl ⟨rfl, rfl, rfl⟩⟩
      rw [Decoder.run, runFrom_stop hstep]
      simp

end Lz4Frame
