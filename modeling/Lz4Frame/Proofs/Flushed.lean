import Lz4Frame.Platform.Reference
import Lz4Frame.Proofs.Decompressor.Feeding
import Lz4Frame.Proofs.Made

/-!
# What comes out of a frame that goes on

Behind a flush, and with autoflush behind every call, all content so far is in blocks.  A
decompressor that is given these bytes in one call stops where they end, so of a compressed block at
the end it hands out what the chunk takes that it is filling, and no more (`Withheld`).  Everything
else comes out at once, and what is withheld comes out first in the next call (`flush_delivers`).
-/

namespace Lz4Frame

open Block Decoder

/-! ## What is withheld -/

/-- What is withheld of the front of a frame that was given in one call, with these blocks behind
its header and chunks of this length: of a compressed block at the end what does not go into the
chunk that the content in front of it has begun. -/
inductive Withheld (header : Header) (chunkLength : Nat) : (content blocks left : Bytes) → Prop
  | nothing : Withheld header chunkLength [] [] []
  | stored {front block wire : Bytes} (front_blocks : Blocks header [] front wire)
      (ne_nil : block ≠ []) (length_le : block.length ≤ header.blockSize.bytes) :
      Withheld header chunkLength (front ++ block)
        (wire ++ (Payload.stored block).encode header.blockChecksum) []
  | compressed {front block bytes wire : Bytes} (front_blocks : Blocks header [] front wire)
      (ne_nil : block ≠ []) (length_le : block.length ≤ header.blockSize.bytes)
      (holds : (Payload.compressed bytes).Holds (header.history front) header.blockSize.bytes
        block) :
      Withheld header chunkLength (front ++ block)
        (wire ++ (Payload.compressed bytes).encode header.blockChecksum)
        (block.drop (chunkLength - front.length % chunkLength))

/-- Whatever the blocks are, something or nothing is withheld of them. -/
theorem Blocks.withheld {header : Header} {content blocks : Bytes} (chunkLength : Nat) :
    Blocks header [] content blocks → ∃ left, Withheld header chunkLength content blocks left := by
  intro h
  rcases h.nil_or_last with ⟨rfl, rfl⟩
    | ⟨front, block, wire, payload, rfl, rfl, hfront, ne_nil, length_le, holds⟩
  · exact ⟨[], .nothing⟩
  · cases payload with
    | stored bytes =>
        obtain rfl : bytes = block := holds
        exact ⟨[], .stored hfront ne_nil length_le⟩
    | compressed bytes => exact ⟨_, .compressed hfront ne_nil length_le holds⟩

/-- Nothing is withheld if all of the content goes into one chunk. -/
theorem Withheld.eq_nil {header : Header} {chunkLength : Nat} {content blocks left : Bytes} :
    Withheld header chunkLength content blocks left → content.length ≤ chunkLength →
      left = [] := by
  intro h hfits
  cases h with
  | nothing => rfl
  | stored => rfl
  | @compressed front block bytes wire front_blocks ne_nil =>
      have hpos := List.length_pos_iff.mpr ne_nil
      rw [List.length_append] at hfits
      have hmod : front.length % chunkLength = front.length := Nat.mod_eq_of_lt (by omega)
      rw [hmod]
      exact List.drop_of_length_le (by omega)

/-- Less is withheld than a block has. -/
theorem Withheld.length_lt {header : Header} {chunkLength : Nat} (hchunk : 0 < chunkLength)
    {content blocks left : Bytes} :
    Withheld header chunkLength content blocks left → left.length < header.blockSize.bytes := by
  intro h
  cases h with
  | nothing => exact header.blockSize.bytes_pos
  | stored => exact header.blockSize.bytes_pos
  | @compressed front block bytes wire front_blocks ne_nil length_le =>
      have hpos := List.length_pos_iff.mpr ne_nil
      have hroom := Decompressor.room_pos hchunk front.length
      rw [List.length_drop]
      omega

namespace Decompressor

/-- Where a decoder is that has come to the end of some blocks, with this content left to hand
out. -/
inductive Behind (left : Bytes) : Decoder → Prop
  | clear {body : Body} (left_eq : left = []) : Behind left (beforeBlock body)
  | pending {body : Body} (ne_nil : left ≠ []) : Behind left (.pending body left ne_nil)

variable [Platform]

/-- Where the input ends behind a block, the decoder comes to rest. -/
theorem Feeds.atEnd {chunkLength : Nat} (body : Body) (used room : Nat) (out : Array UInt8) :
    Feeds chunkLength (beforeBlock body) ⟨[], used⟩ room out (beforeBlock body) out := by
  have hwaits : (beforeBlock body).Waits := trivial
  have hrest : Feeds chunkLength (beforeBlock body) ⟨[], used⟩ room out (beforeBlock body)
      (out ++ ([] : Bytes)) := .rest (step_nil hwaits rfl used room) (idleHint_pos hwaits) rfl
  simpa using hrest

/-- The blocks in front of the last one come out. -/
theorem feeds_blocks {header : Header} (writable : header.Writable) {front wire : Bytes}
    (h : Blocks header [] front wire) {chunkLength : Nat} (hchunk : 0 < chunkLength) {more : Bytes}
    (hmore : more ≠ []) {last : Decoder} {all : Array UInt8}
    (behind : ∀ used room, Room chunkLength front.toArray.size room →
      Feeds chunkLength (beforeBlock ((Body.ofHeader header).append front)) ⟨more, used⟩ room
        front.toArray last all) :
    Feeds chunkLength .new ⟨header.encode ++ (wire ++ more), 0⟩ chunkLength #[] last all := by
  have hroom : Room chunkLength (#[] : Array UInt8).size chunkLength := .inl (by simp)
  refine .header writable _ _ fun used => ?_
  refine .blocks hchunk h rfl (history_ofHeader header) hmore hroom used fun used room hroom => ?_
  simpa using behind used room (by simpa using hroom)

/-- The front of a frame is used up, and all of its content comes out but what is withheld. -/
theorem feeds_front {header : Header} (writable : header.Writable) {chunkLength : Nat}
    (hchunk : 0 < chunkLength) {content blocks left : Bytes} :
    Withheld header chunkLength content blocks left →
      ∃ last all, Behind left last ∧ all.toList ++ left = content
        ∧ Feeds chunkLength .new ⟨header.encode ++ blocks, 0⟩ chunkLength #[] last all := by
  intro h
  have hne (payload : Payload) : payload.encode header.blockChecksum ++ [] ≠ [] := by
    cases payload <;> simp [Payload.encode, SizeWord.encode, LittleEndian.encode]
  cases h with
  | nothing => exact ⟨_, _, .clear rfl, rfl, .header writable _ _ fun used => .atEnd ..⟩
  | @stored front block wire front_blocks ne_nil length_le =>
      generalize hbody : (Body.ofHeader header).append front = body
      obtain rfl : body.header = header := by rw [← hbody, header_append]; rfl
      refine ⟨beforeBlock (body.append block), front.toArray ++ block, .clear rfl, by simp, ?_⟩
      rw [← List.append_nil (Payload.encode _ _)]
      refine feeds_blocks writable front_blocks hchunk (hne _) fun used room hroom => ?_
      rw [hbody]
      exact .storedBlock hchunk ne_nil length_le hroom used fun used room _ => .atEnd ..
  | @compressed front block bytes wire front_blocks ne_nil length_le holds =>
      generalize hbody : (Body.ofHeader header).append front = body
      obtain rfl : body.header = header := by rw [← hbody, header_append]; rfl
      have hhistory : body.history = body.header.history front := by
        rw [← hbody]
        exact history_append (history_ofHeader _) front
      -- the block waits in front of the room that its chunk has
      have hwaits {last : Decoder} {all : Array UInt8}
          (behind : ∀ used, Feeds chunkLength (.pending (body.append block) block ne_nil)
            ⟨[], used⟩ (chunkLength - front.length % chunkLength) front.toArray last all) :
          Feeds chunkLength .new
            ⟨body.header.encode ++ (wire ++ (Payload.compressed bytes).encode
              body.header.blockChecksum), 0⟩ chunkLength #[] last all := by
        rw [← List.append_nil (Payload.encode _ _)]
        refine feeds_blocks writable front_blocks hchunk (hne _) fun used room hroom => ?_
        rw [hbody]
        exact .compressedBlock hhistory ne_nil length_le holds hroom used (by simpa using behind)
      by_cases hfits : block.length ≤ chunkLength - front.length % chunkLength
      · refine ⟨beforeBlock (body.append block), front.toArray ++ block,
          .clear (List.drop_of_length_le hfits), by simp [List.drop_of_length_le hfits],
          hwaits fun used => ?_⟩
        exact .go (step_pending _ ne_nil _ hfits) (.atEnd ..)
      · -- the chunk is full, and the rest of the block waits for the next call
        have hshort : chunkLength - front.length % chunkLength < block.length :=
          Nat.lt_of_not_le hfits
        have hleft := drop_ne_nil hshort
        refine ⟨.pending (body.append block) _ hleft,
          front.toArray ++ block.take (chunkLength - front.length % chunkLength), .pending hleft,
          by simp, hwaits fun used => ?_⟩
        exact .rest (step_pending_part _ ne_nil _ hshort) (idleHint_pos (pending_waits ..)) rfl

/-- A fresh decompressor uses up the front of a frame, and goes on with what is withheld of it. -/
theorem update_front {header : Header} (writable : header.Writable) (gate : Gate)
    {chunkLength : Nat} (hchunk : 0 < chunkLength) (hgranted : Platform.grants chunkLength = true)
    {content blocks left : Bytes} :
    Withheld header chunkLength content blocks left →
      ∃ next decoded events,
        (new gate).update (header.encode ++ blocks) chunkLength = (next, ⟨.ok decoded, events⟩)
          ∧ decoded.consumed = (header.encode ++ blocks).length ∧ 0 < decoded.hint
          ∧ Behind left next.decoder ∧ decoded.content ++ left = content := by
  intro h
  rcases feeds_front writable hchunk h with ⟨last, all, hbehind, hall, hfeeds⟩
  have hmin := header.minLength_le
  unfold Header.minLength at hmin
  have hne : header.encode ++ blocks ≠ [] :=
    List.ne_nil_of_length_pos (by rw [List.length_append]; omega)
  have hfull : chunkLength - (#[] : Array UInt8).size % chunkLength = chunkLength := by simp
  rcases Feeds.feed_eq hchunk hgranted hne (hfull.symm ▸ hfeeds) gate 1 0 #[]
      with ⟨hint, consumed, events, hpos, hfeed⟩
  have hupdate : (new gate).update (header.encode ++ blocks) chunkLength
      = (⟨gate, last⟩, ⟨.ok ⟨chunksOf chunkLength all.toList, hint, consumed⟩, events.toList⟩) :=
    update_fed gate ⟨hne, hchunk, hgranted⟩ hfeed
  refine ⟨_, _, _, hupdate, ?_, hpos, hbehind, by simpa [Decoded.content]⟩
  rcases update_ok hupdate with ⟨taken, rest, hsplit, hconsumed, ⟨hzero, -⟩ | ⟨-, rfl, -⟩⟩
  · exact absurd hzero (Nat.ne_of_gt hpos)
  · rw [hsplit, List.append_nil]
    exact hconsumed

/-- The blocks and the length of chunks decide what is withheld. -/
theorem withheld_unique {header : Header} (writable : header.Writable) {chunkLength : Nat}
    (hchunk : 0 < chunkLength) (hgranted : Platform.grants chunkLength = true)
    {content blocks left other : Bytes} (h : Withheld header chunkLength content blocks left) :
    Withheld header chunkLength content blocks other ↔ other = left := by
  constructor
  · intro hother
    rcases update_front writable .native hchunk hgranted h
        with ⟨_, _, _, hupdate, -, -, -, hall⟩
    rcases update_front writable .native hchunk hgranted hother
        with ⟨_, _, _, hupdate', -, -, -, hall'⟩
    -- it is the same call, so the same content has come out of it
    cases hupdate.symm.trans hupdate'
    exact List.append_cancel_left (hall'.trans hall.symm)
  · rintro rfl
    exact h

/-- What is withheld comes out first in the next call that succeeds. -/
theorem Behind.update {left : Bytes} {decompressor next : Decompressor} {piece : Bytes}
    {chunkLength : Nat} {decoded : Decoded} {events : List LockEvent} :
    Behind left decompressor.decoder →
      decompressor.update piece chunkLength = (next, ⟨.ok decoded, events⟩) →
        left <+: decoded.content := by
  intro h hupdate
  rcases update_feed hupdate with ⟨hfits, out, events', hchunks, hfeed⟩
  generalize decompressor.decoder = decoder at h hfeed
  cases h with
  | clear left_eq => exact left_eq ▸ List.nil_prefix
  | pending ne_nil =>
      rw [Decoded.content, hchunks, flatten_chunksOf]
      simpa using feed_pending hfits.chunk_granted ne_nil hfits.ne_nil hfeed

end Decompressor

/-! ## Behind a flush -/

section

variable [Platform]

/-- Behind a flush, or anywhere with autoflush, the bytes so far are used up by a fresh decompressor
in one call, which asks for more.  All of their content has come out then, except for the end of a
compressed block that does not go into its chunk, and that comes out first in the next call. -/
theorem flush_delivers (compressor : Compressor) {prefs : Preferences}
    (hvalid : prefs.validate = .ok ()) (hsize : prefs.declaredOrZero < 0x10000000000000000)
    {row : List Call} (hends : prefs.autoflush = true ∨ row.getLast? = some .flush) :
    ∃ started active answers,
      compressor.start prefs = (started, .ofCall (.ok (Header.ofPreferences prefs).encode))
        ∧ started.tries row = (active, answers)
        ∧ ((∀ call ∈ row, call.Fits prefs) → taken row answers = contentOf row)
        ∧ ∀ (gate : Gate) (chunkLength : Nat), 0 < chunkLength →
          Platform.grants chunkLength = true →
          ∃ next decoded events left,
            (Decompressor.new gate).update
                ((Header.ofPreferences prefs).encode ++ sentBy answers) chunkLength
              = (next, ⟨.ok decoded, events⟩)
            ∧ decoded.consumed = ((Header.ofPreferences prefs).encode ++ sentBy answers).length
            ∧ 0 < decoded.hint ∧ decoded.content ++ left = taken row answers
            ∧ (∀ other, Withheld (.ofPreferences prefs) chunkLength (taken row answers)
              (sentBy answers) other ↔ other = left)
            ∧ left.length < (Header.ofPreferences prefs).blockSize.bytes
            ∧ ((taken row answers).length ≤ chunkLength → left = [])
            ∧ ∀ piece length later decoded' events',
              next.update piece length = (later, ⟨.ok decoded', events'⟩) →
                left <+: decoded'.content := by
  rcases compressor.start_within hvalid with ⟨started, hstart, hwithin⟩
  rcases htries : started.tries row with ⟨active, answers⟩
  refine ⟨started, active, answers, hstart, htries, fun hfits =>
    Compressor.tries_fits hwithin hfits htries, fun gate chunkLength hchunk hgranted => ?_⟩
  -- nothing is held any more, so the blocks stand for all of the content
  rcases (Compressor.tries_within hwithin htries).encoder.parts
      with ⟨sent, blocks, hcontent, hwire, hblocks, -⟩
  rw [Compressor.tries_flushed hwithin hends htries, List.nil_append, List.append_nil] at hcontent
  obtain rfl := List.append_cancel_left hwire
  rw [← hcontent] at hblocks
  rcases hblocks.withheld chunkLength with ⟨left, hwithheld⟩
  have hwritable := Header.writable_ofPreferences hsize
  rcases Decompressor.update_front hwritable gate hchunk hgranted hwithheld
      with ⟨next, decoded, events, hupdate, hconsumed, hhint, hbehind, hall⟩
  exact ⟨next, decoded, events, left, hupdate, hconsumed, hhint, hall,
    fun other => Decompressor.withheld_unique hwritable hchunk hgranted hwithheld,
    hwithheld.length_lt hchunk, hwithheld.eq_nil,
    fun piece length later decoded' events' => hbehind.update⟩

end

open Reference in
/-- Three bytes and a flush come out in one chunk. -/
theorem flush_delivers_three_bytes :
    ∃ started active answers,
      (Compressor.new .native).start {} = (started, .ofCall (.ok (Header.ofPreferences {}).encode))
        ∧ started.tries [.update [7, 7, 7], .flush] = (active, answers)
        ∧ ∃ next decoded events,
          (Decompressor.new .native).update ((Header.ofPreferences {}).encode ++ sentBy answers) 3
            = (next, ⟨.ok decoded, events⟩) ∧ 0 < decoded.hint ∧ decoded.content = [7, 7, 7] := by
  have hvalid : Preferences.validate {} = .ok () := rfl
  have hends : Preferences.autoflush {} = true
      ∨ [Call.update [7, 7, 7], .flush].getLast? = some .flush := .inr rfl
  rcases flush_delivers (.new .native) hvalid (by decide) hends
      with ⟨started, active, answers, hstart, htries, htaken, hupdate⟩
  have hcontent : taken [.update [7, 7, 7], .flush] answers = [7, 7, 7] := by
    refine htaken fun call hmem => ?_
    simp only [List.mem_cons, List.not_mem_nil, or_false] at hmem
    rcases hmem with rfl | rfl
    · refine ⟨by simp, ?_⟩
      show (3 + (65536 - 1)) / 65536 < 0x100000000
      decide
    · trivial
  rw [hcontent] at hupdate
  rcases hupdate .native 3 (by decide) (by decide)
      with ⟨next, decoded, events, left, hdecoded, -, hhint, hall, -, -, hnone, -⟩
  rw [hnone (by decide), List.append_nil] at hall
  exact ⟨started, active, answers, hstart, htries, next, decoded, events, hdecoded, hhint, hall⟩

open Reference in
/-- Thirteen zeros and a flush make one compressed block, of which a chunk of one byte takes one
byte; and chunks can be too long for any memory. -/
theorem flush_withholds :
    ∃ started active answers,
      (Compressor.new .native).start {} = (started, .ofCall (.ok (Header.ofPreferences {}).encode))
        ∧ started.tries [.update (List.replicate 13 0), .flush] = (active, answers)
        ∧ taken [.update (List.replicate 13 0), .flush] answers = List.replicate 13 0
        ∧ (∃ next decoded events,
          (Decompressor.new .native).update ((Header.ofPreferences {}).encode ++ sentBy answers) 1
            = (next, ⟨.ok decoded, events⟩) ∧ decoded.content.length = 1)
        ∧ ((Decompressor.new .native).update
            ((Header.ofPreferences {}).encode ++ sentBy answers) assuredSize).2.value
          = .error (.allocation assuredSize) := by
  generalize hstart : (Compressor.new .native).start {} = started
  have hheader : started.2 = .ofCall (.ok (Header.ofPreferences {}).encode) := by
    rw [← hstart]
    rfl
  generalize htries : started.1.tries [.update (List.replicate 13 0), .flush] = tried
  have htaken : taken [.update (List.replicate 13 0), .flush] tried.2 = List.replicate 13 0 := by
    rw [← htries, ← hstart]
    decide +kernel
  have hsent : sentBy tried.2
      = [] ++ (Payload.compressed [19, 0, 1, 0, 80, 0, 0, 0, 0, 0]).encode false := by
    rw [← htries, ← hstart]
    decide +kernel
  have hpayload : (Searcher.linked (.fast .cleared) {} #[] true (List.replicate 13 0)).2.1
      = .compressed [19, 0, 1, 0, 80, 0, 0, 0, 0, 0] := by decide +kernel
  have hfits : (List.replicate 13 0 : Bytes).length ≤ 65536 := by decide
  have hholds := (Searcher.linked_holds (.fast .cleared) {} #[] #[] true hfits).1
  rw [hpayload] at hholds
  have hzeros : (List.replicate 13 0 : Bytes) ≠ [] := by decide
  have hwithheld : Withheld (.ofPreferences {}) 1 ([] ++ List.replicate 13 0)
      ([] ++ (Payload.compressed [19, 0, 1, 0, 80, 0, 0, 0, 0, 0]).encode
        (Header.ofPreferences {}).blockChecksum) _ := .compressed .nil hzeros hfits hholds
  rcases Decompressor.update_front (Header.writable_ofPreferences (by decide)) .native
      (by decide) (by decide) hwithheld
      with ⟨next, decoded, events, hupdate, -, -, -, hall⟩
  refine ⟨started.1, tried.1, tried.2, Prod.ext rfl hheader, htries, htaken,
    ⟨next, decoded, events, hsent ▸ hupdate, by simpa using congrArg List.length hall⟩, ?_⟩
  have hpos : assuredSize ≠ 0 := by decide
  simp [Decompressor.update, hsent, hpos, Reference.allocate_assuredSize, Payload.encode]

end Lz4Frame
