import Lz4Frame.Proofs.Decompressor.Session
import Lz4Frame.Proofs.Frame.Grammar

/-!
# Feeding the front of a frame

One call makes as many runs as the chunks take: a run stops where its chunk is full, mostly in the
middle of a block, and the next one goes on from there.  `Feeds` follows the decoder through all of
them, step by step and from any point in the middle of a run, and `Feeds.feed_eq` says that this is
what feeding comes to.

Along a frame the runs show in nothing but the room: whatever stands in front of the last block has
come out when the decoder gets there (`Feeds.front`), and there the room is what the content in
front of it has left of its chunk, or a whole chunk (`Room`).
-/

namespace Lz4Frame

open Block Decoder

namespace Decompressor

/-! ## Through the runs of a call -/

variable [Platform]

/-- A decoder in the middle of a run uses up its input step by step, run after run: `out` has come
out so far, and `all` when it comes to rest at `last`. -/
inductive Feeds (chunkLength : Nat) :
    Decoder → Input → (room : Nat) → (out : Array UInt8) →
      (last : Decoder) → (all : Array UInt8) → Prop
  /-- The run goes on. -/
  | go {decoder next last : Decoder} {input input' : Input} {room : Nat} {piece : Bytes}
      {out all : Array UInt8} (step_eq : decoder.step input room = .go next input' piece)
      (onward : Feeds chunkLength next input' (room - piece.length) (out ++ piece) last all) :
      Feeds chunkLength decoder input room out last all
  /-- The run stops in front of more input, and another one begins. -/
  | again {decoder next last : Decoder} {input input' : Input} {room hint : Nat} {piece : Bytes}
      {out all : Array UInt8} (step_eq : decoder.step input room = .stop next input' piece hint)
      (hint_pos : 0 < hint) (rest_ne : input'.rest ≠ [])
      (onward : Feeds chunkLength next ⟨input'.rest, 0⟩
        (chunkLength - (out ++ piece).size % chunkLength) (out ++ piece) last all) :
      Feeds chunkLength decoder input room out last all
  /-- The run stops where the input ends. -/
  | rest {decoder last : Decoder} {input input' : Input} {room hint : Nat} {piece : Bytes}
      {out : Array UInt8} (step_eq : decoder.step input room = .stop last input' piece hint)
      (hint_pos : 0 < hint) (rest_eq : input'.rest = []) :
      Feeds chunkLength decoder input room out last (out ++ piece)

/-- The run that the decoder is in comes to an end, and feeding what it leaves does. -/
theorem Feeds.runFrom_eq {chunkLength : Nat} (hchunk : 0 < chunkLength)
    (hgranted : Platform.grants chunkLength = true) {decoder last : Decoder} {input : Input}
    {room : Nat} {out all : Array UInt8}
    (h : Feeds chunkLength decoder input room out last all) {before written : Array UInt8} :
    before ++ written = out →
      ∃ next progress, decoder.runFrom input room written = (next, .ok progress)
        ∧ 0 < progress.hint
        ∧ ∀ gate consumed events, ∃ hint' consumed' events', 0 < hint'
          ∧ feed gate chunkLength hchunk next progress.rest (before ++ progress.written)
              progress.hint consumed events
            = ⟨last, .ok (all, hint', consumed'), events'⟩ := by
  have hgrown {before written out : Array UInt8} (hout : before ++ written = out)
      (piece : Bytes) : before ++ (written ++ piece) = out ++ piece := by
    rw [← hout]
    exact Array.ext' (by simp)
  intro hout
  -- on the steps; what the run has written so far stands behind what was there when it began
  induction h generalizing before written with
  | go step_eq _ ih =>
      rw [runFrom_go step_eq]
      exact ih (hgrown hout _)
  | @again decoder next last input input' room hint piece out all step_eq hint_pos rest_ne _ ih =>
      refine ⟨next, _, runFrom_stop step_eq written, hint_pos, fun gate consumed events => ?_⟩
      -- the next run begins with nothing written
      rcases @ih (out ++ piece) #[] (by simp) with ⟨next', progress, hrun, hpos, hrest⟩
      rcases feed_run gate hchunk hgranted rest_ne hrun hint consumed events with ⟨events', hfeed⟩
      rw [hgrown hout piece, hfeed, if_neg (Nat.ne_of_gt hpos)]
      exact hrest ..
  | @rest decoder last input input' room hint piece out step_eq hint_pos rest_eq =>
      refine ⟨last, _, runFrom_stop step_eq written, hint_pos, fun gate consumed events => ?_⟩
      refine ⟨hint, consumed, events, hint_pos, ?_⟩
      rw [hgrown hout piece, rest_eq, feed_nil]

/-- Feeding is what its runs come to, step by step. -/
theorem Feeds.feed_eq {chunkLength : Nat} (hchunk : 0 < chunkLength)
    (hgranted : Platform.grants chunkLength = true) {decoder last : Decoder} {piece : Bytes}
    (hpiece : piece ≠ []) {out all : Array UInt8}
    (h : Feeds chunkLength decoder ⟨piece, 0⟩ (chunkLength - out.size % chunkLength) out last all)
    (gate : Gate) (hint consumed : Nat) (events : Array LockEvent) :
    ∃ hint' consumed' events', 0 < hint'
      ∧ feed gate chunkLength hchunk decoder piece out hint consumed events
        = ⟨last, .ok (all, hint', consumed'), events'⟩ := by
  have hout : out ++ #[] = out := by simp
  rcases h.runFrom_eq hchunk hgranted hout with ⟨next, progress, hrun, hpos, hrest⟩
  rcases feed_run gate hchunk hgranted hpiece hrun hint consumed events with ⟨events', hfeed⟩
  rw [hfeed, if_neg (Nat.ne_of_gt hpos)]
  exact hrest ..

/-! ## Room -/

/-- The room of a run: the rest of a chunk, or nothing when it has just filled one. -/
def Room (chunkLength size room : Nat) : Prop :=
  room = chunkLength - size % chunkLength ∨ room = 0 ∧ size % chunkLength = 0

omit [Platform] in
/-- A run that starts has some. -/
theorem room_pos {chunkLength : Nat} (hchunk : 0 < chunkLength) (size : Nat) :
    0 < chunkLength - size % chunkLength :=
  Nat.sub_pos_of_lt (Nat.mod_lt size hchunk)

omit [Platform] in
theorem Room.spend {chunkLength size room count : Nat} (hchunk : 0 < chunkLength)
    (h : Room chunkLength size room) :
    count ≤ room → Room chunkLength (size + count) (room - count) := by
  intro hcount
  have hlt := Nat.mod_lt size hchunk
  have hdiv := Nat.div_add_mod size chunkLength
  rcases h with rfl | ⟨rfl, hzero⟩
  · by_cases hfull : count = chunkLength - size % chunkLength
    · -- the chunk is full
      have hmultiple : size + count = chunkLength * (size / chunkLength + 1) := by
        rw [Nat.mul_add]
        omega
      exact .inr ⟨by omega, by rw [hmultiple, Nat.mul_mod_right]⟩
    · have hmod : (size + count) % chunkLength = size % chunkLength + count := by
        have hshort : size % chunkLength + count < chunkLength := by omega
        rw [← Nat.mod_add_mod, Nat.mod_eq_of_lt hshort]
      exact .inl (by omega)
  · obtain rfl : count = 0 := by omega
    exact .inr ⟨rfl, hzero⟩

/-! ## Blocks -/

/-- Content that waits comes out, in front of more input. -/
theorem Feeds.pending {chunkLength : Nat} (hchunk : 0 < chunkLength) {body : Body}
    {content more : Bytes} (ne_nil : content ≠ []) (hmore : more ≠ []) {last : Decoder}
    {out all : Array UInt8} {room : Nat} (hpos : 0 < room)
    (hroom : Room chunkLength out.size room) (used : Nat)
    (behind : ∀ used room, Room chunkLength (out.size + content.length) room →
      Feeds chunkLength (beforeBlock body) ⟨more, used⟩ room (out ++ content) last all) :
    Feeds chunkLength (.pending body content ne_nil) ⟨more, used⟩ room out last all := by
  induction hlength : content.length using Nat.strongRecOn generalizing content out room used with
  | ind length ih =>
      by_cases hfits : content.length ≤ room
      · exact .go (step_pending body ne_nil _ hfits) (behind _ _ (hroom.spend hchunk hfits))
      · -- the chunk is filled, and what is left of the content goes into the next ones
        have hshort : room < content.length := Nat.lt_of_not_le hfits
        have htake : (content.take room).length = room := by
          rw [List.length_take]
          omega
        refine .again (step_pending_part body ne_nil _ hshort) (idleHint_pos (pending_waits ..))
          hmore ?_
        refine ih (content.drop room).length ?_ _ (room_pos hchunk _) (.inl rfl) 0 ?_ rfl
        · rw [List.length_drop]
          omega
        · intro used room' hroom'
          rw [append_list_append, List.take_append_drop]
          refine behind used room' ?_
          rw [size_append_list, htake, List.length_drop] at hroom'
          have hsum : out.size + room + (content.length - room) = out.size + content.length := by
            omega
          rwa [hsum] at hroom'

/-- A stored block comes out, and its checksum is read. -/
theorem Feeds.stored {chunkLength : Nat} (hchunk : 0 < chunkLength) {body : Body} {sum : Xxh32}
    {bytes more : Bytes} {left : Nat} (left_pos : 0 < left) (hleft : bytes.length = left)
    {last : Decoder} {out all : Array UInt8} {room : Nat} (hroom : Room chunkLength out.size room)
    (used : Nat)
    (behind : ∀ used room, Room chunkLength (out.size + bytes.length) room →
      Feeds chunkLength (beforeBlock (body.append bytes)) ⟨more, used⟩ room (out ++ bytes) last
        all) :
    Feeds chunkLength (.stored body sum left left_pos)
      ⟨bytes ++ ((if body.header.blockChecksum then Xxh32.field (blockSum body sum bytes).digest
        else []) ++ more), used⟩ room out last all := by
  generalize hfield : (if body.header.blockChecksum then
    Xxh32.field (blockSum body sum bytes).digest else []) = field
  -- on what is left of the block; a run without room hands nothing out, but the next one does
  induction hmeasure : left + (if room = 0 then 1 else 0) using Nat.strongRecOn
    generalizing body sum bytes left out room used with
  | ind measure ih =>
      by_cases hfits : left ≤ room
      · have hpiece : bytes.length = min (min left room) (bytes ++ (field ++ more)).length := by
          rw [List.length_append]
          omega
        have hstep := step_stored body sum left_pos ⟨bytes ++ (field ++ more), used⟩ room rfl hpiece
        rw [dif_neg (by omega), afterStored, header_append] at hstep
        have hspent := hroom.spend hchunk (Nat.le_trans (Nat.le_of_eq hleft) hfits)
        subst hfield
        cases hsum : body.header.blockChecksum with
        | false =>
            simp only [hsum, Bool.false_eq_true, ↓reduceIte, List.nil_append] at hstep ⊢
            exact .go hstep (behind _ _ hspent)
        | true =>
            simp only [hsum, ↓reduceIte] at hstep ⊢
            refine .go hstep (.go (step_storedChecksum ..) ?_)
            simpa using behind _ _ hspent
      · -- the chunk is filled, and what is left of the block goes into the next ones
        have htake : (bytes.take room).length = room := by
          rw [List.length_take]
          omega
        have hpiece : (bytes.take room).length
            = min (min left room) (bytes ++ (field ++ more)).length := by
          rw [htake, List.length_append]
          omega
        have hsplit : bytes ++ (field ++ more)
            = bytes.take room ++ (bytes.drop room ++ (field ++ more)) := by
          rw [← List.append_assoc (bytes.take room), List.take_append_drop]
        have hstep := step_stored body sum left_pos ⟨bytes ++ (field ++ more), used⟩ room hsplit
          hpiece
        have hdrop : (bytes.drop room).length = left - (bytes.take room).length := by
          rw [List.length_drop, htake, hleft]
        have hne : bytes.drop room ++ (field ++ more) ≠ [] := by
          refine List.ne_nil_of_length_pos ?_
          rw [List.length_append, hdrop, htake]
          omega
        rw [dif_pos (by omega)] at hstep
        refine .again hstep (idleHint_pos (stored_waits ..)) hne ?_
        have hpos := room_pos hchunk (out ++ bytes.take room).size
        refine ih (left - (bytes.take room).length + 0) ?_ _ hdrop (.inl rfl) 0 ?_ ?_ ?_
        · rw [← hmeasure, htake]
          split <;> omega
        · intro used room' hroom'
          rw [append_list_append, List.take_append_drop, ← append_append, List.take_append_drop]
          refine behind used room' ?_
          rw [size_append_list, hdrop, htake] at hroom'
          have hsize : out.size + room + (left - room) = out.size + bytes.length := by omega
          rwa [hsize] at hroom'
        · rw [header_append, ← blockSum_append, List.take_append_drop]
          exact hfield
        · rw [if_neg (Nat.ne_of_gt hpos)]

/-- A stored block is read, size word and all. -/
theorem Feeds.storedBlock {chunkLength : Nat} (hchunk : 0 < chunkLength) {body : Body}
    {bytes : Bytes} (ne_nil : bytes ≠ []) (length_le : bytes.length ≤ body.header.blockSize.bytes)
    {more : Bytes} {last : Decoder} {out all : Array UInt8} {room : Nat}
    (hroom : Room chunkLength out.size room) (used : Nat)
    (behind : ∀ used room, Room chunkLength (out.size + bytes.length) room →
      Feeds chunkLength (beforeBlock (body.append bytes)) ⟨more, used⟩ room (out ++ bytes) last
        all) :
    Feeds chunkLength (beforeBlock body)
      ⟨(Payload.stored bytes).encode body.header.blockChecksum ++ more, used⟩ room out last
      all := by
  have hpos := List.length_pos_iff.mpr ne_nil
  have hsum : blockField body bytes = if body.header.blockChecksum then
      Xxh32.field (blockSum body .empty bytes).digest else [] := by
    unfold blockField blockSum
    split <;> rfl
  rw [encode_stored]
  refine .go (step_storedWord body hpos length_le ..) ?_
  rw [hsum]
  exact .stored hchunk hpos rfl (by simpa using hroom) _ (by simpa using behind)

/-- A compressed block is read, and its content waits in front of a chunk that has room. -/
theorem Feeds.compressedBlock {chunkLength : Nat} {body : Body} {before block bytes : Bytes}
    (hhistory : body.history = body.header.history before) (ne_nil : block ≠ [])
    (length_le : block.length ≤ body.header.blockSize.bytes)
    (holds : (Payload.compressed bytes).Holds (body.header.history before)
      body.header.blockSize.bytes block) {more : Bytes} {last : Decoder} {out all : Array UInt8}
    {room : Nat} (hroom : Room chunkLength out.size room) (used : Nat)
    (behind : ∀ used, Feeds chunkLength (.pending (body.append block) block ne_nil) ⟨more, used⟩
      (chunkLength - out.size % chunkLength) out last all) :
    Feeds chunkLength (beforeBlock body)
      ⟨(Payload.compressed bytes).encode body.header.blockChecksum ++ more, used⟩ room out last
      all := by
  rcases length_compressed holds length_le with ⟨hpos, hfits⟩
  have hlen := length_withField body bytes
  have hne : bytes ++ blockField body bytes ++ more ≠ [] := by
    simp [List.ne_nil_of_length_pos hpos]
  have hfield (used : Nat) : Feeds chunkLength
      (.compressed body (.empty (Nat.add_pos_left hpos body.checksumLength)))
      ⟨bytes ++ blockField body bytes ++ more, used⟩ (chunkLength - out.size % chunkLength) out last
      all := by
    have hstep := step_compressed body (Nat.add_pos_left hpos body.checksumLength) hlen more used
      (chunkLength - out.size % chunkLength)
    rw [afterCompressed_block hhistory ne_nil holds.1] at hstep
    exact .go hstep (by simpa using behind _)
  have hstep := step_compressedWord body hpos hfits (bytes ++ blockField body bytes ++ more) used
    room
  rw [encode_compressed]
  by_cases hnone : room = 0
  · -- a full chunk ends the run in front of the block
    rw [if_pos (.inl hnone)] at hstep
    exact .again hstep (by omega) hne (by simpa using hfield 0)
  · have hroomy : ¬ (room = 0 ∨ (bytes ++ blockField body bytes ++ more).isEmpty = true) := by
      rintro (hzero | hempty)
      · exact hnone hzero
      · exact hne (List.isEmpty_iff.mp hempty)
    rw [if_neg hroomy] at hstep
    obtain rfl := hroom.resolve_right fun h => hnone h.1
    exact .go hstep (by simpa using hfield _)

/-- Blocks in front of more input come out. -/
theorem Feeds.blocks {chunkLength : Nat} (hchunk : 0 < chunkLength) {header : Header}
    {before content wire : Bytes} (h : Blocks header before content wire) {body : Body}
    (hheader : body.header = header) (hhistory : body.history = header.history before)
    {more : Bytes} (hmore : more ≠ []) {last : Decoder} {out all : Array UInt8} {room : Nat}
    (hroom : Room chunkLength out.size room) (used : Nat)
    (behind : ∀ used room, Room chunkLength (out.size + content.length) room →
      Feeds chunkLength (beforeBlock (body.append content)) ⟨more, used⟩ room (out ++ content) last
        all) :
    Feeds chunkLength (beforeBlock body) ⟨wire ++ more, used⟩ room out last all := by
  -- on the row; each block becomes history for the blocks behind it
  induction h generalizing body out room used with
  | nil => simpa using behind used room (by simpa using hroom)
  | @cons before block content wire payload ne_nil length_le holds _ ih =>
      subst hheader
      have hnext (used room : Nat) (hroom : Room chunkLength (out.size + block.length) room) :
          Feeds chunkLength (beforeBlock (body.append block)) ⟨wire ++ more, used⟩ room
            (out ++ block) last all := by
        refine ih (by simp) ?_ (by simpa using hroom) used fun used room hroom => ?_
        · simpa using history_append hhistory block
        · rw [append_list_append, ← append_append]
          refine behind used room ?_
          rw [List.length_append]
          rwa [size_append_list, Nat.add_assoc] at hroom
      rw [List.append_assoc]
      cases payload with
      | stored bytes =>
          obtain rfl : bytes = block := holds
          exact .storedBlock hchunk ne_nil length_le hroom used hnext
      | compressed bytes =>
          refine .compressedBlock hhistory ne_nil length_le holds hroom used fun used => ?_
          have hne : wire ++ more ≠ [] := by simp [hmore]
          exact .pending hchunk ne_nil hne (room_pos hchunk _) (.inl rfl) used hnext

/-- A header is read, and nothing comes out of it. -/
theorem Feeds.header {chunkLength : Nat} {header : Header} (writable : header.Writable)
    (more : Bytes) {last : Decoder} {all : Array UInt8} {room : Nat} (used : Nat)
    (behind : ∀ used, Feeds chunkLength (beforeBlock (.ofHeader header)) ⟨more, used⟩ room #[] last
      all) :
    Feeds chunkLength .new ⟨header.encode ++ more, used⟩ room #[] last all := by
  rcases encode_split header with ⟨piece, fields, hjoined, hlen⟩
  rw [← hjoined, List.append_assoc]
  rcases step_header writable hjoined hlen (fields ++ more) used room
      with ⟨size_lt, hsize, hstep⟩ | ⟨rfl, hstep⟩
  · have hstep' := @step_longHeader _ header _ ⟨piece.toArray, size_lt⟩ fields writable hjoined
      hsize more (used + Header.minLength) room
    exact .go hstep (.go hstep' (by simpa using behind _))
  · exact .go hstep (by simpa using behind _)

end Decompressor

end Lz4Frame
