import Lz4Frame.Proofs.Bound
import Lz4Frame.Proofs.Frame.Grammar

/-!
# What an encoder has sent

An encoder inside a frame stands at some point of the content: in front of it is what its blocks
stand for, behind it what the encoder holds (`Encoder.Within`).  Starting a frame establishes this,
taking content and flushing keep it, and closing the frame turns it into a frame of exactly the
content that was taken (`finish_within`).
-/

namespace Lz4Frame

open Block

/-! ## Payloads by search -/

namespace Searcher

variable [Platform]

theorem independent_holds (searcher : Searcher) (prefs : Preferences) {block : Bytes}
    {capacity : Nat} :
    block.length ≤ capacity → (searcher.independent prefs block).2.Holds #[] capacity block := by
  intro h
  have hplan (plan : Option Plan) :
      (Payload.ofPlan block.toArray 0 block plan).Holds #[] capacity block := by
    simpa using Payload.holds_ofPlan #[] #[] h plan
  cases searcher with
  | fast table => exact hplan _
  | long => exact hplan _

theorem linked_holds (searcher : Searcher) (prefs : Preferences) (before history : Array UInt8)
    (joined : Bool) {block : Bytes} {capacity : Nat} :
    block.length ≤ capacity →
      (searcher.linked prefs history joined block).2.1.Holds (before ++ history) capacity block
        ∧ (searcher.linked prefs history joined block).2.2 = history ++ block := by
  intro h
  cases searcher with
  | fast table => exact ⟨Payload.holds_ofPlan before history h _, rfl⟩
  | long => exact ⟨Payload.holds_ofPlan before history h _, rfl⟩

end Searcher

namespace Encoder

/-! ## Blocks -/

/-- Whether the history of an encoder is the end of what was sent. -/
def Recalls (encoder : Encoder) (sent : Bytes) : Prop :=
  encoder.prefs.linked = true → encoder.history.toList <:+ sent

/-- The header of the encoder's frame. -/
def header (encoder : Encoder) : Header := .ofPreferences encoder.prefs

theorem maxBlock_header (encoder : Encoder) :
    encoder.header.blockSize.bytes = encoder.prefs.maxBlock :=
  Header.bytes_resolved _

variable [Platform]

/-- A block that an encoder makes stands for its bytes, behind all that was sent. -/
theorem makeBlock_holds {encoder : Encoder} {sent : Bytes} (hrecalls : encoder.Recalls sent)
    (joined : Bool) {block : Bytes} :
    block.length ≤ encoder.prefs.maxBlock →
      ∃ (searcher : Searcher) (history : Array UInt8) (payload : Payload),
        encoder.makeBlock joined block
            = ({ encoder with searcher, history }, payload.encode encoder.prefs.blockChecksum)
          ∧ payload.Holds (encoder.header.history sent) encoder.prefs.maxBlock block
          ∧ Recalls { encoder with searcher, history } (sent ++ block) := by
  intro hlen
  rcases encoder with ⟨isOpen, prefs, searcher, history, held, total, digest⟩
  cases hlinked : prefs.linked with
  | false =>
      -- a block on its own, which leaves the history as it is
      refine ⟨(searcher.independent prefs block).1, history, (searcher.independent prefs block).2,
        ?_, ?_, ?_⟩
      · simp only [makeBlock, hlinked, Bool.false_eq_true, ↓reduceIte]
      · simpa [Header.history, header, Header.ofPreferences, hlinked]
          using searcher.independent_holds prefs hlen
      · intro hon
        simp only [hlinked, Bool.false_eq_true] at hon
  | true =>
      have hsent : (header ⟨isOpen, prefs, searcher, history, held, total, digest⟩).history sent
          = sent.toArray := by
        simp [Header.history, header, Header.ofPreferences, hlinked]
      -- the part of the history that the block may refer to
      generalize hseen : (if !joined && decide (history.size < minHistory) then #[] else history)
        = seen
      have hsuffix : seen.toList <:+ sent := by
        rw [← hseen]
        split
        · exact List.nil_suffix
        · exact hrecalls hlinked
      rcases hsuffix with ⟨before, hbefore⟩
      have hwhole : before.toArray ++ seen = sent.toArray := Array.ext' (by simp [hbefore])
      generalize hjoined : (joined || !joined && decide (history.size < minHistory)) = close
      rcases searcher.linked_holds prefs before.toArray seen close hlen with ⟨hholds, hbytes⟩
      rw [hwhole] at hholds
      refine ⟨(searcher.linked prefs seen close block).1,
        if close then (searcher.linked prefs seen close block).2.2 else block.toArray,
        (searcher.linked prefs seen close block).2.1, ?_, by rw [hsent]; exact hholds, ?_⟩
      · simp only [makeBlock, hlinked, ↓reduceIte, hseen, hjoined]
      · intro _
        simp only
        split
        · rw [hbytes]
          exact ⟨before, by simp [← hbefore]⟩
        · exact ⟨sent, by simp⟩

/-- The blocks of one input stand for its pieces, behind all that was sent. -/
theorem makeBlocks_row {pieces : List Bytes} {encoder : Encoder} {sent : Bytes}
    (hrecalls : encoder.Recalls sent) (out : Array UInt8) (joined : Bool) :
    (∀ piece ∈ pieces, piece ≠ [] ∧ piece.length ≤ encoder.prefs.maxBlock) →
      ∃ (searcher : Searcher) (history : Array UInt8) (wire : Bytes),
        encoder.makeBlocks out joined pieces = ({ encoder with searcher, history }, out ++ wire)
          ∧ Row encoder.header sent pieces wire
          ∧ Recalls { encoder with searcher, history } (sent ++ pieces.flatten)
          ∧ wire.length ≤ Bound.perBlock encoder.prefs * pieces.length + pieces.flatten.length := by
  intro hpieces
  -- on the pieces; the history recalls what the blocks so far stand for
  induction pieces generalizing encoder sent out joined with
  | nil =>
      refine ⟨encoder.searcher, encoder.history, [], ?_, .nil, by simpa using hrecalls, by simp⟩
      simp [makeBlocks]
  | cons piece pieces ih =>
      rcases hpieces piece (.head _) with ⟨hne, hle⟩
      rcases makeBlock_holds hrecalls joined hle
          with ⟨searcher, history, payload, hmake, hholds, hrecalls'⟩
      rcases ih hrecalls' (out ++ payload.encode encoder.prefs.blockChecksum) true
          fun piece hmem => hpieces piece (.tail _ hmem)
          with ⟨searcher', history', wire, hmake', hrow, hrecalls'', hlength⟩
      have hencode : _ ≤ Bound.perBlock encoder.prefs + _ :=
        hholds.length_encode_le encoder.prefs.blockChecksum
      rw [← maxBlock_header] at hle hholds
      refine ⟨searcher', history', payload.encode encoder.prefs.blockChecksum ++ wire, ?_, ?_, ?_,
        ?_⟩
      · simp only [makeBlocks, hmake, hmake', append_list_append]
      · exact .cons hne hle hholds hrow
      · simpa using hrecalls''
      · simp only [List.flatten_cons, List.length_append, List.length_cons, Nat.mul_add,
          Nat.mul_one]
        simp only at hlength
        omega

/-- What was waiting, filled up from new input, is one part of the content; nothing is none. -/
def waiting (held : Array UInt8) (input : Bytes) : List Bytes :=
  if held.size = 0 then [] else [held.toList ++ input]

omit [Platform] in
theorem flatten_waiting {held : Array UInt8} {input : Bytes} :
    (held.size = 0 → input = []) → (waiting held input).flatten = held.toList ++ input := by
  intro hnone
  unfold waiting
  split
  · next hempty => simp [Array.eq_empty_of_size_eq_zero hempty, hnone hempty]
  · simp

omit [Platform] in
theorem length_of_mem_waiting {held : Array UInt8} {input part : Bytes} :
    part ∈ waiting held input → held.size ≠ 0 ∧ part.length = held.size + input.length := by
  unfold waiting
  split
  · next => simp
  · next hsome =>
      intro h
      obtain rfl : part = held.toList ++ input := by simpa using h
      simp [hsome]

/-- The block that was waiting, filled up from new input. -/
def fillUp (encoder : Encoder) (held : Array UInt8) (input : Bytes) : Encoder × Bytes :=
  if held.isEmpty then (encoder, []) else encoder.makeBlock true (held.toList ++ input)

theorem fillUp_row {encoder : Encoder} {sent : Bytes} (hrecalls : encoder.Recalls sent)
    (held : Array UInt8) (input : Bytes) :
    held.size + input.length ≤ encoder.prefs.maxBlock →
      ∃ (searcher : Searcher) (history : Array UInt8) (wire : Bytes),
        encoder.fillUp held input = ({ encoder with searcher, history }, wire)
          ∧ Row encoder.header sent (waiting held input) wire
          ∧ Recalls { encoder with searcher, history } (sent ++ (waiting held input).flatten)
          ∧ wire.length ≤ if held.size = 0 then 0 else
              Bound.perBlock encoder.prefs + (held.size + input.length) := by
  intro hlen
  unfold waiting
  by_cases hempty : held.size = 0
  · obtain rfl : held = #[] := Array.eq_empty_of_size_eq_zero hempty
    exact ⟨encoder.searcher, encoder.history, [], rfl, .nil, by simpa using hrecalls, by simp⟩
  · have hisEmpty : held.isEmpty = false := by simpa [Array.isEmpty_iff] using hempty
    have hlength : (held.toList ++ input).length ≤ encoder.prefs.maxBlock := by
      rwa [List.length_append, Array.length_toList]
    rcases makeBlock_holds hrecalls true hlength
        with ⟨searcher, history, payload, hmake, hholds, hrecalls'⟩
    have hencode : _ ≤ Bound.perBlock encoder.prefs + _ :=
      hholds.length_encode_le encoder.prefs.blockChecksum
    rw [← maxBlock_header] at hlength hholds
    simp only [if_neg hempty]
    refine ⟨searcher, history, payload.encode encoder.prefs.blockChecksum, ?_, ?_,
      by simpa using hrecalls', by simpa using hencode⟩
    · rw [fillUp, if_neg (by simp [hisEmpty]), hmake]
    · refine .single ?_ hlength hholds
      intro hnil
      rw [List.append_eq_nil_iff] at hnil
      exact hempty (by rw [← Array.length_toList, hnil.1, List.length_nil])

/-! ## Inside a frame -/

/-- What an encoder has taken and sent since it started a frame: the content is what the blocks
stand for and, behind that, what is held. -/
structure Within (encoder : Encoder) (prefs : Preferences) (content wire : Bytes) : Prop where
  isOpen : encoder.isOpen = true
  prefs_eq : encoder.prefs = prefs
  held_le : encoder.held.size ≤ Bound.mostHeld prefs
  total_eq : encoder.total = content.length
  digest_eq : encoder.digest = if prefs.contentChecksum then Xxh32.empty.update content else .empty
  parts : ∃ sent blocks, content = sent ++ encoder.held.toList
    ∧ wire = (Header.ofPreferences prefs).encode ++ blocks
    ∧ Blocks (Header.ofPreferences prefs) [] sent blocks
    ∧ encoder.Recalls sent

/-- The parts of the content that the blocks sent so far stand for, one by one; what is held comes
behind them. -/
def HasSent (encoder : Encoder) (parts : List Bytes) (content wire : Bytes) : Prop :=
  ∃ blocks, content = parts.flatten ++ encoder.held.toList
    ∧ wire = encoder.header.encode ++ blocks
    ∧ Row encoder.header [] parts blocks
    ∧ encoder.Recalls parts.flatten

omit [Platform] in
theorem Within.hasSent {encoder : Encoder} {prefs : Preferences} {content wire : Bytes} :
    encoder.Within prefs content wire → ∃ parts, encoder.HasSent parts content wire := by
  intro h
  rcases h.parts with ⟨sent, blocks, hcontent, hwire, hblocks, hrecalls⟩
  obtain rfl := h.prefs_eq
  rcases hblocks.row with ⟨parts, rfl, hrow⟩
  exact ⟨parts, blocks, hcontent, hwire, hrow, hrecalls⟩

omit [Platform] in
/-- Part by part or not, the same was sent. -/
theorem HasSent.sent {encoder : Encoder} {parts : List Bytes} {content wire : Bytes} :
    encoder.HasSent parts content wire →
      ∃ sent blocks, content = sent ++ encoder.held.toList
        ∧ wire = encoder.header.encode ++ blocks
        ∧ Blocks encoder.header [] sent blocks
        ∧ encoder.Recalls sent := by
  rintro ⟨blocks, hcontent, hwire, hrow, hrecalls⟩
  exact ⟨parts.flatten, blocks, hcontent, hwire, hrow.blocks, hrecalls⟩

omit [Platform] in
/-- Every block that was sent has a size word, so what was sent cannot be much shorter than the
content that is not held. -/
theorem Within.length_le {encoder : Encoder} {prefs : Preferences} {content wire : Bytes} :
    encoder.Within prefs content wire →
      4 * content.length ≤ 4 * encoder.held.size + prefs.maxBlock * wire.length := by
  intro h
  rcases h.parts with ⟨sent, blocks, rfl, rfl, hblocks, -⟩
  have hmax : (Header.ofPreferences prefs).blockSize.bytes = prefs.maxBlock :=
    Header.bytes_resolved _
  have hsent := hblocks.length_le
  rw [hmax] at hsent
  have hwire : prefs.maxBlock * blocks.length
      ≤ prefs.maxBlock * ((Header.ofPreferences prefs).encode ++ blocks).length :=
    Nat.mul_le_mul_left _ (by rw [List.length_append]; omega)
  have hheld : encoder.held.toList.length = encoder.held.size := Array.length_toList
  rw [List.length_append, hheld]
  omega

omit [Platform] in
/-- A frame starts with its header, whatever was before, and no part of the content. -/
theorem start_sends (encoder : Encoder) {room : Nat} (hroom : Header.maxLength ≤ room)
    (prefs : Preferences) :
    ∃ next, encoder.start room prefs = (next, .ok (Header.ofPreferences prefs).encode)
      ∧ next.Within prefs [] (Header.ofPreferences prefs).encode
      ∧ next.HasSent [] [] (Header.ofPreferences prefs).encode := by
  refine ⟨_, by rw [start, if_neg (Nat.not_lt.mpr hroom)], ?_, ?_⟩
  · exact {
      isOpen := rfl
      prefs_eq := rfl
      held_le := Nat.zero_le _
      total_eq := rfl
      digest_eq := by simp
      parts := ⟨[], [], rfl, by simp, .nil, fun _ => List.nil_suffix⟩ }
  · exact ⟨[], rfl, by simp [header], .nil, fun _ => List.nil_suffix⟩

omit [Platform] in
theorem start_within (encoder : Encoder) {room : Nat} (hroom : Header.maxLength ≤ room)
    (prefs : Preferences) :
    ∃ next, encoder.start room prefs = (next, .ok (Header.ofPreferences prefs).encode)
      ∧ next.Within prefs [] (Header.ofPreferences prefs).encode := by
  rcases encoder.start_sends hroom prefs with ⟨next, hstart, hwithin, -⟩
  exact ⟨next, hstart, hwithin⟩

/-- A flush fills up nothing: what waits becomes a block as it is. -/
theorem flush_eq (encoder : Encoder) {room : Nat} :
    encoder.isOpen = true → (0 < encoder.held.size → encoder.held.size + 8 ≤ room) →
      encoder.flush room =
        let flushed := { encoder with held := #[] }.fillUp encoder.held []
        (flushed.1, .ok flushed.2) := by
  intro hopen hroom
  cases hempty : encoder.held.isEmpty with
  | true =>
      have hnone : { encoder with held := #[] } = encoder := by
        rcases encoder with ⟨isOpen, prefs, searcher, history, held, total, digest⟩
        obtain rfl : held = #[] := by simpa using hempty
        rfl
      rw [flush, if_pos hempty, fillUp, if_pos hempty, hnone]
  | false =>
      have hpos : 0 < encoder.held.size := by
        rw [Array.isEmpty_eq_false_iff, ne_eq, ← Array.size_eq_zero_iff] at hempty
        omega
      have hfits := hroom hpos
      rw [flush, if_neg (by simp [hempty]), if_neg (by simp [hopen]), if_neg (by omega), fillUp,
        if_neg (by simp [hempty]), List.append_nil]

/-- What waits becomes a block, and one more part of the content is sent; room for all of it was at
hand. -/
theorem flush_sends {encoder : Encoder} {prefs : Preferences} {parts : List Bytes}
    {content wire : Bytes} (h : encoder.Within prefs content wire)
    (hsent : encoder.HasSent parts content wire) (room : Nat) :
    (0 < encoder.held.size → encoder.held.size + 8 ≤ room) →
      ∃ next bytes, encoder.flush room = (next, .ok bytes)
        ∧ next.Within prefs content (wire ++ bytes)
        ∧ next.HasSent (parts ++ waiting encoder.held []) content (wire ++ bytes)
        ∧ next.held = #[]
        ∧ bytes.length
          ≤ if encoder.held.size = 0 then 0 else Bound.perBlock prefs + encoder.held.size := by
  intro hroom
  rcases hsent with ⟨blocks, hcontent, hwire, hrow, hrecalls⟩
  obtain rfl := h.prefs_eq
  have hlt := Bound.mostHeld_lt encoder.prefs
  have hle := h.held_le
  have hrecalls₀ : Recalls { encoder with held := #[] } parts.flatten := hrecalls
  rcases fillUp_row hrecalls₀ encoder.held [] (by rw [List.length_nil]; simp only; omega)
      with ⟨searcher, history, bytes, hfill, hblock, hrecalls', hlength⟩
  have hflatten : (parts ++ waiting encoder.held []).flatten
      = parts.flatten ++ encoder.held.toList := by
    rw [List.flatten_append, flatten_waiting fun _ => rfl, List.append_nil]
  have hnext : HasSent { encoder with searcher, history, held := #[] }
      (parts ++ waiting encoder.held []) content (wire ++ bytes) := by
    refine ⟨blocks ++ bytes, ?_, ?_, hrow.append hblock, ?_⟩
    · rw [hflatten, hcontent]
      simp
    · rw [hwire, List.append_assoc]
      rfl
    · rwa [← List.flatten_append] at hrecalls'
  refine ⟨{ encoder with searcher, history, held := #[] }, bytes, ?_, ?_, hnext, rfl,
    by simpa using hlength⟩
  · rw [flush_eq encoder h.isOpen hroom]
    simp only [hfill]
  · exact {
      isOpen := h.isOpen
      prefs_eq := rfl
      held_le := Nat.zero_le _
      total_eq := h.total_eq
      digest_eq := h.digest_eq
      parts := hnext.sent }

/-- Without the room for what waits nothing happens. -/
theorem flush_refused {encoder : Encoder} {room : Nat} (hopen : encoder.isOpen = true)
    (hsome : encoder.held.size ≠ 0) (hshort : room < encoder.held.size + 8) :
    encoder.flush room = (encoder, .error .dstMaxSizeTooSmall) := by
  have hwaits : encoder.held.isEmpty = false := by
    rw [Array.isEmpty_eq_false_iff, ne_eq, ← Array.size_eq_zero_iff]
    exact hsome
  rw [flush, if_neg (by simp [hwaits]), if_neg (by simp [hopen]), if_pos hshort]

/-- A flush sends what waits, or it changes nothing for want of room. -/
theorem flush_cases {encoder : Encoder} {prefs : Preferences} {content wire : Bytes}
    (h : encoder.Within prefs content wire) (room : Nat) :
    encoder.flush room = (encoder, .error .dstMaxSizeTooSmall)
      ∨ ∃ next bytes, encoder.flush room = (next, .ok bytes)
        ∧ next.Within prefs content (wire ++ bytes) := by
  by_cases hroom : 0 < encoder.held.size → encoder.held.size + 8 ≤ room
  · rcases h.hasSent with ⟨parts, hsent⟩
    rcases flush_sends h hsent room hroom with ⟨next, bytes, hflush, hwithin, -⟩
    exact .inr ⟨next, bytes, hflush, hwithin⟩
  · exact .inl (flush_refused h.isOpen (by omega) (by omega))

/-- An encoder that has taken all of an input, before it makes blocks of it. -/
def absorb (encoder : Encoder) (input : Bytes) : Encoder :=
  { encoder with
    held := #[]
    total := encoder.total + input.length
    digest :=
      if encoder.prefs.contentChecksum then encoder.digest.update input else encoder.digest }

omit [Platform] in
@[simp] theorem prefs_absorb (encoder : Encoder) (input : Bytes) :
    (encoder.absorb input).prefs = encoder.prefs :=
  rfl

omit [Platform] in
theorem Recalls.absorb {encoder : Encoder} {sent : Bytes} (h : encoder.Recalls sent)
    (input : Bytes) : (encoder.absorb input).Recalls sent :=
  h

omit [Platform] in
/-- After an update only the blocks and what is held are in question: the rest follows from the
input. -/
theorem Within.absorb {encoder : Encoder} {prefs : Preferences} {content wire wire' : Bytes}
    (h : encoder.Within prefs content wire) {input : Bytes} {searcher : Searcher}
    {history held : Array UInt8} {parts : List Bytes} (held_le : held.size ≤ Bound.mostHeld prefs)
    (hsent : HasSent { encoder.absorb input with searcher, history, held } parts (content ++ input)
      wire') :
    Within { encoder.absorb input with searcher, history, held } prefs (content ++ input)
      wire' := by
  have htotal : encoder.total + input.length = (content ++ input).length := by
    rw [h.total_eq, List.length_append]
  have hdigest : (if encoder.prefs.contentChecksum then encoder.digest.update input
      else encoder.digest)
        = if prefs.contentChecksum then Xxh32.empty.update (content ++ input) else .empty := by
    rw [h.digest_eq, h.prefs_eq]
    split
    · rw [Xxh32.update_append]
    · rfl
  obtain rfl := h.prefs_eq
  exact {
    isOpen := h.isOpen
    prefs_eq := rfl
    held_le := held_le
    total_eq := htotal
    digest_eq := hdigest
    parts := hsent.sent }

/-! ## Updates -/

/-- What is missing to the block that waits; nothing is, if none waits. -/
def missing (encoder : Encoder) : Nat :=
  if encoder.held.size = 0 then 0 else encoder.prefs.maxBlock - encoder.held.size

/-- How much of an input that fills up the block that waits goes into blocks of its own. -/
def direct (encoder : Encoder) (input : Bytes) : Nat :=
  let behind := input.length - encoder.missing
  if encoder.prefs.autoflush then behind
  else behind / encoder.prefs.maxBlock * encoder.prefs.maxBlock

/-- The parts of the content that such an input completes. -/
def completed (encoder : Encoder) (input : Bytes) : List Bytes :=
  waiting encoder.held (input.take encoder.missing)
    ++ chunksOf encoder.prefs.maxBlock ((input.drop encoder.missing).take (encoder.direct input))

/-- What of it is held. -/
def leftover (encoder : Encoder) (input : Bytes) : Bytes :=
  (input.drop encoder.missing).drop (encoder.direct input)

omit [Platform] in
theorem direct_le (encoder : Encoder) (input : Bytes) :
    encoder.direct input ≤ input.length - encoder.missing := by
  unfold direct
  simp only
  split
  · exact Nat.le_refl _
  · exact Nat.div_mul_le_self ..

omit [Platform] in
theorem length_direct (encoder : Encoder) (input : Bytes) :
    ((input.drop encoder.missing).take (encoder.direct input)).length = encoder.direct input := by
  rw [List.length_take, List.length_drop]
  exact Nat.min_eq_left (encoder.direct_le input)

omit [Platform] in
theorem take_missing {encoder : Encoder} {input : Bytes} :
    encoder.held.size = 0 → input.take encoder.missing = [] := by
  intro hempty
  rw [missing, if_pos hempty, List.take_zero]

omit [Platform] in
/-- Nothing gets lost between what waited and what is held. -/
theorem flatten_completed (encoder : Encoder) (input : Bytes) :
    (encoder.completed input).flatten ++ encoder.leftover input
      = encoder.held.toList ++ input := by
  rw [completed, leftover, List.flatten_append, flatten_waiting take_missing, flatten_chunksOf]
  simp only [List.append_assoc, List.take_append_drop]

omit [Platform] in
theorem length_leftover (encoder : Encoder) (input : Bytes) :
    (encoder.leftover input).length ≤ Bound.mostHeld encoder.prefs := by
  rw [leftover, List.length_drop, List.length_drop]
  exact Bound.left_le rfl

omit [Platform] in
/-- Without autoflush only full blocks are sent. -/
theorem length_of_mem_completed {encoder : Encoder} {input part : Bytes}
    (hoff : encoder.prefs.autoflush = false) (hheld : encoder.held.size < encoder.prefs.maxBlock)
    (hlong : encoder.missing ≤ input.length) :
    part ∈ encoder.completed input → part.length = encoder.prefs.maxBlock := by
  intro hmem
  rcases List.mem_append.mp hmem with hwaiting | hpiece
  · rcases length_of_mem_waiting hwaiting with ⟨hsome, hlength⟩
    rw [hlength, List.length_take, Nat.min_eq_left hlong, missing, if_neg hsome]
    omega
  · have hdirect : encoder.direct input = (input.length - encoder.missing)
        / encoder.prefs.maxBlock * encoder.prefs.maxBlock := by
      rw [direct]
      exact if_neg (by simp [hoff])
    exact length_of_mem_chunksOf encoder.prefs.maxBlock_pos
      ((encoder.length_direct input).trans hdirect) hpiece

/-- An update in two parts: the block that was waiting, then the blocks of the input alone. -/
theorem update_eq (encoder : Encoder) {room : Nat} {input : Bytes} (hopen : encoder.isOpen = true)
    (hroom : (Bound.withHeld encoder.prefs (UInt64.ofNat input.length)
      (UInt64.ofNat encoder.held.size)).toNat ≤ room) :
    encoder.update room input =
      if input.length < encoder.missing then
        ({ encoder.absorb input with held := encoder.held ++ input }, .ok [])
      else
        let filled := (encoder.absorb input).fillUp encoder.held (input.take encoder.missing)
        let left := input.length - encoder.missing
        let whole := if filled.1.prefs.autoflush then left
          else left / encoder.prefs.maxBlock * encoder.prefs.maxBlock
        let made := filled.1.makeBlocks filled.2.toArray false
          (chunksOf encoder.prefs.maxBlock ((input.drop encoder.missing).take whole))
        ({ made.1 with held := ((input.drop encoder.missing).drop whole).toArray },
          .ok made.2.toList) := by
  have hmissing : encoder.missing
      = if encoder.held.isEmpty then 0 else encoder.prefs.maxBlock - encoder.held.size := by
    simp only [missing, Array.isEmpty_iff, Array.size_eq_zero_iff]
  rw [update, if_neg (by simp [hopen]), if_neg (Nat.not_lt.mpr hroom), hmissing]
  rfl

/-- An update that fills up the block that waits sends what it completes. -/
theorem update_completes {encoder : Encoder} {sent input : Bytes} {room : Nat}
    (hopen : encoder.isOpen = true) (hheld : encoder.held.size ≤ Bound.mostHeld encoder.prefs)
    (hrecalls : encoder.Recalls sent)
    (hroom : (Bound.withHeld encoder.prefs (UInt64.ofNat input.length)
      (UInt64.ofNat encoder.held.size)).toNat ≤ room) (hlong : encoder.missing ≤ input.length) :
    ∃ (searcher : Searcher) (history : Array UInt8) (bytes : Bytes),
      encoder.update room input
          = ({ encoder.absorb input with
                searcher, history, held := (encoder.leftover input).toArray }, .ok bytes)
        ∧ Row encoder.header sent (encoder.completed input) bytes
        ∧ Recalls { encoder.absorb input with searcher, history }
          (sent ++ (encoder.completed input).flatten)
        ∧ bytes.length + Bound.trailerLength encoder.prefs
          ≤ Bound.worst encoder.prefs input.length encoder.held.size := by
  have hpos := encoder.prefs.maxBlock_pos
  have hlt := Bound.mostHeld_lt encoder.prefs
  have htake : (input.take encoder.missing).length = encoder.missing := by
    rw [List.length_take, Nat.min_eq_left hlong]
  rcases fillUp_row (hrecalls.absorb input) encoder.held (input.take encoder.missing)
      (by
        rw [htake, prefs_absorb, missing]
        split <;> omega)
      with ⟨searcher, history, first, hfill, hfirst, hrecalls₁, hfirstLength⟩
  have hpieces : ∀ piece ∈ chunksOf encoder.prefs.maxBlock
      ((input.drop encoder.missing).take (encoder.direct input)),
        piece ≠ [] ∧ piece.length ≤ encoder.prefs.maxBlock :=
    fun piece hmem => mem_chunksOf hpos hmem
  rcases makeBlocks_row hrecalls₁ first.toArray false hpieces
      with ⟨searcher', history', second, hmake, hsecond, hrecalls₂, hsecondLength⟩
  have hdirect : encoder.direct input = if encoder.prefs.autoflush
      then input.length - encoder.missing
      else (input.length - encoder.missing) / encoder.prefs.maxBlock * encoder.prefs.maxBlock := rfl
  refine ⟨searcher', history', first ++ second, ?_, ?_, ?_, ?_⟩
  · have hbytes : (first.toArray ++ second).toList = first ++ second := by simp
    rw [update_eq encoder hopen hroom, if_neg (Nat.not_lt.mpr hlong)]
    simp only [prefs_absorb] at hmake
    simp only [hfill, prefs_absorb, ← hdirect, hmake, hbytes]
    rfl
  · exact hfirst.append hsecond
  · rw [completed, List.flatten_append, ← List.append_assoc]
    exact hrecalls₂
  · have hmissing : encoder.missing
        = if encoder.held.size = 0 then 0 else encoder.prefs.maxBlock - encoder.held.size := rfl
    have hworst := Bound.made_le_worst hheld hmissing hlong hdirect
    rw [flatten_chunksOf, length_chunksOf hpos, length_direct] at hsecondLength
    simp only [prefs_absorb, htake] at hfirstLength hsecondLength
    rw [List.length_append]
    by_cases hempty : encoder.held.size = 0
    · rw [if_pos hempty] at hfirstLength hworst
      omega
    · rw [if_neg hempty] at hfirstLength hworst
      omega

/-- Content is taken whole if there is room for the worst case, and what it completes is sent: full
blocks, unless short ones are asked for. -/
theorem update_sends {encoder : Encoder} {prefs : Preferences} {parts : List Bytes}
    {content wire : Bytes} (h : encoder.Within prefs content wire)
    (hsent : encoder.HasSent parts content wire) (room : Nat) (input : Bytes)
    (hroom : (Bound.withHeld prefs (UInt64.ofNat input.length)
      (UInt64.ofNat encoder.held.size)).toNat ≤ room) :
    ∃ next bytes added, encoder.update room input = (next, .ok bytes)
      ∧ next.Within prefs (content ++ input) (wire ++ bytes)
      ∧ next.HasSent (parts ++ added) (content ++ input) (wire ++ bytes)
      ∧ (prefs.autoflush = false → ∀ part ∈ added, part.length = prefs.maxBlock)
      ∧ bytes.length + Bound.trailerLength prefs
        ≤ Bound.worst prefs input.length encoder.held.size := by
  rcases hsent with ⟨blocks, hcontent, hwire, hrow, hrecalls⟩
  obtain rfl := h.prefs_eq
  have hheld := h.held_le
  have hlt := Bound.mostHeld_lt encoder.prefs
  by_cases hshort : input.length < encoder.missing
  · -- the block that waits is not filled up
    have hsize : (encoder.held ++ input).size ≤ Bound.mostHeld encoder.prefs := by
      rw [size_append_list]
      exact Bound.held_add_le hheld hshort
    have hnext : HasSent { encoder.absorb input with held := encoder.held ++ input } (parts ++ [])
        (content ++ input) (wire ++ []) := by
      rw [List.append_nil, List.append_nil]
      exact ⟨blocks, by simp [hcontent], hwire, hrow, hrecalls⟩
    refine ⟨_, [], [], by rw [update_eq encoder h.isOpen hroom, if_pos hshort],
      h.absorb hsize hnext, hnext, by simp, ?_⟩
    simp only [List.length_nil, Nat.zero_add, Bound.worst]
    omega
  · have hlong := Nat.le_of_not_lt hshort
    rcases update_completes h.isOpen hheld hrecalls hroom hlong
        with ⟨searcher, history, bytes, hupdate, hadded, hrecalls', hlength⟩
    have hsize : (encoder.leftover input).toArray.size ≤ Bound.mostHeld encoder.prefs := by
      rw [List.size_toArray]
      exact encoder.length_leftover input
    -- what was sent goes on with what the input completes
    have hnext : HasSent { encoder.absorb input with
          searcher, history, held := (encoder.leftover input).toArray }
        (parts ++ encoder.completed input) (content ++ input) (wire ++ bytes) := by
      refine ⟨blocks ++ bytes, ?_, by rw [hwire, List.append_assoc]; rfl, hrow.append ?_, ?_⟩
      · rw [hcontent, List.flatten_append, List.append_assoc, List.append_assoc,
          flatten_completed]
      · rwa [List.nil_append]
      · rwa [List.flatten_append]
    exact ⟨_, bytes, _, hupdate, h.absorb hsize hnext, hnext,
      fun hoff part => length_of_mem_completed hoff (by omega) hlong, hlength⟩

/-- Content is taken whole if there is room for the worst case, and what it completes is sent. -/
theorem update_within {encoder : Encoder} {prefs : Preferences} {content wire : Bytes}
    (h : encoder.Within prefs content wire) (room : Nat) (input : Bytes)
    (hroom : (Bound.withHeld prefs (UInt64.ofNat input.length)
      (UInt64.ofNat encoder.held.size)).toNat ≤ room) :
    ∃ next bytes, encoder.update room input = (next, .ok bytes)
      ∧ next.Within prefs (content ++ input) (wire ++ bytes)
      ∧ bytes.length + Bound.trailerLength prefs
        ≤ Bound.worst prefs input.length encoder.held.size := by
  rcases h.hasSent with ⟨parts, hsent⟩
  rcases update_sends h hsent room input hroom
      with ⟨next, bytes, added, hupdate, hwithin, -, -, hlength⟩
  exact ⟨next, bytes, hupdate, hwithin, hlength⟩

/-- Without the room for the worst case nothing happens. -/
theorem update_refused {encoder : Encoder} {room : Nat} {input : Bytes}
    (hopen : encoder.isOpen = true)
    (hshort : room < (Bound.withHeld encoder.prefs (UInt64.ofNat input.length)
      (UInt64.ofNat encoder.held.size)).toNat) :
    encoder.update room input = (encoder, .error .dstMaxSizeTooSmall) := by
  rw [update, if_neg (by simp [hopen]), if_pos hshort]

/-- An update takes all of its content, or it changes nothing for want of room. -/
theorem update_cases {encoder : Encoder} {prefs : Preferences} {content wire : Bytes}
    (h : encoder.Within prefs content wire) (room : Nat) (input : Bytes) :
    encoder.update room input = (encoder, .error .dstMaxSizeTooSmall)
      ∨ ∃ next bytes, encoder.update room input = (next, .ok bytes)
        ∧ next.Within prefs (content ++ input) (wire ++ bytes) := by
  by_cases hroom : (Bound.withHeld prefs (UInt64.ofNat input.length)
      (UInt64.ofNat encoder.held.size)).toNat ≤ room
  · rcases update_within h room input hroom with ⟨next, bytes, hupdate, hwithin, -⟩
    exact .inr ⟨next, bytes, hupdate, hwithin⟩
  · obtain rfl := h.prefs_eq
    exact .inl (update_refused h.isOpen (Nat.lt_of_not_le hroom))

/-- An update that is granted with less room than the size words of its blocks take overruns it. -/
theorem Within.overrun {encoder : Encoder} {prefs : Preferences} {content wire : Bytes}
    (h : encoder.Within prefs content wire) {room : Nat} {input : Bytes}
    (hgranted : (Bound.withHeld prefs (UInt64.ofNat input.length)
      (UInt64.ofNat encoder.held.size)).toNat ≤ room)
    (hshort : 4 * Bound.mostHeld prefs + prefs.maxBlock * (wire.length + room)
      < 4 * (content.length + input.length)) :
    ∃ next bytes, encoder.update room input = (next, .ok bytes)
      ∧ next.Within prefs (content ++ input) (wire ++ bytes) ∧ room < bytes.length
      ∧ bytes.length ≤ Bound.worst prefs input.length encoder.held.size := by
  rcases update_within h room input hgranted with ⟨next, bytes, hupdate, hwithin, hworst⟩
  refine ⟨next, bytes, hupdate, hwithin, Nat.lt_of_not_le fun hle => ?_, by omega⟩
  have hheld := hwithin.held_le
  have hlength := hwithin.length_le
  have hwire : prefs.maxBlock * (wire.length + bytes.length)
      ≤ prefs.maxBlock * (wire.length + room) := Nat.mul_le_mul_left _ (by omega)
  rw [List.length_append, List.length_append] at hlength
  omega

/-- An update that is granted in the room for its worst case, none of whose sums has wrapped around,
does not overrun it. -/
theorem Within.not_overrun {encoder : Encoder} {prefs : Preferences} {content wire : Bytes}
    (h : encoder.Within prefs content wire) (room : Nat) {input : Bytes} :
    Bound.Countable prefs input.length → ¬ Overrun room (encoder.update room input).2 := by
  intro hcount
  rcases Nat.lt_or_ge room (Bound.withHeld prefs (UInt64.ofNat input.length)
      (UInt64.ofNat encoder.held.size)).toNat with hshort | hroom
  · obtain rfl := h.prefs_eq
    rw [update_refused h.isOpen hshort]
    exact id
  · rcases update_within h room input hroom with ⟨next, bytes, hupdate, -, hlength⟩
    rw [Bound.toNat_withHeld hcount h.held_le] at hroom
    rw [hupdate]
    exact Nat.not_lt.mpr (by omega)

/-! ## The end of a frame -/

omit [Platform] in
theorem length_trailer (encoder : Encoder) :
    encoder.trailer.length = Bound.trailerLength encoder.prefs := by
  unfold trailer Bound.trailerLength
  split <;> simp [SizeWord.endMark]

/-- A frame that was closed was flushed, and there was room for the trailer behind that. -/
theorem finish_ok {encoder next : Encoder} {room : Nat} {bytes : Bytes} :
    encoder.finish room = (next, .ok bytes) →
      ∃ flushed block, encoder.flush room = (flushed, .ok block)
        ∧ flushed.trailer.length ≤ room - block.length
        ∧ next = { flushed with isOpen := false } ∧ bytes = block ++ flushed.trailer := by
  intro h
  unfold finish at h
  split at h
  · cases h
  · rename_i flushed block hflush
    split at h
    · cases h
    · rename_i hroom
      simp only at h
      split at h
      · cases h
      · cases h
        exact ⟨flushed, block, hflush, Nat.le_of_not_lt hroom, rfl, rfl⟩

/-- A frame is closed within its room, and not without any. -/
theorem finish_length_le {encoder next : Encoder} {room : Nat} {bytes : Bytes} :
    encoder.finish room = (next, .ok bytes) → bytes.length ≤ room ∧ 0 < room := by
  intro h
  rcases finish_ok h with ⟨flushed, block, -, hroom, -, rfl⟩
  have hfour := Bound.four_le flushed.prefs
  rw [length_trailer] at hroom
  rw [List.length_append, length_trailer]
  omega

/-- The room that closing a frame takes. -/
def finishRoom (encoder : Encoder) : Nat :=
  (if encoder.held.size = 0 then 0 else Bound.perBlock encoder.prefs + encoder.held.size)
    + Bound.trailerLength encoder.prefs

omit [Platform] in
/-- It is no more than the worst case without new input. -/
theorem Within.finishRoom_le {encoder : Encoder} {prefs : Preferences} {content wire : Bytes}
    (h : encoder.Within prefs content wire) :
    encoder.finishRoom ≤ Bound.worst prefs 0 (Bound.mostHeld prefs) := by
  rw [finishRoom, h.prefs_eq]
  split
  · rw [Nat.zero_add]
    exact Nat.le_add_left ..
  · exact Bound.flush_le_worst h.held_le (by omega)

/-- Where there is room, closing a frame sends what waits and the trailer, unless another length was
declared; either way the frame is closed. -/
theorem finish_sends {encoder : Encoder} {prefs : Preferences} {parts : List Bytes}
    {content wire : Bytes} (h : encoder.Within prefs content wire)
    (hsent : encoder.HasSent parts content wire) (room : Nat) :
    (room < encoder.finishRoom
        ∧ ∃ next, encoder.finish room = (next, .error .dstMaxSizeTooSmall))
      ∨ ∃ next bytes, next.isOpen = false ∧ next.prefs = prefs
        ∧ bytes.length ≤ encoder.finishRoom
        ∧ encoder.finish room = (next,
            if prefs.declaredOrZero ≠ 0 ∧ prefs.declaredOrZero ≠ content.length then
              .error .frameSizeWrong else .ok bytes)
        ∧ (parts ++ waiting encoder.held []).flatten = content
        ∧ ∃ blocks, Row (.ofPreferences prefs) [] (parts ++ waiting encoder.held []) blocks
          ∧ wire ++ bytes = (Header.ofPreferences prefs).encode ++ blocks ++ SizeWord.endMark
            ++ (if prefs.contentChecksum then Xxh32.field (Xxh32.of content) else []) := by
  obtain rfl := h.prefs_eq
  have hfour := Bound.four_le encoder.prefs
  unfold finishRoom
  by_cases hwaits : 0 < encoder.held.size → encoder.held.size + 8 ≤ room
  · rcases flush_sends h hsent room hwaits
        with ⟨flushed, block, hflush, hwithin, hparts, hheld, hlength⟩
    have hprefs := hwithin.prefs_eq
    by_cases hfits : room - block.length < flushed.trailer.length
    · refine .inl ⟨?_, flushed, by rw [finish, hflush]; simp only [hfits, ↓reduceIte]⟩
      rw [length_trailer, hprefs] at hfits
      omega
    rcases hparts with ⟨blocks, hcontent, hwire, hrow, -⟩
    -- nothing is held any more, so the blocks stand for all of the content
    rw [hheld, List.append_nil] at hcontent
    have hfinish : encoder.finish room = ({ flushed with isOpen := false },
        if flushed.prefs.declaredOrZero ≠ 0 ∧ flushed.prefs.declaredOrZero ≠ flushed.total then
          .error .frameSizeWrong else .ok (block ++ flushed.trailer)) := by
      rw [finish, hflush]
      simp only [hfits, ↓reduceIte]
      split <;> rfl
    have hsum : (if encoder.prefs.contentChecksum then Xxh32.field flushed.digest.digest else [])
        = if encoder.prefs.contentChecksum then Xxh32.field (Xxh32.of content) else [] := by
      rw [hwithin.digest_eq]
      split <;> rfl
    rw [header, hprefs] at hwire hrow
    refine .inr ⟨{ flushed with isOpen := false }, block ++ flushed.trailer, rfl, hprefs, ?_,
      by rw [hfinish, hprefs, hwithin.total_eq], hcontent.symm, blocks, hrow, ?_⟩
    · rw [List.length_append, length_trailer, hprefs]
      omega
    · rw [← List.append_assoc, hwire, trailer, hprefs, hsum]
      simp only [List.append_assoc]
  · have hshort : 0 < encoder.held.size ∧ room < encoder.held.size + 8 := by omega
    refine .inl ⟨by rw [if_neg (by omega)]; omega, encoder, ?_⟩
    rw [finish, flush_refused h.isOpen (by omega) hshort.2]

omit [Platform] in
/-- A row of blocks behind the header of some settings and in front of the trailer is a frame. -/
theorem isFrame_of_row {prefs : Preferences} {content blocks : Bytes} {parts : List Bytes}
    (hsize : prefs.declaredOrZero < 0x10000000000000000)
    (hdeclared : prefs.declaredOrZero = 0 ∨ prefs.declaredOrZero = content.length)
    (hflatten : parts.flatten = content) (hrow : Row (.ofPreferences prefs) [] parts blocks) :
    IsFrame (.ofPreferences prefs) content ((Header.ofPreferences prefs).encode ++ blocks
      ++ SizeWord.endMark
      ++ (if prefs.contentChecksum then Xxh32.field (Xxh32.of content) else [])) where
  writable := Header.writable_ofPreferences hsize
  declared := by
    simp only [Header.ofPreferences]
    rcases hdeclared with hzero | hlen
    · simp [hzero]
    · by_cases hzero : prefs.declaredOrZero = 0
      · simp [hzero]
      · rw [if_neg hzero, hlen]
        exact .inr rfl
  parts := ⟨blocks, hflatten ▸ hrow.blocks, rfl⟩

/-- Where there is room, closing a frame makes a frame of all the content, unless another length was
declared; either way the frame is closed. -/
theorem finish_cases {encoder : Encoder} {prefs : Preferences} {content wire : Bytes}
    (h : encoder.Within prefs content wire) (room : Nat) :
    (room < encoder.finishRoom
        ∧ ∃ next, encoder.finish room = (next, .error .dstMaxSizeTooSmall))
      ∨ ∃ next bytes, next.isOpen = false ∧ next.prefs = prefs
        ∧ bytes.length ≤ encoder.finishRoom
        ∧ encoder.finish room = (next,
            if prefs.declaredOrZero ≠ 0 ∧ prefs.declaredOrZero ≠ content.length then
              .error .frameSizeWrong else .ok bytes)
        ∧ (prefs.declaredOrZero < 0x10000000000000000 →
            prefs.declaredOrZero = 0 ∨ prefs.declaredOrZero = content.length →
              IsFrame (.ofPreferences prefs) content (wire ++ bytes)) := by
  rcases h.hasSent with ⟨parts, hsent⟩
  rcases finish_sends h hsent room
      with hshort | ⟨next, bytes, hclosed, hprefs, hlength, hfinish, hflatten, blocks, hrow, hwire⟩
  · exact .inl hshort
  · refine .inr ⟨next, bytes, hclosed, hprefs, hlength, hfinish, fun hsize hdeclared => ?_⟩
    rw [hwire]
    exact isFrame_of_row hsize hdeclared hflatten hrow

/-- Closing a frame makes a frame of all the content, unless another length was declared. -/
theorem finish_within {encoder : Encoder} {prefs : Preferences} {content wire : Bytes}
    (h : encoder.Within prefs content wire) (hsize : prefs.declaredOrZero < 0x10000000000000000)
    {room : Nat} (hroom : encoder.finishRoom ≤ room) :
    ∃ next bytes, next.isOpen = false
      ∧ (prefs.declaredOrZero = 0 ∨ prefs.declaredOrZero = content.length →
          encoder.finish room = (next, .ok bytes)
            ∧ IsFrame (.ofPreferences prefs) content (wire ++ bytes)
            ∧ bytes.length ≤ encoder.finishRoom)
      ∧ (prefs.declaredOrZero ≠ 0 ∧ prefs.declaredOrZero ≠ content.length →
          encoder.finish room = (next, .error .frameSizeWrong)) := by
  rcases finish_cases h room with ⟨hshort, -⟩ | ⟨next, bytes, hclosed, -, hlength, hfinish, hframe⟩
  · omega
  · refine ⟨next, bytes, hclosed, fun hdeclared => ?_, fun hwrong => by rw [hfinish, if_pos hwrong]⟩
    exact ⟨by rw [hfinish, if_neg (by omega)], hframe hsize hdeclared, hlength⟩

end Encoder

end Lz4Frame
