import Lz4Frame.Proofs.Decoder.Reading

/-!
# Cutting the input

Whatever room a step had and wherever its piece of input was cut, going on with the rest comes to
the same reading (`step_reading`).  The parts that a step goes through are shown to read the same
wherever the input is cut (`reading_field` for fields, `read_stored_append` for stored blocks), and
the law collects them place by place.
-/

namespace Lz4Frame.Decoder

/-! ## Fields -/

variable [Platform]

theorem reading_rest {next : Decoder} (h : next.Waits) (input : Input) (out more : Bytes) :
    (rest next input out).reading more = (next.read (input.rest ++ more)).prepend out := by
  simp [rest, Step.reading, Nat.ne_of_gt (idleHint_pos h)]

omit [Platform] in
theorem stored_waits (body : Body) (sum : Xxh32) {left : Nat} (left_pos : 0 < left) :
    (stored body sum left left_pos).Waits :=
  trivial

omit [Platform] in
theorem pending_waits (body : Body) {content : Bytes} (ne_nil : content ≠ []) :
    (pending body content ne_nil).Waits :=
  trivial

theorem reading_afterHeader (bytes piece more : Bytes) (used used' : Nat) :
    (afterHeader bytes ⟨piece, used⟩).reading more
      = (afterHeader bytes ⟨piece ++ more, used'⟩).reading [] := by
  unfold afterHeader nextBlock
  split <;> simp [Step.reading]

theorem reading_afterOpening (bytes : Array UInt8) (size_eq : bytes.size = Header.minLength)
    (piece more : Bytes) (used used' : Nat) :
    (afterOpening bytes size_eq ⟨piece, used⟩).reading more
      = (afterOpening bytes size_eq ⟨piece ++ more, used'⟩).reading [] := by
  unfold afterOpening
  split
  · simp [Step.reading]
  · simp [Step.reading]
  · split
    · simp [Step.reading]
    · exact reading_afterHeader ..

theorem reading_afterStored (body : Body) (sum : Xxh32) (piece more out : Bytes)
    (used used' : Nat) :
    (afterStored body sum ⟨piece, used⟩ out).reading more
      = (afterStored body sum ⟨piece ++ more, used'⟩ out).reading [] := by
  unfold afterStored nextBlock
  split <;> simp [Step.reading]

theorem reading_afterBlockSize (body : Body) (number : Nat) (piece more : Bytes)
    (used used' room room' : Nat) :
    (afterBlockSize body number ⟨piece, used⟩ room).reading more
      = (afterBlockSize body number ⟨piece ++ more, used'⟩ room').reading [] := by
  unfold afterBlockSize afterBlocks
  simp only
  split
  · repeat' split
    all_goals simp [Step.reading]
  · split
    · simp [Step.reading]
    · split
      · exact reading_afterStored ..
      · split
        · simp [Step.reading]
        · -- stopping in front of a compressed block or going on there is all the same
          split <;> split <;> simp [Step.reading]

theorem reading_afterCompressed (body : Body) (bytes piece more : Bytes) (used used' : Nat) :
    (afterCompressed body bytes ⟨piece, used⟩).reading more
      = (afterCompressed body bytes ⟨piece ++ more, used'⟩).reading [] := by
  unfold afterCompressed nextBlock
  simp only
  repeat' split
  all_goals simp [Step.reading]

/-- A place that fills a field can be fed the field in pieces, if what comes behind the field reads
the same wherever the input is cut. -/
theorem reading_field {n : Nat} {place : Partial n → Decoder}
    {after : (bytes : Array UInt8) → bytes.size = n → Input → Nat → Step} (h : Fills place after)
    (hafter : ∀ bytes size_eq piece more used used' room room',
      (after bytes size_eq ⟨piece, used⟩ room).reading more
        = (after bytes size_eq ⟨piece ++ more, used'⟩ room').reading [])
    (held : Partial n) (input : Input) (room : Nat) (more : Bytes) :
    ((place held).step input room).reading more = (place held).read (input.rest ++ more) := by
  rcases input with ⟨piece, used⟩
  rw [read_eq, h.step_eq, h.step_eq]
  by_cases hshort : piece.length < held.missing
  · -- the field goes on in what follows
    rw [held.fill_of_lt _ hshort, ← held.fill_extend piece more 0 hshort]
    simp only [reading_rest (h.waits _), List.nil_append, Reading.prepend_nil]
    rw [read_eq, h.step_eq]
    by_cases hmore : more.length < (held.extend piece hshort).missing
    · rw [Partial.fill_of_lt _ _ hmore, Partial.fill_of_lt _ _ hmore]
      simp [reading_rest (h.waits _)]
    · rcases (held.extend piece hshort).fill_of_le more 0 (by omega) with ⟨_, hfull⟩
      rcases (held.extend piece hshort).fill_of_le more (0 + piece.length)
        (by omega) with ⟨_, hfull'⟩
      rw [hfull, hfull']
      simpa using hafter _ _ _ [] _ _ _ _
  · have hlong : held.missing ≤ (piece ++ more).length := by
      rw [List.length_append]
      omega
    rcases held.fill_of_le piece used (by omega) with ⟨_, hfull⟩
    rcases held.fill_of_le (piece ++ more) 0 hlong with ⟨_, hfull'⟩
    have htake : (piece ++ more).take held.missing = piece.take held.missing :=
      List.take_append_of_le_length (by omega)
    have hdrop : (piece ++ more).drop held.missing = piece.drop held.missing ++ more :=
      List.drop_append_of_le_length (by omega)
    rw [hfull, hfull']
    simp only [htake, hdrop]
    exact hafter ..

/-! ## Content in pieces -/

omit [Platform] in
@[simp] theorem header_account (body : Body) (content : Bytes) :
    (body.account content).header = body.header := rfl

omit [Platform] in
@[simp] theorem history_account (body : Body) (content : Bytes) :
    (body.account content).history = body.history := rfl

omit [Platform] in
@[simp] theorem header_append (body : Body) (content : Bytes) :
    (body.append content).header = body.header := by
  unfold Body.append
  simp only
  split <;> rfl

omit [Platform] in
theorem account_append (body : Body) (first second : Bytes) :
    body.account (first ++ second) = (body.account first).account second := by
  have hsum : UInt64.ofNat (first.length + second.length)
      = UInt64.ofNat first.length + UInt64.ofNat second.length := UInt64.ofNat_add ..
  have hsub : body.remaining - (UInt64.ofNat first.length + UInt64.ofNat second.length)
      = body.remaining - UInt64.ofNat first.length - UInt64.ofNat second.length := by
    simp only [UInt64.sub_eq_add_neg, UInt64.neg_add, UInt64.add_assoc]
  simp only [Body.account, List.length_append, hsum, hsub, Xxh32.update_append]
  split <;> split <;> rfl

omit [Platform] in
theorem append_append (body : Body) (first second : Bytes) :
    body.append (first ++ second) = (body.append first).append second := by
  unfold Body.append
  rw [account_append]
  cases hlinked : body.header.linked with
  | false => simp [hlinked]
  | true =>
      simp only [header_account, hlinked, ↓reduceIte, List.foldl_append]
      rfl

/-- The checksum of a stored block with more of its bytes. -/
def blockSum (body : Body) (sum : Xxh32) (piece : Bytes) : Xxh32 :=
  if body.header.blockChecksum then sum.update piece else sum

omit [Platform] in
theorem blockSum_append (body : Body) (sum : Xxh32) (first second : Bytes) :
    blockSum body sum (first ++ second)
      = blockSum (body.append first) (blockSum body sum first) second := by
  unfold blockSum
  rw [header_append, Xxh32.update_append]
  split <;> rfl

/-- A stored block takes its bytes from the input, as far as there is room for them. -/
theorem step_stored (body : Body) (sum : Xxh32) {left : Nat} (left_pos : 0 < left)
    (input : Input) (room : Nat) {piece tail : Bytes} :
    input.rest = piece ++ tail → piece.length = min (min left room) input.rest.length →
      step (.stored body sum left left_pos) input room =
        if h : piece.length < left then
          rest (.stored (body.append piece) (blockSum body sum piece) (left - piece.length)
            (Nat.sub_pos_of_lt h)) ⟨tail, input.used + piece.length⟩ piece
        else
          afterStored (body.append piece) (blockSum body sum piece)
            ⟨tail, input.used + piece.length⟩ piece := by
  intro hinput hpiece
  have htake : input.take (min left room) = (piece, ⟨tail, input.used + piece.length⟩) := by
    have hlen := congrArg List.length hinput
    rw [List.length_append] at hlen
    by_cases hshort : min left room ≤ input.rest.length
    · have hmin : min left room = piece.length := by omega
      simp [Input.take, hinput, hmin, List.splitAt_eq]
    · have htail : tail = [] := List.eq_nil_of_length_eq_zero (by omega)
      have hmin : piece.length ≤ min left room := by omega
      simp [Input.take, hinput, htail, List.splitAt_eq, List.take_of_length_le hmin,
        List.drop_of_length_le hmin]
  simp only [step, htake, blockSum]

theorem prepend_reading_afterStored (body : Body) (sum : Xxh32) (input : Input)
    (first second more : Bytes) :
    ((afterStored body sum input second).reading more).prepend first
      = (afterStored body sum input (first ++ second)).reading more := by
  unfold afterStored nextBlock
  split <;> simp [Step.reading]

/-- Reading a stored block takes all of its bytes that are there. -/
theorem read_stored_eq (body : Body) (sum : Xxh32) {left : Nat} (left_pos : 0 < left)
    {input piece tail : Bytes} :
    input = piece ++ tail → piece.length = min left input.length →
      (stored body sum left left_pos).read input =
        if h : piece.length < left then
          ((stored (body.append piece) (blockSum body sum piece) (left - piece.length)
            (Nat.sub_pos_of_lt h)).read tail).prepend piece
        else
          (afterStored (body.append piece) (blockSum body sum piece) ⟨tail, piece.length⟩
            piece).reading [] := by
  intro hinput hpiece
  -- ample room is no limit
  have hroom := lt_ample (.stored body sum left left_pos) input
  have htaken : piece.length
      = min (min left (ample (.stored body sum left left_pos) input)) input.length := by omega
  rw [read_eq, step_stored body sum left_pos ⟨input, 0⟩ _ hinput htaken]
  split
  · rw [reading_rest (stored_waits ..)]
    simp
  · simp

/-- A stored block reads the same if some of its bytes come first. -/
theorem read_stored_append (body : Body) (sum : Xxh32) {left : Nat} (left_pos : 0 < left)
    (first second : Bytes) (h : first.length < left) :
    (read (.stored body sum left left_pos) (first ++ second))
      = (read (.stored (body.append first) (blockSum body sum first) (left - first.length)
          (Nat.sub_pos_of_lt h)) second).prepend first := by
  -- what the block takes of the bytes that come second
  obtain ⟨piece, tail, hsecond, hpiece⟩ : ∃ piece tail, second = piece ++ tail
      ∧ piece.length = min (left - first.length) second.length :=
    ⟨_, _, (List.take_append_drop (left - first.length) second).symm, List.length_take⟩
  have hwhole : first ++ second = (first ++ piece) ++ tail := by rw [hsecond, List.append_assoc]
  have hsize : (first ++ piece).length = min left (first ++ second).length := by
    rw [List.length_append, List.length_append]
    omega
  have hsub : left - (first ++ piece).length = left - first.length - piece.length := by
    rw [List.length_append, Nat.sub_sub]
  rw [read_stored_eq _ _ _ hwhole hsize, read_stored_eq _ _ _ hsecond hpiece]
  by_cases hshort : piece.length < left - first.length
  · have hshort' : (first ++ piece).length < left := by
      rw [List.length_append]
      omega
    rw [dif_pos hshort, dif_pos hshort']
    simp only [append_append, blockSum_append, hsub, Reading.prepend_prepend]
  · have hshort' : ¬ (first ++ piece).length < left := by
      rw [List.length_append]
      omega
    rw [dif_neg hshort, dif_neg hshort', prepend_reading_afterStored, append_append,
      blockSum_append]
    simpa using reading_afterStored _ _ _ [] _ _ _

/-- Content that waits is handed out as a whole if there is room for it. -/
theorem step_pending (body : Body) {content : Bytes} (ne_nil : content ≠ []) (input : Input)
    {room : Nat} :
    content.length ≤ room →
      (pending body content ne_nil).step input room = nextBlock body input content := by
  intro hroom
  simp [step, List.take_of_length_le hroom, List.drop_of_length_le hroom]

omit [Platform] in
theorem drop_ne_nil {content : Bytes} {room : Nat} (h : room < content.length) :
    content.drop room ≠ [] :=
  fun hnil => Nat.not_le.mpr h (List.drop_eq_nil_iff.mp hnil)

/-- Otherwise the rest of it waits on. -/
theorem step_pending_part (body : Body) {content : Bytes} (ne_nil : content ≠ []) (input : Input)
    {room : Nat} (hroom : room < content.length) :
    (pending body content ne_nil).step input room
      = rest (pending body (content.drop room) (drop_ne_nil hroom)) input (content.take room) := by
  simp [step, Nat.not_le.mpr hroom]

/-- Content that waits comes first. -/
theorem read_pending (body : Body) {content : Bytes} (ne_nil : content ≠ []) (input : Bytes) :
    (pending body content ne_nil).read input
      = ((beforeBlock body).read input).prepend content := by
  have hroom : content.length ≤ ample (.pending body content ne_nil) input := by
    unfold ample
    simp only [pendingLength]
    omega
  rw [read_eq, step_pending body ne_nil _ hroom]
  simp [nextBlock, Step.reading]

theorem step_skip {size left room : Nat} (input : Input) :
    step (.skip size left) input room =
      if input.rest.length < left then
        rest (.skip size (left - input.rest.length)) ⟨[], input.used + input.rest.length⟩ []
      else
        .stop new ⟨input.rest.drop left, input.used + left⟩ [] 0 := by
  simp only [step, Input.take, List.splitAt_eq, List.length_take]
  by_cases hshort : input.rest.length < left
  · have hmin : min left input.rest.length = input.rest.length := by omega
    simp [hshort, hmin, List.drop_of_length_le (Nat.le_of_lt hshort)]
  · have hmin : min left input.rest.length = left := by omega
    simp [hshort, hmin]

theorem read_skip (size left : Nat) (input : Bytes) :
    (skip size left).read input =
      if input.length < left then ⟨[], .waiting (skip size (left - input.length))⟩
      else ⟨[], .ended (input.drop left)⟩ := by
  rw [read_eq, step_skip]
  simp only
  split
  · rename_i hshort
    have hwaits : (skip size (left - input.length)).Waits := Nat.sub_pos_of_lt hshort
    rw [reading_rest hwaits]
    simpa using read_nil hwaits rfl
  · simp [Step.reading]

theorem reading_stored (body : Body) (sum : Xxh32) {left : Nat} (left_pos : 0 < left)
    (input : Input) (room : Nat) (more : Bytes) :
    (step (.stored body sum left left_pos) input room).reading more
      = (stored body sum left left_pos).read (input.rest ++ more) := by
  obtain ⟨piece, tail, hinput, hpiece⟩ : ∃ piece tail, input.rest = piece ++ tail
      ∧ piece.length = min (min left room) input.rest.length :=
    ⟨_, _, (List.take_append_drop (min left room) input.rest).symm, List.length_take⟩
  rw [step_stored body sum left_pos input room hinput hpiece, hinput, List.append_assoc]
  by_cases hshort : piece.length < left
  · rw [dif_pos hshort, reading_rest (stored_waits ..), read_stored_append _ _ _ _ _ hshort]
  · -- the whole block was there, so ample room makes no difference
    have hlen := congrArg List.length hinput
    rw [List.length_append] at hlen
    have hwhole : piece.length = min left (piece ++ (tail ++ more)).length := by
      rw [List.length_append]
      omega
    rw [read_stored_eq _ _ _ rfl hwhole, dif_neg hshort, dif_neg hshort]
    exact reading_afterStored ..

theorem reading_pending (body : Body) {content : Bytes} (ne_nil : content ≠ []) (input : Input)
    (room : Nat) (more : Bytes) :
    (step (.pending body content ne_nil) input room).reading more
      = (pending body content ne_nil).read (input.rest ++ more) := by
  rw [read_pending]
  simp only [step, List.splitAt_eq]
  by_cases hnil : content.drop room = []
  · have htake : content.take room = content := by
      simpa [hnil] using List.take_append_drop room content
    rw [dif_pos hnil]
    simp [nextBlock, Step.reading, htake]
  · rw [dif_neg hnil, reading_rest (pending_waits ..), read_pending]
    simp

theorem reading_skip (size left : Nat) (input : Input) (room : Nat) (more : Bytes) :
    (step (.skip size left) input room).reading more
      = (skip size left).read (input.rest ++ more) := by
  rw [step_skip, read_skip]
  by_cases hshort : input.rest.length < left
  · have hwaits : (skip size (left - input.rest.length)).Waits := Nat.sub_pos_of_lt hshort
    rw [if_pos hshort, reading_rest hwaits]
    simp only [List.nil_append, Reading.prepend_nil, read_skip, List.length_append]
    by_cases hmore : more.length < left - input.rest.length
    · have hshort' : input.rest.length + more.length < left := by omega
      rw [if_pos hmore, if_pos hshort', Nat.sub_sub]
    · have hshort' : ¬ input.rest.length + more.length < left := by omega
      rw [if_neg hmore, if_neg hshort', List.drop_append,
        List.drop_of_length_le (Nat.le_of_lt hshort), List.nil_append]
  · have hshort' : ¬ (input.rest ++ more).length < left := by
      rw [List.length_append]
      omega
    rw [if_neg hshort, if_neg hshort']
    simp [Step.reading, List.drop_append_of_le_length (Nat.le_of_not_lt hshort)]

/-! ## The law of steps -/

/-- Whatever room a step had, and wherever its piece of input was cut, the rest of the input comes
to the same reading. -/
theorem step_reading (decoder : Decoder) (input : Input) (room : Nat) (more : Bytes) :
    (decoder.step input room).reading more = decoder.read (input.rest ++ more) := by
  cases decoder with
  | opening held =>
      apply reading_field opening_fills
      intro bytes size_eq piece more used used' room room'
      exact reading_afterOpening ..
  | longHeader held =>
      apply reading_field longHeader_fills
      intro bytes size_eq piece more used used' room room'
      exact reading_afterHeader ..
  | blockSize body held =>
      apply reading_field (blockSize_fills body)
      intro bytes size_eq piece more used used' room room'
      exact reading_afterBlockSize ..
  | stored body sum left left_pos => exact reading_stored body sum left_pos input room more
  | storedChecksum body sum held =>
      apply reading_field (storedChecksum_fills body sum)
      intro bytes size_eq piece more used used' room room'
      unfold afterStoredChecksum
      split <;> simp [nextBlock, Step.reading]
  | compressed body held =>
      apply reading_field (compressed_fills body)
      intro bytes size_eq piece more used used' room room'
      exact reading_afterCompressed ..
  | pending body content ne_nil => exact reading_pending body ne_nil input room more
  | trailer body held =>
      apply reading_field (trailer_fills body)
      intro bytes size_eq piece more used used' room room'
      unfold afterTrailer
      split <;> simp [Step.reading]
  | skipSize held =>
      apply reading_field skipSize_fills
      intro bytes size_eq piece more used used' room room'
      simp [afterSkipSize, Step.reading]
  | skip size left => exact reading_skip size left input room more
  | failed code =>
      rw [read_eq]
      rfl

/-! ## Readings that go on -/

/-- What a reading comes to if `more` follows the bytes that were read. -/
def Reading.goOn (reading : Reading) (more : Bytes) : Reading :=
  match reading.verdict with
  | .ended rest => ⟨reading.content, .ended (rest ++ more)⟩
  | .bad code => ⟨reading.content, .bad code⟩
  | .waiting next => (next.read more).prepend reading.content

theorem Reading.goOn_prepend (out : Bytes) (reading : Reading) (more : Bytes) :
    (reading.prepend out).goOn more = (reading.goOn more).prepend out := by
  rcases reading with ⟨content, verdict⟩
  cases verdict <;> simp [goOn, Reading.prepend]

/-- A byte string that is read in two parts reads as a whole. -/
theorem read_append (decoder : Decoder) (first second : Bytes) :
    decoder.read (first ++ second) = (decoder.read first).goOn second := by
  have hstep_reading (decoder : Decoder) (first : Bytes) :=
    step_reading decoder ⟨first, 0⟩ (decoder.ample first) second
  -- on the steps of the first part; each leads to the same reading whatever follows
  fun_induction read decoder first with
  | case1 decoder first next input out hstep _ ih =>
      rw [Reading.goOn_prepend, ← ih]
      simpa [hstep] using (hstep_reading decoder first).symm
  | case2 decoder first next input out hstep =>
      rw [← hstep_reading decoder first, hstep]
      rfl
  | case3 decoder first next input out hint hstep hhint =>
      rw [← hstep_reading decoder first, hstep]
      simp [Step.reading, hhint, (step_ample hstep hhint).2.1, Reading.goOn]
  | case4 decoder first code hstep =>
      rw [← hstep_reading decoder first, hstep]
      rfl

end Lz4Frame.Decoder
