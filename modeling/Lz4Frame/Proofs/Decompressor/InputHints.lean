import Lz4Frame.Platform.Reference
import Lz4Frame.Proofs.Decoder.Standing
import Lz4Frame.Proofs.Decompressor.Requests
import Lz4Frame.Proofs.Truncation

/-!
# Hints and the end of a frame

Every place in a frame has a least number of bytes that still belong to the frame (`least`), and a
reading that ends has taken them (`read_least`).  What a decoder asks for is no more than that, but
for one place: in a compressed block the checksum of the block is counted twice.  So hints stay
within the frame wherever anything but a bare end mark follows the block, and go four bytes beyond
it where nothing else does (`Decompressor.hint_within`, `hint_beyond`).
-/

namespace Lz4Frame

open Decoder

namespace Decoder

/-! ## What a frame still has -/

/-- The bytes that a frame has at least behind a place inside it. -/
def least : Decoder → Nat
  | .blockSize _ held => held.missing
  | .stored body _ left _ => left + body.checksumLength + 4
  | .storedChecksum _ _ held => held.missing + 4
  | .compressed _ held => held.missing + 4
  | .pending _ _ _ => 4
  | .trailer _ held => held.missing
  | _ => 0

/-- Whether a step on some input accounts for `n` bytes: it has taken them, or they are still to
come. -/
def Step.Accounts (n : Nat) (input : Input) : Step → Prop
  | .go next input' _ => n + input'.rest.length ≤ next.least + input.rest.length
  | .stop _ input' _ hint => hint = 0 → n + input'.rest.length ≤ input.rest.length
  | .fail _ => True

theorem accounts_rest {next : Decoder} (h : next.Waits) (n : Nat) (input input' : Input)
    (out : Bytes) : (rest next input' out).Accounts n input :=
  fun hzero => absurd hzero (Nat.ne_of_gt (idleHint_pos h))

/-- No step takes more than its input. -/
theorem accounts_zero {result : Step} {input : Input}
    (h : ∀ input', result.input? = some input' → input.Leaves input') :
    result.Accounts 0 input := by
  have hle {input' : Input} (hleaves : input.Leaves input') :
      input'.rest.length ≤ input.rest.length := by
    rcases hleaves with ⟨taken, htaken, -⟩
    rw [htaken, List.length_append]
    omega
  cases result with
  | go next input' out =>
      have := hle (h input' rfl)
      simp only [Step.Accounts]
      omega
  | stop next input' out hint =>
      have := hle (h input' rfl)
      simp only [Step.Accounts]
      omega
  | fail code => trivial

/-- A step that has taken some bytes accounts for them, besides what it does behind them. -/
theorem Step.Accounts.behind {result : Step} {n taken : Nat} {input input' : Input}
    (h : result.Accounts n input') (htaken : taken + input'.rest.length = input.rest.length) :
    result.Accounts (taken + n) input := by
  cases result with
  | go next input'' out =>
      simp only [Step.Accounts] at h ⊢
      omega
  | stop next input'' out hint =>
      simp only [Step.Accounts] at h ⊢
      omega
  | fail code => trivial

theorem accounts_afterStored (body : Body) (sum : Xxh32) (input : Input) (out : Bytes) :
    (afterStored body sum input out).Accounts (body.checksumLength + 4) input := by
  unfold afterStored Body.checksumLength
  split
  · exact Nat.le_refl _
  · simp [nextBlock, beforeBlock, Step.Accounts, least, Partial.missing, Partial.empty]

variable [Platform]

theorem accounts_afterCompressed (body : Body) (bytes : Bytes) (input : Input) :
    (afterCompressed body bytes input).Accounts 4 input := by
  unfold afterCompressed nextBlock
  simp only
  repeat' split
  all_goals first
    | trivial
    | exact Nat.le_refl _

/-- A field accounts for what it was short of, and for what is accounted for behind it. -/
theorem accounts_field {n : Nat} (behind : Nat) {place : Partial n → Decoder}
    {after : (bytes : Array UInt8) → bytes.size = n → Input → Nat → Step} {room : Nat}
    (h : Fills place after)
    (hafter : ∀ bytes size_eq input, (after bytes size_eq input room).Accounts behind input)
    (held : Partial n) (input : Input) :
    ((place held).step input room).Accounts (held.missing + behind) input := by
  rcases input with ⟨piece, used⟩
  rw [h.step_eq]
  by_cases hshort : piece.length < held.missing
  · rw [held.fill_of_lt used hshort]
    exact accounts_rest (h.waits _) _ _ _ _
  · rcases held.fill_of_le piece used (Nat.le_of_not_lt hshort) with ⟨size_eq, hfull⟩
    have hpiece : held.missing + (piece.drop held.missing).length = piece.length := by
      rw [List.length_drop]
      omega
    rw [hfull]
    exact (hafter _ size_eq ⟨piece.drop held.missing, used + held.missing⟩).behind hpiece

/-- Every step accounts for what the frame has at least. -/
theorem step_accounts (decoder : Decoder) (input : Input) (room : Nat) :
    (decoder.step input room).Accounts decoder.least input := by
  cases decoder with
  | blockSize body held =>
      apply accounts_field 0 (blockSize_fills body)
      intro bytes size_eq input
      exact accounts_zero fun _ h => afterBlockSize_input h ▸ input.leaves_refl
  | stored body sum left left_pos =>
      have hafter := accounts_afterStored (body.append (input.take (min left room)).1)
        (if body.header.blockChecksum then sum.update (input.take (min left room)).1 else sum)
        (input.take (min left room)).2 (input.take (min left room)).1
      have hpiece := input.length_take (min left room)
      have hrest := input.length_take_rest (min left room)
      simp only [step]
      split
      · exact accounts_rest (stored_waits ..) _ _ _ _
      · -- the block has ended
        have hchecksum : (body.append (input.take (min left room)).1).checksumLength
            = body.checksumLength := by rw [Body.checksumLength, header_append]; rfl
        rw [hchecksum] at hafter
        rw [least, Nat.add_assoc]
        exact hafter.behind (by omega)
  | storedChecksum body sum held =>
      apply accounts_field 4 (storedChecksum_fills body sum)
      intro bytes size_eq input
      unfold afterStoredChecksum
      split
      · exact Nat.le_refl _
      · trivial
  | compressed body held =>
      apply accounts_field 4 (compressed_fills body)
      intro bytes size_eq input
      exact accounts_afterCompressed ..
  | pending body content ne_nil =>
      simp only [step, List.splitAt_eq]
      split
      · exact Nat.le_refl _
      · exact accounts_rest (pending_waits ..) _ _ _ _
  | trailer body held =>
      apply accounts_field 0 (trailer_fills body)
      intro bytes size_eq input
      refine accounts_zero fun input' h => ?_
      unfold afterTrailer at h
      split at h
      · exact Option.some.inj h ▸ input.leaves_refl
      · cases h
  | _ => exact accounts_zero fun _ => step_leaves

/-- A frame that ends has had all the bytes that it has at least. -/
theorem read_least {decoder : Decoder} {input tail : Bytes} :
    (decoder.read input).verdict = .ended tail →
      decoder.least + tail.length ≤ input.length := by
  intro h
  fun_induction read decoder input with
  | case1 decoder input next input' out hstep _ ih =>
      have haccounts := step_accounts decoder ⟨input, 0⟩ (decoder.ample input)
      have hrest := ih h
      rw [hstep] at haccounts
      simp only [Step.Accounts] at haccounts
      omega
  | case2 decoder input next input' out hstep =>
      have haccounts := step_accounts decoder ⟨input, 0⟩ (decoder.ample input)
      rw [hstep] at haccounts
      obtain rfl := Verdict.ended.inj h
      exact haccounts rfl
  | case3 => cases h
  | case4 => cases h

/-! ## The end of a frame -/

/-- In front of a block, either nothing but a bare end mark is left of a frame, or eight bytes and
more are. -/
theorem read_beforeBlock_ended {body : Body} {input tail : Bytes} :
    ((beforeBlock body).read input).verdict = .ended tail →
      input.length = tail.length + 4 ∧ body.header.contentChecksum = false
        ∨ tail.length + 8 ≤ input.length := by
  intro h
  have hmark := read_least h
  obtain ⟨word, more, rfl, hword⟩ : ∃ word more, input = word ++ more ∧ word.length = 4 := by
    refine ⟨input.take 4, _, (List.take_append_drop 4 input).symm, ?_⟩
    rw [List.length_take]
    simp only [beforeBlock, least, Partial.missing, Partial.empty, List.size_toArray,
      List.length_nil] at hmark
    omega
  have hgoes {next : Decoder} (hended : (next.read more).verdict = .ended tail)
      (hleast : 4 ≤ next.least) : tail.length + 8 ≤ (word ++ more).length := by
    have := read_least hended
    rw [List.length_append]
    omega
  rw [read_beforeBlock body hword more 0, afterBlockSize] at h
  simp only at h
  split at h
  · -- the end mark
    rw [afterBlocks] at h
    split at h
    · cases h
    · cases hsum : body.header.contentChecksum with
      | true =>
          simp only [hsum, ↓reduceIte, reading_go, List.append_nil, Reading.prepend_nil] at h
          exact .inr (hgoes h (Nat.le_refl 4))
      | false =>
          simp only [hsum, Bool.false_eq_true, ↓reduceIte, Step.reading, List.append_nil,
            Verdict.ended.injEq] at h
          rw [h, List.length_append, hword, Nat.add_comm]
          exact .inl ⟨rfl, rfl⟩
  · -- a block, and at least an end mark behind it
    refine .inr ?_
    have hcompressed {length : Nat} (pos : 0 < length) :
        4 ≤ (compressed body (.empty pos)).least := Nat.le_add_left ..
    split at h
    · cases h
    split at h
    · rw [afterStored] at h
      split at h
      · simp only [reading_go, List.append_nil, Reading.prepend_nil] at h
        exact hgoes h (by simp [least])
      · simp only [nextBlock, reading_go, List.append_nil, Reading.prepend_nil] at h
        exact hgoes h (Nat.le_refl 4)
    split at h
    · simp only [reading_go, List.append_nil, Reading.prepend_nil] at h
      exact hgoes h (Nat.le_add_left ..)
    split at h
    · have hnz (length : Nat) : ¬ 4 + length = 0 := by omega
      simp only [Step.reading, hnz, ↓reduceIte, List.append_nil, Reading.prepend_nil] at h
      exact hgoes h (hcompressed _)
    · simp only [reading_go, List.append_nil, Reading.prepend_nil] at h
      exact hgoes h (hcompressed _)

/-- The same behind the bytes that a compressed block is short of. -/
theorem read_compressed_ended {body : Body} {length : Nat} {held : Partial length}
    {input tail : Bytes} (h : ((compressed body held).read input).verdict = .ended tail) :
    input.length = tail.length + held.missing + 4 ∧ body.header.contentChecksum = false
      ∨ tail.length + held.missing + 8 ≤ input.length := by
  have hleast := read_least h
  simp only [least] at hleast
  have hmissing : held.missing ≤ input.length := by omega
  rcases held.fill_of_le input 0 hmissing with ⟨size_eq, hfull⟩
  have hdrop : (input.drop held.missing).length = input.length - held.missing := List.length_drop
  have hgoes {next : Body} (hheader : next.header = body.header)
      (hended : ((beforeBlock next).read (input.drop held.missing)).verdict = .ended tail) :
      input.length = tail.length + held.missing + 4 ∧ body.header.contentChecksum = false
        ∨ tail.length + held.missing + 8 ≤ input.length := by
    rcases read_beforeBlock_ended hended with ⟨hlength, hnone⟩ | hlength
    · exact .inl ⟨by omega, hheader ▸ hnone⟩
    · exact .inr (by omega)
  rw [read_eq, (compressed_fills body).step_eq, hfull] at h
  simp only at h
  unfold afterCompressed at h
  simp only at h
  split at h
  · cases h
  · split at h
    · cases h
    · rename_i next content hexpand
      have hheader := header_expand? hexpand
      split at h
      · exact hgoes hheader (by simpa [nextBlock] using h)
      · refine hgoes hheader ?_
        simpa [read_pending] using h

/-! ## Where hints stand -/

/-- Whether a decoder is in the last block of a frame, which is compressed and has a checksum, with
nothing but a bare end mark behind it. -/
def InLastBlock (decoder : Decoder) (unread : Nat) : Prop :=
  ∃ body length, ∃ held : Partial length, decoder = .compressed body held
    ∧ body.header.blockChecksum = true ∧ body.header.contentChecksum = false
    ∧ unread = held.missing + 4

/-- A hint that stays within what is unread, or goes four bytes beyond it at that one place. -/
def HintWithin (decoder : Decoder) (unread hint : Nat) : Prop :=
  hint ≤ unread ∨ decoder.InLastBlock unread ∧ hint = unread + 4

omit [Platform] in
theorem InLastBlock.idleHint_eq {decoder : Decoder} {unread : Nat} :
    decoder.InLastBlock unread → decoder.idleHint = unread + 4 := by
  rintro ⟨body, length, held, rfl, hsum, -, rfl⟩
  simp only [Decoder.idleHint, Body.checksumLength, hsum, ↓reduceIte]

/-- What a decoder asks for that is given nothing. -/
theorem Along.idle_hint {header : Header} {wire : Bytes} {decoder : Decoder} {rest : Bytes}
    (h : Along header wire decoder rest) (hwire : 4 ≤ wire.length) :
    decoder.HintWithin rest.length decoder.idleHint := by
  have hleast := read_least h.ends
  rw [List.length_nil, Nat.add_zero] at hleast
  cases h.stands with
  | @opening held _ joined =>
      have hmin := header.minLength_le
      have hlt := held.size_lt
      have hheld := congrArg List.length joined
      simp only [List.length_append, Array.length_toList] at hheld
      refine .inl ?_
      simp only [Decoder.idleHint, Partial.missing, Array.isEmpty, decide_eq_true_eq]
      split <;> omega
  | @longHeader held _ started joined =>
      have hlt := held.size_lt
      have hheld := congrArg List.length joined
      simp only [List.length_append, Array.length_toList] at hheld
      refine .inl ?_
      simp only [Decoder.idleHint, Partial.missing]
      omega
  | inside header_eq behind =>
      cases decoder with
      | compressed body held =>
          rcases read_compressed_ended h.ends with ⟨hlength, hnone⟩ | hlength
          · -- with a checksum of the block the hint is too long by it
            simp only [List.length_nil, Nat.zero_add] at hlength
            rw [hlength]
            cases hsum : body.header.blockChecksum with
            | true =>
                have hlast : (compressed body held).InLastBlock (held.missing + 4) :=
                  ⟨body, _, held, rfl, hsum, hnone, rfl⟩
                exact .inr ⟨hlast, hlast.idleHint_eq⟩
            | false =>
                refine .inl ?_
                simp [Decoder.idleHint, Body.checksumLength, hsum]
          · refine .inl ?_
            have hchecksum : body.checksumLength ≤ 4 := by
              unfold Body.checksumLength
              split <;> omega
            simp only [List.length_nil, Nat.zero_add] at hlength
            simp only [Decoder.idleHint]
            omega
      | storedChecksum body sum held =>
          refine .inl (Nat.le_trans ?_ hleast)
          simp [Decoder.idleHint, least]
      | blockSize body held => exact .inl hleast
      | stored body sum left left_pos => exact .inl hleast
      | pending body content ne_nil => exact .inl hleast
      | trailer body held => exact .inl hleast
      | _ => cases header_eq

omit [Platform] in
theorem info?_hint {decoder : Decoder} {hint : Nat} {info : FrameInfo} :
    decoder.info? hint = .ok info → info.hint = hint := by
  intro h
  cases decoder <;> cases h <;> rfl

/-- What a decoder asks for that has stopped. -/
theorem Along.asked_hint {header : Header} {wire : Bytes} {decoder : Decoder} {rest : Bytes}
    {hint : Nat} (h : Along header wire decoder rest) (hwire : 4 ≤ wire.length) :
    decoder.Asks hint → decoder.HintWithin rest.length hint := by
  rintro (rfl | ⟨body, length, pos, rfl, rfl⟩)
  · exact h.idle_hint hwire
  · -- right behind the size word the block is counted once
    have hleast := read_least h.ends
    simp only [least, Partial.missing, Partial.empty, List.size_toArray, List.length_nil] at hleast
    exact .inl (by omega)

end Decoder

namespace Decompressor

section

variable [Platform]

/-- Along a frame that was made, in whatever pieces it comes and whatever the chunks are, hints stay
within what was not used of the frame, those of a call as well as those that are told when a
decompressor is asked about its frame; but in the last block, if it is compressed and has a checksum
and the content has none, a hint may go four bytes beyond the frame, and one that is told there
does. -/
theorem hint_within {content frame : Bytes} (made : Made content frame)
    {decompressor : Decompressor} (ready : decompressor.Ready) {portions : List Portion}
    (hfront : joined portions <+: frame) :
    let session := decompressor.updates portions
    let unread := frame.length - session.used
    ((∀ portion ∈ portions, portion.Fits) →
        session.failure = none ∧ session.used = (joined portions).length)
      ∧ (∀ last ∈ session.answers.getLast?, session.final.decoder.HintWithin unread last.hint)
      ∧ ∀ info, session.final.frameInfo.2.value = .ok info →
        session.final.decoder.HintWithin unread info.hint
          ∧ (session.final.decoder.InLastBlock unread → info.hint = unread + 4) := by
  intro session unread
  rcases made.isFrame with ⟨header, hframe⟩
  rcases along_new hframe with ⟨wire, -, hwire, halong⟩
  rw [← ready.decoder_eq] at halong
  rcases updates_along hframe.writable halong hfront with ⟨hreached, hfed⟩
  have hunread : (frame.drop session.used).length = unread := List.length_drop
  refine ⟨hfed, ?_, ?_⟩
  · intro last hlast
    rcases hreached.place with ⟨-, -, other, hother, hzero⟩ | ⟨hplace, hasks⟩
    · obtain rfl : other = last := Option.some.inj (hother.symm.trans hlast)
      exact .inl (hzero ▸ Nat.zero_le _)
    · exact hunread ▸ hplace.asked_hint hwire (hasks last hlast)
  · intro info hinfo
    rcases hreached.place with ⟨-, hnew, -⟩ | ⟨hplace, -⟩
    · rw [frameInfo_of_new hnew] at hinfo
      cases hinfo
    · -- the hint is what the decoder asks for that is given nothing
      rw [frameInfo_value hplace.stands.waits] at hinfo
      cases hknown : session.final.decoder.info? session.final.decoder.idleHint with
      | error code =>
          rw [hknown] at hinfo
          cases hinfo
      | ok info' =>
          rw [hknown] at hinfo
          obtain rfl : info' = info := Except.ok.inj hinfo
          rw [info?_hint hknown, ← hunread]
          exact ⟨hplace.idle_hint hwire, InLastBlock.idleHint_eq⟩

end

open Reference in
/-- Three bytes in a stored block, of which two are there. -/
theorem hint_within_three_bytes :
    Made [1, 2, 3] threeBytes ∧ (new .native).Ready
      ∧ joined [⟨threeBytes.take 13, 1⟩] <+: threeBytes
      ∧ ∀ last ∈ ((new .native).updates [⟨threeBytes.take 13, 1⟩]).answers.getLast?,
          ((new .native).updates [⟨threeBytes.take 13, 1⟩]).final.decoder.HintWithin 5
            last.hint := by
  have hfront : joined [⟨threeBytes.take 13, 1⟩] <+: threeBytes := ⟨threeBytes.drop 13, rfl⟩
  rcases hint_within made_threeBytes (.fresh .native) hfront with ⟨hfed, hlast, -⟩
  have hused := (hfed (List.forall_mem_singleton.mpr ⟨by decide, by decide, by decide⟩)).2
  rw [hused] at hlast
  exact ⟨made_threeBytes, .fresh .native, hfront, hlast⟩

end Decompressor

/-- A frame of thirteen zeros in a block that is compressed and has a checksum. -/
def checkedZeros : Bytes :=
  [0x04, 0x22, 0x4d, 0x18, 0x50, 0x40, 0xc0, 0x0a, 0x00, 0x00, 0x00, 0x13, 0x00, 0x01, 0x00, 0x50,
    0x00, 0x00, 0x00, 0x00, 0x00, 0x2a, 0x6b, 0xd0, 0xba, 0x00, 0x00, 0x00, 0x00]

open Reference in
theorem checkedZeros_calls :
    ∃ started active closed : Compressor, ∃ starting finishing : List LockEvent,
      (Compressor.new .native).start { blockChecksum := true }
          = (started, ⟨.ok (checkedZeros.take 7), starting⟩)
        ∧ started.tries [.update (List.replicate 13 0)] = (active, [.ok []])
        ∧ active.finish = (closed, ⟨.ok (checkedZeros.drop 7), finishing⟩) :=
  calls_of_values rfl (ok_of_toOption (by decide +kernel)) (ok_of_toOption (by decide +kernel))

open Reference in
theorem made_checkedZeros : Made (List.replicate 13 0) checkedZeros := by
  rcases checkedZeros_calls with ⟨started, active, closed, _, _, hstart, htries, hfinish⟩
  exact .inParts (by decide) hstart htries hfinish

section

variable [Platform]

/-- A run that ends in the first block of a frame, which is compressed. -/
theorem run_intoBlock {header : Header} (hwritable : header.Writable)
    (hshort : header.encode.length = Header.minLength) {length : Nat} (hpos : 0 < length)
    (hfits : length ≤ header.blockSize.bytes) {piece : Bytes} (hpiece : piece ≠ [])
    (hlt : piece.length < length + (Body.ofHeader header).checksumLength) {room : Nat}
    (hroom : 0 < room) :
    ∃ next, new.run (header.encode ++ ((SizeWord.mk false length).encode ++ piece)) room
      = (next, .ok ⟨Header.minLength + 4 + piece.length, #[],
          length + (Body.ofHeader header).checksumLength - piece.length
            + (Body.ofHeader header).checksumLength + 4, []⟩) := by
  generalize hchecksum : (Body.ofHeader header).checksumLength = checksumLength at hlt
  have hlength : 0 < length + (Body.ofHeader header).checksumLength := Nat.add_pos_left hpos _
  have hmissing : (Partial.empty hlength).missing = length + checksumLength := by
    rw [← hchecksum]
    rfl
  have hshort' : piece.length < (Partial.empty hlength).missing := by rwa [hmissing]
  have hword := step_compressedWord (.ofHeader header) hpos hfits piece Header.minLength room
  rw [if_neg (by simp [hpiece, Nat.ne_of_gt hroom])] at hword
  have hfield := (compressed_fills (.ofHeader header)).step_eq (.empty hlength)
    ⟨piece, Header.minLength + 4⟩ room
  rw [Partial.fill_of_lt _ _ hshort'] at hfield
  rcases step_header hwritable (List.append_nil header.encode) hshort
      ((SizeWord.mk false length).encode ++ piece) 0 room with ⟨hlong, -, -⟩ | ⟨-, hheader⟩
  · simp at hlong
  · rw [Nat.zero_add] at hheader
    refine ⟨.compressed (.ofHeader header) ((Partial.empty hlength).extend piece hshort'), ?_⟩
    rw [run, runFrom_go hheader, List.length_nil, Nat.sub_zero, runFrom_go hword,
      List.length_nil, Nat.sub_zero, runFrom_stop hfield]
    simp [idleHint, Partial.missing_extend, hmissing, hchecksum]

end

open Reference in
/-- The first twelve bytes of that frame, one of them in the block: seventeen are left, and
twenty-one are asked for. -/
theorem hint_beyond :
    Made (List.replicate 13 0) checkedZeros
      ∧ ∃ next decoded events,
        (Decompressor.new .native).update (checkedZeros.take 12) 1 = (next, ⟨.ok decoded, events⟩)
          ∧ decoded.consumed = 12 ∧ checkedZeros.length - decoded.consumed = 17
          ∧ decoded.hint = 21 := by
  have hwritable : (Header.ofPreferences { blockChecksum := true }).Writable :=
    Header.writable_ofPreferences (by decide)
  have hbytes : checkedZeros.take 12 = (Header.ofPreferences { blockChecksum := true }).encode
      ++ ((SizeWord.mk false 10).encode ++ [0x13]) := by decide +kernel
  rcases run_intoBlock hwritable (by decide +kernel) (show 0 < 10 by decide) (by decide)
    (show ([0x13] : Bytes) ≠ [] by decide) (by decide) Nat.one_pos with ⟨next, hrun⟩
  rw [← hbytes] at hrun
  rcases Decompressor.update_run .native ⟨by decide, Nat.one_pos, by decide⟩ hrun
    with ⟨events, hupdate⟩
  exact ⟨made_checkedZeros, _, _, events, hupdate, rfl, rfl, rfl⟩

end Lz4Frame
