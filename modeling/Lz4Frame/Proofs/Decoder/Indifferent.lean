import Lz4Frame.Platform.Reference
import Lz4Frame.Proofs.Block.Placement
import Lz4Frame.Proofs.Frame.Grammar

/-!
# Readings that no place of a history changes

Of all that a platform decides, a reading asks for one thing only: where the history of a compressed
block lies.  A block that is indifferent is read alike whatever the answer (`step_congr`), so if all
the blocks that a reading comes to are indifferent, it is the same on every platform
(`Indifferent.read_congr`).  Frames of the format are read that way, whatever comes behind them
(`WellFormed.indifferent`); `sensitiveFrame` is not.
-/

namespace Lz4Frame

open Block

namespace Decoder

/-- The input completes this compressed block, and its checksum if it needs one. -/
inductive Completes : Decoder → Bytes → Body → Bytes → Prop
  | intro {body : Body} {length : Nat} {held : Partial length} {input block : Bytes}
      {bytes : Array UInt8} {size_eq : bytes.size = length} {behind : Input}
      (hfill : held.fill ⟨input, 0⟩ = (.full bytes size_eq, behind))
      (hfield : bytes.toList = block ++ blockField body block) :
      Completes (.compressed body held) input body block

/-- Reading the input comes to this compressed block, be it on some platform only. -/
inductive Meets : Decoder → Bytes → Body → Bytes → Prop
  | here {decoder : Decoder} {input block : Bytes} {body : Body}
      (hblock : Completes decoder input body block) : Meets decoder input body block
  | later [Platform] {decoder next : Decoder} {input out block : Bytes} {behind : Input}
      {body : Body} (hstep : decoder.step ⟨input, 0⟩ (decoder.ample input) = .go next behind out)
      (hnext : Meets next behind.rest body block) : Meets decoder input body block

/-- Every compressed block that reading comes to is read alike wherever its history lies. -/
def Indifferent (decoder : Decoder) (input : Bytes) : Prop :=
  ∀ body block, Meets decoder input body block →
    Block.Indifferent body.history body.header.blockSize.bytes block

theorem Indifferent.ahead [Platform] {decoder next : Decoder} {input out : Bytes} {behind : Input}
    (h : decoder.Indifferent input) :
    decoder.step ⟨input, 0⟩ (decoder.ample input) = .go next behind out →
      next.Indifferent behind.rest := by
  intro hstep body block hmeets
  exact h body block (.later hstep hmeets)

/-! ## Two platforms -/

theorem expand?_congr (first second : Platform) {body : Body} {block : Bytes} :
    Block.Indifferent body.history body.header.blockSize.bytes block →
      @Body.expand? first body block = @Body.expand? second body block := by
  intro h
  unfold Body.expand?
  simp only [h.decode_eq (@Platform.placement first body.history block)
    (@Platform.placement second body.history block)]

/-- A payload is in front of its checksum, if that is right. -/
theorem eq_withField {body : Body} {bytes : Bytes}
    (hgood : ¬ (body.header.blockChecksum = true
      ∧ bytes.drop (bytes.length - body.checksumLength)
        ≠ Xxh32.field (Xxh32.of (bytes.take (bytes.length - body.checksumLength))))) :
    bytes = bytes.take (bytes.length - body.checksumLength)
      ++ blockField body (bytes.take (bytes.length - body.checksumLength)) := by
  cases hon : body.header.blockChecksum with
  | false => simp [blockField, Body.checksumLength, hon]
  | true =>
      have hfield := Decidable.not_not.mp fun hbad => hgood ⟨hon, hbad⟩
      rw [blockField, if_pos hon, ← hfield, List.take_append_drop]

theorem afterCompressed_congr (first second : Platform) {body : Body} {bytes : Bytes}
    (h : ∀ block, bytes = block ++ blockField body block →
      Block.Indifferent body.history body.header.blockSize.bytes block) (input : Input) :
    @afterCompressed first body bytes input = @afterCompressed second body bytes input := by
  unfold afterCompressed
  simp only
  split
  · rfl
  · rename_i hgood
    rw [expand?_congr first second (h _ (eq_withField hgood))]

/-- Where a step leads is for the platform to decide only behind a block that is not indifferent. -/
theorem step_congr (first second : Platform) {decoder : Decoder} {input : Bytes}
    (h : ∀ body block, Completes decoder input body block →
      Block.Indifferent body.history body.header.blockSize.bytes block) (room : Nat) :
    @step first decoder ⟨input, 0⟩ room = @step second decoder ⟨input, 0⟩ room := by
  cases decoder with
  | compressed body held =>
      unfold step
      simp only
      cases hfill : held.fill ⟨input, 0⟩ with
      | mk filled behind =>
          cases filled with
          | short held' => rfl
          | full bytes size_eq =>
              exact afterCompressed_congr first second
                (fun block hfield => h body block (.intro hfill hfield)) behind
  | _ => rfl

/-- An indifferent reading is the same on every platform. -/
theorem Indifferent.read_congr (first second : Platform) {decoder : Decoder} {input : Bytes} :
    decoder.Indifferent input → @read first decoder input = @read second decoder input := by
  intro h
  have hstep_eq {decoder : Decoder} {input : Bytes} (h : decoder.Indifferent input) :=
    step_congr first second (fun body block hblock => h body block (.here hblock))
      (decoder.ample input)
  -- along the reading; what is ahead of an indifferent place is indifferent too
  induction decoder, input using @read.induct first with
  | case1 decoder input next behind out hstep _ ih =>
      rw [@read_go first _ _ _ _ _ hstep, @read_go second _ _ _ _ _ ((hstep_eq h).symm.trans hstep),
        ih (@Indifferent.ahead first _ _ _ _ _ h hstep)]
  | case2 decoder input next behind out hstep =>
      rw [@read_stop first _ _ _ _ _ _ hstep,
        @read_stop second _ _ _ _ _ _ ((hstep_eq h).symm.trans hstep)]
  | case3 decoder input next behind out hint hstep hhint =>
      rw [@read_stop first _ _ _ _ _ _ hstep,
        @read_stop second _ _ _ _ _ _ ((hstep_eq h).symm.trans hstep)]
  | case4 decoder input code hstep =>
      rw [@read_fail first _ _ _ hstep,
        @read_fail second _ _ _ ((hstep_eq h).symm.trans hstep)]

/-! ## Careful readings -/

/-- A block that is complete is indifferent if a careful reading does not refuse it. -/
theorem Completes.indifferent (careful : Platform)
    (hapart : ∀ history block, @Platform.placement careful history block = .apart)
    {decoder : Decoder} {input block : Bytes} {body : Body}
    (h : Completes decoder input body block)
    (hread : (@read careful decoder input).verdict ≠ .bad .decompressionFailed) :
    Block.Indifferent body.history body.header.blockSize.bytes block := by
  rcases h with @⟨body, length, held, input, block, bytes, size_eq, behind, hfill, hfield⟩
  refine Block.indifferent_iff.mpr fun out hout => ?_
  cases hdecode : Block.decode .apart body.history body.header.blockSize.bytes block with
  | some out' => rw [← hout, Block.decode_of_apart hdecode]
  | none =>
      -- the block is expanded, with the care that it does not stand
      have hstep : @step careful (.compressed body held) ⟨input, 0⟩
          (ample (.compressed body held) input) = .fail .decompressionFailed := by
        rw [(@compressed_fills careful body length).step_eq, hfill]
        simp only
        rw [hfield, @afterCompressed_withField careful]
        simp only [Body.expand?, hapart, hdecode]
      rw [@read_fail careful _ _ _ hstep] at hread
      exact absurd rfl hread

/-- A careful reading comes to indifferent blocks only, unless it fails to decode one. -/
theorem indifferent_of_careful (careful : Platform)
    (hapart : ∀ history block, @Platform.placement careful history block = .apart)
    {decoder : Decoder} {input : Bytes}
    (hread : (@read careful decoder input).verdict ≠ .bad .decompressionFailed) :
    decoder.Indifferent input := by
  intro body block hmeets
  induction hmeets with
  | here hblock => exact hblock.indifferent careful hapart hread
  | @later platform decoder next input out block behind body hstep _ ih =>
      rw [step_congr platform careful fun body block hblock =>
        hblock.indifferent careful hapart hread] at hstep
      rw [@read_go careful _ _ _ _ _ hstep, Reading.verdict_prepend] at hread
      exact ih hread

end Decoder

/-- A frame of the format is indifferent, whatever comes behind it. -/
theorem WellFormed.indifferent {header : Header} {content frame : Bytes}
    (h : WellFormed header content frame) (more : Bytes) :
    Decoder.new.Indifferent (frame ++ more) := by
  refine Decoder.indifferent_of_careful Reference.apart (fun _ _ => rfl) ?_
  rw [@WellFormed.read Reference.apart _ _ _ h more]
  simp

/-! ## A frame that is not indifferent -/

namespace Decoder

/-- A frame of two blocks: one byte, and a block that is not indifferent behind it. -/
def sensitiveFrame : Bytes :=
  (Header.ofPreferences {}).encode ++ ((Payload.stored [7]).encode false
    ++ ((Payload.compressed sensitive).encode false ++ SizeWord.endMark))

theorem length_sensitiveFrame : sensitiveFrame.length = 298 := by
  have hheader : (Header.ofPreferences {}).encode.length = 7 := by decide
  simp [sensitiveFrame, Payload.encode, SizeWord.encode, SizeWord.endMark, length_sensitive,
    hheader]

/-- Reading comes to the second block on every platform. -/
theorem read_sensitiveFrame [Platform] :
    ∃ body : Body, body.header = .ofPreferences {} ∧ body.remaining = 0 ∧ body.history = #[7]
      ∧ new.read sensitiveFrame
        = ((afterCompressed body (sensitive ++ blockField body sensitive)
            ⟨SizeWord.endMark, 0⟩).reading []).prepend [7] := by
  have hfirst : Payloads (.ofPreferences {}) [] [7] ((Payload.stored [7]).encode false) := by
    have hmeans : (Payload.stored [7]).Means ((Header.ofPreferences {}).history [])
        (Header.ofPreferences {}).blockSize.bytes [7] := ⟨rfl, by decide⟩
    exact .cons hmeans .nil
  refine ⟨(Body.ofHeader (.ofPreferences {})).append [7], rfl, rfl, rfl, ?_⟩
  generalize hbody : (Body.ofHeader (.ofPreferences {})).append [7] = body
  have hheader : body.header = .ofPreferences {} := by rw [← hbody]; rfl
  have hpos : 0 < sensitive.length := by
    rw [length_sensitive]
    decide
  have hfits : sensitive.length ≤ body.header.blockSize.bytes := by
    rw [length_sensitive, hheader]
    decide
  have hsecond := read_compressedPayload hpos hfits SizeWord.endMark
  rw [hheader] at hsecond
  rw [sensitiveFrame, read_front (Header.writable_ofPreferences (by decide)) hfirst, hbody,
    ← hsecond]
  rfl

section

variable [Platform] {body : Body} {block : Bytes}

theorem expand?_refused :
    decode (Platform.placement body.history block) body.history body.header.blockSize.bytes block
        = none → body.expand? block = none := by
  intro h
  simp only [Body.expand?, h]

theorem expand?_decoded {out : Array UInt8} :
    decode (Platform.placement body.history block) body.history body.header.blockSize.bytes block
        = some out →
      body.expand? block
        = some (({ body with history := if body.header.linked then out else #[] }).account
            (out.extract body.history.size out.size).toList,
          (out.extract body.history.size out.size).toList) := by
  intro h
  simp only [Body.expand?, h]

end

/-- With its history elsewhere the second block is refused. -/
theorem read_sensitiveFrame_apart :
    @read Reference.apart new sensitiveFrame = ⟨[7], .bad .decompressionFailed⟩ := by
  rcases @read_sensitiveFrame Reference.apart with ⟨body, hheader, -, hhistory, hread⟩
  have hrefused : @Body.expand? Reference.apart body sensitive = none := by
    refine @expand?_refused Reference.apart _ _ ?_
    rw [hheader, hhistory]
    exact (decode_sensitive 7).1
  rw [hread, @afterCompressed_withField Reference.apart, hrefused]
  rfl

/-- With its history in front of it the second block is read, and the frame ends. -/
theorem read_sensitiveFrame_adjoining :
    ∃ content, @read Reference.platform new sensitiveFrame = ⟨content, .ended []⟩ := by
  rcases @read_sensitiveFrame Reference.platform with ⟨body, hheader, hnone, hhistory, hread⟩
  rcases (decode_sensitive 7).2 with ⟨out, hsize, hdecode⟩
  have hexpanded := @expand?_decoded Reference.platform body sensitive out (by
    rw [hheader, hhistory]
    exact hdecode)
  have hne : (out.extract body.history.size out.size).toList ≠ [] := by
    rw [hhistory]
    simp [← List.length_pos_iff, hsize]
  generalize (out.extract body.history.size out.size).toList = content at hexpanded hne
  generalize hnext : Body.account { body with history := if body.header.linked then out else #[] }
    content = next at hexpanded
  have hnone' : next.remaining = 0 := by
    rw [← hnext, Body.account]
    simp only [hheader]
    exact (if_pos rfl).trans hnone
  have hheader' : next.header = .ofPreferences {} := by
    rw [← hnext]
    exact hheader
  have hmark := @read_endMark Reference.platform next hnone' []
  rw [hheader', if_neg (by decide), List.append_nil, List.append_nil] at hmark
  refine ⟨[7] ++ content, ?_⟩
  rw [hread, @afterCompressed_withField Reference.platform, hexpanded]
  simp only [dif_neg hne, reading_go, List.append_nil, Reading.prepend_nil]
  rw [@read_pending Reference.platform, hmark]
  simp [Reading.prepend]

end Decoder

end Lz4Frame
