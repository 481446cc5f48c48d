import Lz4Frame.Platform.Reference
import Lz4Frame.Proofs.Compressor.Past
import Lz4Frame.Proofs.RoundTrip

/-!
# Frames and the way their content was cut

A block that stands for itself depends on its own bytes alone, whatever its encoder's table holds
(`Searcher.independent_cleared`).  So without links, without autoflush and without flushes a frame
is settled by its content: the full blocks from the front, then what is left, then the trailer
(`Compressor.frame_settled`).  How the content was cut into updates decides which of them sends a
block, and nothing else.
-/

namespace Lz4Frame

open Block

/-! ## Blocks that stand for themselves -/

section

variable [Platform]

/-- The bytes of an independent block, as a search that has met nothing makes it. -/
def Searcher.alone (prefs : Preferences) (block : Bytes) : Bytes :=
  ((fast .cleared).independent prefs block).2.encode prefs.blockChecksum

theorem Searcher.alone_ne_nil (prefs : Preferences) (block : Bytes) : alone prefs block ≠ [] :=
  List.ne_nil_of_length_pos (Nat.lt_of_lt_of_le (by decide) (Payload.four_le_length_encode ..))

/-- Whether a searcher is a fast one whose table holds nothing but what was met. -/
def Searcher.Sound : Searcher → Prop
  | .fast table => table.Sound
  | .long => False

theorem Searcher.independent_sound {searcher : Searcher} (h : searcher.Sound) (prefs : Preferences)
    {block : Bytes} :
    block ≠ [] →
      (searcher.independent prefs block).1.Sound
        ∧ (searcher.independent prefs block).2.encode prefs.blockChecksum
          = Searcher.alone prefs block := by
  intro hne
  cases searcher with
  | long => exact h.elim
  | fast table =>
      have htidy : (fast table).Tidy 0 := ⟨h, Nat.zero_le _⟩
      refine ⟨?_, by rw [Searcher.independent_cleared h]; rfl⟩
      exact (Searcher.independent_tidy htidy prefs hne).1

namespace Encoder

section Alone

variable {encoder : Encoder} (hoff : encoder.prefs.linked = false) (hsound : encoder.searcher.Sound)
include hoff hsound

theorem makeBlock_sound (joined : Bool) {block : Bytes} :
    block ≠ [] →
      ∃ searcher, searcher.Sound ∧ encoder.makeBlock joined block
        = ({ encoder with searcher }, Searcher.alone encoder.prefs block) := by
  intro hne
  rcases Searcher.independent_sound hsound encoder.prefs hne with ⟨hnext, hbytes⟩
  exact ⟨_, hnext, by rw [makeBlock_alone hoff, hbytes]⟩

theorem fillUp_sound (held : Array UInt8) (input : Bytes) :
    ∃ searcher, searcher.Sound ∧ encoder.fillUp held input
      = ({ encoder with searcher },
          (waiting held input).flatMap (Searcher.alone encoder.prefs)) := by
  unfold fillUp waiting
  by_cases hempty : held.size = 0
  · exact ⟨encoder.searcher, hsound, by simp [Array.eq_empty_of_size_eq_zero hempty]⟩
  · have hisEmpty : ¬held.isEmpty = true := by
      rwa [Array.isEmpty_iff, ← Array.size_eq_zero_iff]
    have hne : held.toList ++ input ≠ [] := by
      intro hnil
      rw [List.append_eq_nil_iff, Array.toList_eq_nil_iff, ← Array.size_eq_zero_iff] at hnil
      exact hempty hnil.1
    rw [if_neg hisEmpty, if_neg hempty, List.flatMap_singleton]
    exact makeBlock_sound hoff hsound true hne

end Alone

theorem makeBlocks_sound {pieces : List Bytes} {encoder : Encoder}
    (hoff : encoder.prefs.linked = false) (hsound : encoder.searcher.Sound) (out : Array UInt8)
    (joined : Bool) :
    (∀ piece ∈ pieces, piece ≠ []) →
      ∃ searcher, searcher.Sound ∧ encoder.makeBlocks out joined pieces
        = ({ encoder with searcher },
            out ++ pieces.flatMap (Searcher.alone encoder.prefs)) := by
  intro hne
  induction pieces generalizing encoder out joined with
  | nil => exact ⟨encoder.searcher, hsound, by simp [makeBlocks]⟩
  | cons piece pieces ih =>
      rcases makeBlock_sound hoff hsound joined (hne piece (.head _)) with ⟨first, hfirst, hmade⟩
      have hoff' : { encoder with searcher := first }.prefs.linked = false := hoff
      rcases ih hoff' hfirst (out ++ Searcher.alone encoder.prefs piece) true
          (fun piece hmem => hne piece (.tail _ hmem)) with ⟨searcher, hlast, hothers⟩
      refine ⟨searcher, hlast, ?_⟩
      simp only [makeBlocks, hmade, hothers, List.flatMap_cons, append_list_append]

/-- An update sends the parts that it completes, each of them alone. -/
theorem update_sound {encoder : Encoder} (hoff : encoder.prefs.linked = false)
    (hsound : encoder.searcher.Sound) (hopen : encoder.isOpen = true) {room : Nat} {input : Bytes}
    (hroom : (Bound.withHeld encoder.prefs (UInt64.ofNat input.length)
      (UInt64.ofNat encoder.held.size)).toNat ≤ room) (hlong : encoder.missing ≤ input.length) :
    ∃ searcher, searcher.Sound ∧ encoder.update room input
      = ({ encoder.absorb input with searcher, held := (encoder.leftover input).toArray },
          .ok ((encoder.completed input).flatMap (Searcher.alone encoder.prefs))) := by
  have hpieces : ∀ piece ∈ chunksOf encoder.prefs.maxBlock
      ((input.drop encoder.missing).take (encoder.direct input)), piece ≠ [] :=
    fun piece hmem => (mem_chunksOf encoder.prefs.maxBlock_pos hmem).1
  have hoff' : (encoder.absorb input).prefs.linked = false := hoff
  rcases fillUp_sound hoff' hsound encoder.held (input.take encoder.missing)
      with ⟨first, hfirst, hfilled⟩
  have hoff'' : { encoder.absorb input with searcher := first }.prefs.linked = false := hoff
  rcases makeBlocks_sound hoff'' hfirst ((waiting encoder.held (input.take encoder.missing)).flatMap
      (Searcher.alone encoder.prefs)).toArray false hpieces with ⟨searcher, hlast, hmade⟩
  refine ⟨searcher, hlast, ?_⟩
  rw [update_of_made hopen hroom hlong hfilled rfl hmade, completed, List.flatMap_append]
  simp only [Array.toList_appendList, absorb]

/-- An update that was granted was for an open frame, and had the room of the worst case. -/
theorem update_ok {encoder next : Encoder} {room : Nat} {input bytes : Bytes} :
    encoder.update room input = (next, .ok bytes) →
      encoder.isOpen = true ∧ (Bound.withHeld encoder.prefs (UInt64.ofNat input.length)
        (UInt64.ofNat encoder.held.size)).toNat ≤ room := by
  intro h
  unfold update at h
  split at h
  · cases h
  · rename_i hopen
    simp only at h
    split at h
    · cases h
    · rename_i hroom
      exact ⟨by simpa using hopen, Nat.le_of_not_lt hroom⟩

/-- Without autoflush an update sends full parts, and nothing gets lost. -/
theorem update_adds {encoder next : Encoder} (hoff : encoder.prefs.linked = false)
    (hwait : encoder.prefs.autoflush = false) (hsound : encoder.searcher.Sound)
    (hheld : encoder.held.size < encoder.prefs.maxBlock) {room : Nat} {input bytes : Bytes} :
    encoder.update room input = (next, .ok bytes) →
      ∃ added : List Bytes, bytes = added.flatMap (Searcher.alone encoder.prefs)
        ∧ (∀ part ∈ added, part.length = encoder.prefs.maxBlock)
        ∧ added.flatten ++ next.held.toList = encoder.held.toList ++ input
        ∧ next.searcher.Sound := by
  intro h
  rcases update_ok h with ⟨hopen, hroom⟩
  by_cases hshort : input.length < encoder.missing
  · rw [update_eq encoder hopen hroom, if_pos hshort] at h
    cases h
    exact ⟨[], rfl, by simp, by simp, hsound⟩
  · have hlong := Nat.le_of_not_lt hshort
    rcases update_sound hoff hsound hopen hroom hlong with ⟨searcher, hsearcher, hupdate⟩
    cases hupdate.symm.trans h
    exact ⟨encoder.completed input, rfl,
      fun part hmem => length_of_mem_completed hwait hheld hlong hmem,
      encoder.flatten_completed input, hsearcher⟩

/-- A flush sends what waits. -/
theorem flush_sound {encoder next : Encoder} (hoff : encoder.prefs.linked = false)
    (hsound : encoder.searcher.Sound) {room : Nat} {bytes : Bytes} :
    encoder.flush room = (next, .ok bytes) →
      bytes = (waiting encoder.held []).flatMap (Searcher.alone encoder.prefs)
        ∧ next.prefs = encoder.prefs ∧ next.digest = encoder.digest := by
  intro h
  unfold flush at h
  split at h
  · rename_i hempty
    cases h
    rw [Array.isEmpty_iff] at hempty
    exact ⟨by simp [waiting, hempty], rfl, rfl⟩
  · rename_i hsome
    split at h
    · cases h
    split at h
    · cases h
    have hoff' : { encoder with held := #[] }.prefs.linked = false := hoff
    rcases fillUp_sound hoff' hsound encoder.held [] with ⟨searcher, -, hfilled⟩
    rw [fillUp, if_neg hsome, List.append_nil] at hfilled
    simp only [hfilled] at h
    cases h
    exact ⟨rfl, rfl, rfl⟩

end Encoder

/-! ## Content in full parts -/

/-- The full parts that content is cut into from the front. -/
def fullParts (size : Nat) (content : Bytes) : List Bytes :=
  chunksOf size (content.take (content.length / size * size))

/-- What is left of it behind the full parts. -/
def remainder (size : Nat) (content : Bytes) : Bytes :=
  content.drop (content.length / size * size)

omit [Platform] in
theorem fullParts_remainder (size : Nat) (content : Bytes) :
    (fullParts size content).flatten ++ remainder size content = content := by
  rw [fullParts, remainder, flatten_chunksOf, List.take_append_drop]

section Parts

variable {size : Nat} (hsize : 0 < size)
include hsize

omit [Platform] in
theorem length_of_mem_fullParts {content part : Bytes} :
    part ∈ fullParts size content → part.length = size := by
  have hlength : (content.take (content.length / size * size)).length
      = content.length / size * size := by
    rw [List.length_take, Nat.min_eq_left (Nat.div_mul_le_self ..)]
  exact length_of_mem_chunksOf hsize hlength

omit [Platform] in
theorem length_remainder (content : Bytes) : (remainder size content).length < size := by
  have hdivided := Nat.div_add_mod content.length size
  have hlt := Nat.mod_lt content.length hsize
  rw [Nat.mul_comm] at hdivided
  rw [remainder, List.length_drop]
  omega

omit [Platform] in
/-- Content is cut into full parts and less than another one in one way only. -/
theorem fullParts_flatten {parts : List Bytes} {rest : Bytes}
    (hfull : ∀ part ∈ parts, part.length = size) (hrest : rest.length < size) :
    fullParts size (parts.flatten ++ rest) = parts
      ∧ remainder size (parts.flatten ++ rest) = rest := by
  have hparts : parts.flatten.length = parts.length * size := by
    rw [List.length_flatten, List.map_congr_left hfull, List.map_const', List.sum_replicate_nat]
  have hwhole : (parts.flatten ++ rest).length / size * size = parts.flatten.length := by
    rw [List.length_append, hparts, Nat.add_comm, Nat.add_mul_div_right _ _ hsize,
      Nat.div_eq_of_lt hrest, Nat.zero_add]
  have hpieces := chunksOf_append hsize hfull []
  rw [List.append_nil, chunksOf_nil, List.append_nil] at hpieces
  rw [fullParts, remainder, hwhole, List.take_left, List.drop_left]
  exact ⟨hpieces, rfl⟩

omit [Platform] in
/-- All parts of the content, and the last one may be short. -/
theorem chunksOf_eq (content : Bytes) :
    chunksOf size content
      = fullParts size content ++ chunksOf size (remainder size content) := by
  rw [← chunksOf_append hsize (fun part hmem => length_of_mem_fullParts hsize hmem),
    fullParts_remainder]

end Parts

namespace Compressor

/-! ## Inside a frame -/

/-- The blocks of the full parts of some content. -/
def fullBlocks (prefs : Preferences) (content : Bytes) : Bytes :=
  (fullParts prefs.maxBlock content).flatMap (Searcher.alone prefs)

theorem fullBlocks_short {prefs : Preferences} {content : Bytes} :
    content.length < prefs.maxBlock → fullBlocks prefs content = [] := by
  intro hshort
  rw [fullBlocks, fullParts, Nat.div_eq_of_lt hshort, Nat.zero_mul, List.take_zero, chunksOf_nil,
    List.flatMap_nil]

theorem fullBlocks_nil (prefs : Preferences) : fullBlocks prefs [] = [] :=
  fullBlocks_short prefs.maxBlock_pos

/-- What closing a frame of some content sends: the block of what is left, and the trailer. -/
def closing (prefs : Preferences) (content : Bytes) : Bytes :=
  (chunksOf prefs.maxBlock (remainder prefs.maxBlock content)).flatMap (Searcher.alone prefs)
    ++ SizeWord.endMark
    ++ (if prefs.contentChecksum then Xxh32.field (Xxh32.of content) else [])

/-- A compressor inside a frame of independent blocks that was never flushed: what it has sent and
what it holds is settled by the content. -/
structure Settled (compressor : Compressor) (prefs : Preferences) (content : Bytes) : Prop where
  within : compressor.Within prefs content
    ((Header.ofPreferences prefs).encode ++ fullBlocks prefs content)
  sound : compressor.encoder.searcher.Sound
  held_eq : compressor.encoder.held.toList = remainder prefs.maxBlock content

section Frame

variable {prefs : Preferences} (hoff : prefs.linked = false)
include hoff

theorem start_settled {compressor : Compressor} (htidy : compressor.encoder.Tidy)
    (hfast : prefs.level < Level.firstHigh) :
    ∃ next, compressor.start prefs = (next, .ofCall (.ok (Header.ofPreferences prefs).encode))
      ∧ next.Settled prefs [] := by
  rcases compressor.start_within (Preferences.validate_fast hfast) with ⟨next, hstart, hwithin⟩
  refine ⟨next, hstart, ?_⟩
  rw [start_fast compressor hfast] at hstart
  cases hstart
  have hsound : (Searcher.fast (compressor.encoder.firstTable prefs)).Sound :=
    Encoder.firstTable_sound htidy hoff
  refine ⟨?_, hsound, by simp [remainder]⟩
  rwa [fullBlocks_nil, List.append_nil]

/-- An update sends the blocks of the full parts that it completes. -/
theorem Settled.update_settled (hwait : prefs.autoflush = false) {compressor : Compressor}
    {content : Bytes} (h : compressor.Settled prefs content) {input : Bytes} :
    input ≠ [] → Bound.Countable prefs input.length →
      ∃ next bytes events, compressor.update input = (next, ⟨.ok bytes, events⟩)
        ∧ next.Settled prefs (content ++ input)
        ∧ fullBlocks prefs (content ++ input) = fullBlocks prefs content ++ bytes := by
  intro hne hcount
  rcases update_within h.within hne hcount with ⟨next, bytes, events, hupdate, hnext, -⟩
  refine ⟨next, bytes, events, hupdate, ?_⟩
  rcases compressor with ⟨gate, encoder, prefs', stage⟩
  rcases h with ⟨⟨rfl, rfl, hencoder⟩, hsound, hheld⟩
  simp only at hencoder hsound hheld
  rcases update_ok hupdate with ⟨room, updated, hupdated, rfl⟩
  have hprefs := hencoder.prefs_eq
  have hlt := Bound.mostHeld_lt prefs'
  have hle := hencoder.held_le
  have hle' := hnext.encoder.held_le
  simp only at hle'
  rcases Encoder.update_adds (hprefs ▸ hoff) (hprefs ▸ hwait) hsound (by rw [hprefs]; omega)
      hupdated with ⟨added, hbytes, hfull, hjoined, hsound'⟩
  rw [hprefs] at hbytes hfull
  -- the content is cut into the full parts of before, those that were added, and what is held
  have hparts : ((fullParts prefs'.maxBlock content ++ added).flatten ++ updated.held.toList)
      = content ++ input := by
    rw [List.flatten_append, List.append_assoc, hjoined, hheld, ← List.append_assoc,
      fullParts_remainder]
  have hall : ∀ part ∈ fullParts prefs'.maxBlock content ++ added,
      part.length = prefs'.maxBlock := by
    intro part hmem
    rcases List.mem_append.mp hmem with hmem | hmem
    · exact length_of_mem_fullParts prefs'.maxBlock_pos hmem
    · exact hfull part hmem
  have hshort : updated.held.toList.length < prefs'.maxBlock := by
    rw [Array.length_toList]
    exact Nat.lt_of_le_of_lt hle' hlt
  have hsettled := fullParts_flatten prefs'.maxBlock_pos hall hshort
  rw [hparts] at hsettled
  have hblocks : fullBlocks prefs' (content ++ input) = fullBlocks prefs' content ++ bytes := by
    rw [fullBlocks, hsettled.1, List.flatMap_append, hbytes]
    rfl
  exact ⟨⟨by rw [hblocks, ← List.append_assoc]; exact hnext, hsound', hsettled.2.symm⟩, hblocks⟩

/-- Closing the frame sends the rest of it, unless another length was declared. -/
theorem Settled.finish_settled {compressor : Compressor} {content : Bytes}
    (h : compressor.Settled prefs content) :
    compressor.finish.2.value
      = if prefs.declaredOrZero ≠ 0 ∧ prefs.declaredOrZero ≠ content.length then
          .error (.frame .frameSizeWrong) else .ok (closing prefs content) := by
  rcases finish_cases h.within with ⟨next, bytes, -, -, -, -, -, hfinish, -⟩
  rw [hfinish]
  split
  · rfl
  rename_i hgood
  rw [if_neg hgood] at hfinish
  rcases compressor with ⟨gate, encoder, prefs', stage⟩
  rcases h with ⟨⟨rfl, rfl, hencoder⟩, hsound, hheld⟩
  simp only at hencoder hsound hheld
  rcases finish_ok hfinish with ⟨room, closed, hclosed⟩
  rcases Encoder.finish_ok hclosed with ⟨flushed, block, hflushed, -, -, rfl⟩
  have hprefs := hencoder.prefs_eq
  rcases Encoder.flush_sound (hprefs ▸ hoff) hsound hflushed with ⟨hblock, hsame, hdigest⟩
  rw [hprefs] at hblock hsame
  -- what waits is less than a full part
  have hrest := length_remainder prefs'.maxBlock_pos content
  have hwaiting : Encoder.waiting encoder.held []
      = chunksOf prefs'.maxBlock (remainder prefs'.maxBlock content) := by
    rw [← hheld, Array.length_toList] at hrest
    rw [← hheld, Encoder.waiting]
    split
    · rename_i hempty
      simp [Array.eq_empty_of_size_eq_zero hempty]
    · rename_i hsome
      have hne : encoder.held.toList ≠ [] := by
        rwa [ne_eq, Array.toList_eq_nil_iff, ← Array.size_eq_zero_iff]
      rw [List.append_nil, chunksOf_short hne (by rw [Array.length_toList]; omega)]
  have hsum : flushed.trailer = SizeWord.endMark
      ++ (if prefs'.contentChecksum then Xxh32.field (Xxh32.of content) else []) := by
    rw [Encoder.trailer, hsame, hdigest, hencoder.digest_eq]
    split <;> rfl
  rw [hblock, hwaiting, hsum, closing, List.append_assoc]
  rfl

/-- Updates that fit are all granted, and settle what is sent, call by call. -/
theorem Settled.calls_settled (hwait : prefs.autoflush = false) {compressor : Compressor}
    {content : Bytes} (h : compressor.Settled prefs content) {row : List Call}
    (hfits : ∀ call ∈ row, call.Fits prefs) (hnone : .flush ∉ row) :
    ∃ next outputs, compressor.calls row = (next, .ok outputs)
      ∧ next.Settled prefs (content ++ contentOf row)
      ∧ outputs.length = row.length
      ∧ ∀ k, fullBlocks prefs (content ++ contentOf (row.take k))
          = fullBlocks prefs content ++ (outputs.take k).flatten := by
  -- on the calls; each goes on from the content of those before it
  induction row generalizing compressor content with
  | nil => exact ⟨compressor, [], rfl, by simpa using h, rfl, by simp⟩
  | cons call row ih =>
      rw [List.mem_cons, not_or] at hnone
      cases call with
      | flush => exact absurd rfl hnone.1
      | update input =>
          rcases hfits _ (.head _) with ⟨hne, hcount⟩
          rcases h.update_settled hoff hwait hne hcount
              with ⟨middle, bytes, events, hupdate, hmiddle, hbytes⟩
          rcases ih hmiddle (fun call hmem => hfits call (.tail _ hmem)) hnone.2
              with ⟨next, outputs, hcalls, hnext, hlength, hall⟩
          refine ⟨next, bytes :: outputs, ?_, ?_, congrArg Nat.succ hlength, fun k => ?_⟩
          · simp only [calls, call, hupdate, hcalls]
          · rwa [List.append_assoc] at hnext
          · cases k with
            | zero => simp
            | succ k =>
                have hfurther := hall k
                rw [hbytes, List.append_assoc, List.append_assoc] at hfurther
                exact hfurther

end Frame

/-! ## Whole frames -/

/-- A frame whose calls are all granted: what starting it sends, what each of the calls sends, and
what closing it answers. -/
def MakesFrame (compressor : Compressor) (prefs : Preferences) (row : List Call) (header : Bytes)
    (outputs : List Bytes) (ending : Except Error Bytes) : Prop :=
  ∃ started active, compressor.start prefs = (started, .ofCall (.ok header))
    ∧ started.calls row = (active, .ok outputs) ∧ active.finish.2.value = ending

/-- Whatever a compressor was asked before, a frame of independent blocks without autoflush and
flushes is settled by its content: each call sends the blocks of the full parts that it completes,
and closing sends the rest. -/
theorem frame_settled {compressor : Compressor} (htidy : compressor.encoder.Tidy)
    {prefs : Preferences} (hfast : prefs.level < Level.firstHigh) (hoff : prefs.linked = false)
    (hwait : prefs.autoflush = false) {row : List Call} (hfits : ∀ call ∈ row, call.Fits prefs)
    (hnone : .flush ∉ row) :
    ∃ outputs, compressor.MakesFrame prefs row (Header.ofPreferences prefs).encode outputs
        (if prefs.declaredOrZero ≠ 0 ∧ prefs.declaredOrZero ≠ (contentOf row).length then
          .error (.frame .frameSizeWrong) else .ok (closing prefs (contentOf row)))
      ∧ outputs.length = row.length
      ∧ outputs.flatten = fullBlocks prefs (contentOf row)
      ∧ ∀ k, (outputs.take k).flatten = fullBlocks prefs (contentOf (row.take k)) := by
  rcases start_settled hoff htidy hfast with ⟨started, hstart, hsettled⟩
  rcases hsettled.calls_settled hoff hwait hfits hnone
      with ⟨active, outputs, hcalls, hactive, hlength, hall⟩
  rw [List.nil_append] at hactive
  have hfronts (k : Nat) :
      (outputs.take k).flatten = fullBlocks prefs (contentOf (row.take k)) := by
    have hfront := hall k
    rw [fullBlocks_nil, List.nil_append, List.nil_append] at hfront
    exact hfront.symm
  have hwhole := hfronts row.length
  rw [List.take_length, ← hlength, List.take_length] at hwhole
  exact ⟨outputs, ⟨started, active, hstart, hcalls, hactive.finish_settled hoff⟩, hlength, hwhole,
    hfronts⟩

/-- In one piece that is every part of the content in a block of its own. -/
theorem fullBlocks_closing (prefs : Preferences) (content : Bytes) :
    fullBlocks prefs content ++ closing prefs content
      = (chunksOf prefs.maxBlock content).flatMap (Searcher.alone prefs) ++ SizeWord.endMark
        ++ (if prefs.contentChecksum then Xxh32.field (Xxh32.of content) else []) := by
  rw [chunksOf_eq prefs.maxBlock_pos content, List.flatMap_append, fullBlocks, closing]
  simp only [List.append_assoc]

/-- Whatever two compressors were asked before, frames of independent blocks without autoflush and
flushes come out the same from them if their content is the same, however it was cut into updates,
and closing them answers the same.  What a cut decides is which update sends a block: all of them
up to any one have sent the blocks of the full parts of what they handed over. -/
theorem cuts_unseen {gate gate' : Gate} (past : Past gate) (past' : Past gate')
    {prefs : Preferences}
    (hfast : prefs.level < Level.firstHigh) (hoff : prefs.linked = false)
    (hwait : prefs.autoflush = false) {row row' : List Call}
    (hfits : ∀ call ∈ row, call.Fits prefs) (hfits' : ∀ call ∈ row', call.Fits prefs)
    (hnone : .flush ∉ row) (hnone' : .flush ∉ row') (hsame : contentOf row' = contentOf row) :
    ∃ header outputs outputs' ending,
      past.compressor.MakesFrame prefs row header outputs ending
        ∧ past'.compressor.MakesFrame prefs row' header outputs' ending
        ∧ outputs.length = row.length ∧ outputs'.length = row'.length
        ∧ outputs'.flatten = outputs.flatten
        ∧ (∀ k, (outputs.take k).flatten = fullBlocks prefs (contentOf (row.take k)))
        ∧ (∀ k, (outputs'.take k).flatten = fullBlocks prefs (contentOf (row'.take k)))
        ∧ (prefs.declaredOrZero = 0 ∨ prefs.declaredOrZero = (contentOf row).length →
            ∃ trailer, ending = .ok trailer
              ∧ outputs.flatten ++ trailer
                = (chunksOf prefs.maxBlock (contentOf row)).flatMap (Searcher.alone prefs)
                  ++ SizeWord.endMark
                  ++ (if prefs.contentChecksum then Xxh32.field (Xxh32.of (contentOf row))
                    else []))
        ∧ (prefs.declaredOrZero ≠ 0 ∧ prefs.declaredOrZero ≠ (contentOf row).length →
            ending = .error (.frame .frameSizeWrong)) := by
  have htidy := after_tidy (new_sound gate) Encoder.new_tidy past.history
  have htidy' := after_tidy (new_sound gate') Encoder.new_tidy past'.history
  rcases frame_settled htidy hfast hoff hwait hfits hnone
      with ⟨outputs, hmakes, hlength, hwhole, hall⟩
  rcases frame_settled htidy' hfast hoff hwait hfits' hnone'
      with ⟨outputs', hmakes', hlength', hwhole', hall'⟩
  rw [hsame] at hmakes' hwhole'
  refine ⟨_, outputs, outputs', _, hmakes, hmakes', hlength, hlength', hwhole'.trans hwhole.symm,
    hall, hall', fun hgood => ?_, fun hwrong => if_pos hwrong⟩
  refine ⟨closing prefs (contentOf row), if_neg (by omega), ?_⟩
  rw [hwhole, fullBlocks_closing]

end Compressor

end

namespace Compressor

open Reference in
/-- A block in two cuts: an update of its first byte sends nothing, and the rest sends it all. -/
theorem cuts_unseen_first_byte :
    ∃ header outputs outputs' ending,
      (new .native).MakesFrame { linked := false }
          [.update [7], .update (List.replicate 65535 7)] header outputs ending
        ∧ (new .native).MakesFrame { linked := false } [.update (List.replicate 65536 7)] header
          outputs' ending
        ∧ outputs'.flatten = outputs.flatten ∧ outputs.head? = some []
        ∧ outputs'.head? ≠ some [] := by
  have hlength : (List.replicate 65536 7 : Bytes).length = 65536 := List.length_replicate
  have hrest : (List.replicate 65535 7 : Bytes).length = 65535 := List.length_replicate
  have hcut : (List.replicate 65536 7 : Bytes) = 7 :: List.replicate 65535 7 :=
    List.replicate_succ
  generalize (List.replicate 65535 7 : Bytes) = rest at hrest hcut ⊢
  generalize (List.replicate 65536 7 : Bytes) = block at hlength hcut ⊢
  have hcount (n : Nat) (hn : n ≤ 65536) : Bound.Countable { linked := false } n := by
    show (n + (65536 - 1)) / 65536 < 0x100000000
    omega
  have hfits : ∀ call ∈ [Call.update [7], .update rest], call.Fits { linked := false } := by
    intro call hmem
    simp only [List.mem_cons, List.not_mem_nil, or_false] at hmem
    rcases hmem with rfl | rfl
    · exact ⟨by simp, hcount 1 (by decide)⟩
    · exact ⟨List.ne_nil_of_length_pos (by omega), hcount _ (by omega)⟩
  have hfits' : ∀ call ∈ [Call.update block], call.Fits { linked := false } :=
    List.forall_mem_singleton.mpr ⟨by simp [hcut], hcount _ (by omega)⟩
  have hsame : contentOf [.update block] = contentOf [.update [7], .update rest] := by
    simp [Call.content, hcut]
  rcases cuts_unseen (.none .native) (.none .native) (by decide) rfl rfl hfits hfits' (by simp)
      (by simp)
      hsame with ⟨header, outputs, outputs', ending, hmakes, hmakes', hlen, hlen', hflat, hfront,
        hfront', -, -⟩
  refine ⟨header, outputs, outputs', ending, hmakes, hmakes', hflat, ?_, ?_⟩
  · -- one byte is no full part
    cases outputs with
    | nil => cases hlen
    | cons first others =>
        have hfirst : first = fullBlocks { linked := false } [7] := by
          simpa [Call.content] using hfront 1
        rw [hfirst, fullBlocks_short (show [7].length < 65536 by decide)]
        rfl
  · -- the block is one
    rcases List.length_eq_one_iff.mp hlen' with ⟨only, rfl⟩
    have hone : block = [block].flatten ++ [] := by simp
    have hfull := (fullParts_flatten (show 0 < 65536 by decide)
      (List.forall_mem_singleton.mpr hlength) (show ([] : Bytes).length < 65536 by decide)).1
    have honly : only = fullBlocks { linked := false } block := by
      simpa [Call.content] using hfront' 1
    rw [← hone] at hfull
    intro hnil
    obtain rfl : only = [] := by simpa using hnil
    have hblocks : fullBlocks { linked := false } block
        = Searcher.alone { linked := false } block := by
      show (fullParts 65536 block).flatMap _ = _
      rw [hfull, List.flatMap_singleton]
    exact Searcher.alone_ne_nil _ _ (hblocks ▸ honly.symm)

open Reference in
/-- An update whose blocks cannot be counted is refused, and in two cuts it is not. -/
theorem cuts_seen :
    ((new .native).frame { linked := false } [.update (List.replicate 0xffffffffffff 0)]).2
        = .error (.frame .dstMaxSizeTooSmall)
      ∧ ∃ next frame, (new .native).frame { linked := false }
          [.update (List.replicate 0x800000000000 0), .update (List.replicate 0x7fffffffffff 0)]
        = (next, .ok frame) := by
  refine ⟨update_uncountable List.length_replicate, ?_⟩
  have hcount (n : Nat) (hn : n ≤ 0x800000000000) : Bound.Countable { linked := false } n := by
    show (n + (65536 - 1)) / 65536 < 0x100000000
    omega
  have hlength (n : Nat) : (List.replicate n 0 : Bytes).length = n := List.length_replicate
  have hfirst := hlength 0x800000000000
  have hsecond := hlength 0x7fffffffffff
  generalize (List.replicate 0x800000000000 0 : Bytes) = first at hfirst ⊢
  generalize (List.replicate 0x7fffffffffff 0 : Bytes) = second at hsecond ⊢
  have hfits : ∀ call ∈ [Call.update first, .update second], call.Fits { linked := false } := by
    intro call hmem
    simp only [List.mem_cons, List.not_mem_nil, or_false] at hmem
    rcases hmem with rfl | rfl
    · exact ⟨List.ne_nil_of_length_pos (by omega), hcount _ (by omega)⟩
    · exact ⟨List.ne_nil_of_length_pos (by omega), hcount _ (by omega)⟩
  rcases (new .native).frame_sends rfl hfits (.inl rfl) with ⟨next, parts, blocks, hframe, -⟩
  exact ⟨next, _, hframe⟩

end Compressor

end Lz4Frame
