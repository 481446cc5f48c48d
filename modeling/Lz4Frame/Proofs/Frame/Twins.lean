import Lz4Frame.Proofs.Frame.Encoding
import Lz4Frame.Proofs.Frame.Searching

/-!
# Encoders that send the same

Two encoders that differ in their searchers only send the same as long as their blocks come out the
same.  What has to be known of the searchers for that is a matter of its own (`Lasting`): some
relation that each block keeps.  Here it is carried through the calls of an encoder.
-/

namespace Lz4Frame.Encoder

open Block

/-! ## Blocks, by the settings -/

/-- What of the history a block can refer to. -/
def inSight (encoder : Encoder) (joined : Bool) : Array UInt8 :=
  if !joined && encoder.history.size < minHistory then #[] else encoder.history

/-- Whether a block lies right behind what it can refer to. -/
def isClose (encoder : Encoder) (joined : Bool) : Bool :=
  joined || (!joined && encoder.history.size < minHistory)

variable [Platform]

theorem makeBlock_alone {encoder : Encoder} (h : encoder.prefs.linked = false) (joined : Bool)
    (block : Bytes) :
    encoder.makeBlock joined block
      = ({ encoder with searcher := (encoder.searcher.independent encoder.prefs block).1 },
          (encoder.searcher.independent encoder.prefs block).2.encode
            encoder.prefs.blockChecksum) := by
  rcases encoder with ⟨isOpen, prefs, searcher, history, held, total, digest⟩
  simp only at h
  simp only [makeBlock, h, Bool.false_eq_true, ↓reduceIte]

theorem makeBlock_linked {encoder : Encoder} (h : encoder.prefs.linked = true) (joined : Bool)
    (block : Bytes) :
    encoder.makeBlock joined block
      = let made := encoder.searcher.linked encoder.prefs (encoder.inSight joined)
          (encoder.isClose joined) block
        ({ encoder with
            searcher := made.1
            history := if encoder.isClose joined then encoder.inSight joined ++ block
              else block.toArray },
          made.2.1.encode encoder.prefs.blockChecksum) := by
  have hbytes := (encoder.searcher.linked_holds encoder.prefs #[] (encoder.inSight joined)
    (encoder.isClose joined) (Nat.le_refl block.length)).2
  rcases encoder with ⟨isOpen, prefs, searcher, history, held, total, digest⟩
  simp only at h
  simp only [← hbytes]
  simp only [makeBlock, h, ↓reduceIte]
  rfl

/-! ## Blocks that are sent -/

/-- A block that comes next in some content.  If it is the first one and an early one would tell,
it is long enough for repeats. -/
structure Sendable (content : Bytes) (early : Prop) (sent block : Bytes) : Prop where
  inside : sent ++ block <+: content
  ne_nil : block ≠ []
  first : sent = [] → early → minCompressible ≤ block.length

/-- Blocks that come next, one after another. -/
def SendableAll (content : Bytes) (early : Prop) (sent : Bytes) : List Bytes → Prop
  | [] => True
  | block :: rest =>
      Sendable content early sent block ∧ SendableAll content early (sent ++ block) rest

omit [Platform] in
theorem sendableAll_append {content sent : Bytes} {early : Prop} {blocks rest : List Bytes} :
    SendableAll content early sent (blocks ++ rest)
      ↔ SendableAll content early sent blocks
        ∧ SendableAll content early (sent ++ blocks.flatten) rest := by
  induction blocks generalizing sent with
  | nil => simp [SendableAll]
  | cons block blocks ih =>
      simp only [List.cons_append, SendableAll, ih, List.flatten_cons, List.append_assoc,
        and_assoc]

omit [Platform] in
theorem sendableAll_of {content sent : Bytes} {early : Prop} {blocks : List Bytes}
    (inside : sent ++ blocks.flatten <+: content) (ne_nil : ∀ block ∈ blocks, block ≠ [])
    (first : sent = [] → early → ∀ block ∈ blocks.head?, minCompressible ≤ block.length) :
    SendableAll content early sent blocks := by
  induction blocks generalizing sent with
  | nil => trivial
  | cons block blocks ih =>
      rw [List.flatten_cons, ← List.append_assoc] at inside
      have hblock := ne_nil block (.head _)
      refine ⟨⟨(List.prefix_append ..).trans inside, hblock, fun hnil hearly =>
        first hnil hearly block rfl⟩, ih inside (fun block hmem => ne_nil block (.tail _ hmem)) ?_⟩
      intro hnil
      simp [hblock] at hnil

/-! ## What searchers have to keep -/

/-- A relation of two searchers behind what was sent, of which some history is at hand. -/
abbrev Bond := Bytes → Array UInt8 → Searcher → Searcher → Prop

/-- Whether searchers in a relation make the same of each block that comes next, and stay in it. -/
structure Lasting (prefs : Preferences) (content : Bytes) (early : Prop) (bond : Bond) : Prop where
  shorten : ∀ {sent : Bytes} {history history' : Array UInt8} {first second : Searcher},
    bond sent history first second → history'.toList <:+ history.toList →
      bond sent history' first second
  independent : ∀ {sent block : Bytes} {history : Array UInt8} {first second : Searcher},
    prefs.linked = false → bond sent history first second → Sendable content early sent block →
      (second.independent prefs block).2 = (first.independent prefs block).2
        ∧ bond (sent ++ block) history (first.independent prefs block).1
          (second.independent prefs block).1
  linked : ∀ {sent block : Bytes} {history : Array UInt8} {first second : Searcher},
    prefs.linked = true → bond sent history first second → Sendable content early sent block →
      ∀ joined, (second.linked prefs history joined block).2
          = (first.linked prefs history joined block).2
        ∧ bond (sent ++ block) (history ++ block) (first.linked prefs history joined block).1
          (second.linked prefs history joined block).1

/-- Encoders that differ in their searchers only, and those are in a relation. -/
structure Twins (prefs : Preferences) (bond : Bond) (sent : Bytes) (first second : Encoder) :
    Prop where
  same : second = { first with searcher := second.searcher }
  prefs_eq : first.prefs = prefs
  bound : bond sent first.history first.searcher second.searcher

section Calls

variable {prefs : Preferences} {content : Bytes} {early : Prop} {bond : Bond}
  {first second : Encoder} {sent : Bytes}

namespace Twins

omit [Platform] in
theorem eq_with (h : Twins prefs bond sent first second) :
    ∃ searcher, second = { first with searcher } :=
  ⟨_, h.same⟩

omit [Platform] in
/-- Content that is taken makes no difference before blocks are made of it. -/
theorem absorb (h : Twins prefs bond sent first second) (input : Bytes) :
    Twins prefs bond sent (first.absorb input) (second.absorb input) := by
  rcases h.eq_with with ⟨searcher, rfl⟩
  exact ⟨rfl, h.prefs_eq, h.bound⟩

omit [Platform] in
theorem withHeld (h : Twins prefs bond sent first second) (held : Array UInt8) :
    Twins prefs bond sent { first with held } { second with held } := by
  rcases h.eq_with with ⟨searcher, rfl⟩
  exact ⟨rfl, h.prefs_eq, h.bound⟩

omit [Platform] in
theorem closed (h : Twins prefs bond sent first second) :
    Twins prefs bond sent { first with isOpen := false } { second with isOpen := false } := by
  rcases h.eq_with with ⟨searcher, rfl⟩
  exact ⟨rfl, h.prefs_eq, h.bound⟩

end Twins

/-! ## Blocks of twins -/

theorem makeBlock_twins (hlasting : Lasting prefs content early bond)
    (h : Twins prefs bond sent first second) {block : Bytes}
    (hblock : Sendable content early sent block) (joined : Bool) :
    ∃ next next' bytes, first.makeBlock joined block = (next, bytes)
      ∧ second.makeBlock joined block = (next', bytes)
      ∧ Twins prefs bond (sent ++ block) next next' := by
  rcases h.eq_with with ⟨searcher, rfl⟩
  obtain rfl := h.prefs_eq
  cases hlinked : first.prefs.linked with
  | false =>
      rcases hlasting.independent hlinked h.bound hblock with ⟨hpayload, hbound⟩
      rw [makeBlock_alone hlinked, makeBlock_alone (by exact hlinked)]
      exact ⟨_, _, _, rfl, by simp only [hpayload]; rfl, rfl, rfl, hbound⟩
  | true =>
      have hsight : (first.inSight joined).toList <:+ first.history.toList := by
        unfold inSight
        split
        · exact List.nil_suffix
        · exact List.suffix_refl _
      rcases hlasting.linked hlinked (hlasting.shorten h.bound hsight) hblock (first.isClose joined)
          with ⟨hmade, hbound⟩
      rw [makeBlock_linked hlinked, makeBlock_linked (by exact hlinked)]
      refine ⟨_, _, _, rfl, Prod.ext rfl ?_, rfl, rfl, ?_⟩
      · exact congrArg (fun made => made.1.encode first.prefs.blockChecksum) hmade
      · simp only
        split
        · exact hbound
        · exact hlasting.shorten hbound (by simp)

theorem makeBlocks_twins (hlasting : Lasting prefs content early bond)
    (h : Twins prefs bond sent first second) (out : Array UInt8)
    (joined : Bool) {blocks : List Bytes} (hblocks : SendableAll content early sent blocks) :
    ∃ next next' out', first.makeBlocks out joined blocks = (next, out')
      ∧ second.makeBlocks out joined blocks = (next', out')
      ∧ Twins prefs bond (sent ++ blocks.flatten) next next' := by
  -- on the blocks; each leaves twins behind, and as much more was sent
  induction blocks generalizing first second sent out joined with
  | nil => exact ⟨first, second, out, rfl, rfl, by simpa using h⟩
  | cons block blocks ih =>
      rcases makeBlock_twins hlasting h hblocks.1 joined
          with ⟨next, next', bytes, hmade, hmade', hnext⟩
      rw [List.flatten_cons, ← List.append_assoc]
      simp only [makeBlocks, hmade, hmade']
      exact ih hnext _ true hblocks.2

theorem fillUp_twins (hlasting : Lasting prefs content early bond)
    (h : Twins prefs bond sent first second) {held : Array UInt8} {input : Bytes}
    (hblocks : SendableAll content early sent (waiting held input)) :
    ∃ next next' bytes, first.fillUp held input = (next, bytes)
      ∧ second.fillUp held input = (next', bytes)
      ∧ Twins prefs bond (sent ++ (waiting held input).flatten) next next' := by
  by_cases hempty : held.size = 0
  · obtain rfl : held = #[] := Array.eq_empty_of_size_eq_zero hempty
    exact ⟨first, second, [], rfl, rfl, by simpa [waiting] using h⟩
  · have hisEmpty : ¬held.isEmpty = true := by
      rwa [Array.isEmpty_iff, ← Array.size_eq_zero_iff]
    simp only [waiting, if_neg hempty] at hblocks ⊢
    rw [fillUp, fillUp, if_neg hisEmpty, if_neg hisEmpty, List.flatten_singleton]
    exact makeBlock_twins hlasting h hblocks.1 true

/-! ## Calls of twins -/

/-- An update that fills up the block that waits makes that block, and then those of the rest. -/
theorem update_of_made {encoder filled made : Encoder} {room : Nat} {input bytes : Bytes}
    {out : Array UInt8} (hopen : encoder.isOpen = true)
    (hroom : (Bound.withHeld encoder.prefs (UInt64.ofNat input.length)
      (UInt64.ofNat encoder.held.size)).toNat ≤ room) (hlong : encoder.missing ≤ input.length)
    (hfilled : (encoder.absorb input).fillUp encoder.held (input.take encoder.missing)
      = (filled, bytes)) (hprefs : filled.prefs = encoder.prefs)
    (hmade : filled.makeBlocks bytes.toArray false (chunksOf encoder.prefs.maxBlock
      ((input.drop encoder.missing).take (encoder.direct input))) = (made, out)) :
    encoder.update room input
      = ({ made with held := (encoder.leftover input).toArray }, .ok out.toList) := by
  have hdirect : encoder.direct input = if encoder.prefs.autoflush
      then input.length - encoder.missing
      else (input.length - encoder.missing) / encoder.prefs.maxBlock * encoder.prefs.maxBlock := rfl
  rw [update_eq encoder hopen hroom, if_neg (Nat.not_lt.mpr hlong)]
  simp only [hfilled, hprefs, ← hdirect, hmade]
  rfl

/-- An update is refused by both of two twins, or both take its content and send the same. -/
theorem update_twins (hlasting : Lasting prefs content early bond)
    (h : Twins prefs bond sent first second) (hopen : first.isOpen = true) (room : Nat)
    {input : Bytes}
    (hblocks : (Bound.withHeld first.prefs (UInt64.ofNat input.length)
        (UInt64.ofNat first.held.size)).toNat ≤ room → first.missing ≤ input.length →
      SendableAll content early sent (first.completed input)) :
    (first.update room input = (first, .error .dstMaxSizeTooSmall)
        ∧ second.update room input = (second, .error .dstMaxSizeTooSmall))
      ∨ ∃ next next' bytes sent', first.update room input = (next, .ok bytes)
        ∧ second.update room input = (next', .ok bytes) ∧ Twins prefs bond sent' next next'
        ∧ sent <+: sent' ∧ sent' ++ next.held.toList = sent ++ first.held.toList ++ input := by
  have hsecond := h.eq_with
  by_cases hroom : (Bound.withHeld first.prefs (UInt64.ofNat input.length)
      (UInt64.ofNat first.held.size)).toNat ≤ room
  · by_cases hshort : input.length < first.missing
    · -- the block that waits is not filled up
      have hnext := (h.absorb input).withHeld (first.held ++ input)
      rcases hsecond with ⟨searcher, rfl⟩
      exact .inr ⟨_, _, [], sent, by rw [update_eq _ hopen hroom, if_pos hshort],
        by rw [update_eq _ (by exact hopen) (by exact hroom), if_pos (by exact hshort)],
        hnext, List.prefix_rfl, by simp⟩
    · have hlong := Nat.le_of_not_lt hshort
      rcases sendableAll_append.mp (hblocks hroom hlong) with ⟨hwaiting, hdirect⟩
      obtain rfl := h.prefs_eq
      rcases fillUp_twins hlasting (h.absorb input) hwaiting
          with ⟨filled, filled', bytes, hfilled, hfilled', htwins⟩
      rcases makeBlocks_twins hlasting htwins bytes.toArray false hdirect
          with ⟨made, made', out, hmade, hmade', htwins'⟩
      have hprefs := htwins.prefs_eq
      have hprefs' := (congrArg Encoder.prefs htwins.same).trans hprefs
      have hnext := htwins'.withHeld (first.leftover input).toArray
      rcases hsecond with ⟨searcher, rfl⟩
      refine .inr ⟨_, _, _, _, update_of_made hopen hroom hlong hfilled hprefs hmade,
        update_of_made (by exact hopen) (by exact hroom) (by exact hlong) hfilled' hprefs' hmade',
        hnext, ?_, ?_⟩
      · rw [List.append_assoc]
        exact List.prefix_append ..
      · have hparts := congrArg (sent ++ ·) (first.flatten_completed input)
        rw [completed, List.flatten_append] at hparts
        simpa only [List.append_assoc] using hparts
  · have hshort := Nat.lt_of_not_le hroom
    rcases hsecond with ⟨searcher, rfl⟩
    exact .inl ⟨update_refused hopen hshort, update_refused hopen hshort⟩

/-- A flush is refused by both of two twins, or both send the same. -/
theorem flush_twins (hlasting : Lasting prefs content early bond)
    (h : Twins prefs bond sent first second) (hopen : first.isOpen = true) (room : Nat)
    (hblocks : SendableAll content early sent (waiting first.held [])) :
    (first.flush room = (first, .error .dstMaxSizeTooSmall)
        ∧ second.flush room = (second, .error .dstMaxSizeTooSmall))
      ∨ ∃ next next' bytes, first.flush room = (next, .ok bytes)
        ∧ second.flush room = (next', .ok bytes)
        ∧ Twins prefs bond (sent ++ first.held.toList) next next' := by
  have hempty := h.withHeld #[]
  rcases h.eq_with with ⟨searcher, rfl⟩
  by_cases hwaits : 0 < first.held.size → first.held.size + 8 ≤ room
  · rcases fillUp_twins hlasting hempty hblocks
        with ⟨next, next', bytes, hfilled, hfilled', hnext⟩
    rw [flatten_waiting fun _ => rfl, List.append_nil] at hnext
    refine .inr ⟨next, next', bytes, ?_, ?_, hnext⟩
    · rw [flush_eq first hopen hwaits]
      simp only [hfilled]
    · rw [flush_eq _ (by exact hopen) (by exact hwaits)]
      simp only [hfilled']
  · have hsome : first.held.size ≠ 0 := by omega
    have hshort : room < first.held.size + 8 := by omega
    exact .inl ⟨flush_refused hopen hsome hshort, flush_refused hopen hsome hshort⟩

/-- Closing the frame, twins answer the same, whether they can close it or not. -/
theorem finish_twins (hlasting : Lasting prefs content early bond)
    (h : Twins prefs bond sent first second) (hopen : first.isOpen = true) (room : Nat)
    (hblocks : SendableAll content early sent (waiting first.held [])) :
    (second.finish room).2 = (first.finish room).2
      ∧ ∃ sent', Twins prefs bond sent' (first.finish room).1 (second.finish room).1 := by
  rcases flush_twins hlasting h hopen room hblocks
      with ⟨hrefused, hrefused'⟩ | ⟨next, next', bytes, hflush, hflush', hnext⟩
  · rw [finish, finish, hrefused, hrefused']
    exact ⟨rfl, sent, h⟩
  · have hclosed := hnext.closed
    rw [finish, finish, hflush, hflush']
    rcases hnext.eq_with with ⟨searcher, rfl⟩
    have htrailer : trailer { next with searcher } = next.trailer := rfl
    simp only [htrailer]
    split
    · exact ⟨rfl, _, hnext⟩
    · split
      · exact ⟨rfl, _, hclosed⟩
      · exact ⟨rfl, _, hclosed⟩

/-! ## What a call sends -/

omit [Platform] in
/-- With autoflush all of an input is cut into blocks. -/
theorem completed_autoflush {encoder : Encoder} {input : Bytes}
    (hheld : encoder.held.size ≤ Bound.mostHeld encoder.prefs)
    (hauto : encoder.prefs.autoflush = true) :
    encoder.completed input = chunksOf encoder.prefs.maxBlock input := by
  have hnone : encoder.held.size = 0 := by
    rw [Bound.mostHeld, if_pos hauto] at hheld
    omega
  rw [completed, waiting, if_pos hnone, direct, if_pos hauto, missing, if_pos hnone]
  simp

omit [Platform] in
/-- The parts that an update completes come next in any content that goes on with its input. -/
theorem sendableAll_completed {encoder : Encoder} {input : Bytes}
    (hheld : encoder.held.size ≤ Bound.mostHeld encoder.prefs)
    (hcontent : sent ++ encoder.held.toList ++ input <+: content)
    (hfirst : sent = [] → early → encoder.prefs.autoflush = true →
      minCompressible ≤ input.length) (hlong : encoder.missing ≤ input.length) :
    SendableAll content early sent (encoder.completed input) := by
  have hbounds := Bound.maxBlock_bounds encoder.prefs
  have hlt := Bound.mostHeld_lt encoder.prefs
  refine sendableAll_of ?_ ?_ ?_
  · rw [List.append_assoc, ← flatten_completed, ← List.append_assoc] at hcontent
    exact (List.prefix_append ..).trans hcontent
  · intro block hmem
    rcases List.mem_append.mp hmem with hwaiting | hpiece
    · have := length_of_mem_waiting hwaiting
      exact List.ne_nil_of_length_pos (by omega)
    · exact (mem_chunksOf encoder.prefs.maxBlock_pos hpiece).1
  · intro hnil hearly block hhead
    cases hauto : encoder.prefs.autoflush with
    | false =>
        rw [length_of_mem_completed hauto (by omega) hlong (List.mem_of_mem_head? hhead)]
        simp only [minCompressible]
        omega
    | true =>
        -- nothing waits, so the first block is cut from the front of the input
        have hlength := hfirst hnil hearly hauto
        rw [completed_autoflush hheld hauto] at hhead
        cases input with
        | nil => simp at hhead
        | cons x rest =>
            obtain rfl : x :: rest.take (encoder.prefs.maxBlock - 1) = block := by
              simpa [chunksOf_cons] using hhead
            simp only [minCompressible, List.length_cons, List.length_take] at hlength ⊢
            omega

omit [Platform] in
/-- So does what a flush sends. -/
theorem sendableAll_waiting {held : Array UInt8} (hcontent : sent ++ held.toList <+: content)
    (hfirst : sent = [] → early → held.size ≠ 0 → minCompressible ≤ held.size) :
    SendableAll content early sent (waiting held []) := by
  unfold waiting
  split
  · trivial
  · next hsome =>
      rw [List.append_nil]
      refine ⟨⟨hcontent, ?_, fun hnil hearly => hfirst hnil hearly hsome⟩, trivial⟩
      rwa [ne_eq, Array.toList_eq_nil_iff, ← Array.size_eq_zero_iff]

end Calls

end Lz4Frame.Encoder
