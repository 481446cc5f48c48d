import Lz4Frame.Proofs.Block.Tables
import Lz4Frame.Frame.Encoder

/-!
# Payloads and the past of a table

What a table remembers from before a frame makes no difference to an independent block
(`Searcher.independent_cleared`).  In a linked frame it can make one, and only in one place: where
the content's first four bytes recur (`Echoes`).  A table that was cleared has the first byte behind
every slot that it learned nothing about; a table that was kept has nothing there.
-/

namespace Lz4Frame

open Block

/-! ## Places where content begins again -/

/-- The four bytes at a place are the first four again, and a search may look there and reach back
to them. -/
structure Echoes (content : Bytes) (i : Nat) : Prop where
  pos : 0 < i
  reach : i ≤ maxOffset
  room : i + matchMargin ≤ content.length
  word : wordAt content.toArray i = wordAt content.toArray 0

namespace Block

/-- The slot of the bytes at a place. -/
def SlotWidth.hash (width : SlotWidth) (bytes : Array UInt8) (i : Nat) : Nat :=
  match width with
  | .narrow => narrowHash bytes i
  | .wide => wideHash bytes i

theorem Field.hash_eq (field : Field) (i : Nat) : field.hash i = field.width.hash field.bytes i :=
  rfl

/-- A slot that no place where content begins again is looked up in. -/
def Unechoed (content : Bytes) (width : SlotWidth) (slot : Nat) : Prop :=
  ∀ i, Echoes content i → width.hash content.toArray i ≠ slot

section Front

variable {bytes : Array UInt8} {content : Bytes}

theorem byteAt_front (h : bytes.toList <+: content) {i : Nat} (hi : i < bytes.size) :
    byteAt content.toArray i = byteAt bytes i := by
  rcases h with ⟨rest, rfl⟩
  simp [byteAt, Array.getD_eq_getD_getElem?, List.getElem?_append, hi]

theorem wordAt_front (h : bytes.toList <+: content) {i : Nat} (hi : i + 4 ≤ bytes.size) :
    wordAt content.toArray i = wordAt bytes i := by
  rw [wordAt, wordAt, byteAt_front h (by omega), byteAt_front h (by omega),
    byteAt_front h (by omega), byteAt_front h (by omega)]

theorem hash_front (h : bytes.toList <+: content) (width : SlotWidth) {i : Nat}
    (hi : i + 5 ≤ bytes.size) : width.hash content.toArray i = width.hash bytes i := by
  cases width with
  | narrow => rw [SlotWidth.hash, SlotWidth.hash, narrowHash, narrowHash,
      wordAt_front h (by omega)]
  | wide => rw [SlotWidth.hash, SlotWidth.hash, wideHash, wideHash, wordAt_front h (by omega),
      byteAt_front h (by omega)]

/-- Behind a slot that is not echoed, the first byte is not taken for a source. -/
theorem Field.accepts_zero {field : Field} (hfront : field.bytes.toList <+: content)
    (hbase : field.base = 0) (hreach : field.width = .narrow → field.bytes.size < Table.narrowLimit)
    {place : Nat} (hpos : 0 < place) (hstop : place < field.searchStop) :
    Unechoed content field.width (field.hash place) →
      field.accepts 0 (place + field.base) = false := by
  intro hfree
  have hroom : place + matchMargin ≤ field.bytes.size := by
    simp only [Field.searchStop, matchMargin] at hstop ⊢
    omega
  have hsize := hfront.length_le
  rw [Array.length_toList] at hsize
  simp only [matchMargin] at hroom
  rw [Bool.eq_false_iff]
  intro haccepts
  simp only [Field.accepts, hbase, Nat.add_zero, Nat.sub_zero, Nat.zero_add, Bool.and_eq_true,
    Bool.not_eq_true', Bool.and_eq_false_iff, beq_iff_eq, decide_eq_false_iff_not,
    beq_eq_false_iff_ne] at haccepts
  rcases haccepts with ⟨⟨-, hnear⟩, hword⟩
  refine hfree place ⟨hpos, ?_, by simp only [matchMargin]; omega, ?_⟩ ?_
  · rcases hnear with hwidth | hnear
    · have := hreach (by cases hw : field.width <;> simp_all)
      simp only [Table.narrowLimit, maxOffset] at *
      omega
    · omega
  · rw [wordAt_front hfront (by omega), wordAt_front hfront (by omega), hword]
  · rw [hash_front hfront field.width (by omega), Field.hash_eq]

end Front

/-! ## Fields of an encoder -/

namespace Field

theorem accepts_stale {field : Field} {candidate : Nat} (hbounded : field.bounded = true)
    (hold : candidate < field.floor) (current : Nat) : field.accepts candidate current = false := by
  simp [accepts, hbounded, hold]

theorem accepts_far {field : Field} {candidate current : Nat} (hwide : field.width = .wide)
    (hfar : candidate + maxOffset < current) : field.accepts candidate current = false := by
  simp [accepts, hwide, hfar]

/-- An independent block, searched with a table that was made ready for it. -/
def alone (prefs : Preferences) (block : Bytes) (table : Table) : Field where
  bytes := block.toArray
  start := 0
  base := table.next
  width := Table.widthFor block.length
  bounded := Table.widthFor block.length = .narrow ∧ table.next ≠ 0
  floor := table.next
  joined := true
  acceleration := Level.acceleration prefs.level

/-- A block behind its history. -/
def behind (prefs : Preferences) (history : Array UInt8) (joined : Bool) (block : Bytes)
    (table : Table) : Field where
  bytes := history ++ block
  start := history.size
  base := table.next - history.size
  width := .wide
  bounded := history.size < Table.gap ∧ history.size < table.next
  floor := table.next - history.size
  joined := joined
  acceleration := Level.acceleration prefs.level

theorem size_behind (prefs : Preferences) (history : Array UInt8) (joined : Bool) (block : Bytes)
    (table : Table) :
    (behind prefs history joined block table).bytes.size = history.size + block.length :=
  size_append_list history block

/-- An independent block starts at its table's next index. -/
theorem alone_rooted (prefs : Preferences) (block : Bytes) {table : Table}
    (hready : table.next = 0 ∨ Table.widthFor block.length = .narrow) :
    Rooted (Unechoed block (Table.widthFor block.length)) (alone prefs block table)
      table.next 0 where
  base := rfl
  floor := rfl
  fence place candidate hstart hold := by
    have hnext : table.next ≠ 0 := Nat.ne_of_gt (Nat.zero_lt_of_lt hold)
    have hwidth := hready.resolve_left hnext
    exact accepts_stale (decide_eq_true ⟨hwidth, hnext⟩) hold _
  unmet place hstart hstop hfree hzero := by
    refine accepts_zero (by simp [alone]) hzero (fun hnarrow => ?_) hstart hstop hfree
    simp only [alone, Table.widthFor] at hnarrow ⊢
    split at hnarrow
    · assumption
    · cases hnarrow

/-- Nothing from before the history is accepted: either there is a bound, or it is out of reach. -/
theorem accepts_behind (prefs : Preferences) {history : Array UInt8} (joined : Bool)
    (block : Bytes) (table : Table) {place candidate : Nat} (hplace : history.size < place)
    (hold : candidate < table.next - history.size) :
    (behind prefs history joined block table).accepts candidate
      (place + (table.next - history.size)) = false := by
  by_cases hnear : history.size < Table.gap
  · exact accepts_stale (decide_eq_true ⟨hnear, by omega⟩) hold _
  · simp only [Table.gap] at hnear
    exact accepts_far rfl (by simp only [maxOffset]; omega)

/-- A block behind its history starts where its content starts, as far as that is at hand. -/
theorem behind_rooted (prefs : Preferences) {history : Array UInt8} (joined : Bool)
    {content sent block : Bytes} {table : Table} {origin : Nat}
    (hcontent : sent ++ block <+: content) (hhistory : history.toList <:+ sent)
    (hnext : table.next = origin + sent.length) :
    Rooted (Unechoed content .wide) (behind prefs history joined block table) origin
      (sent.length - history.size) where
  base := by
    have := hhistory.length_le
    rw [Array.length_toList] at this
    simp only [behind]
    omega
  floor := rfl
  fence place candidate hstart hold := accepts_behind prefs joined block table hstart hold
  unmet place hstart hstop hfree hzero := by
    have hsize := hhistory.length_le
    rw [Array.length_toList] at hsize
    by_cases hlost : 0 < table.next - history.size
    · exact accepts_behind prefs joined block table hstart hlost
    · -- all of the content is at hand
      have hall : history.toList = sent :=
        hhistory.eq_of_length (by rw [Array.length_toList]; omega)
      refine accepts_zero ?_ (by simp only [behind]; omega) (by simp [behind])
        (Nat.zero_lt_of_lt hstart) hstop hfree
      simpa [behind, hall] using hcontent

end Field

end Block

namespace Searcher

variable [Platform]

theorem independent_fast {table ready : Table} (prefs : Preferences) {block : Bytes} :
    table.prepare block.length (Table.widthFor block.length) = ready →
      (fast table).independent prefs block
        = (fast ⟨some (Table.widthFor block.length),
              ((Field.alone prefs block ready).search ready.slots).slots,
              ready.next + block.length, ready.removed⟩,
            .ofPlan block.toArray 0 block
              ((Field.alone prefs block ready).search ready.slots).plan) := by
  rintro rfl
  rfl

theorem linked_fast (table : Table) (prefs : Preferences) (history : Array UInt8) (joined : Bool)
    (block : Bytes) :
    (fast table).linked prefs history joined block
      = (fast ⟨some .wide,
            ((Field.behind prefs history joined block table).search table.slots).slots,
            table.next + block.length, (table.renumber block.length).removed⟩,
          .ofPlan (history ++ block) history.size block
            ((Field.behind prefs history joined block table).search table.slots).plan,
          history ++ block) := by
  have hpush : block.foldl Array.push history = history ++ block := rfl
  have hgrown : (history ++ block).size - history.size = block.length := by
    rw [size_append_list, Nat.add_sub_cancel_left]
  -- renumbering leaves the slots and the next index as they are
  rcases table.renumber_eq block.length with ⟨removed, hrenumber⟩
  rw [hrenumber, linked]
  simp only [hpush, hgrown, hrenumber]
  rfl

/-! ## Soundness -/

/-- Whether a searcher remembers nothing but indices that were given out, of so many bytes at
least. -/
def Tidy (size : Nat) : Searcher → Prop
  | .fast table => table.Sound ∧ size ≤ table.next
  | .long => True

omit [Platform] in
theorem Tidy.mono {searcher : Searcher} {size size' : Nat} (h : searcher.Tidy size) :
    size' ≤ size → searcher.Tidy size' := by
  intro hle
  cases searcher with
  | fast table => exact ⟨h.1, Nat.le_trans hle h.2⟩
  | long => trivial

theorem independent_tidy {searcher : Searcher} (h : searcher.Tidy 0) (prefs : Preferences)
    {block : Bytes} : block ≠ [] → (searcher.independent prefs block).1.Tidy 0 := by
  intro hne
  cases searcher with
  | long => trivial
  | fast table =>
      have hpos : 0 < block.length := List.length_pos_iff.mpr hne
      rw [independent_fast prefs rfl]
      exact ⟨Table.sound_of_search (Table.prepare_block_sound h.1 _) _ hpos rfl, Nat.zero_le _⟩

theorem linked_tidy {searcher : Searcher} {history : Array UInt8} (h : searcher.Tidy history.size)
    (prefs : Preferences) (joined : Bool) {block : Bytes} :
    block ≠ [] →
      (searcher.linked prefs history joined block).1.Tidy (history.size + block.length) := by
  intro hne
  cases searcher with
  | long => trivial
  | fast table =>
      rcases h with ⟨hsound, hle⟩
      have hpos : 0 < block.length := List.length_pos_iff.mpr hne
      have hsize := Field.size_behind prefs history joined block table
      rw [linked_fast]
      refine ⟨Table.sound_of_search hsound _ hpos ?_, Nat.add_le_add_right hle _⟩
      rw [hsize]
      simp only [Field.behind]
      omega

/-! ## Independent blocks -/

/-- What a table remembers makes no difference to an independent block. -/
theorem independent_cleared {table : Table} (h : table.Sound) (prefs : Preferences)
    (block : Bytes) :
    ((fast table).independent prefs block).2 = ((fast .cleared).independent prefs block).2 := by
  have hcleared : Table.cleared.prepare block.length (Table.widthFor block.length) = .cleared := by
    cases Table.widthFor block.length <;> rfl
  rw [independent_fast prefs hcleared]
  rcases Table.prepare_block h block.length with hready | ⟨hnarrow, hwidth, hready⟩
  · rw [independent_fast prefs hready]
  · rw [← hnarrow] at hready
    rw [independent_fast prefs hready]
    have halike := (Field.alone_rooted prefs block (.inr hnarrow : table.next = 0 ∨ _)).alike
      (Field.alone_rooted prefs block (.inl rfl : Table.cleared.next = 0 ∨ _)) rfl rfl rfl rfl rfl
    have hslots : Paired (fun slot c d => (minCompressible ≤ block.length →
        slot ≠ (Table.widthFor block.length).hash block.toArray 0) →
          Kin (Unechoed block (Table.widthFor block.length)) table.next Table.cleared.next slot c d)
        table.slots Table.cleared.slots := by
      refine ⟨h.size, Table.cleared_sound.size, fun slot hslot hlearned => .inr ⟨.inl ?_, .inr ?_⟩⟩
      · exact h.met (by simp [hwidth]) slot hslot
      · refine ⟨rfl, Table.getD_cleared hslot, fun i hecho hhash => ?_⟩
        have hpos := hecho.pos
        have hroom := hecho.room
        simp only [matchMargin] at hroom
        refine hlearned (by simp only [minCompressible]; omega) ?_
        rw [← hhash, hnarrow, SlotWidth.hash, SlotWidth.hash, narrowHash, narrowHash, hecho.word]
    rw [(halike.search_unlearned hslots).1]

/-! ## Linked blocks -/

/-- Tables in frames of the same content, behind some part of it that was sent: from wherever
indices run on, the slots are of a kind.  As long as nothing is sent, an exception can be made for
the slot that a first block of some length learns at once. -/
def Abreast (content : Bytes) (unlearned : Prop) (sent : Bytes) (first second : Table) : Prop :=
  ∃ origin origin', first.next = origin + sent.length ∧ second.next = origin' + sent.length
    ∧ Paired (fun slot c d =>
        (sent = [] → unlearned → slot ≠ SlotWidth.wide.hash content.toArray 0) →
          Kin (Unechoed content .wide) origin origin' slot c d) first.slots second.slots

/-- Linked blocks come out the same, and so on. -/
theorem linked_abreast {content sent block : Bytes} {unlearned : Prop} {first second : Table}
    (h : Abreast content unlearned sent first second) (hcontent : sent ++ block <+: content)
    (hlearns : sent = [] → unlearned → minCompressible ≤ block.length) (prefs : Preferences)
    {history : Array UInt8} (hhistory : history.toList <:+ sent) (joined : Bool) :
    ((fast second).linked prefs history joined block).2
        = ((fast first).linked prefs history joined block).2
      ∧ ∃ first' second', ((fast first).linked prefs history joined block).1 = fast first'
        ∧ ((fast second).linked prefs history joined block).1 = fast second'
        ∧ Abreast content unlearned (sent ++ block) first' second' := by
  rcases h with ⟨origin, origin', hnext, hnext', hslots⟩
  have halike := (Field.behind_rooted prefs joined hcontent hhistory hnext).alike
    (Field.behind_rooted prefs joined hcontent hhistory hnext') rfl rfl rfl rfl rfl
  -- the slot that the exception is made for is the one that a long enough first block learns
  have hfirst : sent = [] → unlearned →
      minCompressible ≤ (Field.behind prefs history joined block first).stop
          - (Field.behind prefs history joined block first).start
        ∧ (Field.behind prefs history joined block first).hash
            (Field.behind prefs history joined block first).start
          = SlotWidth.wide.hash content.toArray 0 := by
    rintro rfl hone
    obtain rfl : history = #[] := by simpa using hhistory
    have hlong := hlearns rfl hone
    refine ⟨by simpa [Field.behind, Field.stop] using hlong, ?_⟩
    have hfront : (Field.behind prefs #[] joined block first).bytes.toList <+: content := by
      simpa [Field.behind] using hcontent
    refine (hash_front hfront .wide ?_).symm
    simp only [minCompressible] at hlong
    rw [Field.size_behind]
    simp only [Field.behind, List.size_toArray, List.length_nil]
    omega
  rcases halike.search_unlearned (hslots.mono fun slot _ c d hkin hlong =>
      hkin fun hnil hone => (hfirst hnil hone).2 ▸ hlong (hfirst hnil hone).1)
      with ⟨hplan, hslots'⟩
  rw [linked_fast, linked_fast]
  refine ⟨by simp only [hplan], _, _, rfl, rfl, origin, origin', ?_, ?_,
    hslots'.mono fun _ _ _ _ hkin _ => hkin⟩
  · simp only [List.length_append]
    omega
  · simp only [List.length_append]
    omega

end Searcher

end Lz4Frame
