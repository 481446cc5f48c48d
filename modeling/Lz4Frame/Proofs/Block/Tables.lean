import Lz4Frame.Proofs.Block.Alike

/-!
# What a table is kept for

A table that is kept for unrelated data holds candidates from before it.  The data then starts at an
*origin*: the index of its first byte.  Candidates from before the origin are stale, and searches
reject them (`Field.Rooted`); those behind it are what they would be with any other origin.  So
searches that start at different origins find the same, as long as their slots are `Kin`.

The one candidate that this leaves out is index 0 at the origin 0.  It stands for the first byte and
for a slot that nothing was learned about, and only what is known of the data can tell that a search
will not be misled by it: that is what `free` says of a slot.
-/

namespace Lz4Frame.Block

/-! ## Candidates by origin -/

/-- A candidate that is rejected by searches from an origin: it is older, or it is what a slot
starts with, and the slot is free. -/
def Stale (free : Nat → Prop) (origin slot candidate : Nat) : Prop :=
  candidate < origin ∨ origin = 0 ∧ candidate = 0 ∧ free slot

/-- Candidates of one slot, from two origins: they stand for the same place, or both are stale. -/
def Kin (free : Nat → Prop) (origin origin' slot candidate candidate' : Nat) : Prop :=
  (∃ place, candidate = origin + place ∧ candidate' = origin' + place)
    ∨ Stale free origin slot candidate ∧ Stale free origin' slot candidate'

namespace Field

variable {free : Nat → Prop} {field first second : Field} {origin origin' lost : Nat}

/-- A search in data that starts at an origin, of which the first bytes may be lost. -/
structure Rooted (free : Nat → Prop) (field : Field) (origin lost : Nat) : Prop where
  base : field.base = origin + lost
  floor : field.floor = field.base
  /-- Nothing from before the bytes that are left is accepted. -/
  fence : ∀ place candidate, field.start < place → candidate < field.base →
    field.accepts candidate (place + field.base) = false
  /-- Nor is the first byte, for a place whose slot is free. -/
  unmet : ∀ place, field.start < place → place < field.searchStop → free (field.hash place) →
    origin = 0 → field.accepts 0 (place + field.base) = false

namespace Rooted

theorem rejects (h : Rooted free field origin lost) {place candidate : Nat}
    (hstart : field.start < place) (hstop : place < field.searchStop) :
    Stale free origin (field.hash place) candidate →
      field.accepts candidate (place + field.base) = false := by
  rintro (hold | ⟨horigin, rfl, hfree⟩)
  · refine h.fence place candidate hstart ?_
    rw [h.base]
    omega
  · exact h.unmet place hstart hstop hfree horigin

/-- A candidate among the bytes that are left is judged by its place. -/
theorem accepts_add (h : Rooted free field origin lost) (source place : Nat) :
    field.accepts (source + field.base) (place + field.base)
      = (!(field.width == .wide && decide (source + maxOffset < place))
          && wordAt field.bytes source == wordAt field.bytes place) := by
  have hfloor : decide (source + field.base < field.floor) = false := by
    rw [h.floor, decide_eq_false_iff_not]
    omega
  have hreach : decide (source + field.base + maxOffset < place + field.base)
      = decide (source + maxOffset < place) := by
    rw [decide_eq_decide]
    omega
  rw [accepts, hfloor, hreach, Nat.add_sub_cancel, Nat.add_sub_cancel]
  simp

/-- Searches of the same block, at origins of their own, tell sources alike. -/
theorem alike (h : Rooted free first origin lost) (h' : Rooted free second origin' lost)
    (bytes : second.bytes = first.bytes) (start : second.start = first.start)
    (width : second.width = first.width) (joined : second.joined = first.joined)
    (acceleration : second.acceleration = first.acceleration) :
    Alike (Kin free origin origin') first second where
  bytes := bytes
  start := start
  width := width
  joined := joined
  acceleration := acceleration
  fresh slot place _ := .inl ⟨place + lost, by rw [h.base]; omega, by rw [h'.base]; omega⟩
  agree place candidate candidate' hstart hstop hkin := by
    have hstart' : second.start < place := by rwa [start]
    have hstop' : place < second.searchStop := by rwa [searchStop, bytes]
    have hhash : second.hash place = first.hash place := by rw [hash, hash, bytes, width]
    rcases hkin with ⟨source, rfl, rfl⟩ | ⟨hstale, hstale'⟩
    · by_cases hlost : source < lost
      · -- the byte is lost to both
        rw [h.fence place _ hstart (by rw [h.base]; omega),
          h'.fence place _ hstart' (by rw [h'.base]; omega)]
        exact ⟨rfl, fun haccepted => absurd haccepted Bool.false_ne_true⟩
      · obtain ⟨left, rfl⟩ : ∃ left, source = left + lost := ⟨source - lost, by omega⟩
        have hsource : origin + (left + lost) = left + first.base := by rw [h.base]; omega
        have hsource' : origin' + (left + lost) = left + second.base := by rw [h'.base]; omega
        rw [hsource, hsource', h.accepts_add, h'.accepts_add, bytes, width, Nat.add_sub_cancel,
          Nat.add_sub_cancel]
        exact ⟨rfl, fun _ => rfl⟩
    · rw [h.rejects hstart hstop hstale, h'.rejects hstart' hstop' (by rwa [hhash])]
      exact ⟨rfl, fun haccepted => absurd haccepted Bool.false_ne_true⟩

end Rooted

/-- What a search learns are indices of the bytes it has searched. -/
theorem search_slots_lt (field : Field) {slots : Array Nat} (hsize : slots.size = Table.slotCount)
    (hslots : ∀ slot < Table.slotCount, slots.getD slot 0 < field.base + field.bytes.size) :
    (field.search slots).slots.size = Table.slotCount
      ∧ ∀ slot < Table.slotCount,
        (field.search slots).slots.getD slot 0 < field.base + field.bytes.size := by
  -- the search is compared with itself
  have halike : Alike (fun _ c d => c = d ∧ c < field.base + field.bytes.size) field field := {
    bytes := rfl
    start := rfl
    width := rfl
    joined := rfl
    acceleration := rfl
    fresh := fun _ place hplace => ⟨rfl, by omega⟩
    agree := by
      rintro place c d - - ⟨rfl, -⟩
      exact ⟨rfl, fun _ => rfl⟩ }
  have hpaired := (halike.search ⟨hsize, hsize, fun slot hslot => ⟨rfl, hslots slot hslot⟩⟩).2
  exact ⟨hpaired.size_first, fun slot hslot => (hpaired.slots slot hslot).2⟩

end Field

/-! ## Tables -/

namespace Table

/-- Whether a table remembers nothing but indices that were given out. -/
structure Sound (table : Table) : Prop where
  size : table.slots.size = slotCount
  unused : table.width = none → table = cleared
  met : table.width ≠ none → ∀ slot < slotCount, table.slots.getD slot 0 < table.next

theorem getD_cleared {slot : Nat} (h : slot < slotCount) : cleared.slots.getD slot 0 = 0 := by
  simp [cleared, h]

theorem cleared_sound : cleared.Sound where
  size := Array.size_replicate
  unused _ := rfl
  met h := absurd rfl h

/-- What a table remembers came before the end of what it searches next. -/
theorem Sound.slots_lt {table : Table} (h : table.Sound) {n slot : Nat} (hn : 0 < n)
    (hslot : slot < slotCount) : table.slots.getD slot 0 < table.next + n := by
  by_cases hwidth : table.width = none
  · rw [h.unused hwidth, getD_cleared hslot]
    omega
  · have := h.met hwidth slot hslot
    omega

theorem Sound.next_pos {table : Table} (h : table.Sound) (hwidth : table.width ≠ none) :
    0 < table.next :=
  Nat.zero_lt_of_lt (h.met hwidth 0 (by decide))

/-- A table behind a search. -/
theorem sound_of_search {field : Field} {table : Table} (h : table.Sound) {width : SlotWidth}
    {n : Nat} (removed : Nat) (hn : 0 < n)
    (hend : field.base + field.bytes.size = table.next + n) :
    Sound ⟨some width, (field.search table.slots).slots, table.next + n, removed⟩ := by
  rcases field.search_slots_lt h.size (fun slot hslot => hend ▸ h.slots_lt hn hslot)
      with ⟨hsize, hslots⟩
  exact ⟨hsize, nofun, fun _ slot hslot => hend ▸ hslots slot hslot⟩

theorem prepare_of_mustClear {table : Table} {n : Nat} {width : SlotWidth} :
    table.mustClear n width = true → table.prepare n width = cleared := by
  intro h
  rw [prepare, if_pos h]
  rfl

/-- Renumbering changes nothing but what was taken off. -/
theorem renumber_eq (table : Table) (n : Nat) :
    ∃ removed, table.renumber n = { table with removed } := by
  unfold renumber
  split
  · exact ⟨_, rfl⟩
  · exact ⟨table.removed, rfl⟩

/-- Whether a table is kept for data of which nothing is known yet. -/
def Lasts (table : Table) : Prop := table.width = some .wide ∧ table.offset ≤ keepLimit

/-- Made ready for data of which nothing is known yet, a table is cleared unless it lasts. -/
theorem prepare_zero_wide {table : Table} (h : table.Sound) :
    (¬ table.Lasts ∧ table.prepare 0 .wide = cleared)
      ∨ (table.Lasts ∧ table.prepare 0 .wide = { table with next := table.next + gap }) := by
  rcases table with ⟨width, slots, next, removed⟩
  cases width with
  | none =>
      have := h.unused rfl
      exact .inl ⟨by simp [Lasts], by rw [this]; rfl⟩
  | some width =>
      cases width with
      | narrow => exact .inl ⟨by simp [Lasts], rfl⟩
      | wide =>
          have hnext : next ≠ 0 := Nat.ne_of_gt (h.next_pos (by simp))
          by_cases hfar : keepLimit < next - removed
          · exact .inl ⟨fun hlasts => Nat.not_lt.mpr hlasts.2 hfar,
              prepare_of_mustClear (by simp [mustClear, offset, hfar])⟩
          · refine .inr ⟨⟨rfl, Nat.le_of_not_lt hfar⟩, ?_⟩
            simp [prepare, mustClear, offset, hnext, hfar]

theorem prepare_zero_sound {table : Table} (h : table.Sound) : (table.prepare 0 .wide).Sound := by
  rcases prepare_zero_wide h with ⟨-, hready⟩ | ⟨hwide, hready⟩
  · rw [hready]
    exact cleared_sound
  · rw [hready]
    exact ⟨h.size, fun hnone => by simp [hwide.1] at hnone, fun hsome slot hslot =>
      Nat.lt_add_right gap (h.met hsome slot hslot)⟩

/-- The width of the slots for an independent block. -/
def widthFor (n : Nat) : SlotWidth := if n < narrowLimit then .narrow else .wide

/-- Made ready for an independent block, a table is cleared unless it is kept narrow. -/
theorem prepare_block {table : Table} (h : table.Sound) (n : Nat) :
    table.prepare n (widthFor n) = cleared
      ∨ widthFor n = .narrow ∧ table.width = some .narrow ∧ table.prepare n .narrow = table := by
  by_cases hmust : table.mustClear n (widthFor n) = true
  · exact .inl (prepare_of_mustClear hmust)
  rcases table with ⟨width, slots, next, removed⟩
  cases width with
  | none =>
      rw [h.unused rfl]
      exact .inl rfl
  | some width =>
      have hkept := hmust
      simp only [mustClear, Option.isSome_some, Bool.true_and, Bool.or_eq_true,
        decide_eq_true_eq, not_or] at hkept
      rcases hkept with ⟨⟨⟨hwidth, -⟩, -⟩, hshort⟩
      have hnarrow : widthFor n = .narrow := if_pos (by simp only [narrowLimit]; omega)
      rw [hnarrow] at hwidth hmust
      obtain rfl : width = .narrow := by simpa using hwidth
      refine .inr ⟨hnarrow, rfl, ?_⟩
      rw [prepare, if_neg hmust]
      exact if_neg (by simp)

theorem prepare_block_sound {table : Table} (h : table.Sound) (n : Nat) :
    (table.prepare n (widthFor n)).Sound := by
  rcases prepare_block h n with hready | ⟨hnarrow, -, hready⟩
  · rw [hready]
    exact cleared_sound
  · rwa [hnarrow, hready]

end Table

end Lz4Frame.Block
