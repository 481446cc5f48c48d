import Lz4Frame.Block.FastSearch

/-!
# Searches that find the same

What the fast search finds in a block depends on its table in one way only: on the candidates that
it accepts.  Two searches of one block, with tables and indices of their own, find the same as long
as their slots stay in some relation under which a candidate is accepted by both, for the same
source, or by neither (`Field.Alike`).  The relation is the caller's; here it is carried through the
pass (`scan_alike`, `locate_alike`, `pass_alike`), and the plans come out equal
(`Field.Alike.search`).
-/

namespace Lz4Frame.Block

/-! ## Slots -/

/-- The slots of two tables, each pair of them in a relation that may depend on the slot. -/
structure Paired (kin : Nat → Nat → Nat → Prop) (first second : Array Nat) : Prop where
  size_first : first.size = Table.slotCount
  size_second : second.size = Table.slotCount
  slots : ∀ slot < Table.slotCount, kin slot (first.getD slot 0) (second.getD slot 0)

namespace Paired

variable {kin kin' : Nat → Nat → Nat → Prop} {first second : Array Nat}

theorem mono (h : Paired kin first second)
    (himp : ∀ slot < Table.slotCount, ∀ a b, kin slot a b → kin' slot a b) :
    Paired kin' first second where
  size_first := h.size_first
  size_second := h.size_second
  slots slot hslot := himp slot hslot _ _ (h.slots slot hslot)

/-- Both tables learn something at the same slot, about which nothing had to be known. -/
theorem learn {slot a b : Nat}
    (h : Paired (fun other c d => other ≠ slot → kin other c d) first second)
    (hkin : kin slot a b) :
    Paired kin (first.setIfInBounds slot a) (second.setIfInBounds slot b) where
  size_first := by rw [Array.size_setIfInBounds, h.size_first]
  size_second := by rw [Array.size_setIfInBounds, h.size_second]
  slots other hother := by
    have hbounds : other < first.size ∧ other < second.size := by
      rw [h.size_first, h.size_second]
      exact ⟨hother, hother⟩
    by_cases hsame : slot = other
    · subst hsame
      simpa [Array.getD_eq_getD_getElem?, Array.getElem?_setIfInBounds, hbounds] using hkin
    · simpa [Array.getD_eq_getD_getElem?, Array.getElem?_setIfInBounds, hsame]
        using h.slots other hother (Ne.symm hsame)

theorem set {slot a b : Nat} (h : Paired kin first second) (hkin : kin slot a b) :
    Paired kin (first.setIfInBounds slot a) (second.setIfInBounds slot b) :=
  learn (h.mono fun _ _ _ _ hcd _ => hcd) hkin

end Paired

/-! ## Hashes -/

theorem narrowHash_lt (bytes : Array UInt8) (i : Nat) : narrowHash bytes i < Table.slotCount := by
  have hlt := (wordAt bytes i * 2654435761).toNat_lt
  have hshift : narrowHash bytes i = (wordAt bytes i * 2654435761).toNat / 2 ^ 19 := by
    simp only [narrowHash, UInt32.toNat_shiftRight, Nat.shiftRight_eq_div_pow]
    rfl
  rw [hshift, Table.slotCount]
  omega

theorem wideHash_lt (bytes : Array UInt8) (i : Nat) : wideHash bytes i < Table.slotCount := by
  unfold wideHash
  simp only
  generalize (_ : UInt64) * 889523592379 = product
  have hlt := product.toNat_lt
  have hshift : (product >>> 52).toNat = product.toNat / 2 ^ 52 := by
    simp only [UInt64.toNat_shiftRight, Nat.shiftRight_eq_div_pow]
    rfl
  rw [hshift, Table.slotCount]
  omega

namespace Field

theorem hash_lt (field : Field) (i : Nat) : field.hash i < Table.slotCount := by
  unfold hash
  split
  · exact narrowHash_lt ..
  · exact wideHash_lt ..

/-! ## The relation -/

/-- Searches of one block that tell sources alike: what the pass learns is in the relation, and a
candidate that is in it counts for both or for neither, and then for the same source. -/
structure Alike (kin : Nat → Nat → Nat → Prop) (first second : Field) : Prop where
  bytes : second.bytes = first.bytes
  start : second.start = first.start
  width : second.width = first.width
  joined : second.joined = first.joined
  acceleration : second.acceleration = first.acceleration
  fresh : ∀ slot place, place < first.bytes.size →
    kin slot (place + first.base) (place + second.base)
  agree : ∀ place c d, first.start < place → place < first.searchStop →
    kin (first.hash place) c d →
      second.accepts d (place + second.base) = first.accepts c (place + first.base)
        ∧ (first.accepts c (place + first.base) = true → d - second.base = c - first.base)

namespace Alike

variable {kin : Nat → Nat → Nat → Prop} {first second : Field}

theorem stop (h : Alike kin first second) : second.stop = first.stop := by
  rw [Field.stop, Field.stop, h.bytes]

theorem searchStop (h : Alike kin first second) : second.searchStop = first.searchStop := by
  rw [Field.searchStop, Field.searchStop, h.bytes]

theorem matchStop (h : Alike kin first second) : second.matchStop = first.matchStop := by
  rw [Field.matchStop, Field.matchStop, h.bytes]

theorem sizeLimit (h : Alike kin first second) : second.sizeLimit = first.sizeLimit := by
  rw [Field.sizeLimit, Field.sizeLimit, h.bytes, h.start]

theorem hash (h : Alike kin first second) (i : Nat) : second.hash i = first.hash i := by
  rw [Field.hash, Field.hash, h.bytes, h.width]

/-- How far a repeat may grow backwards is a matter of its source. -/
theorem lowest (h : Alike kin first second) (source : Nat) :
    second.lowest (source + second.base) = first.lowest (source + first.base) := by
  have hbefore (field : Field) :
      decide (source + field.base < field.base + field.start) = decide (source < field.start) := by
    rw [Nat.add_comm source, decide_eq_decide, Nat.add_lt_add_iff_left]
  rw [Field.lowest, Field.lowest, h.width, hbefore, hbefore, h.joined, h.start]

end Alike

end Field

/-! ## The pass -/

section Pass

variable {kin : Nat → Nat → Nat → Prop} {first second : Field}

theorem lt_size_of_searchStop {field : Field} {place : Nat} (h : place < field.searchStop) :
    place < field.bytes.size :=
  Nat.lt_of_lt_of_le h (Nat.sub_le ..)

theorem scan_alike (h : Field.Alike kin first second) (slots : Array Nat)
    (place hash step budget : Nat) :
    first.start < place → hash = first.hash place → ∀ slots', Paired kin slots slots' →
      (scan second slots' place hash step budget).2 = (scan first slots place hash step budget).2
        ∧ Paired kin (scan first slots place hash step budget).1
            (scan second slots' place hash step budget).1 := by
  fun_induction scan first slots place hash step budget with
  | case1 slots place hash step budget next hnext current candidate slots₁ haccepts =>
      -- the candidate counts for both
      rintro hplace rfl slots' hslots
      have hstop : place < first.searchStop := by omega
      rcases h.agree place _ _ hplace hstop (hslots.slots _ (first.hash_lt place))
          with ⟨hboth, hsource⟩
      have hscan : scan second slots' place (first.hash place) step budget
          = (slots'.setIfInBounds (first.hash place) (place + second.base),
            some ⟨place, slots'.getD (first.hash place) 0 - second.base⟩) := by
        rw [scan, if_pos (by rw [h.searchStop]; exact hnext)]
        exact if_pos (hboth.trans haccepts)
      rw [hscan, hsource haccepts]
      exact ⟨rfl, hslots.set (h.fresh _ place (lt_size_of_searchStop hstop))⟩
  | case2 slots place hash step budget next hnext current candidate slots₁ haccepts ih =>
      -- it counts for neither
      rintro hplace rfl slots' hslots
      have hstop : place < first.searchStop := by omega
      have hboth := (h.agree place _ _ hplace hstop (hslots.slots _ (first.hash_lt place))).1
      have hscan : scan second slots' place (first.hash place) step budget
          = scan second (slots'.setIfInBounds (first.hash place) (place + second.base)) next
            (first.hash next) (budget / 64) (budget + 1) := by
        rw [scan, if_pos (by rw [h.searchStop]; exact hnext), h.hash next]
        exact if_neg fun haccepts' => haccepts (hboth.symm.trans haccepts')
      rw [hscan]
      exact ih (by omega) rfl _ (hslots.set (h.fresh _ place (lt_size_of_searchStop hstop)))
  | case3 slots place hash step budget next hnext =>
      rintro - - slots' hslots
      rw [scan, if_neg (by rw [h.searchStop]; exact hnext)]
      exact ⟨rfl, hslots⟩

/-- Where a turn begins, there is content of the block in front of it. -/
def Turn.Behind (start : Nat) : Turn → Prop
  | .scan place => start < place
  | .again _ => True

theorem locate_alike (h : Field.Alike kin first second) {slots slots' : Array Nat}
    (hslots : Paired kin slots slots') (anchor size : Nat) {turn : Turn}
    (hturn : turn.Behind first.start) :
    (locate second slots' anchor size turn).2 = (locate first slots anchor size turn).2
      ∧ Paired kin (locate first slots anchor size turn).1
          (locate second slots' anchor size turn).1 := by
  cases turn with
  | again source => exact ⟨rfl, hslots⟩
  | scan place =>
      rcases scan_alike h slots place _ 1 (first.acceleration * 64) hturn rfl _ hslots
          with ⟨hfound, hslots₁⟩
      simp only [locate, h.hash, h.acceleration]
      revert hfound hslots₁
      rcases scan first slots place (first.hash place) 1 (first.acceleration * 64)
          with ⟨slots₁, found⟩
      rcases scan second slots' place (first.hash place) 1 (first.acceleration * 64)
          with ⟨slots₂, found'⟩
      intro hfound hslots₁
      obtain rfl : found' = found := hfound
      cases found' with
      | none => exact ⟨rfl, hslots₁⟩
      | some find =>
          simp only [h.lowest, h.bytes, h.sizeLimit]
          split
          · exact ⟨rfl, hslots₁⟩
          · exact ⟨rfl, hslots₁⟩

/-- What one search locates, the other locates. -/
theorem locate_alike_of_eq (h : Field.Alike kin first second) {slots slots' slots₁ : Array Nat}
    (hslots : Paired kin slots slots') {anchor size : Nat} {turn : Turn}
    (hturn : turn.Behind first.start) {located : Located}
    (hlocate : locate first slots anchor size turn = (slots₁, located)) :
    ∃ slots₂, locate second slots' anchor size turn = (slots₂, located)
      ∧ Paired kin slots₁ slots₂ := by
  rcases locate_alike h hslots anchor size hturn with ⟨hsame, hslots₁⟩
  rw [hlocate] at hsame hslots₁
  exact ⟨_, Prod.ext rfl hsame, hslots₁⟩

theorem finish_alike (h : Field.Alike kin first second) {slots slots' : Array Nat}
    (hslots : Paired kin slots slots') (anchor size : Nat) (found : Array Sequence) :
    (finish second slots' anchor size found).plan = (finish first slots anchor size found).plan
      ∧ Paired kin (finish first slots anchor size found).slots
          (finish second slots' anchor size found).slots := by
  simp only [finish, h.stop, h.sizeLimit]
  split
  · exact ⟨rfl, hslots⟩
  · exact ⟨rfl, hslots⟩

/-- How the pass goes on behind a repeat. -/
theorem turn_alike (h : Field.Alike kin first second) {slots slots' : Array Nat}
    (hslots : Paired kin slots slots') {stop : Nat} (hstart : first.start < stop)
    (hstop : stop < first.searchStop) :
    (if second.accepts (slots'.getD (first.hash stop) 0) (stop + second.base) then
        Turn.again (slots'.getD (first.hash stop) 0 - second.base)
      else Turn.scan (stop + 1))
      = if first.accepts (slots.getD (first.hash stop) 0) (stop + first.base) then
          Turn.again (slots.getD (first.hash stop) 0 - first.base)
        else Turn.scan (stop + 1) := by
  rcases h.agree stop _ _ hstart hstop (hslots.slots _ (first.hash_lt stop))
      with ⟨hboth, hsource⟩
  rw [hboth]
  split
  · next haccepts => rw [hsource haccepts]
  · rfl

theorem pass_alike (h : Field.Alike kin first second) (slots : Array Nat) (anchor size : Nat)
    (found : Array Sequence) (turn : Turn) :
    first.start ≤ anchor → turn.Behind first.start → ∀ slots', Paired kin slots slots' →
      (pass second slots' anchor size found turn).plan
          = (pass first slots anchor size found turn).plan
        ∧ Paired kin (pass first slots anchor size found turn).slots
            (pass second slots' anchor size found turn).slots := by
  fun_induction pass first slots anchor size found turn with
  | case1 slots anchor size found turn slots₁ hlocate =>
      intro hanchor hturn slots' hslots
      rcases locate_alike_of_eq h hslots hturn hlocate with ⟨slots₂, hlocate', hslots₁⟩
      rw [pass, hlocate']
      exact finish_alike h hslots₁ anchor size found
  | case2 slots anchor size found turn slots₁ hlocate =>
      intro hanchor hturn slots' hslots
      rcases locate_alike_of_eq h hslots hturn hlocate with ⟨slots₂, hlocate', hslots₁⟩
      rw [pass, hlocate']
      exact ⟨rfl, hslots₁⟩
  | case3 slots anchor size found turn slots₁ literals source hlocate place size₁ extra hroom =>
      intro hanchor hturn slots' hslots
      rcases locate_alike_of_eq h hslots hturn hlocate with ⟨slots₂, hlocate', hslots₁⟩
      rw [pass, hlocate']
      simp only [h.bytes, h.matchStop, h.sizeLimit]
      rw [if_pos hroom]
      exact ⟨rfl, hslots₁⟩
  | case4 slots anchor size found turn slots₁ literals source hlocate place size₁ extra hroom stop
      size₂ found₁ hstop slots₂ hash candidate slots₃ turn₁ ih =>
      intro hanchor hturn slots' hslots
      rcases locate_alike_of_eq h hslots hturn hlocate with ⟨slots₂', hlocate', hslots₁⟩
      have hsize := lt_size_of_searchStop hstop
      have hbehind : first.start < stop := by simp only [stop, place, minMatch]; omega
      -- both learn about the repeat's end
      have hslots₂ := hslots₁.set (h.fresh (first.hash (stop - 2)) (stop - 2) (by omega))
      have hslots₃ := hslots₂.set (h.fresh (first.hash stop) stop hsize)
      have hnext : turn₁ = _ := (turn_alike h hslots₂ hbehind hstop).symm
      rw [pass, hlocate']
      simp only [h.bytes, h.matchStop, h.sizeLimit, h.searchStop, h.hash]
      rw [if_neg hroom, if_pos hstop]
      rw [← hnext]
      refine ih (Nat.le_of_lt hbehind) ?_ _ hslots₃
      unfold turn₁
      split
      · trivial
      · exact Nat.lt_succ_of_lt hbehind
  | case5 slots anchor size found turn slots₁ literals source hlocate place size₁ extra hroom stop
      size₂ found₁ hstop =>
      intro hanchor hturn slots' hslots
      rcases locate_alike_of_eq h hslots hturn hlocate with ⟨slots₂, hlocate', hslots₁⟩
      rw [pass, hlocate']
      simp only [h.bytes, h.matchStop, h.sizeLimit, h.searchStop]
      rw [if_neg hroom, if_neg hstop]
      exact finish_alike h hslots₁ stop size₂ found₁

namespace Field

/-- Two searches of a block.  About the slot of its first place nothing has to be known if the block
is long enough for repeats: that slot is learned before it is asked. -/
theorem Alike.search_unlearned (h : Alike kin first second) {slots slots' : Array Nat}
    (hslots : Paired (fun slot c d => (minCompressible ≤ first.stop - first.start →
      slot ≠ first.hash first.start) → kin slot c d) slots slots') :
    (second.search slots').plan = (first.search slots).plan
      ∧ Paired kin (first.search slots).slots (second.search slots').slots := by
  by_cases hshort : first.stop - first.start < minCompressible
  · have hshort' : second.stop - second.start < minCompressible := by rwa [h.stop, h.start]
    rw [search, search, if_pos hshort, if_pos hshort', h.start]
    exact finish_alike h (hslots.mono fun _ _ _ _ hkin => hkin fun hlong => by omega)
      first.start 0 #[]
  · have hlong : minCompressible ≤ first.stop - first.start := Nat.le_of_not_lt hshort
    have hshort' : ¬second.stop - second.start < minCompressible := by rwa [h.stop, h.start]
    have hstart : first.start < first.bytes.size := by
      simp only [minCompressible, Field.stop] at hlong
      omega
    have hlearned := Paired.learn (hslots.mono fun _ _ _ _ hkin hne => hkin fun _ => hne)
      (h.fresh (first.hash first.start) first.start hstart)
    rw [search, search, if_neg hshort, if_neg hshort', h.start, h.hash]
    exact pass_alike h _ first.start 0 #[] (.scan (first.start + 1)) (Nat.le_refl _)
      (Nat.lt_succ_self _) _ hlearned

theorem Alike.search (h : Alike kin first second) {slots slots' : Array Nat}
    (hslots : Paired kin slots slots') :
    (second.search slots').plan = (first.search slots).plan
      ∧ Paired kin (first.search slots).slots (second.search slots').slots :=
  h.search_unlearned (hslots.mono fun _ _ _ _ hkin _ => hkin)

end Field

end Pass

end Lz4Frame.Block
