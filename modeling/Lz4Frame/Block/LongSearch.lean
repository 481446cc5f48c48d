import Lz4Frame.Block.FastSearch

/-!
# The search for long repeats

The search of the high levels.  Every place is chained to the earlier places with the same
four-byte hash, nearest first, and the longest repeat along the chain wins, the nearest of equals.
How much of a chain is looked at grows with the level.

A repeat that was found is not taken at once.  A longer one that begins inside it is looked for, and
one more inside that; then the first is shortened, dropped or taken whole, so that the longer ones
lose as little as possible (`weigh`).

Unlike the fast search this one starts from nothing at every block; it enters the history that is
within reach before it looks at the block.
-/

namespace Lz4Frame.Block

/-! ## Chains of places -/

/-- Places by hash.  A link or head is one more than a place, and 0 where a chain ends. -/
structure Chains where
  heads : Array Nat
  /-- The earlier place with the same hash, for each place from `origin` on. -/
  links : Array Nat
  origin : Nat

/-- A repeat that could be taken. -/
structure Candidate where
  place : Nat
  offset : Nat
  length : Nat

/-- The end of a repeat. -/
@[inline] def Candidate.stop (candidate : Candidate) : Nat := candidate.place + candidate.length

namespace Chains

def headCount : Nat := 32768

@[inline] def hash (bytes : Array UInt8) (i : Nat) : Nat :=
  ((wordAt bytes i * 2654435761) >>> 17).toNat

def empty (origin : Nat) : Chains := ⟨Array.replicate headCount 0, #[], origin⟩

/-- The first place that is not entered yet. -/
@[inline] def next (chains : Chains) : Nat := chains.origin + chains.links.size

/-- Enters `count` further places. -/
def enter (bytes : Array UInt8) : Chains → (count : Nat) → Chains
  | chains, 0 => chains
  | ⟨heads, links, origin⟩, count + 1 =>
      let place := origin + links.size
      let slot := hash bytes place
      let link := heads.getD slot 0
      enter bytes ⟨heads.setIfInBounds slot (place + 1), links.push link, origin⟩ count

/-- What a place is compared under: how far a repeat there may grow in both directions. -/
structure Scope where
  place : Nat
  /-- How many bytes before `place` a repeat may begin. -/
  lookBack : Nat
  /-- How many bytes from `place` on a repeat may have. -/
  limit : Nat

/-- Follows a chain for the longest repeat, longer than the best so far. -/
def follow (bytes : Array UInt8) (chains : Chains) (scope : Scope) :
    (attempts link : Nat) → Candidate → Candidate
  | 0, _, best => best
  | _ + 1, 0, best => best
  | attempts + 1, source + 1, best =>
      let place := scope.place
      if place - source ≤ maxOffset then
        -- a repeat longer than the best so far has to agree at this byte at least
        let probe := best.length - scope.lookBack
        let best :=
          if byteAt bytes (source + probe) == byteAt bytes (place + probe)
              && wordAt bytes source == wordAt bytes place then
            let back := agreeBackward bytes place source (min scope.lookBack source) 0
            let length := back + agreeForward bytes place source scope.limit 0
            if best.length < length then ⟨place - back, place - source, length⟩ else best
          else
            best
        follow bytes chains scope attempts (chains.links.getD (source - chains.origin) 0) best
      else
        best

/-- The longest repeat around `place` that begins at `floor` or later and has more than `length`
bytes, if there is one.  All places before `place` are entered first. -/
def longest (field : Field) (attempts : Nat) (chains : Chains) (place floor length : Nat) :
    Chains × Option Candidate :=
  let chains := enter field.bytes chains (place - chains.next)
  let link := chains.heads.getD (hash field.bytes place) 0
  let scope : Scope := ⟨place, place - floor, field.matchStop - place⟩
  let best := follow field.bytes chains scope attempts link ⟨place, 0, length⟩
  (chains, if length < best.length then some best else none)

end Chains

/-! ## Plans in the making -/

/-- The sequences taken so far: where they end, and the size of their written form. -/
structure Draft where
  anchor : Nat
  size : Nat
  found : Array Sequence

/-- Takes a repeat, unless the written form gets too large. -/
def Draft.take (field : Field) (draft : Draft) (repeated : Candidate) : Option Draft :=
  let ⟨anchor, size, found⟩ := draft
  let literals := repeated.place - anchor
  let extra := repeated.length - minMatch
  let sizeThere := size + 1 + extensionSize literals + literals + 2
  if field.sizeLimit < size + 1 + literals + 8 + literals / 255
      ∨ field.sizeLimit < sizeThere + 6 + extra / 255 then
    none
  else
    some ⟨repeated.stop, sizeThere + extensionSize extra,
      found.push ⟨literals, repeated.offset, repeated.length⟩⟩

/-! ## Weighing repeats against each other -/

/-- A repeat up to this length costs no more than a short one. -/
def thriftyLength : Nat := 18

/-- A first and a second repeat that overlap by so little that the first keeps a thrifty length:
shortens both so that they meet. -/
def settle (first second : Candidate) : Candidate × Candidate :=
  let gap := second.place - first.place
  if gap < thriftyLength then
    let length := min (min first.length thriftyLength) (gap + second.length - minMatch)
    let cut := length - gap
    ({ first with length }, ⟨second.place + cut, second.offset, second.length - cut⟩)
  else
    ({ first with length := min first.length gap }, second)

/-- Where the weighing stands. -/
inductive Weighing
  /-- Nothing is in hand; the next place is looked at. -/
  | seek (place : Nat)
  /-- One repeat is in hand, and the one that it has replaced, or itself. -/
  | one (first replaced : Candidate)
  /-- Two repeats are in hand. -/
  | two (first second : Candidate)

/-- Goes on weighing. -/
def weigh (field : Field) (attempts : Nat) :
    (fuel : Nat) → Chains → Draft → Weighing → Option Plan
  | 0, _, _, _ => none
  | fuel + 1, chains, draft, .seek place =>
      if place < field.searchStop then
        match chains.longest field attempts place place (minMatch - 1) with
        | (chains, none) => weigh field attempts fuel chains draft (.seek (place + 1))
        | (chains, some first) => weigh field attempts fuel chains draft (.one first first)
      else
        (finish field #[] draft.anchor draft.size draft.found).plan
  | fuel + 1, chains, draft, .one first replaced =>
      let (chains, second?) :=
        if first.stop < field.searchStop then
          chains.longest field attempts (first.stop - 2) first.place first.length
        else
          (chains, none)
      match second? with
      | none =>
          (draft.take field first).bind fun draft =>
            weigh field attempts fuel chains draft (.seek first.stop)
      | some second =>
          -- the repeat that was replaced comes back if it reaches up to the new one
          let first :=
            if replaced.place < first.place ∧ second.place < first.place + replaced.length then
              replaced
            else
              first
          if second.place - first.place < 3 then
            -- too close behind the first to keep both
            weigh field attempts fuel chains draft (.one second replaced)
          else
            weigh field attempts fuel chains draft (.two first second)
  | fuel + 1, chains, draft, .two first second =>
      let gap := second.place - first.place
      let second := if gap < thriftyLength then (settle first second).2 else second
      let (chains, third?) :=
        if second.stop < field.searchStop then
          chains.longest field attempts (second.stop - 3) second.place second.length
        else
          (chains, none)
      match third? with
      | none =>
          let first := { first with length := min first.length (second.place - first.place) }
          (draft.take field first).bind fun draft =>
            (draft.take field second).bind fun draft =>
              weigh field attempts fuel chains draft (.seek second.stop)
      | some third =>
          if third.place < first.stop then
            -- the third makes the second needless
            weigh field attempts fuel chains draft (.two first third)
          else if third.place < first.stop + 3 then
            -- the first is taken, and what it leaves of the second may still matter
            let cut := first.stop - second.place
            let replaced :=
              if second.length - cut < minMatch then third
              else ⟨second.place + cut, second.offset, second.length - cut⟩
            (draft.take field first).bind fun draft =>
              weigh field attempts fuel chains draft (.one third replaced)
          else
            -- the first is taken, and the second and third are weighed next
            let (first, second) :=
              if second.place < first.stop then settle first second else (first, second)
            (draft.take field first).bind fun draft =>
              weigh field attempts fuel chains draft (.two second third)

/-! ## Whole blocks -/

/-- How many earlier places a level looks at for each place. -/
def attemptsAt (level : Int) : Nat := 1 <<< (min level 9 - 1).toNat

/-- Searches a whole block for long repeats. -/
def Field.searchLong (field : Field) (level : Int) : Option Plan :=
  if field.stop - field.start < minCompressible then
    (finish field #[] field.start 0 #[]).plan
  else
    let origin := field.start - min field.start maxOffset
    weigh field (attemptsAt level) (field.stop * 64) (.empty origin) ⟨field.start, 0, #[]⟩
      (.seek field.start)

end Lz4Frame.Block
