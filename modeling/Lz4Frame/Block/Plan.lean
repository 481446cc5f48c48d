import Lz4Frame.Bytes

/-!
# Block plans and their written form

A block is compressed by cutting it into literals and repeats.  A *plan* lists the cuts: so many
literals, then a repeat of so many bytes from so far back, and so on; whatever the plan leaves is
the block's last run of literals.  Finding a good plan is a heuristic matter.  Whether a plan spells
a block is not: `Plan.spells` decides it, together with the format's rules on the end of a block.
`Plan.encode` writes a plan down.

A plan that spells its block, and whose written form is shorter than the block, is what makes a
block a compressed one (`Payload.ofPlan`); otherwise the block is stored as it is.
-/

namespace Lz4Frame.Block

/-! ## Plans -/

/-- Some literals, then a repeat of earlier bytes. -/
structure Sequence where
  /-- How many bytes come as they are. -/
  literals : Nat
  /-- How far back the repeat starts. -/
  offset : Nat
  /-- How many bytes it repeats. -/
  length : Nat
  deriving DecidableEq, Repr, Inhabited

/-- The cuts of a block, first to last; the rest of the block is literal. -/
abbrev Plan := List Sequence

/-- The shortest repeat that can be written. -/
def minMatch : Nat := 4

/-- The farthest that a repeat reaches back. -/
def maxOffset : Nat := 65535

/-- A block ends in this many literals at least. -/
def lastLiterals : Nat := 5

/-- No repeat starts among this many last bytes. -/
def matchMargin : Nat := 12

/-- Shorter blocks hold no repeat. -/
def minCompressible : Nat := 13

/-- Whether `count` bytes from `i` on equal those `offset` before them. -/
def repeats (bytes : Array UInt8) (offset : Nat) : (i count : Nat) → Bool
  | _, 0 => true
  | i, count + 1 =>
      bytes.getD i 0 == bytes.getD (i - offset) 0 && repeats bytes offset (i + 1) count

namespace Plan

/-- Whether a plan spells the bytes from `i` on: every repeat is one, stays within its reach, and
keeps clear of the end. -/
def spells (bytes : Array UInt8) : (i : Nat) → Plan → Bool
  | i, [] => i ≤ bytes.size
  | i, s :: rest =>
      let start := i + s.literals
      let stop := start + s.length
      (1 ≤ s.offset && s.offset ≤ maxOffset && s.offset ≤ start && minMatch ≤ s.length
        && start + matchMargin ≤ bytes.size && stop + lastLiterals ≤ bytes.size)
      && repeats bytes s.offset start s.length && spells bytes stop rest

end Plan

/-! ## Written form -/

/-- The high or low half of a token: counts from 15 on are continued behind it. -/
def nibble (n : Nat) : Nat := min n 15

/-- The continuation of a count from 15 on: a byte 255 for each 255 of it, then the remainder. -/
def appendExtension (out : Array UInt8) (n : Nat) : Array UInt8 :=
  (out ++ Array.replicate (n / 255) (255 : UInt8)).push (UInt8.ofNat (n % 255))

/-- A count's continuation, if its half of the token does not hold it. -/
def appendCount (out : Array UInt8) (n : Nat) : Array UInt8 :=
  if n < 15 then out else appendExtension out (n - 15)

/-- Literals under a token whose low half is `low`. -/
def appendLiterals (out : Array UInt8) (literals : Bytes) (count low : Nat) : Array UInt8 :=
  let out := out.push (UInt8.ofNat (nibble count * 16 + low))
  literals.foldl Array.push (appendCount out count)

namespace Plan

/-- `encode`, behind what is written already. -/
def encodeInto (out : Array UInt8) : Plan → Bytes → Array UInt8
  | [], block => appendLiterals out block block.length 0
  | s :: rest, block =>
      let extra := s.length - minMatch
      let out := appendLiterals out (block.take s.literals) s.literals (nibble extra)
      let out := (out.push (UInt8.ofNat s.offset)).push (UInt8.ofNat (s.offset / 256))
      encodeInto (appendCount out extra) rest (block.drop (s.literals + s.length))

/-- The written form of a block that is cut as planned. -/
def encode (plan : Plan) (block : Bytes) : Bytes :=
  (encodeInto #[] plan block).toList

end Plan

/-! ## Block payloads -/

/-- What a frame holds for one block. -/
inductive Payload
  /-- The block's own bytes. -/
  | stored (bytes : Bytes)
  /-- The written form of a plan. -/
  | compressed (bytes : Bytes)
  deriving DecidableEq, Repr

/-- The payload of a block, given what a search came up with.  `window` holds the bytes that the
block may refer to, and the block behind them, from `start` on. -/
def Payload.ofPlan (window : Array UInt8) (start : Nat) (block : Bytes) : Option Plan → Payload
  | some plan =>
      let bytes := plan.encode block
      if plan.spells window start ∧ bytes.length < block.length then
        .compressed bytes
      else
        .stored block
  | none => .stored block

end Lz4Frame.Block
