import Lz4Frame.Block.Plan

/-!
# Reading compressed blocks

The inverse of a written plan.  A block is read behind the bytes that it may refer to, and the
result is those bytes with the block's content appended.  Nothing is trusted: a count that runs off
the input, a repeat from before the first byte, or content that does not fit makes the whole block
fail.

A block has to end in literals, and near its end it is held to that.  Farther from the end, where
copies of a fixed length cannot run over, a short sequence is copied without a look at the end, so
that some blocks pass which break the rule.  Which ones depends on where the history of the block
lies in memory (`Placement`): repeats from a history that lies elsewhere are copied with more care.

A repeat from distance 0 is let through and yields zero bytes.
-/

namespace Lz4Frame.Block

/-! ## Counts -/

/-- Reads the continuation of a count; each byte of it needs `reserve` bytes behind it. -/
def readExtension (reserve : Nat) (count : Nat) : Bytes → Option (Nat × Bytes)
  | [] => none
  | b :: rest =>
      if hasAtLeast rest reserve then
        if b = 255 then readExtension reserve (count + 255) rest
        else some (count + b.toNat, rest)
      else
        none

/-- Reads the number of literals: the token's half, continued if it is 15. -/
def readLiteralCount (half : Nat) (input : Bytes) : Option (Nat × Bytes) :=
  if half < 15 then some (half, input)
  else if hasAtLeast input 16 then readExtension 15 half input
  else none

/-- Reads the length of a repeat: 4 more than the token's half, continued if that is 15. -/
def readMatchLength (half : Nat) (input : Bytes) : Option (Nat × Bytes) :=
  if half < 15 then some (half + minMatch, input)
  else readExtension 4 (half + minMatch) input

theorem readExtension_length {reserve count : Nat} {input : Bytes} {n : Nat} {rest : Bytes}
    (h : readExtension reserve count input = some (n, rest)) : rest.length ≤ input.length := by
  induction input generalizing count with
  | nil => simp [readExtension] at h
  | cons b tail ih =>
      simp only [readExtension] at h
      split at h
      · split at h
        · exact Nat.le_succ_of_le (ih h)
        · simp only [Option.some.injEq, Prod.mk.injEq] at h
          simp [← h.2]
      · simp at h

theorem readLiteralCount_length {half : Nat} {input : Bytes} {n : Nat} {rest : Bytes}
    (h : readLiteralCount half input = some (n, rest)) : rest.length ≤ input.length := by
  unfold readLiteralCount at h
  split at h
  · simp only [Option.some.injEq, Prod.mk.injEq] at h
    simp [h.2]
  · split at h
    · exact readExtension_length h
    · simp at h

theorem readMatchLength_length {half : Nat} {input : Bytes} {n : Nat} {rest : Bytes}
    (h : readMatchLength half input = some (n, rest)) : rest.length ≤ input.length := by
  unfold readMatchLength at h
  split at h
  · simp only [Option.some.injEq, Prod.mk.injEq] at h
    simp [h.2]
  · exact readExtension_length h

/-! ## Literals and repeats -/

/-- Moves the first `count` bytes of the input to the output. -/
def moveLiterals (out : Array UInt8) : (count : Nat) → Bytes → Array UInt8 × Bytes
  | 0, input => (out, input)
  | _ + 1, [] => (out, [])
  | count + 1, b :: rest => moveLiterals (out.push b) count rest

theorem moveLiterals_snd (out : Array UInt8) (count : Nat) (input : Bytes) :
    (moveLiterals out count input).2 = input.drop count := by
  induction input generalizing out count with
  | nil => cases count <;> simp [moveLiterals]
  | cons b rest ih => cases count <;> simp [moveLiterals, ih]

theorem moveLiterals_fst (out : Array UInt8) (count : Nat) (input : Bytes) :
    (moveLiterals out count input).1.toList = out.toList ++ input.take count := by
  induction input generalizing out count with
  | nil => cases count <;> simp [moveLiterals]
  | cons b rest ih => cases count <;> simp [moveLiterals, ih]

/-- Appends `count` bytes, each a copy of the one `offset` before it. -/
def copyBack (out : Array UInt8) (offset : Nat) : (count : Nat) → Array UInt8
  | 0 => out
  | count + 1 => copyBack (out.push (out.getD (out.size - offset) 0)) offset count

/-! ## Sequences -/

/-- Where the history of a block lies in memory. -/
inductive Placement
  /-- Right in front of the place that the content of the block goes to. -/
  | adjoining
  /-- Elsewhere. -/
  | apart
  deriving DecidableEq, Repr

/-- How many bytes lie in a row up to the end of the output, of which the block's own content begins
at `start`. -/
def Placement.reach (placement : Placement) (start size : Nat) : Nat :=
  match placement with
  | .adjoining => size
  | .apart => size - start

/-- Room that content needs behind any literals but the last. -/
def literalMargin : Nat := 12

/-- What one sequence leaves: the content so far and, unless it was the last, the rest. -/
structure Reading where
  out : Array UInt8
  rest : Option Bytes

/-- Whether a sequence with so many literals stands far from the end: a copy of 16 literals would
not run over the input, nor that and a copy of 18 bytes over the room, of which `size` are used. -/
def hasHeadway (size capacity half : Nat) (input : Bytes) : Bool :=
  half < 15 && hasAtLeast input 17 && size + 32 ≤ capacity

/-- Reads one sequence under its token.  The content starts at `start` in the output and may grow
to `capacity` bytes.  Literals that leave no room for a repeat behind them have to be the last. -/
def readSequence (placement : Placement) (start capacity : Nat) (out : Array UInt8)
    (token : UInt8) (input : Bytes) : Option Reading := do
  let headway := hasHeadway (out.size - start) capacity (token.toNat / 16) input
  let (literals, input) ← readLiteralCount (token.toNat / 16) input
  let size := out.size - start + literals
  if !headway && (capacity < size + literalMargin || !hasAtLeast input (literals + 8)) then
    -- too near the end for a repeat: these literals have to finish input and content
    if input.length = literals ∧ size ≤ capacity then
      some ⟨(moveLiterals out literals input).1, none⟩
    else
      none
  else
    let (out, input) := moveLiterals out literals input
    let offset := LittleEndian.value (input.take 2)
    let (length, input) ← readMatchLength (token.toNat % 16) (input.drop 2)
    -- a short repeat of bytes that lie in a row need not leave room for the last literals
    let unchecked := headway && token.toNat % 16 < 15 && 8 ≤ offset
      && offset ≤ placement.reach start out.size
    -- a repeat starts within history or content
    if out.size < offset ∨ (!unchecked && capacity < size + length + lastLiterals) then
      none
    else
      some ⟨copyBack out offset length, some input⟩

/-- Whether literals are too near the end of the input, or of the room, for a repeat behind them. -/
def NearEnd (size capacity half literals : Nat) (input behind : Bytes) : Prop :=
  hasHeadway size capacity half input = false
    ∧ (capacity < size + literals + literalMargin ∨ behind.length < literals + 8)

theorem nearEnd_iff {size capacity half literals : Nat} {input behind : Bytes} :
    (!hasHeadway size capacity half input
        && (capacity < size + literals + literalMargin || !hasAtLeast behind (literals + 8))) = true
      ↔ NearEnd size capacity half literals input behind := by
  simp [NearEnd, hasAtLeast_eq_false_iff]

/-- What a sequence is read as: literals that finish the input, or literals and a repeat. -/
inductive IsRead (placement : Placement) (start capacity : Nat) (out : Array UInt8) (token : UInt8)
    (input : Bytes) : Reading → Prop
  | last {literals : Nat} {behind : Bytes}
      (count : readLiteralCount (token.toNat / 16) input = some (literals, behind))
      (near : NearEnd (out.size - start) capacity (token.toNat / 16) literals input behind)
      (length_eq : behind.length = literals) (size_le : out.size - start + literals ≤ capacity) :
      IsRead placement start capacity out token input ⟨(moveLiterals out literals behind).1, none⟩
  | repeated {literals offset length : Nat} {behind rest : Bytes}
      (count : readLiteralCount (token.toNat / 16) input = some (literals, behind))
      (far : ¬ NearEnd (out.size - start) capacity (token.toNat / 16) literals input behind)
      (offset_eq : LittleEndian.value ((behind.drop literals).take 2) = offset)
      (match_eq : readMatchLength (token.toNat % 16) ((behind.drop literals).drop 2)
        = some (length, rest))
      (within : offset ≤ (moveLiterals out literals behind).1.size)
      (fits : hasHeadway (out.size - start) capacity (token.toNat / 16) input = true
          ∧ token.toNat % 16 < 15 ∧ 8 ≤ offset
          ∧ offset ≤ placement.reach start (moveLiterals out literals behind).1.size
        ∨ out.size - start + literals + length + lastLiterals ≤ capacity) :
      IsRead placement start capacity out token input
        ⟨copyBack (moveLiterals out literals behind).1 offset length, some rest⟩

theorem readSequence_iff {placement : Placement} {start capacity : Nat} {out : Array UInt8}
    {token : UInt8} {input : Bytes} {reading : Reading} :
    readSequence placement start capacity out token input = some reading
      ↔ IsRead placement start capacity out token input reading := by
  constructor
  · intro h
    unfold readSequence at h
    simp only [Option.bind_eq_bind, Option.bind_eq_some_iff, moveLiterals_snd] at h
    rcases h with ⟨⟨literals, behind⟩, hcount, h⟩
    simp only at h
    split at h
    · rename_i hnear
      split at h
      · rename_i hends
        rw [← Option.some.inj h]
        exact .last hcount (nearEnd_iff.mp hnear) hends.1 hends.2
      · cases h
    · rename_i hfar
      simp only [Option.bind_eq_some_iff] at h
      rcases h with ⟨⟨length, rest⟩, hmatch, h⟩
      simp only at h
      split at h
      · cases h
      · rename_i hallowed
        rw [not_or, Nat.not_lt, Bool.and_eq_true, Decidable.not_and_iff_or_not] at hallowed
        rw [← Option.some.inj h]
        refine .repeated hcount (mt nearEnd_iff.mpr hfar) rfl hmatch hallowed.1 ?_
        simpa [and_assoc] using hallowed.2
  · intro h
    unfold readSequence
    cases h with
    | last count near length_eq size_le =>
        simp only [count, Option.bind_eq_bind, Option.bind_some]
        rw [if_pos (nearEnd_iff.mpr near), if_pos ⟨length_eq, size_le⟩]
    | repeated count far offset_eq match_eq within fits =>
        simp only [count, Option.bind_eq_bind, Option.bind_some, moveLiterals_snd, offset_eq,
          match_eq]
        rw [if_neg (mt nearEnd_iff.mp far), if_neg]
        rw [not_or, Nat.not_lt, Bool.and_eq_true, Decidable.not_and_iff_or_not]
        exact ⟨within, by simpa [and_assoc] using fits⟩

theorem readSequence_length {placement : Placement} {start capacity : Nat}
    {out out' : Array UInt8} {token : UInt8} {input rest : Bytes}
    (h : readSequence placement start capacity out token input = some ⟨out', some rest⟩) :
    rest.length ≤ input.length := by
  cases readSequence_iff.mp h with
  | repeated count far offset_eq match_eq within fits =>
      have hliterals := readLiteralCount_length count
      have hmatch := readMatchLength_length match_eq
      simp only [List.length_drop] at hmatch
      omega

/-- Reads sequences up to the last. -/
def readSequences (placement : Placement) (start capacity : Nat) (out : Array UInt8) :
    Bytes → Option (Array UInt8)
  | [] => none
  | token :: input =>
      match _ : readSequence placement start capacity out token input with
      | none => none
      | some ⟨out, none⟩ => some out
      | some ⟨out, some rest⟩ => readSequences placement start capacity out rest
termination_by input => input.length
decreasing_by
  have := readSequence_length ‹_›
  simp only [List.length_cons]
  omega

section

variable {placement : Placement} {start capacity : Nat}

theorem readSequences_refused {out : Array UInt8} {token : UInt8} {input : Bytes} :
    readSequence placement start capacity out token input = none →
      readSequences placement start capacity out (token :: input) = none := by
  intro h
  rw [readSequences]
  split
  · rfl
  · rename_i hother
    cases h.symm.trans hother
  · rename_i hother
    cases h.symm.trans hother

theorem readSequences_last {out last : Array UInt8} {token : UInt8} {input : Bytes} :
    readSequence placement start capacity out token input = some ⟨last, none⟩ →
      readSequences placement start capacity out (token :: input) = some last := by
  intro h
  rw [readSequences]
  split
  · rename_i hother
    cases h.symm.trans hother
  · rename_i hother
    cases h.symm.trans hother
    rfl
  · rename_i hother
    cases h.symm.trans hother

theorem readSequences_further {out next : Array UInt8} {token : UInt8} {input rest : Bytes} :
    readSequence placement start capacity out token input = some ⟨next, some rest⟩ →
      readSequences placement start capacity out (token :: input)
        = readSequences placement start capacity next rest := by
  intro h
  rw [readSequences]
  split
  · rename_i hother
    cases h.symm.trans hother
  · rename_i hother
    cases h.symm.trans hother
  · rename_i hother
    cases h.symm.trans hother
    rfl

end

/-- Reads a compressed block of at most `capacity` content bytes, behind the bytes that it may
refer to. -/
def decode (placement : Placement) (history : Array UInt8) (capacity : Nat) (input : Bytes) :
    Option (Array UInt8) :=
  readSequences placement history.size capacity history input

end Lz4Frame.Block
