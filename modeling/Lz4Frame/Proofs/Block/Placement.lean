import Lz4Frame.Proofs.Block.Expansion
import Lz4Frame.Proofs.Block.RoundTrip

/-!
# Blocks and the place of their history

Behind a history that lies elsewhere a block is read with more care than behind one that lies in
front of it: what is read there is read here too, and as the same (`decode_of_apart`).  Most blocks
are read alike (`Indifferent`): those without a history, those whose content leaves as much of a
block as its last literals take, and those that were made (`Decodes.indifferent`).  What is left are
blocks that fill up their room with a repeat from the history (`sensitive`).
-/

namespace Lz4Frame.Block

/-! ## Sequences -/

/-- A sequence that is read with care is read without. -/
theorem readSequence_of_apart {start capacity : Nat} {out : Array UInt8} {token : UInt8}
    {input : Bytes} {reading : Reading} :
    readSequence .apart start capacity out token input = some reading →
      readSequence .adjoining start capacity out token input = some reading := by
  intro h
  refine readSequence_iff.mpr ?_
  cases readSequence_iff.mp h with
  | last count near length_eq size_le => exact .last count near length_eq size_le
  | repeated count far offset_eq match_eq within fits =>
      -- bytes that lie in a row behind the history do so together with it
      refine .repeated count far offset_eq match_eq within ?_
      exact fits.imp_left fun ⟨headway, few, apart, _⟩ => ⟨headway, few, apart, within⟩

/-- No sequence takes content back. -/
theorem readSequence_grows {placement : Placement} {start capacity : Nat} {out : Array UInt8}
    {token : UInt8} {input : Bytes} {reading : Reading} :
    readSequence placement start capacity out token input = some reading →
      out.size ≤ reading.out.size := by
  intro h
  have hmoved (literals : Nat) (behind : Bytes) :
      out.size ≤ (moveLiterals out literals behind).1.size := by
    rw [← Array.length_toList, ← Array.length_toList, moveLiterals_fst, List.length_append]
    exact Nat.le_add_right ..
  cases readSequence_iff.mp h with
  | last => exact hmoved ..
  | repeated =>
      rw [copyBack_size]
      exact Nat.le_add_right_of_le (hmoved ..)

/-- A sequence that leaves room for the last literals is read wherever the history lies. -/
theorem readSequence_of_room {start capacity : Nat} {out : Array UInt8} {token : UInt8}
    {input : Bytes} {reading : Reading} (hstart : start ≤ out.size)
    (hroom : reading.out.size + lastLiterals ≤ start + capacity) :
    readSequence .adjoining start capacity out token input = some reading →
      readSequence .apart start capacity out token input = some reading := by
  intro h
  refine readSequence_iff.mpr ?_
  cases readSequence_iff.mp h with
  | last count near length_eq size_le => exact .last count near length_eq size_le
  | repeated count far offset_eq match_eq within fits =>
      -- whether the end is looked at or not, this repeat does not come near it
      refine .repeated count far offset_eq match_eq within (.inr ?_)
      have hbehind := literals_le_of_far count far
      rw [copyBack_size, moveLiterals_size (Nat.le_of_add_right_le hbehind)] at hroom
      omega

/-! ## Blocks -/

theorem readSequences_of_apart {start capacity : Nat} {out last : Array UInt8} {input : Bytes} :
    readSequences .apart start capacity out input = some last →
      readSequences .adjoining start capacity out input = some last := by
  intro h
  fun_induction readSequences .apart start capacity out input with
  | case1 => cases h
  | case2 => cases h
  | case3 out token input out' hread =>
      rw [readSequences_last (readSequence_of_apart hread)]
      exact h
  | case4 out token input out' rest hread ih =>
      rw [readSequences_further (readSequence_of_apart hread)]
      exact ih h

theorem readSequences_grows {placement : Placement} {start capacity : Nat}
    {out last : Array UInt8} {input : Bytes} :
    readSequences placement start capacity out input = some last → out.size ≤ last.size := by
  intro h
  fun_induction readSequences placement start capacity out input with
  | case1 => cases h
  | case2 => cases h
  | case3 out token input out' hread =>
      rw [← Option.some.inj h]
      exact readSequence_grows hread
  | case4 out token input out' rest hread ih => exact Nat.le_trans (readSequence_grows hread) (ih h)

theorem readSequences_of_room {start capacity : Nat} {out last : Array UInt8} {input : Bytes}
    (hstart : start ≤ out.size) (hroom : last.size + lastLiterals ≤ start + capacity) :
    readSequences .adjoining start capacity out input = some last →
      readSequences .apart start capacity out input = some last := by
  intro h
  fun_induction readSequences .adjoining start capacity out input with
  | case1 => cases h
  | case2 => cases h
  | case3 out token input out' hread =>
      obtain rfl := Option.some.inj h
      exact readSequences_last (readSequence_of_room hstart hroom hread)
  | case4 out token input out' rest hread ih =>
      -- what is read here is not taken back, so it leaves as much room as all of the block
      have hgrown := readSequences_grows h
      have hgrows : out.size ≤ out'.size := readSequence_grows hread
      rw [readSequences_further (readSequence_of_room hstart (by simp only; omega) hread)]
      exact ih (Nat.le_trans hstart hgrows) h

/-- What is read behind a history that lies elsewhere is read behind one that lies in front. -/
theorem decode_of_apart {history out : Array UInt8} {capacity : Nat} {input : Bytes} :
    decode .apart history capacity input = some out →
      decode .adjoining history capacity input = some out := readSequences_of_apart

/-- A block that is read alike wherever its history lies. -/
def Indifferent (history : Array UInt8) (capacity : Nat) (input : Bytes) : Prop :=
  decode .apart history capacity input = decode .adjoining history capacity input

theorem Indifferent.decode_eq {history : Array UInt8} {capacity : Nat} {input : Bytes}
    (h : Indifferent history capacity input) (first second : Placement) :
    decode first history capacity input = decode second history capacity input := by
  cases first <;> cases second
  · rfl
  · exact h.symm
  · exact h
  · rfl

/-- A block is indifferent if what is read behind a history in front is read with more care too. -/
theorem indifferent_iff {history : Array UInt8} {capacity : Nat} {input : Bytes} :
    Indifferent history capacity input ↔
      ∀ out, decode .adjoining history capacity input = some out →
        decode .apart history capacity input = some out := by
  constructor
  · intro h out hout
    exact h.trans hout
  · intro h
    cases hout : decode .adjoining history capacity input with
    | some out => exact (h out hout).trans hout.symm
    | none =>
        rw [Indifferent, hout]
        cases hapart : decode .apart history capacity input with
        | none => rfl
        | some out => cases (decode_of_apart hapart).symm.trans hout

/-- Without a history it does not matter where that lies. -/
theorem indifferent_of_no_history (capacity : Nat) (input : Bytes) :
    Indifferent #[] capacity input := by
  have hsequence (out : Array UInt8) (token : UInt8) (input : Bytes) :
      readSequence .apart 0 capacity out token input
        = readSequence .adjoining 0 capacity out token input := rfl
  refine indifferent_iff.mpr fun out hout => ?_
  unfold decode at hout ⊢
  simp only [List.size_toArray, List.length_nil] at hout ⊢
  generalize (#[] : Array UInt8) = front at hout ⊢
  fun_induction readSequences .adjoining 0 capacity front input with
  | case1 => cases hout
  | case2 => cases hout
  | case3 front token input front' hread =>
      rw [readSequences_last ((hsequence ..).trans hread)]
      exact hout
  | case4 front token input front' rest hread ih =>
      rw [readSequences_further ((hsequence ..).trans hread)]
      exact ih hout

/-- A block whose content leaves room for the last literals of another one is indifferent. -/
theorem indifferent_of_room {history out : Array UInt8} {capacity : Nat} {input : Bytes}
    (hout : decode .adjoining history capacity input = some out) :
    out.size + lastLiterals ≤ history.size + capacity → Indifferent history capacity input := by
  intro hroom
  refine indifferent_iff.mpr fun other hother => ?_
  obtain rfl := Option.some.inj (hout.symm.trans hother)
  exact readSequences_of_room (Nat.le_refl _) hroom hout

theorem Decodes.indifferent {history : Array UInt8} {capacity : Nat} {input content : Bytes} :
    Decodes history capacity input content → Indifferent history capacity input := by
  intro h
  exact (h .apart).trans (h .adjoining).symm

/-! ## A block that is not indifferent -/

/-- The end of the block: fourteen literals, eighteen bytes from the beginning of everything, and no
literals behind them. -/
def sensitiveEnd : Bytes := 0xee :: (List.replicate 14 7 ++ [0xef, 0xff, 0])

/-- A block of 65536 bytes behind one byte: that byte over and over again, and the end. -/
def sensitive : Bytes :=
  0x0f :: 1 :: 0 :: (List.replicate 256 255 ++ [UInt8.ofNat 205] ++ sensitiveEnd)

theorem length_sensitive : sensitive.length = 278 := by
  simp only [sensitive, sensitiveEnd, List.length_cons, List.length_append, List.length_replicate,
    List.length_nil]

/-- The one byte is repeated up to 32 bytes from the end. -/
theorem decode_sensitive_front (placement : Placement) (byte : UInt8) :
    ∃ out, out.size = 65505
      ∧ decode placement #[byte] 65536 sensitive
        = readSequences placement 1 65536 out sensitiveEnd := by
  refine ⟨copyBack #[byte] 1 65504, by simp [copyBack_size], readSequences_further ?_⟩
  have hextension : readExtension 4 19
      (List.replicate 256 255 ++ [UInt8.ofNat 205] ++ sensitiveEnd)
        = some (65504, sensitiveEnd) :=
    readExtension_replicate 256 205 19 (by decide) (by decide)
  have hlong : 6 ≤ (List.replicate 256 255 ++ [UInt8.ofNat 205] ++ sensitiveEnd).length := by
    rw [List.length_append, List.length_append, List.length_replicate]
    omega
  generalize List.replicate 256 255 ++ [UInt8.ofNat 205] ++ sensitiveEnd = rest
    at hextension hlong ⊢
  simp [readSequence, readLiteralCount, moveLiterals, readMatchLength, minMatch, hextension,
    LittleEndian.value, hasHeadway, lastLiterals, literalMargin, hlong]

/-- The repeat ends with the block, which is refused where it is looked at. -/
theorem readSequence_sensitiveEnd {out : Array UInt8} (hsize : out.size = 65505) :
    readSequence .apart 1 65536 out 0xee (List.replicate 14 7 ++ [0xef, 0xff, 0]) = none
      ∧ ∃ last, last.size = 65537
        ∧ readSequence .adjoining 1 65536 out 0xee (List.replicate 14 7 ++ [0xef, 0xff, 0])
          = some ⟨last, some [0]⟩ := by
  constructor
  · simp [readSequence, readLiteralCount, moveLiterals, readMatchLength, minMatch,
      LittleEndian.value, hasHeadway, lastLiterals, hsize, Placement.reach, hasAtLeast]
  · simp [readSequence, readLiteralCount, moveLiterals, readMatchLength, minMatch,
      LittleEndian.value, hasHeadway, hsize, Placement.reach, hasAtLeast, copyBack_size]

theorem decode_sensitive (byte : UInt8) :
    decode .apart #[byte] 65536 sensitive = none
      ∧ ∃ out, out.size = 65537 ∧ decode .adjoining #[byte] 65536 sensitive = some out := by
  constructor
  · rcases decode_sensitive_front .apart byte with ⟨out, hsize, hdecode⟩
    rw [hdecode]
    exact readSequences_refused (readSequence_sensitiveEnd hsize).1
  · rcases decode_sensitive_front .adjoining byte with ⟨out, hsize, hdecode⟩
    rcases (readSequence_sensitiveEnd hsize).2 with ⟨last, hlast, hread⟩
    have hnone : readSequence .adjoining 1 65536 last 0 [] = some ⟨last, none⟩ := by
      simp [readSequence, readLiteralCount, moveLiterals, hasHeadway, hlast, hasAtLeast,
        literalMargin]
    exact ⟨last, hlast, by
      rw [hdecode, sensitiveEnd, readSequences_further hread, readSequences_last hnone]⟩

end Lz4Frame.Block
