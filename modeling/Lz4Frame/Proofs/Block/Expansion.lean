import Lz4Frame.Block.Decode

/-!
# How far a block expands

A byte of a compressed block stands for 255 bytes of content at most (`decode_size`): 255 is what a
byte that continues a count adds to it, and every other byte stands for less.
-/

namespace Lz4Frame.Block

/-! ## Counts -/

theorem readExtension_le {reserve count : Nat} {input : Bytes} {n : Nat} {rest : Bytes} :
    readExtension reserve count input = some (n, rest) →
      n + 255 * rest.length ≤ count + 255 * input.length := by
  intro h
  induction input generalizing count with
  | nil => simp [readExtension] at h
  | cons b tail ih =>
      have hb := b.toNat_lt
      simp only [readExtension] at h
      split at h
      · split at h
        · have := ih h
          rw [List.length_cons]
          omega
        · rename_i hne
          simp only [Option.some.injEq, Prod.mk.injEq] at h
          rcases h with ⟨rfl, rfl⟩
          have hlast : b.toNat ≠ 255 := fun heq => hne (UInt8.toNat_inj.mp heq)
          rw [List.length_cons]
          omega
      · simp at h

theorem readLiteralCount_le {half : Nat} {input : Bytes} {n : Nat} {rest : Bytes} :
    readLiteralCount half input = some (n, rest) →
      n + 255 * rest.length ≤ half + 255 * input.length := by
  intro h
  unfold readLiteralCount at h
  split at h
  · simp only [Option.some.injEq, Prod.mk.injEq] at h
    rcases h with ⟨rfl, rfl⟩
    exact Nat.le_refl _
  · split at h
    · exact readExtension_le h
    · simp at h

theorem readMatchLength_le {half : Nat} {input : Bytes} {n : Nat} {rest : Bytes} :
    readMatchLength half input = some (n, rest) →
      n + 255 * rest.length ≤ half + minMatch + 255 * input.length := by
  intro h
  unfold readMatchLength at h
  split at h
  · simp only [Option.some.injEq, Prod.mk.injEq] at h
    rcases h with ⟨rfl, rfl⟩
    exact Nat.le_refl _
  · exact readExtension_le h

/-! ## Sequences -/

theorem copyBack_size (out : Array UInt8) (offset count : Nat) :
    (copyBack out offset count).size = out.size + count := by
  induction count generalizing out with
  | zero => rfl
  | succ count ih =>
      rw [copyBack, ih, Array.size_push]
      omega

theorem moveLiterals_size {out : Array UInt8} {count : Nat} {input : Bytes} :
    count ≤ input.length → (moveLiterals out count input).1.size = out.size + count := by
  intro h
  rw [← Array.length_toList, moveLiterals_fst, List.length_append, Array.length_toList,
    List.length_take, Nat.min_eq_left h]

/-- Literals that are not the last have two bytes behind them at least. -/
theorem literals_le_of_far {size capacity half literals : Nat} {input behind : Bytes}
    (hcount : readLiteralCount half input = some (literals, behind))
    (hfar : ¬ NearEnd size capacity half literals input behind) :
    literals + 2 ≤ behind.length := by
  cases hheadway : hasHeadway size capacity half input with
  | true =>
      -- with so few literals their number stands in the token, and the input is all there
      simp only [hasHeadway, Bool.and_eq_true, decide_eq_true_eq, hasAtLeast_iff] at hheadway
      rw [readLiteralCount, if_pos hheadway.1.1] at hcount
      cases hcount
      omega
  | false =>
      simp only [NearEnd, hheadway, true_and, not_or] at hfar
      omega

/-- The bytes that a sequence takes, its token among them, are worth what it adds. -/
theorem readSequence_size {placement : Placement} {start capacity : Nat} {out : Array UInt8}
    {token : UInt8} {input : Bytes} {reading : Reading} :
    readSequence placement start capacity out token input = some reading →
      reading.out.size + 255 * (reading.rest.getD []).length
        ≤ out.size + 255 * (input.length + 1) := by
  intro h
  have htoken := token.toNat_lt
  cases readSequence_iff.mp h with
  | last count near length_eq size_le =>
      have hcount := readLiteralCount_le count
      simp only [moveLiterals_size (Nat.le_of_eq length_eq.symm), Option.getD_none, List.length_nil]
      omega
  | repeated count far offset_eq match_eq within fits =>
      have hcount := readLiteralCount_le count
      have hbehind := literals_le_of_far count far
      have hmatch := readMatchLength_le match_eq
      simp only [List.length_drop, minMatch] at hmatch
      simp only [copyBack_size, moveLiterals_size (Nat.le_of_add_right_le hbehind),
        Option.getD_some]
      omega

theorem readSequences_size {placement : Placement} {start capacity : Nat}
    {out out' : Array UInt8} {input : Bytes} :
    readSequences placement start capacity out input = some out' →
      out'.size ≤ out.size + 255 * input.length := by
  intro h
  fun_induction readSequences placement start capacity out input with
  | case1 => simp at h
  | case2 => simp at h
  | case3 out token input out'' hread =>
      have hle := readSequence_size hread
      simp only [Option.some.injEq] at h
      simp only [Option.getD_none, List.length_nil] at hle
      rw [← h, List.length_cons]
      omega
  | case4 out token input out'' rest hread ih =>
      have hle := readSequence_size hread
      have hrest := ih h
      simp only [Option.getD_some] at hle
      rw [List.length_cons]
      omega

/-- A compressed block expands to 255 times its length at most. -/
theorem decode_size {placement : Placement} {history out : Array UInt8} {capacity : Nat}
    {input : Bytes} (h : decode placement history capacity input = some out) :
    out.size ≤ history.size + 255 * input.length :=
  readSequences_size h

end Lz4Frame.Block
