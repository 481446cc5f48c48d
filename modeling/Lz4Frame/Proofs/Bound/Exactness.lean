import Lz4Frame.Platform.Reference
import Lz4Frame.Proofs.Bound

/-!
# How far bounds are exact

The bounds on what an update or a whole frame can write are sums in words, with blocks counted in
words of 32 bits.  For every length that a slice can have they are taken for lengths, never for
errors, and they are the worst case in whole numbers exactly as long as the blocks can be counted
(`exact_to_count`).  Up to there they are no smaller than the content and grow with it.  Behind that
they fall short, by what stands around 2^32 blocks at least, and from 2^32 whole blocks on they are
smaller than the content itself (`bounds_wrap` is the first length at which this shows).
-/

namespace Lz4Frame.Bound

/-- The most bytes that a slice can have. -/
def longestSlice : Nat := 0x7fffffffffffffff

/-! ## The worst case and the length -/

/-- Blocks of new input, the last of them begun. -/
theorem blockCount_mostHeld {prefs : Preferences} {length : Nat} (hlength : length ≠ 0) :
    blockCount prefs length (mostHeld prefs)
      = (length + (prefs.maxBlock - 1)) / prefs.maxBlock := by
  cases hauto : prefs.autoflush with
  | true =>
      rw [div_add_pred prefs.maxBlock_pos]
      simp [blockCount, lastLength, mostHeld, hauto]
  | false => simp [blockCount, lastLength, mostHeld, hauto, hlength]

/-- What has to be counted are the blocks of the worst case. -/
theorem countable_iff {prefs : Preferences} {length : Nat} :
    Countable prefs length ↔ blockCount prefs length (mostHeld prefs) < 0x100000000 := by
  refine ⟨fun h => blockCount_lt h (Nat.le_refl _), fun h => ?_⟩
  by_cases hzero : length = 0
  · rw [hzero]
    exact countable_zero prefs
  · rwa [blockCount_mostHeld hzero] at h

/-- The worst case of some input, by the blocks that it begins. -/
theorem worst_mostHeld {prefs : Preferences} {length : Nat} (hlength : length ≠ 0) :
    worst prefs length (mostHeld prefs)
      = perBlock prefs * ((length + (prefs.maxBlock - 1)) / prefs.maxBlock)
        + (if prefs.autoflush then length
            else prefs.maxBlock * ((length + (prefs.maxBlock - 1)) / prefs.maxBlock))
        + trailerLength prefs := by
  cases hauto : prefs.autoflush with
  | true =>
      rw [show mostHeld prefs = 0 by simp [mostHeld, hauto], worst_autoflush hauto]
      rfl
  | false =>
      rw [worst_filled hauto hlength, show mostHeld prefs = prefs.maxBlock - 1 by
        simp [mostHeld, hauto]]
      rfl

/-- The bytes of begun blocks are no fewer than those of the input. -/
theorem le_begun {size : Nat} (hsize : 0 < size) (length : Nat) :
    length ≤ size * ((length + (size - 1)) / size) := by
  have hsplit := Nat.div_add_mod (length + (size - 1)) size
  have hlt := Nat.mod_lt (length + (size - 1)) hsize
  omega

theorem length_le_worst (prefs : Preferences) (length : Nat) :
    length ≤ worst prefs length (mostHeld prefs) := by
  by_cases hzero : length = 0
  · rw [hzero]
    exact Nat.zero_le _
  have hbegun := le_begun prefs.maxBlock_pos length
  rw [worst_mostHeld hzero]
  split <;> omega

/-- The worst case grows with the input. -/
theorem worst_mono_length (prefs : Preferences) {shorter length : Nat} (h : shorter ≤ length) :
    worst prefs shorter (mostHeld prefs) ≤ worst prefs length (mostHeld prefs) := by
  by_cases hzero : length = 0
  · obtain rfl : shorter = length := by omega
    exact Nat.le_refl _
  by_cases hnone : shorter = 0
  · -- what is held at most is less than a block, and the input begins one
    have hpos := prefs.maxBlock_pos
    have hlt := mostHeld_lt prefs
    have hone : 1 ≤ (length + (prefs.maxBlock - 1)) / prefs.maxBlock :=
      (Nat.le_div_iff_mul_le hpos).mpr (by omega)
    have hheads := Nat.mul_le_mul_left (perBlock prefs) hone
    have hbytes := Nat.mul_le_mul_left prefs.maxBlock hone
    rw [hnone, worst_zero (Nat.le_refl _), worst_mostHeld hzero]
    cases hauto : prefs.autoflush with
    | true =>
        simp only [mostHeld, hauto, ↓reduceIte, Nat.lt_irrefl, Nat.mul_zero]
        omega
    | false =>
        simp only [Bool.false_eq_true, ↓reduceIte]
        split <;> omega
  · have hbegun : (shorter + (prefs.maxBlock - 1)) / prefs.maxBlock
        ≤ (length + (prefs.maxBlock - 1)) / prefs.maxBlock := Nat.div_le_div_right (by omega)
    have hheads := Nat.mul_le_mul_left (perBlock prefs) hbegun
    have hbytes := Nat.mul_le_mul_left prefs.maxBlock hbegun
    rw [worst_mostHeld hnone, worst_mostHeld hzero]
    split <;> omega

/-! ## Counts that wrap -/

/-- A count that wraps loses 2^32 at least. -/
theorem mod_add_le {count : Nat} (h : 0x100000000 ≤ count) :
    count % 0x100000000 + 0x100000000 ≤ count := by
  omega

/-- The bytes around 2^32 blocks are missing, four for each at least. -/
theorem wrapped_add_le {prefs : Preferences} {length held : Nat}
    (h : 0x100000000 ≤ blockCount prefs length held) :
    wrapped prefs length held + 4 * 0x100000000 ≤ worst prefs length held := by
  have hheads := Nat.mul_le_mul_left (perBlock prefs) (mod_add_le h)
  have hfour := Nat.mul_le_mul_right 0x100000000 (four_le prefs).1
  have hbytes : prefs.maxBlock * ((length + held) / prefs.maxBlock % 0x100000000)
      ≤ prefs.maxBlock * ((length + held) / prefs.maxBlock) :=
    Nat.mul_le_mul_left _ (Nat.mod_le ..)
  rw [Nat.mul_add] at hheads
  unfold wrapped worst
  omega

/-- Without the bytes of 2^32 blocks the sum is smaller than the input, whatever stands around
them. -/
theorem wrapped_lt_length {prefs : Preferences} {length : Nat}
    (h : 0x100000000 * prefs.maxBlock ≤ length) {held : Nat} (hheld : held ≤ mostHeld prefs) :
    wrapped prefs length held + 19 < length := by
  have hbounds := maxBlock_bounds prefs
  have hlt := mostHeld_lt prefs
  have hfull : 0x100000000 ≤ (length + held) / prefs.maxBlock :=
    (Nat.le_div_iff_mul_le prefs.maxBlock_pos).mpr (by omega)
  have hbytes := Nat.mul_le_mul_left prefs.maxBlock (mod_add_le hfull)
  have hsplit := Nat.div_add_mod (length + held) prefs.maxBlock
  have hlast : lastLength prefs length held ≤ (length + held) % prefs.maxBlock := by
    unfold lastLength
    split
    · exact Nat.le_refl _
    · exact Nat.zero_le _
  have hheads : perBlock prefs * (blockCount prefs length held % 0x100000000)
      ≤ 8 * 0x100000000 := by
    refine Nat.mul_le_mul ?_ (Nat.le_of_lt (Nat.mod_lt _ (by decide)))
    unfold perBlock
    split <;> omega
  have htrailer : trailerLength prefs ≤ 8 := by
    unfold trailerLength
    split <;> omega
  rw [Nat.mul_add] at hbytes
  unfold wrapped
  omega

/-! ## The bounds -/

/-- How a bound in words stands to the worst case in whole numbers, for content of some length. -/
structure Reckons [Platform] (prefs : Preferences) (bound : UInt64 → UInt64) (worstCase : Nat → Nat)
    (length : Nat) : Prop where
  /-- The bound is not one of the values that stand for errors. -/
  checked_eq : checked (bound (UInt64.ofNat length)) = .ok (bound (UInt64.ofNat length)).toNat
  /-- That many bytes can be had. -/
  allocate_eq : allocate (bound (UInt64.ofNat length)).toNat = .ok ()
  exact_iff : (bound (UInt64.ofNat length)).toNat = worstCase length ↔ Countable prefs length
  length_le : Countable prefs length → length ≤ (bound (UInt64.ofNat length)).toNat
  mono : Countable prefs length → ∀ shorter ≤ length,
    (bound (UInt64.ofNat shorter)).toNat ≤ (bound (UInt64.ofNat length)).toNat
  /-- Where blocks cannot be counted, what stands around 2^32 of them is missing at least. -/
  short : ¬ Countable prefs length →
    (bound (UInt64.ofNat length)).toNat + 4 * 0x100000000 ≤ worstCase length
  /-- From 2^32 whole blocks on there is not even the room for the content as it is. -/
  lt_length : 0x100000000 * prefs.maxBlock ≤ length → (bound (UInt64.ofNat length)).toNat < length

theorem Countable.mono {prefs : Preferences} {shorter length : Nat} (h : Countable prefs length)
    (hle : shorter ≤ length) : Countable prefs shorter :=
  Nat.lt_of_le_of_lt (Nat.div_le_div_right (Nat.add_le_add_right hle _)) h

/-- A bound that is the sum in words, behind at most a header, is as far from the worst case as the
sum is. -/
theorem reckons_of_sum [Platform] {prefs : Preferences} {bound : UInt64 → UInt64} {front : Nat}
    (hfront : front ≤ Header.maxLength)
    (hbound : ∀ length ≤ longestSlice,
      (bound (UInt64.ofNat length)).toNat = front + wrapped prefs length (mostHeld prefs))
    {length : Nat} (hlength : length ≤ longestSlice) :
    Reckons prefs bound (fun length => front + worst prefs length (mostHeld prefs)) length := by
  have hvalue := hbound length hlength
  have hlimit : (bound (UInt64.ofNat length)).toNat < assuredSize := by
    have hwrapped := wrapped_lt prefs length (mostHeld prefs)
    rw [hvalue]
    unfold Header.maxLength at hfront
    unfold assuredSize
    omega
  -- as long as the blocks can be counted, the bound is the worst case
  have hexact {n : Nat} (hle : n ≤ length) (hcount : Countable prefs n) :
      (bound (UInt64.ofNat n)).toNat = front + worst prefs n (mostHeld prefs) := by
    rw [hbound n (Nat.le_trans hle hlength), wrapped_eq_worst hcount (Nat.le_refl _)]
  have hshort (hnot : ¬ Countable prefs length) :
      (bound (UInt64.ofNat length)).toNat + 4 * 0x100000000
        ≤ front + worst prefs length (mostHeld prefs) := by
    rw [countable_iff, Nat.not_lt] at hnot
    have hmissing := wrapped_add_le hnot
    rw [hvalue]
    omega
  refine {
    checked_eq := checked_of_lt hlimit
    allocate_eq := allocate_of_assured hlimit
    exact_iff := ⟨fun heq => ?_, hexact (Nat.le_refl _)⟩
    length_le := fun hcount => ?_
    mono := fun hcount shorter hle => ?_
    short := hshort
    lt_length := fun hlong => ?_ }
  · by_cases hcount : Countable prefs length
    · exact hcount
    · have hless := hshort hcount
      omega
  · rw [hexact (Nat.le_refl _) hcount]
    exact Nat.le_trans (length_le_worst prefs length) (Nat.le_add_left ..)
  · rw [hexact hle (hcount.mono hle), hexact (Nat.le_refl _) hcount]
    exact Nat.add_le_add_left (worst_mono_length prefs hle) _
  · have hless := wrapped_lt_length hlong (Nat.le_refl (mostHeld prefs))
    rw [hvalue]
    unfold Header.maxLength at hfront
    omega

/-- The bound for an update is the sum in words, with the most that can be held. -/
theorem toNat_update_wrapped {prefs : Preferences} {length : Nat} (h : length ≤ longestSlice) :
    (update prefs (UInt64.ofNat length)).toNat = wrapped prefs length (mostHeld prefs) := by
  have hbounds := maxBlock_bounds prefs
  have hlt := mostHeld_lt prefs
  unfold longestSlice at h
  rw [update_eq, toNat_withHeld_wrapped (by omega) (Nat.le_refl _)]

/-- And the one for a whole frame has the largest header in front. -/
theorem toNat_frame_wrapped {prefs : Preferences} {length : Nat} (h : length ≤ longestSlice) :
    (frame prefs (UInt64.ofNat length)).toNat
      = Header.maxLength + wrapped { prefs with autoflush := true } length
          (mostHeld { prefs with autoflush := true }) := by
  have hwrapped := wrapped_lt { prefs with autoflush := true } length
    (mostHeld { prefs with autoflush := true })
  have hmax : (UInt64.ofNat Header.maxLength).toNat = Header.maxLength := by decide
  rw [frame, UInt64.toNat_add, hmax, toNat_update_wrapped h]
  unfold Header.maxLength
  omega

/-- For every length that a slice can have, the bounds for an update and for a whole frame are
lengths that can be allocated, and they are the worst case in whole numbers exactly as long as the
blocks can be counted.  So far they are no smaller than the length and grow with it. -/
theorem exact_to_count [Platform] (prefs : Preferences) {length : Nat}
    (hlength : length ≤ longestSlice) :
    Reckons prefs (update prefs) (fun length => worst prefs length (mostHeld prefs)) length
      ∧ Compressor.roomFor prefs length = .ok (update prefs (UInt64.ofNat length)).toNat
      ∧ Reckons prefs (frame prefs)
        (fun length => Header.maxLength + worst { prefs with autoflush := true } length 0)
        length := by
  have hupdate : Reckons prefs (update prefs)
      (fun length => 0 + worst prefs length (mostHeld prefs)) length :=
    reckons_of_sum (Nat.zero_le _)
      (fun n hn => by rw [toNat_update_wrapped hn, Nat.zero_add]) hlength
  have hframe : Reckons { prefs with autoflush := true } (frame prefs)
      (fun length => Header.maxLength + worst { prefs with autoflush := true } length
        (mostHeld { prefs with autoflush := true })) length :=
    reckons_of_sum (Nat.le_refl _) (fun n hn => toNat_frame_wrapped hn) hlength
  simp only [Nat.zero_add] at hupdate
  refine ⟨hupdate, ?_, ?_⟩
  · simp [Compressor.roomFor, hupdate.checked_eq, hupdate.allocate_eq, bind, Except.bind, pure,
      Except.pure]
  · -- whether blocks can be counted has nothing to do with autoflush
    exact { hframe with }

open Reference in
/-- The longest content whose blocks of 64 KiB can be counted. -/
theorem exact_to_count_longest :
    (0xffffffff0000 ≤ longestSlice ∧ Countable {} 0xffffffff0000)
      ∧ checked (update {} 0xffffffff0000) = .ok 281492156514304
      ∧ checked (frame {} 0xffffffff0000) = .ok 281492156514323 := by
  have hlength : 0xffffffff0000 ≤ longestSlice := by decide
  have hcount : Countable {} 0xffffffff0000 := by
    show (0xffffffff0000 + (65536 - 1)) / 65536 < 0x100000000
    decide
  rcases exact_to_count {} hlength with ⟨hupdate, -, hframe⟩
  refine ⟨⟨hlength, hcount⟩, ?_, ?_⟩
  · rw [show (0xffffffff0000 : UInt64) = UInt64.ofNat 0xffffffff0000 by rfl, hupdate.checked_eq,
      hupdate.exact_iff.mpr hcount]
    rfl
  · rw [show (0xffffffff0000 : UInt64) = UInt64.ofNat 0xffffffff0000 by rfl, hframe.checked_eq,
      hframe.exact_iff.mpr hcount]
    rfl

/-- One byte more and the counts wrap around: the bounds are far below the worst case, and the one
for an update is that of the end mark alone. -/
theorem bounds_wrap :
    (checked (update {} 0xffffffff0001) = .ok 4
        ∧ worst {} 0xffffffff0001 (mostHeld {}) = 281492156579844)
      ∧ checked (frame {} 0xffffffff0001) = .ok 281474976645144
        ∧ Header.maxLength + worst { autoflush := true } 0xffffffff0001 0 = 281492156514328 :=
  ⟨⟨rfl, by decide⟩, rfl, by decide⟩

end Lz4Frame.Bound
