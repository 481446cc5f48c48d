import Lz4Frame.Compressor

/-!
# The worst case in whole numbers

`Bound.withHeld` sums in words, and all that can wrap in it are the counts of blocks
(`toNat_withHeld_wrapped`).  As long as the blocks can be counted in a 32-bit word (`Countable`),
nothing wraps and the sum is the one that `worst` makes in whole numbers (`toNat_withHeld`).  From
there it is plain that room for the most that can be held is room for what is held (`worst_mono`),
and that a compressor finds the room that its encoder asks for (`roomFor_eq`).
-/

namespace Lz4Frame.Bound

/-- Whether a 32-bit word counts the blocks of an input, together with what may be held. -/
def Countable (prefs : Preferences) (length : Nat) : Prop :=
  (length + (prefs.maxBlock - 1)) / prefs.maxBlock < 0x100000000

/-- Content bytes in a block that an update leaves unfilled. -/
def lastLength (prefs : Preferences) (length held : Nat) : Nat :=
  if prefs.autoflush ∨ length = 0 then (length + held) % prefs.maxBlock else 0

/-- Blocks that an update can make. -/
def blockCount (prefs : Preferences) (length held : Nat) : Nat :=
  (length + held) / prefs.maxBlock + (if 0 < lastLength prefs length held then 1 else 0)

/-- Bytes in front of and behind each block's payload. -/
def perBlock (prefs : Preferences) : Nat := if prefs.blockChecksum then 8 else 4

/-- Bytes behind the last block. -/
def trailerLength (prefs : Preferences) : Nat := if prefs.contentChecksum then 8 else 4

/-- The worst case for `length` bytes of new input on top of `held` bytes that wait. -/
def worst (prefs : Preferences) (length held : Nat) : Nat :=
  perBlock prefs * blockCount prefs length held
    + prefs.maxBlock * ((length + held) / prefs.maxBlock)
    + lastLength prefs length held + trailerLength prefs

/-- The most that can wait for its block to fill up. -/
def mostHeld (prefs : Preferences) : Nat :=
  if prefs.autoflush then 0 else prefs.maxBlock - 1

theorem maxBlock_bounds (prefs : Preferences) :
    65536 ≤ prefs.maxBlock ∧ prefs.maxBlock ≤ 4194304 := by
  unfold Preferences.maxBlock
  cases prefs.blockSize <;> decide

theorem Countable.length_lt {prefs : Preferences} {length : Nat} (h : Countable prefs length) :
    length + (prefs.maxBlock - 1) < 0x100000000 * prefs.maxBlock :=
  (Nat.div_lt_iff_lt_mul prefs.maxBlock_pos).mp h

theorem countable_zero (prefs : Preferences) : Countable prefs 0 := by
  have := prefs.maxBlock_pos
  unfold Countable
  rw [Nat.zero_add, Nat.div_eq_of_lt (by omega)]
  decide

theorem mostHeld_lt (prefs : Preferences) : mostHeld prefs < prefs.maxBlock := by
  have := prefs.maxBlock_pos
  unfold mostHeld
  split <;> omega

theorem four_le (prefs : Preferences) : 4 ≤ perBlock prefs ∧ 4 ≤ trailerLength prefs := by
  unfold perBlock trailerLength
  constructor <;> split <;> omega

/-- What does not fill up a block can be held. -/
theorem held_add_le {prefs : Preferences} {length held : Nat} :
    held ≤ mostHeld prefs → (length < if held = 0 then 0 else prefs.maxBlock - held) →
      held + length ≤ mostHeld prefs := by
  intro hheld h
  unfold mostHeld at hheld ⊢
  split at hheld
  · split at h <;> omega
  · rename_i hauto
    rw [if_neg hauto]
    split at h <;> omega

/-- What is left behind the last whole block can be held. -/
theorem left_le {prefs : Preferences} {length whole : Nat} :
    (whole = if prefs.autoflush then length else length / prefs.maxBlock * prefs.maxBlock) →
      length - whole ≤ mostHeld prefs := by
  intro hwhole
  have hmod := Nat.div_add_mod length prefs.maxBlock
  have hlt := Nat.mod_lt length prefs.maxBlock_pos
  rw [Nat.mul_comm] at hmod
  unfold mostHeld
  split at hwhole <;> rename_i hauto
  · rw [if_pos hauto]
    omega
  · rw [if_neg hauto]
    omega

/-! ## Counting blocks -/

/-- Pieces of a length that is no multiple of theirs, the last of them shorter. -/
theorem div_add_pred {size : Nat} (hsize : 0 < size) (n : Nat) :
    (n + (size - 1)) / size = n / size + if 0 < n % size then 1 else 0 := by
  have hsplit := Nat.div_add_mod n size
  have hlt := Nat.mod_lt n hsize
  have hsum : n + (size - 1) = (n % size + (size - 1)) + size * (n / size) := by omega
  rw [hsum, Nat.add_mul_div_left _ _ hsize, Nat.add_comm]
  congr 1
  split
  · rw [show n % size + (size - 1) = n % size - 1 + size by omega, Nat.add_div_right _ hsize,
      Nat.div_eq_of_lt (by omega)]
  · exact Nat.div_eq_of_lt (by omega)

theorem lastLength_lt (prefs : Preferences) (length held : Nat) :
    lastLength prefs length held < prefs.maxBlock := by
  have hpos := prefs.maxBlock_pos
  unfold lastLength
  split
  · exact Nat.mod_lt _ hpos
  · exact hpos

/-- The number of blocks stays below the limit of its word. -/
theorem blockCount_lt {prefs : Preferences} {length held : Nat} :
    Countable prefs length → held ≤ mostHeld prefs →
      blockCount prefs length held < 0x100000000 := by
  intro h hheld
  have hpos := prefs.maxBlock_pos
  have hlt := mostHeld_lt prefs
  cases hauto : prefs.autoflush with
  | true =>
      -- nothing is held, so an unfilled block is counted among those of the input
      have hnone : held = 0 := by
        simp only [mostHeld, hauto, ↓reduceIte] at hheld
        omega
      calc
        blockCount prefs length held
            = length / prefs.maxBlock + if 0 < length % prefs.maxBlock then 1 else 0 := by
              simp [blockCount, lastLength, hauto, hnone]
        _ = (length + (prefs.maxBlock - 1)) / prefs.maxBlock := (div_add_pred hpos length).symm
        _ < 0x100000000 := h
  | false =>
      by_cases hzero : length = 0
      · have hfull : held / prefs.maxBlock = 0 := Nat.div_eq_of_lt (by omega)
        simp only [blockCount, lastLength, hzero, Nat.zero_add, hfull, or_true, ↓reduceIte]
        split <;> omega
      · -- only whole blocks are made, of no more than the input and a block less one byte
        calc
          blockCount prefs length held = (length + held) / prefs.maxBlock := by
            simp [blockCount, lastLength, hauto, hzero]
          _ ≤ (length + (prefs.maxBlock - 1)) / prefs.maxBlock :=
            Nat.div_le_div_right (by omega)
          _ < 0x100000000 := h

/-- The worst case as it is summed in words: blocks are counted modulo 2^32. -/
def wrapped (prefs : Preferences) (length held : Nat) : Nat :=
  perBlock prefs * (blockCount prefs length held % 0x100000000)
    + prefs.maxBlock * ((length + held) / prefs.maxBlock % 0x100000000)
    + lastLength prefs length held + trailerLength prefs

/-- Nothing but the counts of blocks can wrap. -/
theorem wrapped_lt (prefs : Preferences) (length held : Nat) :
    wrapped prefs length held < 0x100000000000000 := by
  have hbounds := maxBlock_bounds prefs
  have hlast := lastLength_lt prefs length held
  have hcount (n : Nat) : n % 0x100000000 ≤ 0x100000000 :=
    Nat.le_of_lt (Nat.mod_lt n (by decide))
  have hheads : perBlock prefs * (blockCount prefs length held % 0x100000000)
      ≤ 8 * 0x100000000 := by
    refine Nat.mul_le_mul ?_ (hcount _)
    unfold perBlock
    split <;> omega
  have hfull : prefs.maxBlock * ((length + held) / prefs.maxBlock % 0x100000000)
      ≤ 4194304 * 0x100000000 := Nat.mul_le_mul hbounds.2 (hcount _)
  have htrailer : trailerLength prefs ≤ 8 := by
    unfold trailerLength
    split <;> omega
  unfold wrapped
  omega

/-- As long as the blocks can be counted, nothing wraps. -/
theorem wrapped_eq_worst {prefs : Preferences} {length held : Nat} :
    Countable prefs length → held ≤ mostHeld prefs →
      wrapped prefs length held = worst prefs length held := by
  intro h hheld
  have hcount := blockCount_lt h hheld
  have hle : (length + held) / prefs.maxBlock ≤ blockCount prefs length held := Nat.le_add_right ..
  rw [wrapped, worst, Nat.mod_eq_of_lt hcount, Nat.mod_eq_of_lt (Nat.lt_of_le_of_lt hle hcount)]

theorem worst_lt {prefs : Preferences} {length held : Nat} (h : Countable prefs length)
    (hheld : held ≤ mostHeld prefs) : worst prefs length held < 0x100000000000000 := by
  rw [← wrapped_eq_worst h hheld]
  exact wrapped_lt prefs length held

/-! ## Words -/

theorem min_ofNat {a b : Nat} :
    a ≤ b → b < 0x10000000000000000 → min (UInt64.ofNat a) (UInt64.ofNat b) = UInt64.ofNat a := by
  intro hab hb
  have hle : UInt64.ofNat a ≤ UInt64.ofNat b := by
    rw [UInt64.le_iff_toNat_le, UInt64.toNat_ofNat', UInt64.toNat_ofNat']
    omega
  exact if_pos hle

theorem toNat_maxBlock (prefs : Preferences) :
    (UInt64.ofNat prefs.maxBlock).toNat = prefs.maxBlock := by
  have hbounds := maxBlock_bounds prefs
  rw [UInt64.toNat_ofNat']
  omega

theorem maxBlock_sub_one (prefs : Preferences) :
    UInt64.ofNat prefs.maxBlock - 1 = UInt64.ofNat (prefs.maxBlock - 1) := by
  have hbounds := maxBlock_bounds prefs
  rw [UInt64.ofNat_sub (by omega)]
  rfl

section Sums

variable {prefs : Preferences} {length held : Nat} (h : length + held < 0x10000000000000000)
include h

theorem toNat_total : (UInt64.ofNat length + UInt64.ofNat held).toNat = length + held := by
  rw [← UInt64.ofNat_add, UInt64.toNat_ofNat']
  exact Nat.mod_eq_of_lt h

theorem toNat_full :
    ((UInt64.ofNat length + UInt64.ofNat held) / UInt64.ofNat prefs.maxBlock).toUInt32.toNat
      = (length + held) / prefs.maxBlock % 0x100000000 := by
  rw [UInt64.toNat_toUInt32, UInt64.toNat_div, toNat_total h, toNat_maxBlock]

theorem toNat_last :
    (if prefs.autoflush ∨ UInt64.ofNat length = 0 then
      (UInt64.ofNat length + UInt64.ofNat held) % UInt64.ofNat prefs.maxBlock else 0).toNat
      = lastLength prefs length held := by
  have hzero : UInt64.ofNat length = 0 ↔ length = 0 := by
    rw [← UInt64.toNat_inj, UInt64.toNat_ofNat', UInt64.toNat_zero]
    omega
  unfold lastLength
  simp only [hzero]
  split
  · rw [UInt64.toNat_mod, toNat_total h, toNat_maxBlock]
  · rfl

theorem toNat_count {last : UInt64} (hlast : last.toNat = lastLength prefs length held) :
    (((UInt64.ofNat length + UInt64.ofNat held) / UInt64.ofNat prefs.maxBlock).toUInt32
        + (if 0 < last then 1 else 0)).toNat
      = blockCount prefs length held % 0x100000000 := by
  have hpos : 0 < last ↔ 0 < lastLength prefs length held := by
    rw [UInt64.lt_iff_toNat_lt, hlast, UInt64.toNat_zero]
  have hone : (if 0 < last then (1 : UInt32) else 0).toNat
      = if 0 < lastLength prefs length held then 1 else 0 := by
    simp only [hpos]
    split <;> rfl
  rw [UInt32.toNat_add, toNat_full h, hone]
  exact Nat.mod_add_mod ..

/-- The worst case in words, for any length that leaves the sum of the bytes a word. -/
theorem toNat_withHeld_wrapped (hheld : held ≤ mostHeld prefs) :
    (withHeld prefs (UInt64.ofNat length) (UInt64.ofNat held)).toNat
      = wrapped prefs length held := by
  have hbounds := maxBlock_bounds prefs
  have hlt := mostHeld_lt prefs
  have hwrapped := wrapped_lt prefs length held
  have hmin : min (UInt64.ofNat held) (UInt64.ofNat prefs.maxBlock - 1) = UInt64.ofNat held := by
    rw [maxBlock_sub_one, min_ofNat (by omega) (by omega)]
  have hper : (if prefs.blockChecksum then (8 : UInt64) else 4).toNat = perBlock prefs := by
    unfold perBlock
    split <;> rfl
  have htrailer : (if prefs.contentChecksum then (8 : UInt64) else 4).toNat
      = trailerLength prefs := by
    unfold trailerLength
    split <;> rfl
  have hlast : _ = lastLength prefs length held := toNat_last h
  unfold wrapped at hwrapped ⊢
  simp only [withHeld, hmin]
  generalize (if prefs.autoflush ∨ UInt64.ofNat length = 0 then
    (UInt64.ofNat length + UInt64.ofNat held) % UInt64.ofNat prefs.maxBlock else 0) = last
    at hlast ⊢
  simp only [UInt64.toNat_add, UInt64.toNat_mul, UInt32.toNat_toUInt64, toNat_count h hlast,
    toNat_full h, toNat_maxBlock, hper, hlast, htrailer]
  -- the products are whole numbers below the limit of a word
  generalize perBlock prefs * (blockCount prefs length held % 0x100000000) = heads
    at hwrapped ⊢
  generalize prefs.maxBlock * ((length + held) / prefs.maxBlock % 0x100000000) = payloads
    at hwrapped ⊢
  omega

end Sums

/-- Nothing wraps in the sums of the worst case. -/
theorem toNat_withHeld {prefs : Preferences} {length held : Nat} (h : Countable prefs length)
    (hheld : held ≤ mostHeld prefs) :
    (withHeld prefs (UInt64.ofNat length) (UInt64.ofNat held)).toNat = worst prefs length held := by
  have hbounds := maxBlock_bounds prefs
  have hlength := h.length_lt
  have hlt := mostHeld_lt prefs
  rw [toNat_withHeld_wrapped (by omega) hheld, wrapped_eq_worst h hheld]

/-! ## Enough room -/

/-- Without new input only what is held is left to write. -/
theorem worst_zero {prefs : Preferences} {held : Nat} :
    held ≤ mostHeld prefs →
      worst prefs 0 held
        = perBlock prefs * (if 0 < held then 1 else 0) + held + trailerLength prefs := by
  intro hheld
  have hlt := mostHeld_lt prefs
  have hmod : held % prefs.maxBlock = held := Nat.mod_eq_of_lt (by omega)
  have hquot : held / prefs.maxBlock = 0 := Nat.div_eq_of_lt (by omega)
  simp [worst, blockCount, lastLength, hmod, hquot]

/-- Without autoflush new input makes whole blocks only. -/
theorem worst_filled {prefs : Preferences} (hauto : prefs.autoflush = false) {length : Nat}
    (hlength : length ≠ 0) (held : Nat) :
    worst prefs length held
      = perBlock prefs * ((length + held) / prefs.maxBlock)
        + prefs.maxBlock * ((length + held) / prefs.maxBlock) + trailerLength prefs := by
  simp [worst, blockCount, lastLength, hlength, hauto]

/-- Room for the most that can be held is room for what is held. -/
theorem worst_mono {prefs : Preferences} (length : Nat) {held : Nat} :
    held ≤ mostHeld prefs → worst prefs length held ≤ worst prefs length (mostHeld prefs) := by
  intro hheld
  have hlt := mostHeld_lt prefs
  by_cases hzero : length = 0
  · rw [hzero, worst_zero hheld, worst_zero (Nat.le_refl _)]
    have hcount : (if 0 < held then 1 else 0) ≤ (if 0 < mostHeld prefs then 1 else 0) := by
      split <;> split <;> omega
    have := Nat.mul_le_mul_left (perBlock prefs) hcount
    omega
  cases hauto : prefs.autoflush with
  | true =>
      have hnone : mostHeld prefs = 0 := by simp [mostHeld, hauto]
      obtain rfl : held = mostHeld prefs := by omega
      exact Nat.le_refl _
  | false =>
      have hdiv : (length + held) / prefs.maxBlock
          ≤ (length + mostHeld prefs) / prefs.maxBlock := Nat.div_le_div_right (by omega)
      rw [worst_filled hauto hzero, worst_filled hauto hzero]
      have := Nat.mul_le_mul_left (perBlock prefs) hdiv
      have := Nat.mul_le_mul_left prefs.maxBlock hdiv
      omega

/-- Results that no machine reaches stand for errors, smaller ones for themselves. -/
theorem checked_of_lt {result : UInt64} :
    result.toNat < assuredSize → checked result = .ok result.toNat := by
  intro h
  have hlimit : (0 - 1 - UInt64.ofNat ErrorCode.maxNumber).toNat
      = 0x10000000000000000 - 24 := by decide
  have hsmall : ¬ 0 - 1 - UInt64.ofNat ErrorCode.maxNumber < result := by
    rw [UInt64.lt_iff_toNat_lt, hlimit]
    unfold assuredSize at h
    omega
  have hresult : ErrorCode.isErrorResult result = false := decide_eq_false hsmall
  simp [checked, ErrorCode.ofResult?, hresult]

theorem update_eq (prefs : Preferences) (length : UInt64) :
    update prefs length = withHeld prefs length (UInt64.ofNat (mostHeld prefs)) := by
  have hheld : (if prefs.autoflush then 0 else UInt64.ofNat prefs.maxBlock - 1)
      = UInt64.ofNat (mostHeld prefs) := by
    unfold mostHeld
    split
    · rfl
    · exact maxBlock_sub_one prefs
  rw [update, hheld]

theorem toNat_update {prefs : Preferences} {length : Nat} :
    Countable prefs length →
      (update prefs (UInt64.ofNat length)).toNat = worst prefs length (mostHeld prefs) := by
  intro h
  rw [update_eq, toNat_withHeld h (Nat.le_refl _)]

theorem roomFor_of_checked [Platform] {prefs : Preferences} {length room : Nat}
    (hchecked : checked (update prefs (UInt64.ofNat length)) = .ok room)
    (hassured : room < assuredSize) : Compressor.roomFor prefs length = .ok room := by
  simp [Compressor.roomFor, hchecked, allocate_of_assured hassured, bind, Except.bind, pure,
    Except.pure]

/-- The room that a compressor finds for an update. -/
theorem roomFor_eq [Platform] {prefs : Preferences} {length : Nat} :
    Countable prefs length →
      Compressor.roomFor prefs length = .ok (worst prefs length (mostHeld prefs)) := by
  intro h
  have hworst : worst prefs length (mostHeld prefs) < assuredSize :=
    Nat.lt_trans (worst_lt h (Nat.le_refl _)) (by decide)
  have hchecked : checked (update prefs (UInt64.ofNat length))
      = .ok (worst prefs length (mostHeld prefs)) := by
    rw [checked_of_lt (by rwa [toNat_update h]), toNat_update h]
  exact roomFor_of_checked hchecked hworst

/-- The blocks of an update, and the trailer, stay within the worst case: `missing` bytes fill up
what was held, and the blocks of `whole` more bytes follow. -/
theorem made_le_worst {prefs : Preferences} {length held missing whole : Nat}
    (hheld : held ≤ mostHeld prefs)
    (hmissing : missing = if held = 0 then 0 else prefs.maxBlock - held) (hle : missing ≤ length)
    (hwhole : whole = if prefs.autoflush then length - missing
      else (length - missing) / prefs.maxBlock * prefs.maxBlock) :
    perBlock prefs * (if held = 0 then 0 else 1) + (held + missing)
        + (perBlock prefs * ((whole + (prefs.maxBlock - 1)) / prefs.maxBlock) + whole)
        + trailerLength prefs
      ≤ worst prefs length held := by
  have hpos := prefs.maxBlock_pos
  have hlt := mostHeld_lt prefs
  cases hauto : prefs.autoflush with
  | true =>
      have hnone : held = 0 := by
        simp only [mostHeld, hauto, ↓reduceIte] at hheld
        omega
      subst hnone
      simp only [↓reduceIte] at hmissing
      simp only [hauto, ↓reduceIte] at hwhole
      obtain rfl : whole = length := by omega
      subst hmissing
      rw [div_add_pred hpos]
      simp only [worst, blockCount, lastLength, hauto, true_or, ↓reduceIte, Nat.add_zero,
        Nat.mul_zero, Nat.zero_add]
      have := Nat.div_add_mod whole prefs.maxBlock
      omega
  | false =>
      simp only [hauto, Bool.false_eq_true, ↓reduceIte] at hwhole
      have hcount : (whole + (prefs.maxBlock - 1)) / prefs.maxBlock
          = (length - missing) / prefs.maxBlock := by
        rw [hwhole, div_add_pred hpos, Nat.mul_div_cancel _ hpos, Nat.mul_mod_left]
        simp
      have hfull : (length + held) / prefs.maxBlock
          = (length - missing) / prefs.maxBlock + if held = 0 then 0 else 1 := by
        split at hmissing <;> rename_i hempty
        · simp [hmissing, hempty]
        · rw [show length + held = length - missing + prefs.maxBlock by omega,
            Nat.add_div_right _ hpos, if_neg hempty]
      have hbytes : held + missing = prefs.maxBlock * if held = 0 then 0 else 1 := by
        split at hmissing <;> rename_i hempty
        · simp [hmissing, hempty]
        · rw [if_neg hempty]
          omega
      rw [hcount, hbytes, hwhole, worst, blockCount, hfull]
      generalize (length - missing) / prefs.maxBlock = quotient
      generalize (if held = 0 then 0 else 1) = first
      simp only [Nat.mul_add, Nat.mul_comm quotient]
      omega

/-- With autoflush every started block counts. -/
theorem worst_autoflush {prefs : Preferences} (hauto : prefs.autoflush = true) (length : Nat) :
    worst prefs length 0 = perBlock prefs * ((length + (prefs.maxBlock - 1)) / prefs.maxBlock)
      + length + trailerLength prefs := by
  have hsplit := Nat.div_add_mod length prefs.maxBlock
  rw [div_add_pred prefs.maxBlock_pos]
  simp only [worst, blockCount, lastLength, hauto, true_or, ↓reduceIte, Nat.add_zero]
  omega

/-- The room for a frame in one piece. -/
theorem toNat_frame {prefs : Preferences} {length : Nat} (h : Countable prefs length) :
    (frame prefs (UInt64.ofNat length)).toNat
      = Header.maxLength + worst { prefs with autoflush := true } length 0 := by
  have hcount : Countable { prefs with autoflush := true } length := h
  have hheld : mostHeld { prefs with autoflush := true } = 0 := if_pos rfl
  have hworst := worst_lt hcount (Nat.zero_le _)
  have hmax : (UInt64.ofNat Header.maxLength).toNat = Header.maxLength := by decide
  rw [frame, UInt64.toNat_add, hmax, toNat_update hcount, hheld]
  unfold Header.maxLength
  omega

/-- Room for no input is room for a block of all that can be held, and for the trailer. -/
theorem flush_le_worst {prefs : Preferences} {held : Nat} :
    held ≤ mostHeld prefs → 0 < held →
      perBlock prefs + held + trailerLength prefs ≤ worst prefs 0 (mostHeld prefs) := by
  intro hheld hpos
  rw [worst_zero (Nat.le_refl _), if_pos (Nat.lt_of_lt_of_le hpos hheld)]
  omega

/-! ## The largest bound -/

theorem toNat_add_le (a b : UInt64) : (a + b).toNat ≤ a.toNat + b.toNat := by
  rw [UInt64.toNat_add]
  exact Nat.mod_le ..

theorem toNat_mul_le {a b : UInt64} {m n : Nat} (ha : a.toNat ≤ m) (hb : b.toNat ≤ n) :
    (a * b).toNat ≤ m * n := by
  rw [UInt64.toNat_mul]
  exact Nat.le_trans (Nat.mod_le ..) (Nat.mul_le_mul ha hb)

/-- Blocks are counted in words of 32 bits, so no bound is larger than this, whatever the length. -/
theorem withHeld_le (prefs : Preferences) (length held : UInt64) :
    (withHeld prefs length held).toNat ≤ 0x40000800000000 := by
  have hbounds := maxBlock_bounds prefs
  have hblock := toNat_maxBlock prefs
  unfold withHeld
  simp only
  generalize length + min held (UInt64.ofNat prefs.maxBlock - 1) = total
  generalize (total / UInt64.ofNat prefs.maxBlock).toUInt32 = full
  have hlast : (if prefs.autoflush ∨ length = 0 then total % UInt64.ofNat prefs.maxBlock
      else 0).toNat ≤ 4194304 := by
    split
    · rw [UInt64.toNat_mod, hblock]
      have := Nat.mod_lt total.toNat prefs.maxBlock_pos
      omega
    · exact Nat.zero_le _
  generalize (if prefs.autoflush ∨ length = 0 then total % UInt64.ofNat prefs.maxBlock
      else 0) = last at hlast ⊢
  generalize full + (if 0 < last then 1 else 0) = blocks
  have hperBlock : (if prefs.blockChecksum then (8 : UInt64) else 4).toNat ≤ 8 := by
    split <;> decide
  have htrailer : (if prefs.contentChecksum then (8 : UInt64) else 4).toNat ≤ 8 := by
    split <;> decide
  have hcount (count : UInt32) : count.toUInt64.toNat ≤ 0xffffffff := by
    rw [UInt32.toNat_toUInt64]
    exact Nat.le_of_lt_succ count.toNat_lt
  -- no sum of words is larger than the sum of the numbers
  calc (_ + _ + last + _ : UInt64).toNat
      ≤ _ + _ + last.toNat + _ :=
        Nat.le_trans (toNat_add_le ..) (Nat.add_le_add_right (Nat.le_trans (toNat_add_le ..)
          (Nat.add_le_add_right (toNat_add_le ..) _)) _)
    _ ≤ 8 * 0xffffffff + 4194304 * 0xffffffff + 4194304 + 8 :=
        Nat.add_le_add (Nat.add_le_add (Nat.add_le_add (toNat_mul_le hperBlock (hcount blocks))
          (toNat_mul_le (by omega) (hcount full))) hlast) htrailer
    _ = 0x40000800000000 := by decide

theorem checked_eq {result : UInt64} {room : Nat} :
    checked result = .ok room → room = result.toNat := by
  intro h
  unfold checked at h
  split at h
  · cases h
  · exact (Except.ok.inj h).symm

/-- So whatever fits in the room for a frame in one piece expands to less than all memory. -/
theorem frame_lt (prefs : Preferences) (length : UInt64) :
    255 * (frame prefs length).toNat < assuredSize := by
  have hmax : (UInt64.ofNat Header.maxLength).toNat = 19 := by decide
  have hsum := toNat_add_le (UInt64.ofNat Header.maxLength)
    (update { prefs with autoflush := true } length)
  have hupdate : (update { prefs with autoflush := true } length).toNat ≤ _ := withHeld_le ..
  rw [hmax] at hsum
  unfold frame assuredSize
  omega

end Lz4Frame.Bound
