import Lz4Frame.Frame.Header

/-!
# Reading a header back

`decode_encode` and `opening_encode`: a header whose fields are wide enough for its numbers reads
back as it was written, and its first seven bytes tell how long it is.
-/

namespace Lz4Frame.Header

/-- A header that can be written: it names a block size, and its numbers fit into their fields. -/
structure Writable (header : Header) : Prop where
  blockSize_ne : header.blockSize ≠ .unspecified
  contentSize_lt : ∀ n ∈ header.contentSize, n < 0x10000000000000000
  dictionaryId_lt : ∀ n ∈ header.dictionaryId, n < 0x100000000

/-! ## Flags -/

/-- Every choice can be told from its bit, and the other bits are those of version 1. -/
theorem flags_bits : ∀ linked blockChecksum contentSize contentChecksum dictionaryId : Bool,
    let byte : UInt8 := 64 ||| (if linked then 0 else 32) ||| (if blockChecksum then 16 else 0)
      ||| (if contentSize then 8 else 0) ||| (if contentChecksum then 4 else 0)
      ||| (if dictionaryId then 1 else 0)
    (byte &&& 8 ≠ 0 ↔ contentSize = true) ∧ (byte &&& 1 ≠ 0 ↔ dictionaryId = true)
      ∧ ((byte &&& 32 == 0) = linked ∧ (byte &&& 16 != 0) = blockChecksum
        ∧ (byte &&& 4 != 0) = contentChecksum)
      ∧ byte &&& 2 = 0 ∧ byte >>> 6 = 1 := by
  decide

theorem flags_contentSize (header : Header) :
    header.flags &&& 8 ≠ 0 ↔ header.contentSize.isSome = true :=
  (flags_bits header.linked header.blockChecksum header.contentSize.isSome header.contentChecksum
    header.dictionaryId.isSome).1

theorem flags_dictionaryId (header : Header) :
    header.flags &&& 1 ≠ 0 ↔ header.dictionaryId.isSome = true :=
  (flags_bits header.linked header.blockChecksum header.contentSize.isSome header.contentChecksum
    header.dictionaryId.isSome).2.1

theorem flags_choices (header : Header) :
    (header.flags &&& 32 == 0) = header.linked
      ∧ (header.flags &&& 16 != 0) = header.blockChecksum
      ∧ (header.flags &&& 4 != 0) = header.contentChecksum :=
  (flags_bits header.linked header.blockChecksum header.contentSize.isSome header.contentChecksum
    header.dictionaryId.isSome).2.2.1

theorem flags_version (header : Header) :
    header.flags &&& 2 = 0 ∧ header.flags >>> 6 = 1 :=
  (flags_bits header.linked header.blockChecksum header.contentSize.isSome header.contentChecksum
    header.dictionaryId.isSome).2.2.2

/-! ## Parts of a header -/

theorem encode_eq (header : Header) :
    header.encode = LittleEndian.encode 4 magic
      ++ (header.flags :: UInt8.ofNat (header.blockSize.id * 16)
        :: (optionalField 8 header.contentSize ++ optionalField 4 header.dictionaryId
          ++ [checksumByte header.body])) := by
  simp [encode, body]

theorem magicOf_encode (header : Header) (rest : Bytes) :
    magicOf (header.encode ++ rest) = magic := by
  rw [magicOf, encode, List.append_assoc, List.append_assoc,
    List.take_left' (LittleEndian.length_encode ..), LittleEndian.value_encode]
  decide

theorem flagsOf_encode (header : Header) (rest : Bytes) :
    flagsOf (header.encode ++ rest) = header.flags := by
  rw [flagsOf, encode_eq, List.append_assoc, List.getD_eq_getElem?_getD,
    List.getElem?_append_right (by simp)]
  simp

theorem length_optionalField (width : Nat) (field : Option Nat) :
    (optionalField width field).length = if field.isSome then width else 0 := by
  cases field <;> simp [optionalField]

theorem length_encode_eq (header : Header) : header.encode.length = lengthFor header.flags := by
  rw [encode_eq, lengthFor]
  simp only [List.length_append, List.length_cons, LittleEndian.length_encode, List.length_nil,
    length_optionalField, flags_contentSize, flags_dictionaryId, minLength]
  omega

theorem minLength_le (header : Header) : minLength ≤ header.encode.length := by
  rw [length_encode_eq, lengthFor]
  omega

theorem encode_length_le (header : Header) : header.encode.length ≤ maxLength := by
  rw [length_encode_eq, lengthFor, minLength, maxLength]
  split <;> split <;> omega

/-! ## Reading -/

theorem magicOf_take {bytes : Bytes} {n : Nat} :
    4 ≤ n → magicOf (bytes.take n) = magicOf bytes := by
  intro h
  rw [magicOf, magicOf, List.take_take, Nat.min_eq_left h]

theorem flagsOf_take {bytes : Bytes} {n : Nat} :
    5 ≤ n → flagsOf (bytes.take n) = flagsOf bytes := by
  intro h
  rw [flagsOf, flagsOf, List.getD_eq_getElem?_getD, List.getD_eq_getElem?_getD,
    List.getElem?_take_of_lt (by omega)]

/-- Only the first five bytes matter for the opening. -/
theorem opening_take {bytes : Bytes} {n : Nat} :
    5 ≤ n → opening (bytes.take n) = opening bytes := by
  intro h
  simp only [opening, magicOf_take (show 4 ≤ n by omega), flagsOf_take h]

/-- The opening of a header tells its length. -/
theorem opening_encode (header : Header) (rest : Bytes) :
    opening (header.encode ++ rest) = .ok (.frame header.encode.length) := by
  have hskip : isSkippableMagic magic = false := by decide
  have hversion := header.flags_version
  simp [opening, magicOf_encode, flagsOf_encode, hskip, hversion.1, hversion.2, length_encode_eq]

theorem value_encode_of_lt {width n : Nat} :
    n < LittleEndian.modulus width → LittleEndian.value (LittleEndian.encode width n) = n := by
  intro h
  rw [LittleEndian.value_encode, Nat.mod_eq_of_lt h]

theorem blockSize_byte {size : BlockSize} :
    size ≠ .unspecified →
      UInt8.ofNat (size.id * 16) &&& 128 = 0 ∧ UInt8.ofNat (size.id * 16) &&& 15 = 0
        ∧ BlockSize.ofId? (UInt8.ofNat (size.id * 16) >>> 4).toNat = some size := by
  intro h
  cases size <;> first | exact absurd rfl h | decide

/-- What stands behind the two bytes of choices. -/
theorem drop_encode (header : Header) :
    header.encode.drop 6 = optionalField 8 header.contentSize
      ++ (optionalField 4 header.dictionaryId ++ [checksumByte header.body]) := by
  rw [encode_eq, List.drop_append]
  simp [List.drop_of_length_le]

theorem contentSize_encode {header : Header} (h : header.Writable) :
    (if header.flags &&& 8 ≠ 0 then
      some (LittleEndian.value ((header.encode.drop 6).take 8)) else none)
        = header.contentSize := by
  have hflag := header.flags_contentSize
  rw [drop_encode]
  cases hsome : header.contentSize with
  | none => simp [hflag, hsome]
  | some n =>
      have hlt : n < LittleEndian.modulus 8 := h.contentSize_lt n hsome
      simp only [hflag, hsome, Option.isSome_some, ↓reduceIte, optionalField, Option.some.injEq]
      rw [List.take_left' (LittleEndian.length_encode ..), value_encode_of_lt hlt]

/-- The second field stands where the first would stand, if that is not there. -/
theorem dictionaryId_encode {header : Header} (h : header.Writable) :
    (if header.flags &&& 1 ≠ 0 then
      some (LittleEndian.value (((header.encode.drop 6).drop
        (if header.flags &&& 8 ≠ 0 then 8 else 0)).take 4)) else none)
        = header.dictionaryId := by
  have hflag := header.flags_dictionaryId
  have hskip : (optionalField 8 header.contentSize).length
      = if header.flags &&& 8 ≠ 0 then 8 else 0 := by
    rw [length_optionalField]
    simp only [header.flags_contentSize]
  rw [drop_encode, List.drop_left' hskip]
  cases hsome : header.dictionaryId with
  | none => simp [hflag, hsome]
  | some n =>
      have hlt : n < LittleEndian.modulus 4 := h.dictionaryId_lt n hsome
      simp only [hflag, hsome, Option.isSome_some, ↓reduceIte, optionalField, Option.some.injEq]
      rw [List.take_left' (LittleEndian.length_encode ..), value_encode_of_lt hlt]

/-- A header reads back as it was written. -/
theorem decode_encode {header : Header} :
    header.Writable → decode header.encode = .ok header := by
  intro h
  have hflags : flagsOf header.encode = header.flags := by
    simpa using header.flagsOf_encode []
  have hsize : header.encode.getD 5 0 = UInt8.ofNat (header.blockSize.id * 16) := by
    rw [encode_eq, List.getD_eq_getElem?_getD, List.getElem?_append_right (by simp)]
    simp
  have hbody : (header.encode.drop 4).dropLast = header.body := by
    rw [encode, List.append_assoc, List.drop_left' (LittleEndian.length_encode ..)]
    simp
  have hlast : header.encode.getLast?.getD 0 = checksumByte header.body := by
    simp [encode]
  rcases blockSize_byte h.blockSize_ne with ⟨hhigh, hlow, hid⟩
  have hchoices := header.flags_choices
  simp only [decode, hflags, hsize, hhigh, hlow, hid, hbody, hlast, contentSize_encode h,
    dictionaryId_encode h, hchoices, ne_eq, not_true_eq_false, ↓reduceIte]
  cases hblock : header.blockSize with
  | unspecified => exact absurd hblock h.blockSize_ne
  | _ =>
      show Except.ok _ = Except.ok header
      rw [← hblock]

/-- A field of eight bytes declares no more than it can hold. -/
theorem decode_contentSize_lt {bytes : Bytes} {header : Header} {n : Nat} :
    decode bytes = .ok header → header.contentSize = some n → n < 0x10000000000000000 := by
  intro hdecode hsize
  have hvalue : LittleEndian.value ((bytes.drop 6).take 8) < LittleEndian.modulus 8 :=
    Nat.lt_of_lt_of_le (LittleEndian.value_lt _) (LittleEndian.modulus_le (List.length_take_le ..))
  -- of all the ways out only the last gives a header
  unfold decode at hdecode
  simp only at hdecode
  repeat' split at hdecode
  all_goals cases hdecode
  all_goals cases hsize
  all_goals exact hvalue

/-! ## Headers of settings -/

theorem resolved_ne (size : BlockSize) : size.resolved ≠ .unspecified := by
  cases size <;> decide

@[simp] theorem bytes_resolved (size : BlockSize) : size.resolved.bytes = size.bytes := by
  cases size <;> rfl

theorem writable_ofPreferences {prefs : Preferences}
    (h : prefs.declaredOrZero < 0x10000000000000000) : (ofPreferences prefs).Writable where
  blockSize_ne := resolved_ne _
  contentSize_lt n hn := by
    simp only [ofPreferences] at hn
    split at hn
    · cases hn
    · cases hn
      exact h
  dictionaryId_lt n hn := by cases hn

theorem length_encode_ofPreferences (prefs : Preferences) :
    (ofPreferences prefs).encode.length = if prefs.declaredOrZero = 0 then 7 else 15 := by
  have hsize := (ofPreferences prefs).flags_contentSize
  have hid := (ofPreferences prefs).flags_dictionaryId
  rw [length_encode_eq, lengthFor]
  simp only [hsize, hid]
  by_cases hzero : prefs.declaredOrZero = 0
  · simp [ofPreferences, hzero, minLength]
  · simp [ofPreferences, hzero, minLength]

theorem contentSize_ofPreferences (prefs : Preferences) :
    (ofPreferences prefs).contentSize.getD 0 = prefs.declaredOrZero := by
  by_cases hzero : prefs.declaredOrZero = 0
  · simp [ofPreferences, hzero]
  · simp [ofPreferences, hzero]

/-- The header of settings has 7 bytes, or 15 with a declared length. -/
theorem length_ofPreferences (prefs : Preferences) :
    (ofPreferences prefs).encode.length = 7
      ∨ (ofPreferences prefs).encode.length = 15
        ∧ (ofPreferences prefs).contentSize.getD 0 ≠ 0 := by
  rw [length_encode_ofPreferences, contentSize_ofPreferences]
  split
  · exact .inl rfl
  · exact .inr ⟨rfl, ‹_›⟩

end Lz4Frame.Header
