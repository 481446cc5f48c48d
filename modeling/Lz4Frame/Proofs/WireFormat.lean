import Lz4Frame.Platform.Reference
import Lz4Frame.Proofs.RoundTrip

/-!
# The bytes of a frame

`Wire` spells out, byte for byte, what a frame is: the numbers of its header, the two forms of a
block and the fields that follow.  Nothing here goes back to how frames are written: only number
fields, the block decoder and the checksum are the ones in use.  What a compressor makes has this
form, whatever it did before (`frame_bytes`), as long as the blocks of each update can be counted
(`frame_bytes_uncounted`).
-/

namespace Lz4Frame

open Block

namespace Wire

/-! ## The descriptor -/

/-- A bit of the flag byte. -/
def bit (on : Bool) (weight : Nat) : Nat := if on then weight else 0

/-- The flag byte: version 1 in the two highest bits, and the choices of the settings. -/
def flags (prefs : Preferences) : Nat :=
  0x40 + bit (!prefs.linked) 0x20 + bit prefs.blockChecksum 0x10
    + bit (0 < prefs.declaredOrZero) 0x08 + bit prefs.contentChecksum 0x04

/-- The identifier by which a frame names a block size; a size left open goes by that of 64 KiB. -/
def sizeId : BlockSize → Nat
  | .unspecified => 4
  | .max64KiB => 4
  | .max256KiB => 5
  | .max1MiB => 6
  | .max4MiB => 7

/-- What stands between the magic number and its checksum byte: flags, block size and, if it is
positive, the declared length. -/
def descriptor (prefs : Preferences) : Bytes :=
  [UInt8.ofNat (flags prefs), UInt8.ofNat (0x10 * sizeId prefs.blockSize)]
    ++ (if 0 < prefs.declaredOrZero then LittleEndian.encode 8 prefs.declaredOrZero else [])

/-- The second lowest byte of a checksum. -/
def secondByte (sum : UInt32) : UInt8 := UInt8.ofNat (sum.toNat / 0x100)

/-- Bits set one by one add up. -/
theorem flags_eq : ∀ linked blockChecksum sized contentChecksum : Bool,
    (64 ||| (if linked then 0 else 32) ||| (if blockChecksum then 16 else 0)
      ||| (if sized then 8 else 0) ||| (if contentChecksum then 4 else 0) ||| 0 : UInt8)
        = UInt8.ofNat (0x40 + bit (!linked) 0x20 + bit blockChecksum 0x10 + bit sized 0x08
          + bit contentChecksum 0x04) := by
  decide

theorem flags_ofPreferences (prefs : Preferences) :
    (Header.ofPreferences prefs).flags = UInt8.ofNat (flags prefs) := by
  have hsized : (Header.ofPreferences prefs).contentSize.isSome
      = decide (0 < prefs.declaredOrZero) := by
    simp only [Header.ofPreferences]
    split <;> simp_all [Nat.pos_iff_ne_zero]
  rw [flags, ← hsized]
  exact flags_eq ..

theorem body_ofPreferences (prefs : Preferences) :
    (Header.ofPreferences prefs).body = descriptor prefs := by
  have hsize : UInt8.ofNat (prefs.blockSize.resolved.id * 16)
      = UInt8.ofNat (0x10 * sizeId prefs.blockSize) := by
    cases prefs.blockSize <;> rfl
  rw [Header.body, flags_ofPreferences, descriptor]
  simp only [Header.ofPreferences, hsize, Header.optionalField, Nat.pos_iff_ne_zero]
  by_cases hnone : prefs.declaredOrZero = 0
  · simp [hnone]
  · simp [hnone]

theorem encode_ofPreferences (prefs : Preferences) :
    (Header.ofPreferences prefs).encode
      = LittleEndian.encode 4 0x184d2204 ++ descriptor prefs
        ++ [secondByte (Xxh32.of (descriptor prefs))] := by
  rw [Header.encode, body_ofPreferences]
  rfl

/-! ## Blocks -/

/-- The checksum of some bytes, if there is one. -/
def checksum (on : Bool) (bytes : Bytes) : Bytes :=
  if on then LittleEndian.encode 4 (Xxh32.of bytes).toNat else []

/-- The content that a block may refer to. -/
def reach (prefs : Preferences) (before : Bytes) : Array UInt8 :=
  if prefs.linked then before.toArray else #[]

/-- How a part of the content may be written behind the content before it: as it is, with the
highest bit of the length set, or as fewer bytes that decode to it. -/
inductive IsBlock (prefs : Preferences) (before part : Bytes) : (written : Bytes) → Prop
  | stored : IsBlock prefs before part
      (LittleEndian.encode 4 (0x80000000 + part.length) ++ part
        ++ checksum prefs.blockChecksum part)
  | compressed {bytes : Bytes}
      (decodes : Decodes (reach prefs before) prefs.maxBlock bytes part)
      (shorter : bytes.length < part.length) :
      IsBlock prefs before part
        (LittleEndian.encode 4 bytes.length ++ bytes ++ checksum prefs.blockChecksum bytes)

/-- Blocks for parts of the content, each behind the parts before it. -/
inductive IsRow (prefs : Preferences) : (before : Bytes) → (parts : List Bytes) →
    (written : Bytes) → Prop
  | nil {before : Bytes} : IsRow prefs before [] []
  | cons {before part first rest : Bytes} {parts : List Bytes} (ne_nil : part ≠ [])
      (length_le : part.length ≤ prefs.maxBlock) (block : IsBlock prefs before part first)
      (row : IsRow prefs (before ++ part) parts rest) :
      IsRow prefs before (part :: parts) (first ++ rest)

theorem isBlock_encode {prefs : Preferences} {before part : Bytes} {payload : Payload} :
    payload.Holds ((Header.ofPreferences prefs).history before) prefs.maxBlock part →
      IsBlock prefs before part (payload.encode prefs.blockChecksum) := by
  intro h
  cases payload with
  | stored bytes =>
      obtain rfl : bytes = part := h
      exact .stored
  | compressed bytes => exact .compressed h.1 h.2

theorem isRow_ofPreferences {prefs : Preferences} {before written : Bytes} {parts : List Bytes} :
    Row (.ofPreferences prefs) before parts written → IsRow prefs before parts written := by
  intro h
  have hmax : (Header.ofPreferences prefs).blockSize.bytes = prefs.maxBlock :=
    Header.bytes_resolved _
  induction h with
  | nil => exact .nil
  | cons ne_nil length_le holds _ ih =>
      rw [hmax] at length_le holds
      exact .cons ne_nil length_le (isBlock_encode holds) ih

end Wire

/-! ## Whole frames -/

section

variable [Platform]

/-- Whatever a compressor did before, it makes a frame of exactly these bytes: the header that the
settings ask for, blocks for parts of the content that cover it, a zero word and the checksum of the
content, if there is one.  Without autoflush and flushes only the last part can be shorter than a
block. -/
theorem frame_bytes (compressor : Compressor) {prefs : Preferences}
    (hvalid : prefs.validate = .ok ()) {row : List Call} (hfits : ∀ call ∈ row, call.Fits prefs)
    (hdeclared : prefs.declaredOrZero = 0 ∨ prefs.declaredOrZero = (contentOf row).length) :
    ∃ next parts blocks, compressor.frame prefs row = (next, .ok
        (LittleEndian.encode 4 0x184d2204 ++ Wire.descriptor prefs
          ++ [Wire.secondByte (Xxh32.of (Wire.descriptor prefs))] ++ blocks
          ++ LittleEndian.encode 4 0 ++ Wire.checksum prefs.contentChecksum (contentOf row)))
      ∧ parts.flatten = contentOf row
      ∧ Wire.IsRow prefs [] parts blocks
      ∧ (prefs.autoflush = false → .flush ∉ row →
          ∀ part ∈ parts.dropLast, part.length = prefs.maxBlock) := by
  rcases compressor.frame_sends hvalid hfits hdeclared
      with ⟨next, parts, blocks, hframe, -, hflatten, hrow, hfull⟩
  rw [Wire.encode_ofPreferences] at hframe
  exact ⟨next, parts, blocks, hframe, hflatten, Wire.isRow_ofPreferences hrow, hfull⟩

/-- Settings that ask for every field a frame can have. -/
def Wire.allFields : Preferences :=
  { linked := false, blockChecksum := true, contentChecksum := true, declaredSize := some 3 }

end

open Reference in
/-- Three bytes in two updates, in a frame with every field. -/
theorem frame_bytes_three_bytes :
    ∃ (next : Compressor) (parts : List Bytes) (blocks : Bytes),
      Compressor.frame (.new .native) Wire.allFields [.update [1, 2], .update [3]]
        = (next, .ok ([0x04, 0x22, 0x4d, 0x18, 0x7c, 0x40, 3, 0, 0, 0, 0, 0, 0, 0, 0x74]
          ++ blocks ++ [0, 0, 0, 0] ++ LittleEndian.encode 4 (Xxh32.of [1, 2, 3]).toNat))
      ∧ parts.flatten = [1, 2, 3] ∧ Wire.IsRow Wire.allFields [] parts blocks
      ∧ ∀ part ∈ parts.dropLast, part.length = 65536 := by
  have hfits : ∀ call ∈ [Call.update [1, 2], .update [3]], call.Fits Wire.allFields := by
    intro call hmem
    simp only [List.mem_cons, List.not_mem_nil, or_false] at hmem
    rcases hmem with rfl | rfl
    · refine ⟨by simp, ?_⟩
      show (2 + (65536 - 1)) / 65536 < 0x100000000
      decide
    · refine ⟨by simp, ?_⟩
      show (1 + (65536 - 1)) / 65536 < 0x100000000
      decide
  rcases frame_bytes (.new .native) rfl hfits (.inr rfl)
      with ⟨next, parts, blocks, hframe, hflatten, hrow, hfull⟩
  exact ⟨next, parts, blocks, hframe, hflatten, hrow, hfull rfl (by simp)⟩

open Reference in
/-- The blocks of a long update cannot be counted, and no frame comes out. -/
theorem frame_bytes_uncounted :
    Preferences.validate {} = .ok () ∧ Preferences.declaredOrZero {} = 0
      ∧ (Compressor.frame (.new .native) {} [.update (List.replicate 0xffffffffffff 0)]).2
        = .error (.frame .dstMaxSizeTooSmall) :=
  ⟨rfl, rfl, update_uncountable List.length_replicate⟩

end Lz4Frame
