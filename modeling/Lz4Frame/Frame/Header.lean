import Lz4Frame.Bytes
import Lz4Frame.Preferences
import Lz4Frame.Xxh32

/-!
# Frame headers

A frame starts with four magic bytes and a body: a flag byte, a block size byte and the fields that
the flags announce.  A checksum byte over the body closes the header.  `Header.encode` writes a
header and `Header.decode` reads one; `Header.opening` says, from the first seven bytes alone,
whether a frame starts here and how long its header is.  Frames that start with one of sixteen
other magic numbers carry no content and are skipped.
-/

namespace Lz4Frame

/-- What a header says about its frame. -/
structure Header where
  blockSize : BlockSize
  linked : Bool
  blockChecksum : Bool
  contentChecksum : Bool
  /-- The length of the content, if there is a field for it. -/
  contentSize : Option Nat
  /-- The dictionary's identifier, if there is a field for it. -/
  dictionaryId : Option Nat
  deriving DecidableEq, Repr, Inhabited

namespace Header

/-- The shortest header: magic, flags, block size, checksum. -/
def minLength : Nat := 7

/-- The longest header, with both optional fields. -/
def maxLength : Nat := 19

/-- The number that a frame starts with. -/
def magic : Nat := 0x184d2204

/-- Whether a number starts a frame that is to be skipped. -/
def isSkippableMagic (n : Nat) : Bool := n / 16 == 0x184d2a5

/-- The checksum byte of a header body: the second lowest byte of its checksum. -/
def checksumByte (body : Bytes) : UInt8 :=
  UInt8.ofNat ((Xxh32.of body).toNat / 256)

/-! ## Writing -/

/-- The header of a frame with these settings; a declared length of 0 counts as none. -/
def ofPreferences (prefs : Preferences) : Header where
  blockSize := prefs.blockSize.resolved
  linked := prefs.linked
  blockChecksum := prefs.blockChecksum
  contentChecksum := prefs.contentChecksum
  contentSize := if prefs.declaredOrZero = 0 then none else some prefs.declaredOrZero
  dictionaryId := none

/-- The flag byte: version 1 in the two highest bits, then one bit for each choice. -/
def flags (header : Header) : UInt8 :=
  64 ||| (if header.linked then 0 else 32) ||| (if header.blockChecksum then 16 else 0)
    ||| (if header.contentSize.isSome then 8 else 0) ||| (if header.contentChecksum then 4 else 0)
    ||| (if header.dictionaryId.isSome then 1 else 0)

/-- An optional field of a fixed width. -/
def optionalField (width : Nat) : Option Nat → Bytes
  | some n => LittleEndian.encode width n
  | none => []

/-- The bytes between the magic number and the checksum byte. -/
def body (header : Header) : Bytes :=
  header.flags :: UInt8.ofNat (header.blockSize.id * 16)
    :: (optionalField 8 header.contentSize ++ optionalField 4 header.dictionaryId)

/-- The whole header. -/
def encode (header : Header) : Bytes :=
  LittleEndian.encode 4 magic ++ header.body ++ [checksumByte header.body]

/-! ## Reading -/

/-- The length of a header with this flag byte. -/
def lengthFor (flags : UInt8) : Nat :=
  minLength + (if flags &&& 8 ≠ 0 then 8 else 0) + (if flags &&& 1 ≠ 0 then 4 else 0)

/-- What a stream starts with. -/
inductive Opening
  /-- A frame whose header has this many bytes. -/
  | frame (length : Nat)
  /-- A frame to be skipped. -/
  | skippable
  deriving DecidableEq, Repr

/-- The number in the first four bytes. -/
def magicOf (bytes : Bytes) : Nat := LittleEndian.value (bytes.take 4)

/-- The flag byte of a header. -/
def flagsOf (bytes : Bytes) : UInt8 := bytes.getD 4 0

/-- Judges the magic number and the flags: an unknown number, then a reserved bit, then another
version than 1, is an error. -/
def opening (bytes : Bytes) : Except ErrorCode Opening :=
  if isSkippableMagic (magicOf bytes) then
    .ok .skippable
  else if magicOf bytes ≠ magic then
    .error .frameTypeUnknown
  else if flagsOf bytes &&& 2 ≠ 0 then
    .error .reservedFlagSet
  else if flagsOf bytes >>> 6 ≠ 1 then
    .error .headerVersionWrong
  else
    .ok (.frame (lengthFor (flagsOf bytes)))

/-- Reads a complete header after `opening` has accepted its flags. -/
def decode (bytes : Bytes) : Except ErrorCode Header :=
  let flags := flagsOf bytes
  let sizeByte := bytes.getD 5 0
  let fields := bytes.drop 6
  let sizeWidth := if flags &&& 8 ≠ 0 then 8 else 0
  if sizeByte &&& 128 ≠ 0 then
    .error .reservedFlagSet
  else
    match BlockSize.ofId? (sizeByte >>> 4).toNat with
    | none => .error .maxBlockSizeInvalid
    | some .unspecified => .error .maxBlockSizeInvalid
    | some blockSize =>
        if sizeByte &&& 15 ≠ 0 then
          .error .reservedFlagSet
        else if checksumByte ((bytes.drop 4).dropLast) ≠ bytes.getLast?.getD 0 then
          .error .headerChecksumInvalid
        else
          .ok {
            blockSize
            linked := flags &&& 32 == 0
            blockChecksum := flags &&& 16 != 0
            contentChecksum := flags &&& 4 != 0
            contentSize :=
              if flags &&& 8 ≠ 0 then some (LittleEndian.value (fields.take 8)) else none
            dictionaryId :=
              if flags &&& 1 ≠ 0 then
                some (LittleEndian.value ((fields.drop sizeWidth).take 4))
              else
                none }

end Header

end Lz4Frame
