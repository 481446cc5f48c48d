/-!
# What can go wrong

A failure is a cause, not a text.  `ErrorCode` is the numbered registry of frame errors, `Error`
adds the causes that arise before any frame byte is looked at, and `IoError` is what a stream over
a device reports: one of the former, or the device's own complaint.  The wording is written once,
in `ErrorCode.name`, `Error.message` and `IoError.message`.
-/

namespace Lz4Frame

/-! ## The registry of frame errors -/

/-- Frame errors in the order of their numbers, from 0. -/
inductive ErrorCode
  | okNoError
  | generic
  | maxBlockSizeInvalid
  | blockModeInvalid
  | parameterInvalid
  | compressionLevelInvalid
  | headerVersionWrong
  | blockChecksumInvalid
  | reservedFlagSet
  | allocationFailed
  | srcSizeTooLarge
  | dstMaxSizeTooSmall
  | frameHeaderIncomplete
  | frameTypeUnknown
  | frameSizeWrong
  | srcPtrWrong
  | decompressionFailed
  | headerChecksumInvalid
  | contentChecksumInvalid
  | frameDecodingAlreadyStarted
  | compressionStateUninitialized
  | parameterNull
  | ioWrite
  | ioRead
  deriving DecidableEq, Repr, Inhabited

namespace ErrorCode

/-- Every registry entry, in numeric order. -/
def all : List ErrorCode :=
  [okNoError, generic, maxBlockSizeInvalid, blockModeInvalid, parameterInvalid,
    compressionLevelInvalid, headerVersionWrong, blockChecksumInvalid, reservedFlagSet,
    allocationFailed, srcSizeTooLarge, dstMaxSizeTooSmall, frameHeaderIncomplete,
    frameTypeUnknown, frameSizeWrong, srcPtrWrong, decompressionFailed, headerChecksumInvalid,
    contentChecksumInvalid, frameDecodingAlreadyStarted, compressionStateUninitialized,
    parameterNull, ioWrite, ioRead]

/-- The number of an entry: its place in the registry. -/
def number (code : ErrorCode) : Nat := code.ctorIdx

/-- The largest number in the registry. -/
def maxNumber : Nat := 23

/-- The entry with a given number. -/
def ofNumber? (n : Nat) : Option ErrorCode := all[n]?

theorem ofNumber?_number (code : ErrorCode) : ofNumber? code.number = some code := by
  cases code <;> rfl

/-- The registry name of an entry. -/
def name : ErrorCode → String
  | okNoError => "OK_NoError"
  | generic => "ERROR_GENERIC"
  | maxBlockSizeInvalid => "ERROR_maxBlockSize_invalid"
  | blockModeInvalid => "ERROR_blockMode_invalid"
  | parameterInvalid => "ERROR_parameter_invalid"
  | compressionLevelInvalid => "ERROR_compressionLevel_invalid"
  | headerVersionWrong => "ERROR_headerVersion_wrong"
  | blockChecksumInvalid => "ERROR_blockChecksum_invalid"
  | reservedFlagSet => "ERROR_reservedFlag_set"
  | allocationFailed => "ERROR_allocation_failed"
  | srcSizeTooLarge => "ERROR_srcSize_tooLarge"
  | dstMaxSizeTooSmall => "ERROR_dstMaxSize_tooSmall"
  | frameHeaderIncomplete => "ERROR_frameHeader_incomplete"
  | frameTypeUnknown => "ERROR_frameType_unknown"
  | frameSizeWrong => "ERROR_frameSize_wrong"
  | srcPtrWrong => "ERROR_srcPtr_wrong"
  | decompressionFailed => "ERROR_decompressionFailed"
  | headerChecksumInvalid => "ERROR_headerChecksum_invalid"
  | contentChecksumInvalid => "ERROR_contentChecksum_invalid"
  | frameDecodingAlreadyStarted => "ERROR_frameDecoding_alreadyStarted"
  | compressionStateUninitialized => "ERROR_compressionState_uninitialized"
  | parameterNull => "ERROR_parameter_null"
  | ioWrite => "ERROR_io_write"
  | ioRead => "ERROR_io_read"

/-- Number and name, as messages show them. -/
def message (code : ErrorCode) : String :=
  "[" ++ toString code.number ++ "] " ++ code.name

/-- Whether a 64-bit result is one of the top `maxNumber` values, which stand for errors. -/
def isErrorResult (result : UInt64) : Bool :=
  (0 - 1 - UInt64.ofNat maxNumber) < result

/-- The error that a 64-bit result stands for: its distance from 2^64 is the number. -/
def ofResult? (result : UInt64) : Option ErrorCode :=
  if isErrorResult result then
    some ((ofNumber? (0 - result).toNat).getD generic)
  else
    none

end ErrorCode

/-! ## Failures of an operation -/

/-- The settings that an operation may refuse. -/
inductive Parameter
  | blockSizeId
  | compressionLevel
  | bufferSize
  | chunkLength
  deriving DecidableEq, Repr

/-- The name of a setting in messages. -/
def Parameter.name : Parameter → String
  | blockSizeId => "block_size_id"
  | compressionLevel => "compression_level"
  | bufferSize => "buffer_size"
  | chunkLength => "chunk_len"

/-- Why an operation failed. -/
inductive Error
  /-- A setting was out of range; nothing was done. -/
  | parameter (which : Parameter) (value : Int)
  /-- A call that consumes data got none. -/
  | emptyInput
  /-- A frame error from the registry. -/
  | frame (code : ErrorCode)
  /-- The input ran out inside a frame. -/
  | incompleteFrame
  /-- Room for this many bytes cannot be had. -/
  | allocation (requested : Nat)
  deriving DecidableEq, Repr

namespace Error

/-- The largest value of a setting that is shown: larger ones are shown as this one. -/
def largestShown : Int := 0x7fffffffffffffff

/-- Refuses a setting. -/
def invalid (which : Parameter) (value : Int) : Error :=
  .parameter which (min value largestShown)

/-- The text of a failure. -/
def message : Error → String
  | parameter which value => which.name ++ " (" ++ toString value ++ ") invalid"
  | emptyInput => "no data supplied"
  | frame code => code.message
  | incompleteFrame => "frame incomplete"
  | allocation requested => "failed to allocate " ++ toString requested ++ " bytes"

/-- The registry entry that a failure carries, if it carries one. -/
def code? : Error → Option ErrorCode
  | frame code => some code
  | _ => none

end Error

/-! ## Failures of a stream -/

/-- The classes of device failures. -/
inductive IoKind
  | invalidInput
  | unexpectedEof
  | outOfMemory
  | invalidData
  | interrupted
  | permissionDenied
  | brokenPipe
  | writeZero
  | other
  deriving DecidableEq, Repr

/-- The class that an operation's failure has in a stream. -/
def Error.ioKind : Error → IoKind
  | .parameter _ _ => .invalidInput
  | .emptyInput => .unexpectedEof
  | .incompleteFrame => .unexpectedEof
  | .allocation _ => .outOfMemory
  | .frame _ => .invalidData

/-- Why a stream over a device failed. -/
inductive IoError
  /-- The codec refused. -/
  | codec (cause : Error)
  /-- The device failed in its own words. -/
  | device (kind : IoKind) (text : String)
  /-- The device accepts no more bytes. -/
  | writeZero
  deriving DecidableEq, Repr

namespace IoError

def kind : IoError → IoKind
  | codec cause => cause.ioKind
  | device kind _ => kind
  | writeZero => .writeZero

def message : IoError → String
  | codec cause => cause.message
  | device _ text => text
  | writeZero => "failed to write whole buffer"

/-- The registry entry behind a stream failure, if there is one. -/
def code? : IoError → Option ErrorCode
  | codec cause => cause.code?
  | _ => none

end IoError

@[simp] theorem mapError_ok {ε ε' α : Type} (f : ε → ε') (a : α) :
    (Except.ok a : Except ε α).mapError f = .ok a := rfl

@[simp] theorem mapError_error {ε ε' α : Type} (f : ε → ε') (cause : ε) :
    (Except.error cause : Except ε α).mapError f = .error (f cause) := rfl

theorem mapError_eq_ok {ε ε' α : Type} {first : Except ε α} {f : ε → ε'} {result : α} :
    first.mapError f = .ok result ↔ first = .ok result := by
  cases first with
  | error cause => simp
  | ok a => simp

theorem bind_eq_ok {ε α β : Type} {first : Except ε α} {next : α → Except ε β} {result : β} :
    first >>= next = .ok result ↔ ∃ a, first = .ok a ∧ next a = .ok result := by
  cases first with
  | error cause => simp [bind, Except.bind]
  | ok a => simp [bind, Except.bind]

/-! ## Memory -/

/-- The largest number that a length can be, on a machine with 64-bit addresses. -/
def largestLength : Nat := 0xffffffffffffffff

end Lz4Frame
