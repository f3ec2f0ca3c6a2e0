/-
  Why a device request fails.

  `IoError` is the vocabulary of all devices.  A device backed by a file meets the operating
  system's own reasons first (`FileFault`); `IoError.ofFileFault` folds them into the vocabulary.
-/

namespace SlotVerify.Device

/-- Why opening a device, or a request to it, failed. -/
inductive IoError where
  /-- A broken invariant of the program itself. -/
  | internal
  | memoryAllocationFailure
  | operationNotSupported
  | outOfRange
  | notFound
  | permissionDenied
  | readOnly
  | ioFailure
deriving DecidableEq, Repr

/-- The text shown for an error. -/
def IoError.message : IoError → String
  | .internal => "internal error"
  | .memoryAllocationFailure => "memory allocation failure"
  | .operationNotSupported => "operation not supported"
  | .outOfRange => "access out of range"
  | .notFound => "no such device"
  | .permissionDenied => "permission denied"
  | .readOnly => "device opened read-only"
  | .ioFailure => "IO failure"

/-- What the operating system reports about a file. -/
inductive FileFault where
  | notFound
  | permissionDenied
  | readOnlyFilesystem
  | unsupported
  | notSeekable
  | fileTooLarge
  | unexpectedEnd
  | outOfMemory
  | isDirectory
  | notDirectory
  | nameTooLong
  | invalidInput
  /-- Any other reason. -/
  | other
deriving DecidableEq, Repr

/-- The device error that stands for a fault of the file behind the device. -/
def IoError.ofFileFault : FileFault → IoError
  | .notFound => .notFound
  | .permissionDenied => .permissionDenied
  | .readOnlyFilesystem => .readOnly
  | .unsupported | .notSeekable => .operationNotSupported
  | .fileTooLarge | .unexpectedEnd => .outOfRange
  | .outOfMemory => .memoryAllocationFailure
  | .isDirectory | .notDirectory | .nameTooLong | .invalidInput | .other => .ioFailure

end SlotVerify.Device
