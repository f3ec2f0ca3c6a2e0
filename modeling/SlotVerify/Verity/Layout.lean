import SlotVerify.Digest
import SlotVerify.Device.Error
import SlotVerify.Text.Quoted
/-
  Where a partition keeps its verity metadata, and what can be wrong with it.

  A layout names four regions: the data that the hash tree covers, the tree itself, the data that
  error correction covers, and the error correction bytes.  A size of zero means that the tree, or
  the error correction, is absent.
-/

namespace SlotVerify.Verity

/-- The number of values of a 64-bit word; offsets and sizes are below it. -/
def wordLimit : Nat := 1 <<< 64

/-- The verity metadata parameters of a partition. -/
structure Layout where
  blockSize : Nat
  hashTreeAlgorithm : String
  hashTreeSalt : ByteArray
  hashTreeDataOffset : Nat
  hashTreeDataSize : Nat
  hashTreeOffset : Nat
  hashTreeSize : Nat
  fecDataOffset : Nat
  fecDataSize : Nat
  fecOffset : Nat
  fecSize : Nat
  /-- Parity bytes of a code word. -/
  fecRoots : Nat
deriving DecidableEq

/-- Why verity metadata could not be computed or written. -/
inductive Error where
  | unsupportedHashAlgorithm (name : String)
  | invalidBlockSize (size : Nat)
  | unalignedDataSize (dataSize blockSize : Nat)
  | hashTreeSizeMismatch (expected calculated : Nat)
  | fecSizeMismatch (expected calculated : Nat)
  | layoutOutOfRange (offset size : Nat)
  | invalidFecRoots (roots : Nat)
  | nonSequentialUpdate (offset expected : Nat)
  | dataOverflow
  | incompleteData (hashed expected : Nat)
  | notInitialized
  | unexpectedEnd (offset : Nat)
  | memoryAllocationFailure
  | io (cause : Device.IoError)
deriving DecidableEq

/-- The text shown for an error. -/
def Error.message : Error → String
  | .unsupportedHashAlgorithm name => s!"unsupported hash tree algorithm {Text.Quoted.encode name}"
  | .invalidBlockSize size => s!"invalid block size {size}"
  | .unalignedDataSize dataSize blockSize =>
    s!"data size {dataSize} not a multiple of the block size {blockSize}"
  | .hashTreeSizeMismatch expected calculated =>
    s!"hash tree size mismatch: expected {expected}, calculated {calculated}"
  | .fecSizeMismatch expected calculated =>
    s!"FEC size mismatch: expected {expected}, calculated {calculated}"
  | .layoutOutOfRange offset size =>
    s!"layout region at offset {offset} with size {size} out of range"
  | .invalidFecRoots roots => s!"invalid number of FEC roots {roots}"
  | .nonSequentialUpdate offset expected =>
    s!"non-sequential update at offset {offset}, expected offset {expected}"
  | .dataOverflow => "update beyond the end of the hash tree data"
  | .incompleteData hashed expected =>
    s!"incomplete hash tree data: {hashed} of {expected} bytes"
  | .notInitialized => "verity writer not initialized"
  | .unexpectedEnd offset => s!"unexpected end of partition at offset {offset}"
  | .memoryAllocationFailure => "memory allocation failure"
  | .io cause => s!"partition IO error: {cause.message}"

/-- The text of the cause, where a device gave it. -/
def Error.causeMessage? : Error → Option String
  | .io cause => some cause.message
  | _ => none

end SlotVerify.Verity
