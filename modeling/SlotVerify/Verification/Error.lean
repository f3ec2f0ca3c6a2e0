import SlotVerify.Plan.Basic
import SlotVerify.Text.Base64
/-
  How a verification fails, and where a partition's file system data ends.

  Every failure names its partition, and carries the cause where another part of the program found
  it.  `Code` is the number that the surrounding update pipeline sees.
-/

namespace SlotVerify.Verification

/-- Which of a partition's two slots is being verified. -/
inductive Step where
  | target
  | source
deriving DecidableEq, Repr

/-- The word for a step. -/
def Step.text : Step → String
  | .target => "target"
  | .source => "source"

/-! ## The end of the file system data -/

/-- Why a partition's regions are out of order. -/
inductive LayoutError where
  | hashTreeBeyondFec (hashTreeOffset fecOffset : Nat)
  | dataEndBeyondPartition (dataEnd partitionSize : Nat)
deriving DecidableEq, Repr

/-- The text shown for an error. -/
def LayoutError.message : LayoutError → String
  | .hashTreeBeyondFec hashTreeOffset fecOffset =>
    s!"hash tree offset {hashTreeOffset} beyond FEC offset {fecOffset}"
  | .dataEndBeyondPartition dataEnd partitionSize =>
    s!"filesystem data end {dataEnd} beyond partition size {partitionSize}"

/-- The first offset of the metadata, or the size of a partition without any. -/
def metadataStart (hashTreeOffset fecOffset partitionSize : Nat) : Nat :=
  if hashTreeOffset ≠ 0 then hashTreeOffset
  else if fecOffset ≠ 0 then fecOffset
  else partitionSize

/-- Where the file system data ends.  A source may be smaller than the target's layout and then
    consists of data only. -/
def dataEnd (step : Step) (hashTreeOffset fecOffset partitionSize : Nat) :
    Except LayoutError Nat :=
  if hashTreeOffset ≠ 0 ∧ fecOffset ≠ 0 ∧ fecOffset < hashTreeOffset then
    .error (.hashTreeBeyondFec hashTreeOffset fecOffset)
  else
    let e := metadataStart hashTreeOffset fecOffset partitionSize
    if e ≤ partitionSize then .ok e
    else
      match step with
      | .source => .ok partitionSize
      | .target => .error (.dataEndBeyondPartition e partitionSize)

/-! ## Codes -/

/-- What the update pipeline is told. -/
inductive Code where
  | success
  | error
  | newRootfsVerificationError
  | downloadStateInitializationError
  | filesystemVerifierError
  | userCanceled
  | verityCalculationError
deriving DecidableEq, Repr

/-- The number of a code, fixed for all times. -/
def Code.number : Code → Nat
  | .success => 0
  | .error => 1
  | .newRootfsVerificationError => 15
  | .downloadStateInitializationError => 20
  | .filesystemVerifierError => 47
  | .userCanceled => 48
  | .verityCalculationError => 56

/-- The name of a code. -/
def Code.name : Code → String
  | .success => "Success"
  | .error => "Error"
  | .newRootfsVerificationError => "NewRootfsVerificationError"
  | .downloadStateInitializationError => "DownloadStateInitializationError"
  | .filesystemVerifierError => "FilesystemVerifierError"
  | .userCanceled => "UserCanceled"
  | .verityCalculationError => "VerityCalculationError"

/-- Name and number. -/
def Code.text (c : Code) : String := s!"{c.name} ({c.number})"

/-! ## Errors -/

/-- How a verification fails. -/
inductive Error where
  /-- A broken invariant of the program itself. -/
  | internal
  | missingInputObject
  | unresolvedDevicePath (partition : String) (step : Step)
  | invalidVerityLayout (partition : String) (cause : LayoutError)
  | openFailed (partition path : String) (cause : Device.IoError)
  | read (partition : String) (offset : Nat) (cause : Device.IoError)
  | unexpectedEnd (partition : String) (offset : Nat)
  | verityComputation (partition : String) (cause : Verity.Error)
  | targetVerification (partition : String) (expected calculated : ByteArray)
  | sourceVerification (partition : String) (expected calculated : ByteArray)
  | untouchedPartitionExtentsMismatch
  | cancelled
deriving DecidableEq

namespace Error

/-- The text shown for an error. -/
def message : Error → String
  | internal => "internal error"
  | missingInputObject => "no install plan given"
  | unresolvedDevicePath partition step =>
    s!"partition {partition}: no {step.text} device path resolved"
  | invalidVerityLayout partition cause =>
    s!"partition {partition}: invalid verity layout: {cause.message}"
  | openFailed partition path cause =>
    s!"partition {partition}: failed to open {path}: {cause.message}"
  | read partition offset cause =>
    s!"partition {partition}: read at offset {offset} failed: {cause.message}"
  | unexpectedEnd partition offset =>
    s!"partition {partition}: unexpected end of device at offset {offset}"
  | verityComputation partition cause =>
    s!"partition {partition}: verity computation failed: {cause.message}"
  | targetVerification partition expected calculated =>
    s!"partition {partition}: target hash mismatch, expected {Text.Base64.text expected}, " ++
      s!"calculated {Text.Base64.text calculated}"
  | sourceVerification partition expected calculated =>
    s!"partition {partition}: source hash mismatch, expected {Text.Base64.text expected}, " ++
      s!"calculated {Text.Base64.text calculated}"
  | untouchedPartitionExtentsMismatch =>
    "extents of untouched dynamic partitions differ between slots"
  | cancelled => "verification cancelled"

/-- The text of the cause, where another part of the program found it. -/
def causeMessage? : Error → Option String
  | invalidVerityLayout _ cause => some cause.message
  | openFailed _ _ cause | read _ _ cause => some cause.message
  | verityComputation _ cause => some cause.message
  | _ => none

/-- The code that stands for an error. -/
def code : Error → Code
  | internal | missingInputObject => .error
  | unresolvedDevicePath .. | invalidVerityLayout .. | openFailed .. | read .. | unexpectedEnd ..
  | untouchedPartitionExtentsMismatch => .filesystemVerifierError
  | verityComputation .. => .verityCalculationError
  | targetVerification .. => .newRootfsVerificationError
  | sourceVerification .. => .downloadStateInitializationError
  | cancelled => .userCanceled

/-- Whether the contents of a partition are wrong, as opposed to the verification itself. -/
def isVerificationFailure : Error → Bool
  | targetVerification .. | sourceVerification .. => true
  | _ => false

end Error

end SlotVerify.Verification
