import SlotVerify.CommandLine.Layout
import SlotVerify.CommandLine.Session
import SlotVerify.Plan.Text
import SlotVerify.Text.FixedPoint
import SlotVerify.Verification.Program
/-
  Carrying out commands.

  A command ends with a code, or it fails with a text that names what failed and then, behind
  colons, every cause.  A verification that has come to an end is no failure, whatever it has found:
  its finding is the code.
-/

namespace SlotVerify.CommandLine

open Verification

/-- Why a command failed. -/
inductive Failure where
  | unreadable (path : String) (fault : Device.FileFault)
  | unparsable (path : String) (problem : JsonText.Problem)
  | cannotOpen (path : String) (cause : Device.IoError)
  | badLayout (fault : LayoutFault)
  | metadataBeyondImage (metadataEnd imageSize : Nat)
  | rejectedLayout (cause : Verity.Error)
  | notHashed (cause : HashError)
  | notWritten (cause : HashError)

/-- What a text of JSON lacks. -/
def problemText : JsonText.Problem → String
  | .malformed => "malformed JSON"
  | .truncated => "unexpected end of the JSON text"
  | .mismatch => "not an install plan"

/-- A text and the cause behind it. -/
def withCause (text : String) (cause : Option String) : String :=
  match cause with
  | some c => s!"{text}: {c}"
  | none => text

/-- The text shown for a failure. -/
def Failure.message : Failure → String
  | .unreadable path fault => s!"failed to read {path}: {fault.message}"
  | .unparsable path problem => s!"failed to parse {path}: {problemText problem}"
  | .cannotOpen path cause => s!"failed to open {path}: {cause.message}"
  | .badLayout fault => fault.message
  | .metadataBeyondImage metadataEnd imageSize =>
    s!"verity metadata end {metadataEnd} beyond image size {imageSize}"
  | .rejectedLayout cause =>
    withCause s!"invalid verity layout: {cause.message}" cause.causeMessage?
  | .notHashed cause => withCause s!"failed to hash image: {cause.message}" cause.causeMessage?
  | .notWritten cause =>
    withCause s!"failed to write verity metadata: {cause.message}" cause.causeMessage?

/-- What a command comes to. -/
abbrev Execution := Session (Except Failure Code)

/-- A command that fails. -/
def fail (f : Failure) : Execution := .done (.error f)

/-- A command that prints its result. -/
def succeed (text : String) : Execution := request (.print text) fun _ => .done (.ok .success)

/-! ## verify -/

/-- The text that replaces the last progress text. -/
def progressText (progress : Float) : String :=
  let text := s!"\rverifying: {Text.FixedPoint.write 1 5 (progress * 100)}%"
  if progress ≥ 1 then text ++ "\n" else text

/-- Shows how far the verification has come. -/
def showProgress (progress : Float) : Session Unit :=
  request (.remark (progressText progress)) fun _ => .done ()

/-- Tells what the verification has found. -/
def tellOutcome (outcome : Except Verification.Error InstallPlan) : Execution :=
  match outcome with
  | .ok _ => .done (.ok .success)
  | .error e => request (.remark s!"error: {e.message}\n") fun _ => .done (.ok e.code)

/-- Verifies the partitions of a plan. -/
def verifyPlan (plan : InstallPlan) (memory : Nat := Device.memoryLimit) : Execution :=
  (conduct showProgress (.fresh memory) (whole .double noDynamicPartitions (some plan))).bind
    fun (outcome, _) => tellOutcome outcome

/-- The plan as the arguments want it. -/
def VerifyArguments.adapt (a : VerifyArguments) (plan : InstallPlan) : InstallPlan :=
  if a.withoutVerity then { plan with writeVerity := false } else plan

/-- Verifies the plan in a file. -/
def VerifyArguments.execute (a : VerifyArguments) (memory : Nat := Device.memoryLimit) :
    Execution :=
  request (.load a.plan) fun
    | .error fault => fail (.unreadable a.plan fault)
    | .ok text =>
      match InstallPlan.ofText text.data.toList with
      | .error problem => fail (.unparsable a.plan problem)
      | .ok plan => verifyPlan (a.adapt plan) memory

/-! ## hash and write-verity -/

/-- Opens an image; goes on with its size. -/
def withImage (path : String) (writable : Bool) (next : Nat → Execution) : Execution :=
  request (.openImage path writable) fun
    | .error fault => fail (.cannotOpen path (.ofFileFault fault))
    | .ok size => next size

/-- Hashes an opened image without showing any progress, with a writer that is fed up to `dataEnd`
    if it is `writing`. -/
def hashImage (device : OpenedDevice) (size dataEnd : Nat) (writing : Bool) (w : Verity.Writer) :
    Session (Except HashError ByteArray × Verity.Writer) :=
  (conduct (fun _ => .done ()) w
      (hashPartition .bytes ⟨device, size, 0, 1⟩ dataEnd writing 0)).bind
    fun (outcome, w) => .done (outcome.map (·.1), w)

/-- Prints an image's digest. -/
def HashArguments.execute (a : HashArguments) : Execution :=
  withImage a.image false fun imageSize =>
    let size := a.size.getD imageSize
    (hashImage ⟨.direct, a.image, false⟩ size size false .fresh).bind fun
      | (.error e, _) => fail (.notHashed e)
      | (.ok digest, _) => succeed s!"{Text.Base64.text digest}\n"

/-- The lines that tell the digests of a finished image. -/
def digestLines (rootDigest : Option ByteArray) (imageDigest : ByteArray) : String :=
  let rootLine := match rootDigest with
    | some d => s!"root digest: {Bytes.toHex d}\n"
    | none => ""
  s!"{rootLine}image digest: {Text.Base64.text imageDigest}\n"

/-- Writes the verity metadata of an image and prints the digests. -/
def WriteVerityArguments.execute (a : WriteVerityArguments)
    (memory : Nat := Device.memoryLimit) : Execution :=
  match a.checkedLayout with
  | .error fault => fail (.badLayout fault)
  | .ok (layout, metadataEnd) =>
    withImage a.image true fun imageSize =>
      if imageSize < metadataEnd then fail (.metadataBeyondImage metadataEnd imageSize)
      else
        match (Verity.Writer.fresh memory).init layout with
        | (_, .error (.breakdown _)) => .broken
        | (_, .error (.rejected e)) => fail (.rejectedLayout e)
        | (w, .ok ()) =>
          (hashImage ⟨.direct, a.image, true⟩ imageSize a.dataSize true w).bind fun
            | (.error e, _) => fail (.notWritten e)
            | (.ok digest, w) => succeed (digestLines w.lastRootDigest digest)

/-! ## The whole program -/

/-- Carries out a command. -/
def Command.execute : Command → Execution
  | .verify a => a.execute
  | .hash a => a.execute
  | .writeVerity a => a.execute

/-- Turns a command's end into the number that the program exits with. -/
def conclude : Except Failure Code → Session Nat
  | .ok code => .done code.number
  | .error f => request (.remark s!"error: {f.message}\n") fun _ => .done Code.error.number

end SlotVerify.CommandLine
