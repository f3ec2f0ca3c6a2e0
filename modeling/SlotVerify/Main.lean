import SlotVerify.CommandLine.Usage
/-
  The program on the machine's own files.

  One image is open at a time.  It is held in memory as a directory with this one file, so that
  requests to it are carried out as everywhere else, and it goes back to where it came from whenever
  it has to be durable, before another image is opened, and at the end.
-/

namespace SlotVerify.CommandLine

open Device

/-- The open image, if there is one. -/
structure OpenImage where
  files : FileStore := ⟨[]⟩
  device : Option FileDevice := none
  changed : Bool := false

/-- Work on the machine's files. -/
abbrev Work := StateT OpenImage IO

/-- The number in an error of the operating system. -/
def errorNumber : IO.Error → Option UInt32
  | .alreadyExists _ n _ | .otherError n _ | .resourceBusy n _ | .resourceVanished n _
  | .unsupportedOperation n _ | .hardwareFault n _ | .unsatisfiedConstraints n _
  | .illegalOperation n _ | .protocolError n _ | .timeExpired n _ | .interrupted _ n _
  | .noFileOrDirectory _ n _ | .invalidArgument _ n _ | .permissionDenied _ n _
  | .resourceExhausted _ n _ | .inappropriateType _ n _ | .noSuchThing _ n _ => some n
  | .unexpectedEof | .userError _ => none

/-- The outcome of an action on files. -/
def attempt {α : Type} (act : IO α) : IO (Except FileFault α) := do
  match ← act.toBaseIO with
  | .ok a => return .ok a
  | .error e => return .error (((errorNumber e).map fun n => .ofNumber n.toNat).getD .other)

/-- Puts the open image back, if it has changed. -/
def save : Work Unit := do
  let s ← get
  if s.changed then
    for (path, entry) in s.files.entries do
      if let .file contents := entry then
        IO.FS.writeBinFile path contents
    set { s with changed := false }

/-- Opens an image; a directory has no contents. -/
def openImage (path : String) (writable : Bool) : Work (Except FileFault Nat) := do
  save
  let outcome ← attempt do
    let handle ← IO.FS.Handle.mk path (if writable then .readWrite else .read)
    attempt handle.readBinToEnd
  match outcome with
  | .error fault => return .error fault
  | .ok (.ok contents) =>
    set ({ files := ⟨[(path, .file contents)]⟩
           device := some ⟨some path, writable, contents.size, fileSizeLimit⟩ } : OpenImage)
    return .ok contents.size
  | .ok (.error _) =>
    set ({ device := some ⟨none, writable, directorySize, fileSizeLimit⟩ } : OpenImage)
    return .ok directorySize

/-- Answers a call of a session. -/
def answer : (r : Request) → Work r.Reply
  | .load path => attempt do
    let handle ← IO.FS.Handle.mk path .read
    handle.readBinToEnd
  | .openImage path writable => openImage path writable
  | .setReadOnly path _ => attempt do
    let _ ← IO.FS.Handle.mk path .read
  | .print text => IO.print text
  | .remark text => IO.eprint text

/-- Carries out a request to the open image. -/
def serve (r : Device.Request) : Work (Except IoError r.Reply) := do
  let s ← get
  match s.device with
  | none => return .error .internal
  | some d =>
    match d.accept r with
    | .error e => return .error e
    | .ok () =>
      let (files, outcome) := d.serve s.files r
      match r with
      | .read .. => return outcome
      | .write .. =>
        set { s with files, changed := true }
        return outcome
      | .sync =>
        save
        return outcome

/-- The program on the machine's files. -/
def runHere (words : List String) : IO Nat := do
  let work : Work (Option Nat) := do
    let code ← (program words).runIn answer fun _ r => serve r
    save
    return code
  let (code, _) ← work.run {}
  return code.getD breakdownCode

end SlotVerify.CommandLine

/-- Runs the program on the words of the command line. -/
def main (words : List String) : IO UInt32 := do
  return (← SlotVerify.CommandLine.runHere words).toUInt32
