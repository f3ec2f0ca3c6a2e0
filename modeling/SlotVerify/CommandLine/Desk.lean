import SlotVerify.CommandLine.Usage
/-
  Sessions in a directory of files.

  A desk is a directory and the texts that have been written for the user.  Its devices are the
  directory's files, which carry out every request at once.
-/

namespace SlotVerify.CommandLine

open Device Verification

/-- The surroundings of a session, as values. -/
structure Desk where
  files : FileStore
  /-- The longest that a file can be, in bytes. -/
  fileLimit : UInt64 := fileSizeLimit
  /-- The texts that were asked for. -/
  printed : String := ""
  /-- The texts on the side. -/
  remarks : String := ""

namespace Desk

/-- Answers a call. -/
def answer (d : Desk) : (r : Request) → Desk × r.Reply
  | .load path => (d, d.files.readFile path)
  | .openImage path writable =>
    (d, (FileDevice.openPath d.files path writable d.fileLimit).map (·.size))
  | .setReadOnly path readOnly => (d, FileDevice.setReadOnly d.files path readOnly)
  | .print text => ({ d with printed := d.printed ++ text }, ())
  | .remark text => ({ d with remarks := d.remarks ++ text }, ())

/-- The file behind an opened image. -/
def device (d : Desk) (o : OpenedDevice) : Except IoError FileDevice :=
  (FileDevice.openPath d.files o.path o.writable d.fileLimit).mapError .ofFileFault

/-- Carries out an accepted request. -/
def serve (d : Desk) (o : OpenedDevice) (r : Device.Request) : Desk × Except IoError r.Reply :=
  match d.device o with
  | .error e => (d, .error e)
  | .ok f =>
    let (files, outcome) := f.serve d.files r
    ({ d with files }, outcome)

/-- A desk as the surroundings of a session. -/
def host : Host surface Desk where
  answer := answer
  place d o r :=
    match (d.device o).bind (·.accept r) with
    | .ok () => (d, .taken 0)
    | .error e => (d, .handBack e)
  finish d o r :=
    let (d, outcome) := d.serve o r
    (d, .ofReply outcome)

/-- Submitting a request changes nothing. -/
theorem fst_submit (d : Desk) (o : surface.Device) (r : Device.Request) :
    (host.submit d o r).1 = d := by
  show (host.place d o r).1 = d
  unfold host
  dsimp only
  split <;> rfl

theorem complete_eq (d : Desk) (o : surface.Device) (r : Device.Request) :
    host.complete d o r = d.serve o r := by
  show ((d.serve o r).1, (Completion.ofReply (d.serve o r).2).outcome) = _
  rw [Completion.outcome_ofReply]

/-- The program in a directory; gives what it leaves behind and the number that it exits with. -/
def run (words : List String) (files : FileStore) : Desk × Nat :=
  let (d, code) := (program words).run host { files }
  (d, code.getD breakdownCode)

end Desk

end SlotVerify.CommandLine
