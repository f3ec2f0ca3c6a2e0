import SlotVerify.Device.File
import SlotVerify.Verification.Interface
/-
  What a command asks of its surroundings.

  A session reads files, opens images and uses them as devices, and writes texts for its user.
  Everything that a verification asks for is had from these: the machine has no dynamic partitions,
  so there is nothing to map and nothing to compare, and the writer of verity metadata is a value
  that the session keeps to itself.
-/

namespace SlotVerify.CommandLine

open Device Verification

/-- The calls of a session. -/
inductive Request where
  /-- Reads a whole file. -/
  | load (path : String)
  /-- Opens an image; the answer is its size. -/
  | openImage (path : String) (writable : Bool)
  | setReadOnly (path : String) (readOnly : Bool)
  /-- Writes a text that was asked for. -/
  | print (text : String)
  /-- Writes a text on the side: progress and mishaps. -/
  | remark (text : String)

/-- What the calls are answered with. -/
abbrev Request.Reply : Request → Type
  | .load _ => Except FileFault ByteArray
  | .openImage .. => Except FileFault Nat
  | .setReadOnly .. => Except FileFault Unit
  | .print _ | .remark _ => Unit

/-- The interface of a session. -/
def surface : Interface where
  Call := Request
  Answer := Request.Reply
  Device := OpenedDevice

/-- A computation that uses files and talks to a user. -/
abbrev Session (α : Type) := Routine surface α

/-- A call of a session. -/
def request {α : Type} (r : Request) (next : r.Reply → Session α) : Session α :=
  .call (I := surface) r next

/-- No partition is a dynamic one. -/
def noDynamicPartitions : DynamicPartitions := ⟨false, fun _ _ => false⟩

/-- Carries out a call of a verification, with the writer as it is. -/
def carryOut {P : Type} (report : P → Session Unit) (w : Verity.Writer) :
    (c : Verification.Call P) → Session (c.Answer × Verity.Writer)
  | .setReadOnly path readOnly =>
    request (.setReadOnly path readOnly) fun x => .done (x.mapError .ofFileFault, w)
  | .openPath path writable =>
    request (.openImage path writable) fun x =>
      .done ((x.map fun _ => ()).mapError .ofFileFault, w)
  | .openSnapshot .. => .done (.error .operationNotSupported, w)
  | .mapAll | .unmapAll => .done (false, w)
  | .verifyExtents .. => .done (true, w)
  | .initWriter l =>
    let (w, outcome) := w.init l
    .done (outcome, w)
  | .updateWriter offset data =>
    let (w, outcome) := w.update offset data
    .done (outcome, w)
  | .finalizeWriter =>
    let (w, outcome) := w.finalize
    .done (outcome.map Verity.Finalization.routine, w)
  | .report progress => (report progress).bind fun _ => .done ((), w)
  | .wake => .done ((), w)

/-- A part of a verification as a session; gives the writer as it is in the end. -/
def conduct {P α : Type} (report : P → Session Unit) (w : Verity.Writer)
    (t : Routine (interface P) α) : Session (α × Verity.Writer) :=
  Routine.interpret (I := interface P) (J := surface) (carryOut report) id t w

end SlotVerify.CommandLine
