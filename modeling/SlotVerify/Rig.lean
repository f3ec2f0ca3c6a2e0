import SlotVerify.Device.Memory
import SlotVerify.Verification.Run
/-
  A rig for verifications: devices in memory, failures on order, and a record of everything.

  A rig holds images by their paths.  Requests fail where its script says so: the k-th read, write
  or sync, counted over the rig's whole life, fails while it is submitted or while it is completed,
  and does not reach the device then.  The controller of dynamic partitions is scripted as well, or
  absent; a copy-on-write snapshot is the image behind `cow:` and the partition's name.

  The writer of verity metadata is the real one.  What a verification asks of the rig is entered in
  its journal.
-/

namespace SlotVerify

open Device Verification

namespace Rig

/-- The requests that a failure may be ordered for. -/
inductive Kind where
  | read
  | write
  | sync
deriving DecidableEq, Repr

/-- The kind of a request. -/
def Kind.of : Request → Kind
  | .read .. => .read
  | .write .. => .write
  | .sync => .sync

/-- Requests of each kind. -/
structure Counts where
  reads : Nat := 0
  writes : Nat := 0
  syncs : Nat := 0

/-- The count of a kind. -/
def Counts.get (c : Counts) : Kind → Nat
  | .read => c.reads
  | .write => c.writes
  | .sync => c.syncs

/-- One more of a kind. -/
def Counts.next (c : Counts) : Kind → Counts
  | .read => { c with reads := c.reads + 1 }
  | .write => { c with writes := c.writes + 1 }
  | .sync => { c with syncs := c.syncs + 1 }

/-- When a request fails: while it is submitted or while it is completed, and whether the request
    is handed back then or there is an error alone. -/
inductive Stage where
  | submit
  | submitOuter
  | complete
  | completeOuter
deriving DecidableEq, Repr

/-- A failure on order. -/
structure Fault where
  kind : Kind
  /-- Which request of its kind, from zero. -/
  nth : Nat
  stage : Stage
  error : IoError

/-- A scripted controller of dynamic partitions. -/
structure Controller where
  compression : Bool
  dynamic : List (String × UInt32)
  map : Bool
  unmap : Bool
  extents : Bool

/-- A call to the controller, as recorded. -/
inductive ControllerCall where
  | mapAll
  | unmapAll
  | openSnapshot (name sourcePath : String) (writable : Bool)
  | verifyExtents (source target : Slot) (names : List String)
deriving DecidableEq

/-- A call to the writer, as recorded. -/
inductive WriterCall where
  | init
  | update (offset length : Nat)
  | finalize
deriving DecidableEq

/-- What has happened, in order. -/
structure Journal (P : Type) where
  opened : Array (String × Bool) := #[]
  reads : Nat := 0
  controllerCalls : Array ControllerCall := #[]
  writerCalls : Array (WriterCall × Option Verity.Error) := #[]
  progress : Array P := #[]
  /-- The writer's root digest after the last finalization. -/
  root : Option ByteArray := none

end Rig

open Rig

/-- Devices, controller and writer of a verification. -/
structure Rig (P : Type) where
  images : List (String × ByteArray)
  readOnlyFlags : List (String × Bool) := []
  readLimit : Option Nat := none
  failReadAt : Option Nat := none
  faults : List Fault := []
  openErrors : List (String × IoError) := []
  failSetReadOnly : Bool := false
  /-- Absent on a device without dynamic partitions. -/
  controller : Option Controller := none
  /-- Requests submitted so far. -/
  submitted : Counts := {}
  /-- The failure that the request in flight will meet. -/
  failing : Option Fault := none
  writer : Verity.Writer := .fresh
  /-- Whether anyone listens to the progress. -/
  listening : Bool := true
  /-- The progress report in which the listener aborts the verification. -/
  abortAtReport : Option Nat := none
  aborted : Bool := false
  journal : Journal P := {}

namespace Rig

variable {P : Type}

/-- The image behind a path. -/
def image? (r : Rig P) (path : String) : Option ByteArray :=
  (r.images.find? (·.1 == path)).map (·.2)

/-- The rig with another image behind a path that has one. -/
def setImage (r : Rig P) (path : String) (image : ByteArray) : Rig P :=
  { r with images := r.images.map fun e => if e.1 == path then (path, image) else e }

/-- The last read-only flag set for a path. -/
def readOnlyFlag? (r : Rig P) (path : String) : Option Bool :=
  (r.readOnlyFlags.find? (·.1 == path)).map (·.2)

/-- The rig with a journal entry more. -/
def note (r : Rig P) (f : Journal P → Journal P) : Rig P := { r with journal := f r.journal }

/-- The image that holds a partition's copy-on-write snapshot. -/
def snapshotPath (name : String) : String := "cow:" ++ name

/-- The image behind an opened device. -/
def imagePath (d : OpenedDevice) : String :=
  match d.access with
  | .copyOnWrite => snapshotPath d.path
  | .direct | .snapshotMapped => d.path

/-- Opens an image. -/
def openImage (r : Rig P) (path : String) (writable : Bool) : Rig P × Except IoError Unit :=
  match r.openErrors.find? (·.1 == path) with
  | some (_, e) => (r, .error e)
  | none =>
    match r.image? path with
    | none => (r, .error .notFound)
    | some _ => (r.note fun j => { j with opened := j.opened.push (path, writable) }, .ok ())

/-- Sets the read-only flag of a path that has an image. -/
def setReadOnly (r : Rig P) (path : String) (readOnly : Bool) : Rig P × Except IoError Unit :=
  if r.failSetReadOnly then (r, .error .operationNotSupported)
  else
    match r.image? path with
    | none => (r, .error .notFound)
    | some _ =>
      ({ r with
          readOnlyFlags := (path, readOnly) :: r.readOnlyFlags.filter fun e => e.1 != path },
        .ok ())

/-- What is known about dynamic partitions. -/
def dynamicPartitions (r : Rig P) : DynamicPartitions :=
  match r.controller with
  | none => ⟨false, fun _ _ => false⟩
  | some c => ⟨c.compression, fun name slot => c.dynamic.contains (name, slot.number)⟩

/-- Enters a call to the controller. -/
def noteController (r : Rig P) (c : ControllerCall) : Rig P :=
  r.note fun j => { j with controllerCalls := j.controllerCalls.push c }

/-- Enters a call to the writer and its outcome. -/
def noteWriter (r : Rig P) (c : WriterCall) (error : Option Verity.Error) : Rig P :=
  r.note fun j => { j with writerCalls := j.writerCalls.push (c, error) }

/-- The error of an outcome. -/
def errorOf? {ε α : Type} : Except ε α → Option ε
  | .ok _ => none
  | .error e => some e

/-- Begins a partition in the writer. -/
def initWriter (r : Rig P) (l : Verity.Layout) : Rig P × Except Verity.InitFault Unit :=
  let (writer, outcome) := r.writer.init l
  let error := match outcome with
    | .error (.rejected e) => some e
    | _ => none
  (({ r with writer } : Rig P).noteWriter .init error, outcome)

/-- Feeds the writer. -/
def updateWriter (r : Rig P) (offset : Nat) (data : ByteArray) :
    Rig P × Except Verity.Error Unit :=
  let (writer, outcome) := r.writer.update offset data
  (({ r with writer } : Rig P).noteWriter (.update offset data.size) (errorOf? outcome), outcome)

/-- Ends the writer's partition. -/
def finalizeWriter (r : Rig P) : Rig P × Except Verity.Error (Verity.DeviceRoutine Unit) :=
  let (writer, outcome) := r.writer.finalize
  let r := ({ r with writer } : Rig P).noteWriter .finalize (errorOf? outcome)
  (r.note fun j => { j with root := writer.lastRootDigest },
    outcome.map Verity.Finalization.routine)

/-- Hears a progress report. -/
def hear (r : Rig P) (progress : P) : Rig P :=
  if r.listening then
    let aborted := r.aborted || r.abortAtReport == some r.journal.progress.size
    { r with aborted, journal := { r.journal with progress := r.journal.progress.push progress } }
  else r

/-- Answers a call. -/
def answer (r : Rig P) : (c : Call P) → Rig P × c.Answer
  | .setReadOnly path readOnly => r.setReadOnly path readOnly
  | .openPath path writable => r.openImage path writable
  | .openSnapshot name sourcePath writable =>
    let r := r.noteController (.openSnapshot name sourcePath writable)
    match r.controller with
    | none => (r, .error .operationNotSupported)
    | some _ => r.openImage (snapshotPath name) writable
  | .mapAll => (r.noteController .mapAll, (r.controller.map (·.map)).getD false)
  | .unmapAll => (r.noteController .unmapAll, (r.controller.map (·.unmap)).getD false)
  | .verifyExtents source target names =>
    (r.noteController (.verifyExtents source target names),
      (r.controller.map (·.extents)).getD true)
  | .initWriter l => r.initWriter l
  | .updateWriter offset data => r.updateWriter offset data
  | .finalizeWriter => r.finalizeWriter
  | .report progress => (r.hear progress, ())
  | .wake => (r, ())

/-- An opened device, as a device in memory. -/
def device (r : Rig P) (d : OpenedDevice) : MemoryDevice where
  image := (r.image? (imagePath d)).getD ByteArray.empty
  writable := d.writable
  readLimit := r.readLimit
  failReadAt := r.failReadAt
  reads := r.journal.reads

/-- The failure ordered for the next request of a kind. -/
def faultFor (r : Rig P) (k : Kind) : Option Fault :=
  r.faults.find? fun f => f.kind = k ∧ f.nth = r.submitted.get k

/-- Takes a request. -/
def place (r : Rig P) (d : OpenedDevice) (q : Request) : Rig P × Placement q Nat :=
  let k := Kind.of q
  let counted : Rig P := { r with submitted := r.submitted.next k }
  match r.faultFor k with
  | some f =>
    match f.stage with
    | .submit => (counted, .handBack f.error)
    | .submitOuter => (counted, .refused f.error)
    | .complete | .completeOuter => ({ counted with failing := some f }, .taken 0)
  | none =>
    match (counted.device d).accept q with
    | .error e => (counted, .handBack e)
    | .ok () => (counted, .taken MemoryDevice.delay)

/-- Carries out a request. -/
def finish (r : Rig P) (d : OpenedDevice) (q : Request) : Rig P × Completion q :=
  match r.failing with
  | some f =>
    let settled : Rig P := { r with failing := none }
    match f.stage with
    | .completeOuter => (settled, .lost f.error)
    | _ => (settled, .handBack f.error)
  | none =>
    let (served, outcome) := (r.device d).serve q
    ((r.setImage (imagePath d) served.image).note fun j => { j with reads := served.reads },
      .ofReply outcome)

/-- The rig as the surroundings of a verification. -/
def host : Host (interface P) (Rig P) where
  answer := answer
  place := place
  finish := finish

/-- A failure that is to be met by the request in flight is all that comes of it. -/
theorem complete_of_failing {r : Rig P} {f : Fault} (h : r.failing = some f) (d : OpenedDevice)
    (q : Request) : host.complete r d q = ({ r with failing := none }, .error f.error) := by
  show ((r.finish d q).1, (r.finish d q).2.outcome) = _
  unfold finish
  rw [h]
  dsimp only
  split
  · rfl
  · rw [Completion.outcome_handBack]

/-- Any other request in flight is carried out by the device. -/
theorem complete_of_settled {r : Rig P} (h : r.failing = none) (d : OpenedDevice) (q : Request) :
    host.complete r d q =
      ((r.setImage (imagePath d) ((r.device d).serve q).1.image).note
        fun j => { j with reads := ((r.device d).serve q).1.reads }, ((r.device d).serve q).2) := by
  show ((r.finish d q).1, (r.finish d q).2.outcome) = _
  unfold finish
  rw [h]
  dsimp only
  rw [Completion.outcome_ofReply]

end Rig

end SlotVerify
