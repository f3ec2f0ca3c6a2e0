import SlotVerify.Verity.Writer
import SlotVerify.Plan.Basic
/-
  What a verification asks of its surroundings.

  It opens devices and sets their read-only flags, has the controller of dynamic partitions map and
  unmap their snapshots, uses a writer of verity metadata, and reports progress.  Before it gives
  way it wakes its own task, so that it will be polled again.  Everything else it does is requests
  to devices that it has opened.

  Progress is a number on a `Scale`, so that exact fractions can stand in for the ones reported.
-/

namespace SlotVerify.Verification

/-- How a device was come by. -/
inductive Access where
  /-- The partition's own block device. -/
  | direct
  /-- A mapped read-only view of a dynamic partition. -/
  | snapshotMapped
  /-- A dynamic partition's copy-on-write snapshot. -/
  | copyOnWrite
deriving DecidableEq, Repr

/-- The word for an access. -/
def Access.text : Access → String
  | .direct => "direct"
  | .snapshotMapped => "snapshot-mapped"
  | .copyOnWrite => "copy-on-write"

/-- An opened device. -/
structure OpenedDevice where
  access : Access
  /-- The path; for a copy-on-write snapshot the partition's name. -/
  path : String
  writable : Bool
deriving DecidableEq, Repr

/-- Numbers that measure progress from nothing to everything. -/
structure Scale (P : Type) where
  zero : P
  one : P
  /-- How much is done with `bytes` of `size` bytes of the partition at `index`. -/
  fraction : (index bytes size partitions : Nat) → P
  less : P → P → Bool

/-- Double precision, computed as `(index + bytes / size) / partitions`. -/
def Scale.double : Scale Float where
  zero := 0
  one := 1
  fraction index bytes size partitions :=
    let real (n : Nat) : Float := n.toUInt64.toFloat
    if partitions = 0 then 1
    else
      let part := if size = 0 then 0 else real bytes / real size
      (real index + part) / real partitions
  less a b := a < b

/-- The bytes of the current partition alone. -/
def Scale.bytes : Scale Nat where
  zero := 0
  one := 0
  fraction _ bytes _ _ := bytes
  less a b := a < b

/-- What is known beforehand about dynamic partitions. -/
structure DynamicPartitions where
  /-- Whether the update goes through compressed snapshots. -/
  compressed : Bool
  isDynamic : (name : String) → Slot → Bool

/-- The calls of a verification. -/
inductive Call (P : Type) where
  | setReadOnly (path : String) (readOnly : Bool)
  | openPath (path : String) (writable : Bool)
  | openSnapshot (name sourcePath : String) (writable : Bool)
  | mapAll
  | unmapAll
  | verifyExtents (source target : Slot) (names : List String)
  | initWriter (layout : Verity.Layout)
  | updateWriter (offset : Nat) (data : ByteArray)
  | finalizeWriter
  | report (progress : P)
  /-- Wakes the task that is being polled. -/
  | wake

/-- What the calls are answered with. -/
abbrev Call.Answer {P : Type} : Call P → Type
  | .setReadOnly .. | .openPath .. | .openSnapshot .. => Except Device.IoError Unit
  | .mapAll | .unmapAll | .verifyExtents .. => Bool
  | .initWriter .. => Except Verity.InitFault Unit
  | .updateWriter .. => Except Verity.Error Unit
  | .finalizeWriter => Except Verity.Error (Verity.DeviceRoutine Unit)
  | .report .. | .wake => Unit

/-- The interface of a verification. -/
def interface (P : Type) : Interface where
  Call := Call P
  Answer := Call.Answer
  Device := OpenedDevice

/-- A part of a verification that may fail. -/
abbrev Attempt (P ε α : Type) := Routine (interface P) (Except ε α)

namespace Attempt

variable {P ε ε' α β : Type}

/-- Goes on with a successful result. -/
def andThen (t : Attempt P ε α) (f : α → Attempt P ε β) : Attempt P ε β :=
  Routine.bind t fun
    | .ok a => f a
    | .error e => .done (.error e)

/-- The same with errors in other words. -/
def mapError (t : Attempt P ε α) (f : ε → ε') : Attempt P ε' α :=
  Routine.bind t fun outcome => .done (outcome.mapError f)

/-- A result without doing anything. -/
def succeed (a : α) : Attempt P ε α := .done (.ok a)

/-- An error without doing anything. -/
def fail (e : ε) : Attempt P ε α := .done (.error e)

end Attempt

/-- A call of a verification. -/
def ask {P α : Type} (c : Call P) (next : c.Answer → Routine (interface P) α) :
    Routine (interface P) α :=
  .call (I := interface P) c next

end SlotVerify.Verification
