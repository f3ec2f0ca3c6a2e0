import SlotVerify.Routine
import SlotVerify.Fec.Round
/-
  Writing out verity metadata.

  A `Finalization` is what remains to be done once all data is known: the finished hash tree with
  its place, and the geometry of the error correction.  Its routine writes the tree, then computes
  the error correction round by round from what it reads back, the new tree included, and at last
  makes the device durable.  The first failure ends it.
-/

namespace SlotVerify

/-- A single device and no calls. -/
def Interface.deviceOnly : Interface where
  Call := Empty
  Answer := fun c => nomatch c
  Device := Unit

namespace Routine

variable {I : Interface} {α : Type}

/-- Reads up to `length` bytes; anything a device might deliver beyond them is left out. -/
def read (device : I.Device) (offset length : Nat)
    (next : Except Device.IoError ByteArray → Routine I α) : Routine I α :=
  .request device (.read offset length) fun outcome => next (outcome.map (·.extract 0 length))

end Routine

namespace Verity

/-- A routine on the device that gets the metadata. -/
abbrev DeviceRoutine (α : Type) := Routine Interface.deviceOnly (Except Error α)

namespace DeviceRoutine

/-- Goes on with a successful result. -/
def andThen {α β : Type} (t : DeviceRoutine α) (f : α → DeviceRoutine β) : DeviceRoutine β :=
  Routine.bind t fun
    | .ok a => f a
    | .error e => .done (.error e)

/-- A write. -/
def write (offset : Nat) (data : ByteArray) : DeviceRoutine Unit :=
  .request () (.write offset data) fun outcome => .done (outcome.mapError .io)

/-- Makes all writes durable. -/
def sync : DeviceRoutine Unit :=
  .request () .sync fun outcome => .done (outcome.mapError .io)

end DeviceRoutine

open Fec

/-- Reads everything that is missing of a round. -/
def gatherRound (r : Round) : DeviceRoutine Round :=
  match _hread : r.nextRead with
  | none => .done (.ok r)
  | some (offset, length) =>
    Routine.read (I := Interface.deviceOnly) () offset length fun
      | .error e => .done (.error (.io e))
      | .ok bytes =>
        if _hsome : bytes.size = 0 then .done (.error (.unexpectedEnd offset))
        else gatherRound (r.gather bytes)
termination_by r.geometry.messageLength * r.geometry.blockSize - r.gathered.size
decreasing_by
  have := Round.size_gathered_lt _hread
  simp only [Round.gather, ByteArray.size_append]
  omega

/-- The `n` rounds from `index` on. -/
def writeRounds (g : Geometry) (code : Code) : (n index : Nat) → DeviceRoutine Unit
  | 0, _ => .done (.ok ())
  | n + 1, index =>
    (gatherRound (Round.start g index)).andThen fun r =>
      (DeviceRoutine.write (g.roundOffset index) (r.parity code)).andThen fun _ =>
        writeRounds g code n (index + 1)

/-- Metadata that is ready to be written. -/
structure Finalization where
  /-- The tree's place and its bytes. -/
  tree : Option (Nat × ByteArray)
  fec : Option Geometry

namespace Finalization

/-- Writes the tree, unless there is none or it is empty. -/
def writeTree (f : Finalization) : DeviceRoutine Unit :=
  match f.tree with
  | some (offset, bytes) =>
    if bytes.size = 0 then .done (.ok ()) else DeviceRoutine.write offset bytes
  | none => .done (.ok ())

/-- Computes and writes the error correction, if there is any. -/
def writeFec (f : Finalization) : DeviceRoutine Unit :=
  match f.fec with
  | some g =>
    match Code.ofRoots? g.roots with
    | some code => writeRounds g code g.rounds 0
    | none => .done (.error (.invalidFecRoots g.roots))
  | none => .done (.ok ())

/-- All of it, in order. -/
def routine (f : Finalization) : DeviceRoutine Unit :=
  f.writeTree.andThen fun _ => f.writeFec.andThen fun _ => DeviceRoutine.sync

end Finalization

end Verity

end SlotVerify
