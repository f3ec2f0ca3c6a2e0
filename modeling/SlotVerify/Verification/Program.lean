import SlotVerify.Verification.Error
import SlotVerify.Verification.PartitionHash
/-
  The verification of an install plan.

  The partitions are verified in the plan's order.  A partition passes if the digest of its target
  is the expected one.  If it is not, and the update builds on a source, the source is hashed as
  well: a correct source means that the update itself is bad, an incorrect one that the device was
  damaged before.  Either way the verification has failed; only the error differs.

  A partition of size zero may lack a device.  An absent target passes, an absent source counts as
  the empty byte string.

  Verity metadata is written only while a target is hashed, and only if the plan asks for it and the
  partition has any.
-/

namespace SlotVerify

open Verification (Step)

/-- The path of a slot's partition. -/
def Partition.path (p : Partition) : Step → String
  | .target => p.targetPath
  | .source => p.sourcePath

/-- The size of a slot's partition. -/
def Partition.size (p : Partition) : Step → Nat
  | .target => p.targetSize.toNat
  | .source => p.sourceSize.toNat

namespace Verification

variable {P : Type}

/-- What stays the same throughout a verification. -/
structure Setting (P : Type) where
  scale : Scale P
  dynamic : DynamicPartitions
  plan : InstallPlan

/-- Whether the verity metadata of a partition gets written in a step. -/
def Setting.writes (s : Setting P) (p : Partition) (step : Step) : Bool :=
  step = .target && s.plan.writeVerity && p.hasVerity

/-- Opens a device that is not known to be dynamic. -/
def openDirect (p : Partition) (path : String) (writable : Bool) :
    Attempt P Error OpenedDevice :=
  ask (.setReadOnly path (!writable)) fun _ =>
    ask (.openPath path writable) fun
      | .ok () => Attempt.succeed ⟨.direct, path, writable⟩
      | .error e => Attempt.fail (.openFailed p.name path e)

/-- Opens the snapshot of a dynamic partition for writing. -/
def openSnapshot (p : Partition) : Attempt P Error OpenedDevice :=
  ask (.openSnapshot p.name p.sourcePath true) fun
    | .ok () => Attempt.succeed ⟨.copyOnWrite, p.name, true⟩
    | .error e => Attempt.fail (.openFailed p.name p.name e)

/-- Maps the dynamic partitions afresh and opens the view of one of them. -/
def openMapped (p : Partition) : Attempt P Error OpenedDevice :=
  let path := p.effectiveReadonlyPath
  ask .unmapAll fun _ =>
    ask .mapAll fun _ =>
      ask (.openPath path false) fun
        | .ok () => Attempt.succeed ⟨.snapshotMapped, path, false⟩
        | .error e => Attempt.fail (.openFailed p.name path e)

/-- Opens the device through which a step reads its partition. -/
def openSource (s : Setting P) (p : Partition) (step : Step) : Attempt P Error OpenedDevice :=
  let writing := s.writes p step
  if step = .target ∧ s.dynamic.compressed ∧ s.dynamic.isDynamic p.name s.plan.targetSlot then
    if writing then openSnapshot p else openMapped p
  else openDirect p (p.path step) writing

/-- An error of the hashing, with the name of its partition. -/
def hashFailure (p : Partition) : HashError → Error
  | .read offset e => .read p.name offset e
  | .unexpectedEnd offset => .unexpectedEnd p.name offset
  | .verity e => .verityComputation p.name e

/-- Begins a partition in the writer. -/
def initWriter (p : Partition) : Attempt P Error Unit :=
  ask (.initWriter p.verityLayout) fun
    | .ok () => Attempt.succeed ()
    | .error (.rejected e) => Attempt.fail (.verityComputation p.name e)
    | .error (.breakdown _) => .broken

/-- Hashes a slot's partition; gives the digest and the highest progress reported. -/
def hashStep (s : Setting P) (p : Partition) (step : Step) (index : Nat) (reported : P) :
    Attempt P Error (ByteArray × P) :=
  let size := p.size step
  match dataEnd step p.hashTreeOffset.toNat p.fecOffset.toNat size with
  | .error e => Attempt.fail (.invalidVerityLayout p.name e)
  | .ok dataEnd =>
    let writing := s.writes p step
    (openSource s p step).andThen fun device =>
      (if writing then initWriter p else Attempt.succeed ()).andThen fun _ =>
        (hashPartition s.scale ⟨device, size, index, s.plan.partitions.length⟩ dataEnd writing
          reported).mapError (hashFailure p)

/-- Finds out why a target is wrong, from the digest of the source. -/
def judge (p : Partition) (targetDigest sourceDigest : ByteArray) : Error :=
  if sourceDigest = p.sourceHash then .targetVerification p.name p.targetHash targetDigest
  else .sourceVerification p.name p.sourceHash sourceDigest

/-- The digest of no bytes at all. -/
def emptyDigest : ByteArray := (Digest.Hasher.start partitionAlgorithm).finish

/-- Diagnoses a wrong target by its source. -/
def diagnose (s : Setting P) (p : Partition) (index : Nat) (targetDigest : ByteArray)
    (reported : P) : Attempt P Error Unit :=
  if p.sourcePath = "" then
    if p.sourceSize ≠ 0 then Attempt.fail (.unresolvedDevicePath p.name .source)
    else Attempt.fail (judge p targetDigest emptyDigest)
  else
    (hashStep s p .source index reported).andThen fun (sourceDigest, _) =>
      Attempt.fail (judge p targetDigest sourceDigest)

/-- Verifies the partitions from the one at `index` on. -/
def verifyFrom (s : Setting P) : (index : Nat) → List Partition → P → Attempt P Error Unit
  | _, [], _ => Attempt.succeed ()
  | index, p :: rest, reported =>
    if p.targetPath = "" then
      if p.targetSize ≠ 0 then Attempt.fail (.unresolvedDevicePath p.name .target)
      else verifyFrom s (index + 1) rest reported
    else
      (hashStep s p .target index reported).andThen fun (digest, reported) =>
        if digest = p.targetHash then verifyFrom s (index + 1) rest reported
        else if p.sourceHash.size = 0 then
          Attempt.fail (.targetVerification p.name p.targetHash digest)
        else diagnose s p index digest reported

/-- Has the controller compare the partitions that the update has left alone. -/
def verifyUntouched (plan : InstallPlan) : Attempt P Error Unit :=
  if plan.untouchedDynamicPartitions = [] then Attempt.succeed ()
  else
    ask (.verifyExtents plan.sourceSlot plan.targetSlot plan.untouchedDynamicPartitions)
      fun same =>
        if same then Attempt.succeed () else Attempt.fail .untouchedPartitionExtentsMismatch

/-- The verification of a plan; gives the plan itself. -/
def program (scale : Scale P) (dynamic : DynamicPartitions) :
    Option InstallPlan → Attempt P Error InstallPlan
  | none => Attempt.fail .missingInputObject
  | some plan =>
    (verifyFrom ⟨scale, dynamic, plan⟩ 0 plan.partitions scale.zero).andThen fun _ =>
      (verifyUntouched plan).andThen fun _ => Attempt.succeed plan

/-- Whether snapshots are unmapped at the end.  A plan without verity metadata to write leaves them
    mapped until then. -/
def unmapsAtEnd (dynamic : DynamicPartitions) (plan : Option InstallPlan) : Bool :=
  dynamic.compressed && plan.any fun plan => !plan.writeVerity

/-- A verification with everything that it does when it ends by itself: it releases the snapshots,
    and reports that all is done. -/
def whole (scale : Scale P) (dynamic : DynamicPartitions) (plan : Option InstallPlan) :
    Attempt P Error InstallPlan :=
  (program scale dynamic plan).bind fun outcome =>
    let finish := ask (.report scale.one) fun _ => .done outcome
    if unmapsAtEnd dynamic plan then ask .unmapAll fun _ => finish else finish

end Verification

end SlotVerify
