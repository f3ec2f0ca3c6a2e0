import SlotVerify.Verification.Interface
/-
  Reading and hashing one partition.

  The partition is read in chunks.  The file system data at its beginning is also fed to the verity
  writer, if there is one to be fed; once all of it has been read, the writer's metadata is written,
  and the rest of the partition is read and hashed as it is then.

  After every chunk the routine wakes its task, reports progress, if there is any, and gives way
  once.  A read may deliver less than asked for; one that delivers nothing means that the device
  ends too early.
-/

namespace SlotVerify.Verification

/-- Most bytes that one read asks for. -/
def chunkSize : Nat := 128 * 1024

/-- The algorithm of the partitions' digests. -/
abbrev partitionAlgorithm : Digest.Algorithm := .sha256

/-- Why a partition could not be hashed. -/
inductive HashError where
  | read (offset : Nat) (cause : Device.IoError)
  | unexpectedEnd (offset : Nat)
  | verity (cause : Verity.Error)
deriving DecidableEq

/-- The text shown for an error. -/
def HashError.message : HashError → String
  | .read offset cause => s!"read at offset {offset} failed: {cause.message}"
  | .unexpectedEnd offset => s!"unexpected end of device at offset {offset}"
  | .verity cause => cause.message

/-- The text of the cause, where a device gave it. -/
def HashError.causeMessage? : HashError → Option String
  | .read _ cause => some cause.message
  | .unexpectedEnd _ => none
  | .verity cause => cause.causeMessage?

/-- What is hashed, and what its share of the whole is. -/
structure Subject where
  device : OpenedDevice
  size : Nat
  /-- The partition's place in the plan. -/
  index : Nat
  /-- Partitions of the plan. -/
  partitions : Nat

/-- How far the hashing has come. -/
structure Position (P : Type) where
  offset : Nat
  hasher : Digest.Hasher partitionAlgorithm
  /-- The highest progress reported in the whole verification. -/
  reported : P

variable {P : Type}

/-- Reports progress if it is more than was reported before. -/
def tell {α : Type} (scale : Scale P) (reported progress : P)
    (next : P → Routine (interface P) α) : Routine (interface P) α :=
  if scale.less reported progress then ask (.report progress) fun _ => next progress
  else next reported

/-- Feeds a chunk to the writer, if it is to be fed. -/
def feed (feeding : Bool) (offset : Nat) (bytes : ByteArray) : Attempt P HashError Unit :=
  if feeding then
    ask (.updateWriter offset bytes) fun outcome => .done (outcome.mapError .verity)
  else Attempt.succeed ()

/-- Reads and hashes from the position up to `stop`. -/
def hashUpTo (scale : Scale P) (subject : Subject) (feeding : Bool) (stop : Nat)
    (at_ : Position P) : Attempt P HashError (Position P) :=
  if _hmore : at_.offset < stop then
    Routine.read (I := interface P) subject.device at_.offset (min chunkSize (stop - at_.offset))
      fun
      | .error e => Attempt.fail (.read at_.offset e)
      | .ok bytes =>
        if _hsome : bytes.size = 0 then Attempt.fail (.unexpectedEnd at_.offset)
        else
          let offset := at_.offset + bytes.size
          (feed feeding at_.offset bytes).andThen fun _ =>
            ask .wake fun _ =>
              tell scale at_.reported
                (scale.fraction subject.index offset subject.size subject.partitions)
                fun reported =>
                  .pause (hashUpTo scale subject feeding stop
                    ⟨offset, at_.hasher.update bytes, reported⟩)
  else Attempt.succeed at_
termination_by stop - at_.offset

/-- Has the writer hand out its metadata and writes it to the device. -/
def finalizeOn (device : OpenedDevice) : Attempt P HashError Unit :=
  ask .finalizeWriter fun
    | .error e => Attempt.fail (.verity e)
    | .ok t =>
      (Routine.onDevice (J := interface P) id (fun _ => device) t).bind fun outcome =>
        .done (outcome.mapError .verity)

/-- Hashes a whole partition, whose file system data ends at `dataEnd`; gives the digest and the
    highest progress reported. -/
def hashPartition (scale : Scale P) (subject : Subject) (dataEnd : Nat) (writing : Bool)
    (reported : P) : Attempt P HashError (ByteArray × P) :=
  let start : Position P := ⟨0, .start partitionAlgorithm, reported⟩
  (hashUpTo scale subject writing (min dataEnd subject.size) start).andThen fun position =>
    (if writing then finalizeOn subject.device else Attempt.succeed ()).andThen fun _ =>
      (hashUpTo scale subject false subject.size position).andThen fun position =>
        Attempt.succeed (position.hasher.finish, position.reported)

end SlotVerify.Verification
