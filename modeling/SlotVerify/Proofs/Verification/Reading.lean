import SlotVerify.Proofs.Bytes
import SlotVerify.Verification.PartitionHash
/-
  The loop that reads a partition, chunk by chunk.

  As long as `hashUpTo` has not come to its stop, it asks for the next chunk; what it does with the
  outcome (`afterRead`) ends in front of the next chunk, or with an error (`afterRead_cases`).
  `hashUpTo_induction` is the induction on what is left to read, told in positions: each chunk has
  at least one byte, and none goes beyond the stop.  Whatever is shown of the loop is shown of one
  chunk, and goes through all of them by this induction.
-/

namespace SlotVerify.Verification

variable {P : Type}

/-- How much is asked for next in front of `stop`. -/
def chunkLength (stop : Nat) (pos : Position P) : Nat := min chunkSize (stop - pos.offset)

/-- The position behind a chunk. -/
def Position.behind (pos : Position P) (chunk : ByteArray) (told : P) : Position P :=
  ⟨pos.offset + chunk.size, pos.hasher.update chunk, told⟩

section

variable (scale : Scale P) (subject : Subject) (feeding : Bool) (stop : Nat) (pos : Position P)

/-- A chunk has been read: it is fed and told, and the reading gives way, having woken its task. -/
def withChunk (chunk : ByteArray) : Attempt P HashError (Position P) :=
  (feed feeding pos.offset chunk).andThen fun _ =>
    ask .wake fun _ =>
      tell scale pos.reported
        (scale.fraction subject.index (pos.offset + chunk.size) subject.size subject.partitions)
        fun told => .pause (hashUpTo scale subject feeding stop (pos.behind chunk told))

/-- What comes after a read. -/
def afterRead : Except Device.IoError ByteArray → Attempt P HashError (Position P)
  | .error e => Attempt.fail (.read pos.offset e)
  | .ok bytes =>
    if (bytes.extract 0 (chunkLength stop pos)).size = 0 then
      Attempt.fail (.unexpectedEnd pos.offset)
    else withChunk scale subject feeding stop pos (bytes.extract 0 (chunkLength stop pos))

variable {scale subject feeding stop pos}

theorem hashUpTo_of_lt (h : pos.offset < stop) :
    hashUpTo scale subject feeding stop pos =
      .request subject.device (.read pos.offset (chunkLength stop pos))
        (afterRead scale subject feeding stop pos) := by
  rw [hashUpTo, dif_pos h]
  unfold Routine.read
  congr 1
  funext outcome
  cases outcome <;> rfl

theorem hashUpTo_of_le (h : stop ≤ pos.offset) :
    hashUpTo scale subject feeding stop pos = Attempt.succeed pos := by
  rw [hashUpTo, dif_neg (Nat.not_lt.mpr h)]

/-- Something is asked for as long as something is left. -/
theorem chunkLength_pos (h : pos.offset < stop) : 0 < chunkLength stop pos :=
  Nat.lt_min.mpr ⟨by decide, Nat.sub_pos_of_lt h⟩

/-- A chunk does not go beyond the stop. -/
theorem size_chunk_le (bytes : ByteArray) (stop : Nat) (pos : Position P) :
    (bytes.extract 0 (chunkLength stop pos)).size ≤ chunkLength stop pos := by
  rw [ByteArray.size_extract]
  omega

theorem behind_le {chunk : ByteArray} (hpos : pos.offset ≤ stop)
    (hchunk : chunk.size ≤ chunkLength stop pos) : pos.offset + chunk.size ≤ stop := by
  unfold chunkLength at hchunk
  omega

theorem HashError.read_ne_verity (offset : Nat) (e : Device.IoError) (cause : Verity.Error) :
    HashError.read offset e ≠ .verity cause := nofun

theorem HashError.unexpectedEnd_ne_verity (offset : Nat) (cause : Verity.Error) :
    HashError.unexpectedEnd offset ≠ .verity cause := nofun

/-- What has been read is a chunk, or the device has come to its end. -/
theorem afterRead_ok_cases (scale : Scale P) (subject : Subject) (feeding : Bool) (stop : Nat)
    (pos : Position P) (bytes : ByteArray) :
    afterRead scale subject feeding stop pos (.ok bytes) =
        Attempt.fail (.unexpectedEnd pos.offset) ∨
      0 < (bytes.extract 0 (chunkLength stop pos)).size ∧
        afterRead scale subject feeding stop pos (.ok bytes) =
          withChunk scale subject feeding stop pos (bytes.extract 0 (chunkLength stop pos)) := by
  by_cases hnone : (bytes.extract 0 (chunkLength stop pos)).size = 0
  · exact .inl (if_pos hnone)
  · exact .inr ⟨Nat.pos_of_ne_zero hnone, if_neg hnone⟩

/-- A read comes to a failure that is none of the writer's, or to a chunk. -/
theorem afterRead_cases (scale : Scale P) (subject : Subject) (feeding : Bool) (stop : Nat)
    (pos : Position P) (outcome : Except Device.IoError ByteArray) :
    (∃ e, (∀ cause, e ≠ .verity cause) ∧
      afterRead scale subject feeding stop pos outcome = Attempt.fail e) ∨
    ∃ chunk : ByteArray, 0 < chunk.size ∧ chunk.size ≤ chunkLength stop pos ∧
      afterRead scale subject feeding stop pos outcome =
        withChunk scale subject feeding stop pos chunk := by
  cases outcome with
  | error e => exact .inl ⟨_, HashError.read_ne_verity pos.offset e, rfl⟩
  | ok bytes =>
    rcases afterRead_ok_cases scale subject feeding stop pos bytes with hfail | ⟨hsome, hchunk⟩
    · exact .inl ⟨_, HashError.unexpectedEnd_ne_verity pos.offset, hfail⟩
    · exact .inr ⟨_, hsome, size_chunk_le bytes stop pos, hchunk⟩

/-- A read that brings nothing. -/
theorem afterRead_of_size_eq_zero {bytes : ByteArray} (h : bytes.size = 0) :
    afterRead scale subject feeding stop pos (.ok bytes) =
      Attempt.fail (.unexpectedEnd pos.offset) := by
  refine if_pos ?_
  rw [ByteArray.size_extract]
  omega

/-- A read that brings something, and not more than was asked for. -/
theorem afterRead_of_size_le {bytes : ByteArray} (hsome : 0 < bytes.size)
    (hle : bytes.size ≤ chunkLength stop pos) :
    afterRead scale subject feeding stop pos (.ok bytes) =
      withChunk scale subject feeding stop pos bytes := by
  have hall : bytes.extract 0 (chunkLength stop pos) = bytes := by
    rw [← Bytes.extract_min, Nat.min_eq_left hle, ByteArray.extract_zero_size]
  unfold afterRead
  dsimp only
  rw [hall, if_neg (Nat.ne_of_gt hsome)]

/-- A read cuts what it hands over, and `afterRead` cuts it again: once would do. -/
theorem hashUpTo_eq_read (h : pos.offset < stop) :
    hashUpTo scale subject feeding stop pos =
      Routine.read (I := interface P) subject.device pos.offset (chunkLength stop pos)
        (afterRead scale subject feeding stop pos) := by
  rw [hashUpTo_of_lt h]
  unfold Routine.read
  congr 1
  funext outcome
  cases outcome with
  | error e => rfl
  | ok bytes =>
    dsimp only [Except.map, afterRead]
    rw [ByteArray.extract_extract, Nat.zero_add, Nat.zero_add, Nat.min_self]

/-- By induction on what is left to read: what holds at the stop, and in front of a chunk if it
    holds behind it, holds everywhere. -/
theorem hashUpTo_induction (stop : Nat) {motive : Position P → Prop}
    (ended : ∀ pos, stop ≤ pos.offset → motive pos)
    (chunk : ∀ pos, pos.offset < stop →
      (∀ bytes told, 0 < bytes.size → bytes.size ≤ chunkLength stop pos →
        motive (pos.behind bytes told)) → motive pos) (pos : Position P) : motive pos := by
  induction hleft : stop - pos.offset using Nat.strongRecOn generalizing pos with
  | ind left ih =>
    rcases Nat.lt_or_ge pos.offset stop with hmore | hend
    · refine chunk pos hmore ?_
      intro bytes told hsome _
      refine ih (stop - (pos.offset + bytes.size)) ?_ _ rfl
      omega
    · exact ended pos hend

end

end SlotVerify.Verification
