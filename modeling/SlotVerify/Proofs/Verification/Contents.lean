import SlotVerify.Proofs.Verification.Itinerary
/-
  What a hashing has read, whatever it is answered.

  `Collects` follows the bytes that have been delivered: each read asks for what comes behind them,
  and what it delivers is put behind them.  If a read fails, the hashing ends there with the offset
  that it has come to (`Attempt.NextReads`).

  The crux is that reading with and without a writer is the same loop, so one induction on what is
  left to read says it for both (`collectsUpTo_hashUpTo`).  A partition is read once or twice, and
  what comes behind is begun with all that was to be read (`reaches_hashUpTo_andThen`).  So follow
  the stages of a whole partition (`hashStage_hashPartition`), and with them what a digest is: that
  of the bytes that were delivered, as many as the partition has (`hashesTo_hashStep`).
-/

namespace SlotVerify.Verification

open Device Routine

variable {P : Type}

/-- Reading goes on behind what has been read before, until `after` has been read. -/
inductive Collects (device : OpenedDevice) : (before : ByteArray) → Trace P → ByteArray → Prop where
  | nil (contents : ByteArray) : Collects device contents [] contents
  | read {contents bytes after : ByteArray} {length : Nat} {es : Trace P}
      (h : Collects device (contents ++ bytes.extract 0 length) es after) :
      Collects device contents (.served device (.read contents.size length) (.ok bytes) :: es) after
  | update {contents after data : ByteArray} {offset : Nat} {es : Trace P}
      (h : Collects device contents es after) :
      Collects device contents (updated offset data (.ok ()) :: es) after
  | report {contents after : ByteArray} {progress : P} {es : Trace P}
      (h : Collects device contents es after) :
      Collects device contents (.called (I := interface P) (Call.report progress) () :: es) after
  | wake {contents after : ByteArray} {es : Trace P} (h : Collects device contents es after) :
      Collects device contents (.called (I := interface P) Call.wake () :: es) after
  | pause {contents after : ByteArray} {es : Trace P} (h : Collects device contents es after) :
      Collects device contents (.paused :: es) after

/-- One reading after another. -/
theorem Collects.trans {device : OpenedDevice} {before middle after : ByteArray} {es es' : Trace P}
    (h : Collects device before es middle) (h' : Collects device middle es' after) :
    Collects device before (es ++ es') after := by
  induction h with
  | nil => exact h'
  | read _ ih => exact .read (ih h')
  | update _ ih => exact .update (ih h')
  | report _ ih => exact .report (ih h')
  | wake _ ih => exact .wake (ih h')
  | pause _ ih => exact .pause (ih h')

/-- If a request comes next, it is a read at this offset, and without it there is only to be said
    that it has failed. -/
def Attempt.NextReads {α : Type} (t : Attempt P HashError α) (device : OpenedDevice)
    (offset : Nat) : Prop :=
  ∀ d q (next : Except IoError q.Reply → Attempt P HashError α), t = .request d q next →
    d = device ∧ (∃ length, q = .read offset length) ∧
      ∀ e, next (.error e) = .done (.error (.read offset e))

theorem Attempt.nextReads_call {α : Type} {device : OpenedDevice} {offset : Nat}
    (c : (interface P).Call) (next : (interface P).Answer c → Attempt P HashError α) :
    Attempt.NextReads (.call c next) device offset := by
  intro _ _ _ heq
  cases heq

theorem Attempt.nextReads_pause {α : Type} {device : OpenedDevice} {offset : Nat}
    (next : Attempt P HashError α) : Attempt.NextReads (.pause next) device offset := by
  intro _ _ _ heq
  cases heq

theorem Attempt.NextReads.andThen {α β : Type} {t : Attempt P HashError α} {device : OpenedDevice}
    {offset : Nat} (h : t.NextReads device offset) (hleft : t.Unfinished)
    (f : α → Attempt P HashError β) : (t.andThen f).NextReads device offset := by
  intro d q next heq
  cases t with
  | done a => exact absurd rfl (hleft a)
  | request d' q' next' =>
    cases heq
    obtain ⟨rfl, hlength, hnext⟩ := h d q next' rfl
    refine ⟨rfl, hlength, fun e => ?_⟩
    show Attempt.andThen (next' (.error e)) f = _
    rw [hnext]
    rfl
  | _ => cases heq

/-! ## Reading -/

/-- What a passage through the reading has come to. -/
inductive CollectsUpTo (device : OpenedDevice) (stop : Nat) (contents : ByteArray) :
    Trace P → Attempt P HashError (Position P) → Prop where
  | going {after : ByteArray} {es : Trace P} {u : Attempt P HashError (Position P)}
      (h : Collects device contents es after) (hleft : u.Unfinished)
      (hnext : u.NextReads device after.size) : CollectsUpTo device stop contents es u
  | failed {es : Trace P} {e : HashError} : CollectsUpTo device stop contents es (.done (.error e))
  | read {after : ByteArray} {es : Trace P} {reported : P} (h : Collects device contents es after)
      (hsize : after.size = stop) :
      CollectsUpTo device stop contents es
        (.done (.ok ⟨after.size, .fed partitionAlgorithm after, reported⟩))

section

variable {device : OpenedDevice} {stop : Nat} {contents contents' : ByteArray}

theorem CollectsUpTo.cons {e : Happening (interface P)}
    (hcons : ∀ {es after}, Collects device contents' es after →
      Collects device contents (e :: es) after)
    {es : Trace P} {u : Attempt P HashError (Position P)}
    (h : CollectsUpTo device stop contents' es u) :
    CollectsUpTo device stop contents (e :: es) u := by
  cases h with
  | going h hleft hnext => exact .going (hcons h) hleft hnext
  | failed => exact .failed
  | read h hsize => exact .read (hcons h) hsize

theorem collectsUpTo_tell {scale : Scale P} {reported progress : P}
    {next : P → Attempt P HashError (Position P)}
    (hnext : ∀ {told es u}, (next told).Reaches es u → CollectsUpTo device stop contents es u)
    {es : Trace P} {u : Attempt P HashError (Position P)}
    (h : (tell scale reported progress next).Reaches es u) :
    CollectsUpTo device stop contents es u := by
  unfold tell at h
  split at h
  · cases h with
    | refl => exact .going (.nil _) (unfinished_call _ _) (Attempt.nextReads_call _ _)
    | call _ h => exact .cons .report (hnext h)
  · exact hnext h

theorem collectsUpTo_feed {feeding : Bool} {offset : Nat} {bytes : ByteArray}
    {next : Attempt P HashError (Position P)}
    (hnext : ∀ {es u}, next.Reaches es u → CollectsUpTo device stop contents es u)
    {es : Trace P} {u : Attempt P HashError (Position P)}
    (h : ((feed feeding offset bytes).andThen fun _ => next).Reaches es u) :
    CollectsUpTo device stop contents es u := by
  cases feeding with
  | false => exact hnext h
  | true =>
    cases h with
    | refl => exact .going (.nil _) (unfinished_call _ _) (Attempt.nextReads_call _ _)
    | call answer h =>
      cases answer with
      | error cause =>
        obtain ⟨rfl, rfl⟩ := reaches_done h
        exact .failed
      | ok _ => exact .cons .update (hnext h)

/-- Behind a chunk, the hash computation has been fed the chunk, too. -/
theorem Position.behind_fed (contents chunk : ByteArray) (reported told : P) :
    Position.behind ⟨contents.size, .fed partitionAlgorithm contents, reported⟩ chunk told =
      ⟨(contents ++ chunk).size, .fed partitionAlgorithm (contents ++ chunk), told⟩ := by
  unfold Position.behind
  rw [Digest.Hasher.update_fed, ByteArray.size_append]

/-- The hash computation has been fed what has been read. -/
theorem collectsUpTo_hashUpTo (scale : Scale P) (subject : Subject) (feeding : Bool) {reported : P}
    (hstop : contents.size ≤ stop) {es : Trace P} {u : Attempt P HashError (Position P)}
    (h : (hashUpTo scale subject feeding stop
      ⟨contents.size, .fed partitionAlgorithm contents, reported⟩).Reaches es u) :
    CollectsUpTo subject.device stop contents es u := by
  generalize hpos :
    (⟨contents.size, .fed partitionAlgorithm contents, reported⟩ : Position P) = pos at h
  induction pos using hashUpTo_induction stop generalizing contents reported es u with
  | ended pos hend =>
    rw [hashUpTo_of_le hend] at h
    obtain ⟨rfl, rfl⟩ := reaches_done h
    subst hpos
    exact .read (.nil _) (Nat.le_antisymm hstop hend)
  | chunk pos hmore ih =>
    rw [hashUpTo_of_lt hmore] at h
    subst hpos
    cases h with
    | refl =>
      refine .going (.nil _) (unfinished_request _ _ _) ?_
      rintro _ _ _ ⟨⟩
      exact ⟨rfl, ⟨_, rfl⟩, fun e => rfl⟩
    | request outcome h =>
      cases outcome with
      | error e =>
        obtain ⟨rfl, rfl⟩ := reaches_done h
        exact .failed
      | ok bytes =>
        refine .cons .read ?_
        rcases afterRead_ok_cases scale subject feeding stop _ bytes with hfail | ⟨hsome, hchunk⟩
        · rw [hfail] at h
          obtain ⟨rfl, rfl⟩ := reaches_done h
          exact .failed
        · rw [hchunk] at h
          have hlength := size_chunk_le bytes stop
            (⟨contents.size, .fed partitionAlgorithm contents, reported⟩ : Position P)
          refine collectsUpTo_feed ?_ h
          intro es u h
          cases h with
          | refl => exact .going (.nil _) (unfinished_call _ _) (Attempt.nextReads_call _ _)
          | call _ h =>
            refine .cons .wake (collectsUpTo_tell ?_ h)
            intro told es u h
            cases h with
            | refl => exact .going (.nil _) (unfinished_pause _) (Attempt.nextReads_pause _)
            | pause h =>
              refine .cons .pause (ih _ told hsome hlength ?_ (Position.behind_fed ..).symm h)
              rw [ByteArray.size_append]
              exact behind_le hstop hlength

/-- What comes after the reading is begun with everything that was to be read. -/
theorem reaches_hashUpTo_andThen {α : Type} {scale : Scale P} {subject : Subject} {feeding : Bool}
    {reported : P} {f : Position P → Attempt P HashError α} (hstop : contents.size ≤ stop)
    {es : Trace P} {u : Attempt P HashError α}
    (h : ((hashUpTo scale subject feeding stop
      ⟨contents.size, .fed partitionAlgorithm contents, reported⟩).andThen f).Reaches es u) :
    (∃ after, Collects subject.device contents es after ∧ u.Unfinished ∧
      u.NextReads subject.device after.size) ∨
    (∃ e, u = .done (.error e)) ∨
    ∃ first after told rest, es = first ++ rest ∧ Collects subject.device contents first after ∧
      after.size = stop ∧ (f ⟨after.size, .fed partitionAlgorithm after, told⟩).Reaches rest u := by
  rcases Attempt.reaches_parts h with ⟨t', ht, hnot, rfl⟩ | ⟨first, position, rest, rfl, ht, hrest⟩
  · cases collectsUpTo_hashUpTo scale subject feeding hstop ht with
    | going hcollects hleft hnext =>
      exact .inl ⟨_, hcollects, hleft.bind _, hnext.andThen hleft _⟩
    | failed => exact .inr (.inl ⟨_, rfl⟩)
    | read => exact absurd rfl (hnot _)
  · generalize hdone : (Routine.done (.ok position) : Attempt P HashError (Position P)) = v at ht
    cases collectsUpTo_hashUpTo scale subject feeding hstop ht with
    | going _ hleft _ => exact absurd hdone.symm (hleft _)
    | failed => cases hdone
    | read hcollects hsize =>
      cases hdone
      exact .inr (.inr ⟨first, _, _, rest, rfl, hcollects, hsize, hrest⟩)

end

/-! ## A whole partition -/

/-- The bytes that have been read of a partition, with or without a finalization in between. -/
inductive HasRead (device : OpenedDevice) : Trace P → ByteArray → Prop where
  | straight {contents : ByteArray} {es : Trace P} (h : Collects device .empty es contents) :
      HasRead device es contents
  | behind {data contents : ByteArray} {first written later : Trace P}
      {t : Verity.DeviceRoutine Unit} (hfirst : Collects device .empty first data)
      (hwritten : (t.on P device).Reaches written (.done (.ok ())))
      (hlater : Collects device data later contents) :
      HasRead device (first ++ finalized (.ok t) :: (written ++ later)) contents

/-- What a passage through the hashing of a partition of `size` bytes has come to. -/
inductive HashStage (device : OpenedDevice) (size : Nat) :
    Trace P → Attempt P HashError (ByteArray × P) → Prop where
  | reading {contents : ByteArray} {es : Trace P} {u : Attempt P HashError (ByteArray × P)}
      (h : HasRead device es contents) (hleft : u.Unfinished)
      (hnext : u.NextReads device contents.size) : HashStage device size es u
  /-- What the writer has handed out is being written. -/
  | finalizing {contents : ByteArray} {first written : Trace P} {t : Verity.DeviceRoutine Unit}
      {v : Attempt P Verity.Error Unit} {f : Unit → Attempt P HashError (ByteArray × P)}
      (hfirst : Collects device .empty first contents)
      (hwriting : (t.on P device).Reaches written v) (hleft : v.Unfinished) :
      HashStage device size (first ++ finalized (.ok t) :: written)
        ((v.mapError .verity).andThen f)
  | failed {es : Trace P} {e : HashError} : HashStage device size es (.done (.error e))
  | hashed {contents digest : ByteArray} {es : Trace P} {reported : P}
      (h : HasRead device es contents) (hsize : contents.size = size)
      (hdigest : digest = partitionAlgorithm.digest contents) :
      HashStage device size es (.done (.ok (digest, reported)))

/-- The rest of a partition. -/
theorem hashStage_rest {scale : Scale P} {subject : Subject} {contents : ByteArray} {reported : P}
    (hle : contents.size ≤ subject.size) {first : Trace P}
    (hread : ∀ {later after}, Collects subject.device contents later after →
      HasRead subject.device (first ++ later) after)
    {es : Trace P} {u : Attempt P HashError (ByteArray × P)}
    (h : ((hashUpTo scale subject false subject.size
      ⟨contents.size, .fed partitionAlgorithm contents, reported⟩).andThen fun position =>
        Attempt.succeed (position.hasher.finish, position.reported)).Reaches es u) :
    HashStage subject.device subject.size (first ++ es) u := by
  rcases reaches_hashUpTo_andThen hle h with ⟨after, hcollects, hleft, hnext⟩ | ⟨e, rfl⟩ |
    ⟨later, after, told, rest, rfl, hcollects, hsize, hend⟩
  · exact .reading (hread hcollects) hleft hnext
  · exact .failed
  · obtain ⟨rfl, rfl⟩ := reaches_done hend
    rw [List.append_nil]
    exact .hashed (hread hcollects) hsize (Digest.Hasher.finish_fed _)

/-- What has been handed out is written, and then the rest of the partition is read. -/
theorem hashStage_behind {scale : Scale P} {subject : Subject} {data : ByteArray} {reported : P}
    (hle : data.size ≤ subject.size) {first : Trace P}
    (hfirst : Collects subject.device .empty first data) {t : Verity.DeviceRoutine Unit}
    {es : Trace P} {u : Attempt P HashError (ByteArray × P)}
    (h : ((Attempt.mapError (t.on P subject.device) HashError.verity).andThen fun _ =>
      (hashUpTo scale subject false subject.size
        ⟨data.size, .fed partitionAlgorithm data, reported⟩).andThen fun position =>
          Attempt.succeed (position.hasher.finish, position.reported)).Reaches es u) :
    HashStage subject.device subject.size (first ++ finalized (.ok t) :: es) u := by
  rcases Attempt.reaches_parts h with ⟨t', ht, hnot, rfl⟩ | ⟨written, _, later, rfl, ht, hlater⟩
  · obtain ⟨v, hwriting, rfl⟩ := Attempt.reaches_mapError ht
    cases v with
    | done outcome =>
      cases outcome with
      | error cause => exact .failed
      | ok _ => exact absurd rfl (hnot _)
    | _ => exact .finalizing hfirst hwriting nofun
  · obtain ⟨v, hwritten, hv⟩ := Attempt.reaches_mapError ht
    obtain rfl : v = .done (.ok ()) := by
      cases v with
      | done outcome =>
        cases outcome with
        | error cause => cases hv
        | ok _ => rfl
      | _ => cases hv
    have hread : ∀ {later contents}, Collects subject.device data later contents →
        HasRead subject.device ((first ++ finalized (.ok t) :: written) ++ later) contents := by
      intro later contents hcollects
      rw [List.append_assoc]
      exact .behind hfirst hwritten hcollects
    have hstage := hashStage_rest hle hread hlater
    rwa [List.append_assoc] at hstage

/-- A passage through the hashing of a partition is in one of the stages. -/
theorem hashStage_hashPartition (scale : Scale P) (subject : Subject) (dataEnd : Nat)
    (writing : Bool) (reported : P) {es : Trace P} {u : Attempt P HashError (ByteArray × P)}
    (h : (hashPartition scale subject dataEnd writing reported).Reaches es u) :
    HashStage subject.device subject.size es u := by
  have hstart : (⟨0, .start partitionAlgorithm, reported⟩ : Position P) =
      ⟨ByteArray.empty.size, .fed partitionAlgorithm .empty, reported⟩ := by
    rw [Digest.Hasher.fed_empty]
    rfl
  unfold hashPartition at h
  dsimp only at h
  rw [hstart] at h
  rcases reaches_hashUpTo_andThen (Nat.zero_le _) h with ⟨after, hcollects, hleft, hnext⟩ |
    ⟨e, rfl⟩ | ⟨first, data, told, rest, rfl, hcollects, hsize, hrest⟩
  · exact .reading (.straight hcollects) hleft hnext
  · exact .failed
  · have hle : data.size ≤ subject.size := hsize ▸ Nat.min_le_right _ _
    cases writing with
    | false => exact hashStage_rest hle (fun hlater => .straight (hcollects.trans hlater)) hrest
    | true =>
      cases hrest with
      | refl =>
        rw [List.append_nil]
        exact .reading (.straight hcollects) (unfinished_call _ _) (Attempt.nextReads_call _ _)
      | call answer hrest =>
        cases answer with
        | error cause =>
          obtain ⟨rfl, rfl⟩ := reaches_done hrest
          exact .failed
        | ok t => exact hashStage_behind hle hcollects hrest

/-! ## A step -/

/-- These bytes have been read in a step: its device has been opened, and has delivered them. -/
def ReadInStep (s : Setting P) (p : Partition) (step : Step) (es : Trace P)
    (device : OpenedDevice) (contents : ByteArray) : Prop :=
  ∃ opened begun rest, es = opened ++ (begun ++ rest) ∧
    (openSource s p step).Reaches opened (.done (.ok device)) ∧
    begun = (if s.writes p step then [began p] else []) ∧ HasRead device rest contents

/-- The digest is that of what has been read of a partition, as many bytes as it has. -/
def HashesTo (s : Setting P) (p : Partition) (step : Step) (es : Trace P) (digest : ByteArray) :
    Prop :=
  ∃ device contents, ReadInStep s p step es device contents ∧ contents.size = p.size step ∧
    digest = partitionAlgorithm.digest contents

/-- A step that comes to a digest has read its partition. -/
theorem hashesTo_hashStep {s : Setting P} {p : Partition} {step : Step} {index : Nat}
    {told told' : P} {es : Trace P} {digest : ByteArray}
    (h : (hashStep s p step index told).Reaches es (.done (.ok (digest, told')))) :
    HashesTo s p step es digest := by
  generalize hu : (Routine.done (.ok (digest, told')) : Attempt P Error (ByteArray × P)) = u at h
  cases stepped_hashStep h with
  | opening _ hnone _ => exact absurd hu.symm (hnone _)
  | @hashing opened begun es device dataEnd v _ _ hdevice hbegun hhash =>
    have hstage := hashStage_hashPartition _ _ _ _ _ hhash
    cases v with
    | done outcome =>
      cases outcome with
      | error e => cases hu
      | ok result =>
        cases hu
        generalize hdone : (Routine.done (.ok (digest, told')) :
          Attempt P HashError (ByteArray × P)) = v at hstage
        cases hstage with
        | reading _ hleft _ => exact absurd hdone.symm (hleft _)
        | finalizing _ _ hleft => exact absurd hdone.symm ((hleft.bind _).bind _ _)
        | failed => cases hdone
        | hashed hread hsize hdigest =>
          cases hdone
          exact ⟨device, _, ⟨opened, begun, es, rfl, hdevice, hbegun, hread⟩, hsize, hdigest⟩
    | _ => cases hu

theorem HashesTo.size_eq {s : Setting P} {p : Partition} {step : Step} {es : Trace P}
    {digest : ByteArray} (h : HashesTo s p step es digest) :
    digest.size = partitionAlgorithm.digestSize := by
  obtain ⟨_, contents, -, -, rfl⟩ := h
  exact Digest.size_digest _ _

end SlotVerify.Verification
