import SlotVerify.CommandLine.Session
import SlotVerify.Proofs.Rig.Device
import SlotVerify.Proofs.Routine.Passage
import SlotVerify.Proofs.Verification.Hashing
import SlotVerify.Proofs.Verity.Stream
/-
  How the hashing of a partition uses the writer.

  `Protocol` lists the stages that a passage through the hashing can have come to, with what has
  happened until then.  While the file system data is read (`Feeds`), each chunk goes to the writer
  where the last one ended; only when all of it has been fed is the writer finalized, once, and only
  behind the end of what it hands out is the rest of the partition read.

  The passages branch over all answers, so this holds for every device, however its reads are cut,
  and for every writer.  The one loop of the feeding is followed by induction on what is left to
  read (`feedsUpTo_hashUpTo`); the stages are then put together along the sequence of the parts
  (`protocol_hashPartition`).  Counted in bytes, the stages say that a passage to the end has
  finalized the writer exactly if it has fed it everything (`Protocol.finalized_iff`).
-/

namespace SlotVerify.Verification

open Device Routine

variable {P : Type}

/-- What happens in a verification. -/
abbrev Trace (P : Type) := List (Happening (interface P))

/-- A writer is called. -/
abbrev updated (offset : Nat) (data : ByteArray) (answer : Except Verity.Error Unit) :
    Happening (interface P) :=
  .called (I := interface P) (Call.updateWriter offset data) answer

/-- A writer is asked to hand out its metadata. -/
abbrev finalized (answer : Except Verity.Error (Verity.DeviceRoutine Unit)) :
    Happening (interface P) :=
  .called (I := interface P) Call.finalizeWriter answer

/-- The writer is fed from one offset to another: every update begins where the last one ended, the
    reads in between stay in front of `stop`, and nothing else happens but that progress is reported
    and that the driver wakes its task and gives way. -/
inductive Feeds (device : OpenedDevice) (stop : Nat) : (first last : Nat) → Trace P → Prop where
  | nil {offset : Nat} : Feeds device stop offset offset []
  | read {first last length : Nat} {outcome : Except IoError ByteArray} {es : Trace P}
      (hinside : first + length ≤ stop) (h : Feeds device stop first last es) :
      Feeds device stop first last (.served device (.read first length) outcome :: es)
  | update {first last : Nat} {data : ByteArray} {es : Trace P} (hinside : first + data.size ≤ stop)
      (h : Feeds device stop (first + data.size) last es) :
      Feeds device stop first last (updated first data (.ok ()) :: es)
  | report {first last : Nat} {progress : P} {es : Trace P} (h : Feeds device stop first last es) :
      Feeds device stop first last (.called (I := interface P) (Call.report progress) () :: es)
  | wake {first last : Nat} {es : Trace P} (h : Feeds device stop first last es) :
      Feeds device stop first last (.called (I := interface P) Call.wake () :: es)
  | pause {first last : Nat} {es : Trace P} (h : Feeds device stop first last es) :
      Feeds device stop first last (.paused :: es)

/-- The stages of hashing a partition of `size` bytes with a writer that is fed up to `dataEnd`:
    what has happened, and what is left to do. -/
inductive Protocol {α : Type} (device : OpenedDevice) (dataEnd size : Nat) :
    Trace P → Attempt P HashError α → Prop where
  /-- The writer is being fed. -/
  | feeding {last : Nat} {es : Trace P} {u : Attempt P HashError α}
      (hfed : Feeds device dataEnd 0 last es) (hleft : u.Unfinished) :
      Protocol device dataEnd size es u
  /-- The data could not be read to its end. -/
  | unread {last : Nat} {es : Trace P} {e : HashError} (hfed : Feeds device dataEnd 0 last es)
      (hlast : last < dataEnd) (he : ∀ cause, e ≠ .verity cause) :
      Protocol device dataEnd size es (.done (.error e))
  /-- The writer refused an update. -/
  | refused {last : Nat} {es : Trace P} {data : ByteArray} {cause : Verity.Error}
      (hfed : Feeds device dataEnd 0 last es) (hsome : 0 < data.size)
      (hinside : last + data.size ≤ dataEnd) :
      Protocol device dataEnd size (es ++ [updated last data (.error cause)])
        (.done (.error (.verity cause)))
  /-- The writer had been fed all of the data, and refused to hand out its metadata. -/
  | unfinalized {es : Trace P} {cause : Verity.Error} (hfed : Feeds device dataEnd 0 dataEnd es) :
      Protocol device dataEnd size (es ++ [finalized (.error cause)])
        (.done (.error (.verity cause)))
  /-- What it handed out is being written. -/
  | writing {es written : Trace P} {t : Verity.DeviceRoutine Unit}
      {v : Attempt P Verity.Error Unit} {u : Attempt P HashError α}
      (hfed : Feeds device dataEnd 0 dataEnd es) (hwriting : (t.on P device).Reaches written v)
      (hv : v.Unfinished) (hleft : u.Unfinished) :
      Protocol device dataEnd size (es ++ finalized (.ok t) :: written) u
  /-- It could not be written. -/
  | unwritten {es written : Trace P} {t : Verity.DeviceRoutine Unit} {cause : Verity.Error}
      (hfed : Feeds device dataEnd 0 dataEnd es)
      (hwriting : (t.on P device).Reaches written (.done (.error cause))) :
      Protocol device dataEnd size (es ++ finalized (.ok t) :: written)
        (.done (.error (.verity cause)))
  /-- It has been written, and the rest of the partition is read. -/
  | behind {es written later : Trace P} {t : Verity.DeviceRoutine Unit}
      {u : Attempt P HashError α} (hfed : Feeds device dataEnd 0 dataEnd es)
      (hwritten : (t.on P device).Reaches written (.done (.ok ())))
      (hlater : ∀ e ∈ later, e.Permitted Call.OfReading (ReadBetween device dataEnd size))
      (hu : ∀ cause, u ≠ .done (.error (.verity cause))) :
      Protocol device dataEnd size (es ++ finalized (.ok t) :: (written ++ later)) u

/-! ## Feeding -/

/-- What a passage through the reading with a writer has come to, from an offset on. -/
inductive FeedsUpTo (device : OpenedDevice) (stop first : Nat) :
    Trace P → Attempt P HashError (Position P) → Prop where
  | going {last : Nat} {es : Trace P} {u : Attempt P HashError (Position P)}
      (hfed : Feeds device stop first last es) (hleft : u.Unfinished) :
      FeedsUpTo device stop first es u
  | unread {last : Nat} {es : Trace P} {e : HashError} (hfed : Feeds device stop first last es)
      (hlast : last < stop) (he : ∀ cause, e ≠ .verity cause) :
      FeedsUpTo device stop first es (.done (.error e))
  | refused {last : Nat} {es : Trace P} {data : ByteArray} {cause : Verity.Error}
      (hfed : Feeds device stop first last es) (hsome : 0 < data.size)
      (hinside : last + data.size ≤ stop) :
      FeedsUpTo device stop first (es ++ [updated last data (.error cause)])
        (.done (.error (.verity cause)))
  | fed {es : Trace P} {pos : Position P} (hfed : Feeds device stop first stop es)
      (hpos : pos.offset = stop) : FeedsUpTo device stop first es (.done (.ok pos))

/-- A happening in front that belongs to the feeding. -/
theorem FeedsUpTo.cons {device : OpenedDevice} {stop first first' : Nat}
    {e : Happening (interface P)}
    (hcons : ∀ {last es}, Feeds device stop first' last es → Feeds device stop first last (e :: es))
    {es : Trace P} {u : Attempt P HashError (Position P)} (h : FeedsUpTo device stop first' es u) :
    FeedsUpTo device stop first (e :: es) u := by
  cases h with
  | going hfed hleft => exact .going (hcons hfed) hleft
  | unread hfed hlast he => exact .unread (hcons hfed) hlast he
  | refused hfed hsome hinside => exact .refused (hcons hfed) hsome hinside
  | fed hfed hpos => exact .fed (hcons hfed) hpos

/-- Progress may be reported. -/
theorem feedsUpTo_tell {device : OpenedDevice} {stop first : Nat} {scale : Scale P}
    {reported progress : P} {next : P → Attempt P HashError (Position P)}
    (hnext : ∀ {told es u}, (next told).Reaches es u → FeedsUpTo device stop first es u)
    {es : Trace P} {u : Attempt P HashError (Position P)}
    (h : (tell scale reported progress next).Reaches es u) : FeedsUpTo device stop first es u := by
  unfold tell at h
  split at h
  · cases h with
    | refl => exact .going .nil (unfinished_call _ _)
    | call _ h => exact .cons .report (hnext h)
  · exact hnext h

/-- One chunk: the writer takes it and the feeding goes on behind it, or it refuses it. -/
theorem feedsUpTo_feed {device : OpenedDevice} {stop first : Nat} {chunk : ByteArray}
    (hsome : 0 < chunk.size) (hinside : first + chunk.size ≤ stop)
    {next : Attempt P HashError (Position P)}
    (hnext : ∀ {es u}, next.Reaches es u → FeedsUpTo device stop (first + chunk.size) es u)
    {es : Trace P} {u : Attempt P HashError (Position P)}
    (h : ((feed true first chunk).andThen fun _ => next).Reaches es u) :
    FeedsUpTo device stop first es u := by
  cases h with
  | refl => exact .going .nil (unfinished_call _ _)
  | call answer h =>
    cases answer with
    | error cause =>
      obtain ⟨rfl, rfl⟩ := reaches_done h
      show FeedsUpTo _ _ _ ([] ++ [updated first chunk (.error cause)]) _
      exact .refused .nil hsome hinside
    | ok _ => exact .cons (.update hinside) (hnext h)

/-- Reading up to `stop` feeds the writer all the way, or stops on the way for a reason. -/
theorem feedsUpTo_hashUpTo (scale : Scale P) (subject : Subject) {stop : Nat} {pos : Position P}
    (hstop : pos.offset ≤ stop) {es : Trace P} {u : Attempt P HashError (Position P)}
    (h : (hashUpTo scale subject true stop pos).Reaches es u) :
    FeedsUpTo subject.device stop pos.offset es u := by
  induction pos using hashUpTo_induction stop generalizing es u with
  | ended pos hend =>
    rw [hashUpTo_of_le hend] at h
    obtain ⟨rfl, rfl⟩ := reaches_done h
    have hsame := Nat.le_antisymm hstop hend
    subst hsame
    exact .fed .nil rfl
  | chunk pos hmore ih =>
    rw [hashUpTo_of_lt hmore] at h
    cases h with
    | refl => exact .going .nil (unfinished_request _ _ _)
    | request outcome h =>
      refine .cons (.read (by unfold chunkLength; omega)) ?_
      obtain ⟨e, he, hfail⟩ | ⟨chunk, hsome, hlength, hchunk⟩ :=
        afterRead_cases scale subject true stop pos outcome
      · rw [hfail] at h
        obtain ⟨rfl, rfl⟩ := reaches_done h
        exact .unread .nil hmore he
      · rw [hchunk] at h
        have hinside := behind_le hstop hlength
        refine feedsUpTo_feed hsome hinside ?_ h
        intro es u h
        cases h with
        | refl => exact .going .nil (unfinished_call _ _)
        | call _ h =>
          refine .cons .wake (feedsUpTo_tell ?_ h)
          intro told es u h
          cases h with
          | refl => exact .going .nil (unfinished_pause _)
          | pause h => exact .cons .pause (ih chunk told hsome hlength hinside h)

/-! ## The other parts -/

/-- A passage through a sequence ends inside the first part, or with its error, or it has come
    through it. -/
theorem Attempt.reaches_andThen {ε α β : Type} {t : Attempt P ε α} {f : α → Attempt P ε β}
    {es : Trace P} {u : Attempt P ε β} (h : (t.andThen f).Reaches es u) :
    (∃ t', t.Reaches es t' ∧ t'.Unfinished ∧ u.Unfinished) ∨
    (∃ e, t.Reaches es (.done (.error e)) ∧ u = .done (.error e)) ∨
    ∃ es₁ a es₂, es = es₁ ++ es₂ ∧ t.Reaches es₁ (.done (.ok a)) ∧ (f a).Reaches es₂ u := by
  rcases reaches_bind t h with ⟨t', ht', hleft, rfl⟩ | ⟨es₁, outcome, es₂, rfl, ht, hf⟩
  · exact .inl ⟨t', ht', hleft, hleft.bind _⟩
  · cases outcome with
    | error e =>
      obtain ⟨rfl, rfl⟩ := reaches_done hf
      rw [List.append_nil]
      exact .inr (.inl ⟨e, ht, rfl⟩)
    | ok a => exact .inr (.inr ⟨es₁, a, es₂, rfl, ht, hf⟩)

/-- A passage through a sequence is still in the first part, also if that has failed, or it has come
    to the second one. -/
theorem Attempt.reaches_parts {ε α β : Type} {t : Attempt P ε α} {f : α → Attempt P ε β}
    {es : Trace P} {u : Attempt P ε β} (h : (t.andThen f).Reaches es u) :
    (∃ t' : Attempt P ε α, t.Reaches es t' ∧ (∀ a, t' ≠ .done (.ok a)) ∧ u = t'.andThen f) ∨
      ∃ es₁ a es₂, es = es₁ ++ es₂ ∧ t.Reaches es₁ (.done (.ok a)) ∧ (f a).Reaches es₂ u := by
  rcases reaches_bind t h with ⟨t', ht, hleft, rfl⟩ | ⟨es₁, outcome, es₂, rfl, ht, hf⟩
  · exact .inl ⟨t', ht, fun a => hleft _, rfl⟩
  · cases outcome with
    | error e =>
      obtain ⟨rfl, rfl⟩ := reaches_done hf
      rw [List.append_nil]
      exact .inl ⟨.done (.error e), ht, nofun, rfl⟩
    | ok a => exact .inr ⟨es₁, a, es₂, rfl, ht, hf⟩

/-- What a passage through the finalization has come to. -/
inductive Finalizes (device : OpenedDevice) : Trace P → Attempt P HashError Unit → Prop where
  | asking {u : Attempt P HashError Unit} (hleft : u.Unfinished) : Finalizes device [] u
  | refused {cause : Verity.Error} :
      Finalizes device [finalized (.error cause)] (.done (.error (.verity cause)))
  | writing {written : Trace P} {t : Verity.DeviceRoutine Unit} {v : Attempt P Verity.Error Unit}
      {u : Attempt P HashError Unit} (hwriting : (t.on P device).Reaches written v)
      (hv : v.Unfinished) (hleft : u.Unfinished) :
      Finalizes device (finalized (.ok t) :: written) u
  | unwritten {written : Trace P} {t : Verity.DeviceRoutine Unit} {cause : Verity.Error}
      (hwriting : (t.on P device).Reaches written (.done (.error cause))) :
      Finalizes device (finalized (.ok t) :: written) (.done (.error (.verity cause)))
  | written {written : Trace P} {t : Verity.DeviceRoutine Unit}
      (hwritten : (t.on P device).Reaches written (.done (.ok ()))) :
      Finalizes device (finalized (.ok t) :: written) (.done (.ok ()))

theorem finalizes_finalizeOn {d : OpenedDevice} {es : Trace P} {u : Attempt P HashError Unit}
    (h : (finalizeOn d).Reaches es u) : Finalizes d es u := by
  cases h with
  | refl => exact .asking (unfinished_call _ _)
  | call answer h =>
    cases answer with
    | error cause =>
      obtain ⟨rfl, rfl⟩ := reaches_done h
      exact .refused
    | ok t =>
      rcases reaches_bind _ h with ⟨v, hv, hleft, rfl⟩ | ⟨es₁, outcome, es₂, rfl, ht, hdone⟩
      · exact .writing hv hleft (hleft.bind _)
      · obtain ⟨rfl, rfl⟩ := reaches_done hdone
        rw [List.append_nil]
        cases outcome with
        | error cause => exact .unwritten ht
        | ok _ => exact .written ht

/-! ## A whole partition -/

/-- A passage through the hashing of a partition with a writer is in one of the stages. -/
theorem protocol_hashPartition (scale : Scale P) (subject : Subject) (dataEnd : Nat) (reported : P)
    {es : Trace P} {u : Attempt P HashError (ByteArray × P)}
    (h : (hashPartition scale subject dataEnd true reported).Reaches es u) :
    Protocol subject.device (min dataEnd subject.size) subject.size es u := by
  rcases Attempt.reaches_andThen h with ⟨t', ht, hleft, hu⟩ | ⟨e, ht, rfl⟩ |
    ⟨fed, pos, rest, rfl, ht, hrest⟩
  · cases feedsUpTo_hashUpTo scale subject (Nat.zero_le _) ht with
    | going hfed _ => exact .feeding hfed hu
    | unread => exact absurd rfl (hleft _)
    | refused => exact absurd rfl (hleft _)
    | fed => exact absurd rfl (hleft _)
  · cases feedsUpTo_hashUpTo scale subject (Nat.zero_le _) ht with
    | going _ hleft => exact absurd rfl (hleft _)
    | unread hfed hlast he => exact .unread hfed hlast he
    | refused hfed hsome hinside => exact .refused hfed hsome hinside
  · obtain ⟨hfed, hpos⟩ : Feeds subject.device (min dataEnd subject.size) 0
        (min dataEnd subject.size) fed ∧ pos.offset = min dataEnd subject.size := by
      cases feedsUpTo_hashUpTo scale subject (Nat.zero_le _) ht with
      | going _ hleft => exact absurd rfl (hleft _)
      | fed hfed hpos => exact ⟨hfed, hpos⟩
    rcases Attempt.reaches_andThen hrest with ⟨t', ht, hleft, hu⟩ | ⟨e, ht, rfl⟩ |
      ⟨between, _, later, rfl, ht, hbehind⟩
    · cases finalizes_finalizeOn ht with
      | asking hleft =>
        rw [List.append_nil]
        exact .feeding hfed hu
      | refused => exact absurd rfl (hleft _)
      | writing hwriting hv _ => exact .writing hfed hwriting hv hu
      | unwritten => exact absurd rfl (hleft _)
      | written => exact absurd rfl (hleft _)
    · cases finalizes_finalizeOn ht with
      | asking hleft => exact absurd rfl (hleft _)
      | refused => exact .unfinalized hfed
      | writing _ _ hleft => exact absurd rfl (hleft _)
      | unwritten hwriting => exact .unwritten hfed hwriting
    · obtain ⟨t, written, rfl, hwritten⟩ : ∃ t written, between = finalized (.ok t) :: written ∧
          (t.on P subject.device).Reaches written (.done (.ok ())) := by
        cases finalizes_finalizeOn ht with
        | asking hleft => exact absurd rfl (hleft _)
        | writing _ _ hleft => exact absurd rfl (hleft _)
        | written hwritten => exact ⟨_, _, rfl, hwritten⟩
      have hread := only_rest scale subject pos
      rw [hpos] at hread
      obtain ⟨hlater, hu⟩ := Only.reaches hbehind hread
      refine .behind hfed hwritten hlater ?_
      rintro cause rfl
      exact hu cause rfl

/-! ## What the writer has been fed -/

/-- The bytes that a call feeds to the writer, if that takes them. -/
def Call.bytesTaken : (c : Call P) → c.Answer → Nat
  | .updateWriter _ data, .ok () => data.size
  | _, _ => 0

/-- The bytes that something feeds to the writer. -/
def bytesTaken : Happening (interface P) → Nat
  | .called c answer => Call.bytesTaken c answer
  | .served .. | .paused => 0

/-- The bytes that the writer has been fed. -/
def bytesFed : Trace P → Nat
  | [] => 0
  | e :: es => bytesTaken e + bytesFed es

@[simp] theorem bytesFed_cons (e : Happening (interface P)) (es : Trace P) :
    bytesFed (e :: es) = bytesTaken e + bytesFed es := rfl

@[simp] theorem bytesFed_append (es es' : Trace P) :
    bytesFed (es ++ es') = bytesFed es + bytesFed es' := by
  induction es with
  | nil => exact (Nat.zero_add _).symm
  | cons e es ih => rw [List.cons_append, bytesFed_cons, bytesFed_cons, ih, Nat.add_assoc]

/-- A call of the reading, or an update that the writer takes. -/
def Call.Taken : (c : Call P) → c.Answer → Prop
  | .updateWriter .., answer => answer = .ok ()
  | .report _, _ | .wake, _ => True
  | _, _ => False

/-- No call but those of the reading and updates that the writer takes. -/
def Taken : Happening (interface P) → Prop
  | .called c answer => Call.Taken c answer
  | .served .. | .paused => True

theorem bytesFed_of_permitted {okRequest : OpenedDevice → Request → Prop} {es : Trace P}
    (h : ∀ e ∈ es, e.Permitted Call.OfReading okRequest) : bytesFed es = 0 := by
  induction es with
  | nil => rfl
  | cons e es ih =>
    obtain ⟨he, hes⟩ := List.forall_mem_cons.mp h
    rw [bytesFed_cons, ih hes]
    match e, he with
    | .called (.report _) _, _ => rfl
    | .called .wake _, _ => rfl
    | .served .., _ => rfl
    | .paused, _ => rfl

/-- What a writer hands out calls no one, and works on its device only. -/
theorem only_on (t : Verity.DeviceRoutine Unit) (device : OpenedDevice) :
    (t.on P device).Only (fun _ => False) (fun d _ => d = device) fun _ => True :=
  only_onDevice (fun _ _ _ => rfl) t.only_true

/-- What a writer hands out does not call anyone. -/
theorem permitted_on {t : Verity.DeviceRoutine Unit} {d : OpenedDevice} {es : Trace P}
    {v : Attempt P Verity.Error Unit} (h : (t.on P d).Reaches es v) :
    ∀ e ∈ es, e.Permitted Call.OfReading fun d' _ => d' = d :=
  (Only.reaches h (only_onDevice (fun _ _ _ => rfl) t.only_true)).1

namespace Feeds

variable {device : OpenedDevice} {stop first last : Nat} {es : Trace P}

theorem bytesFed_eq (h : Feeds device stop first last es) : first + bytesFed es = last := by
  induction h with
  | nil => rfl
  | update _ _ ih =>
    rw [bytesFed_cons, ← ih, Nat.add_assoc]
    rfl
  | _ =>
    -- nothing else feeds the writer
    rename_i ih
    rw [bytesFed_cons, ← ih]
    exact congrArg _ (Nat.zero_add _)

theorem taken (h : Feeds device stop first last es) : ∀ e ∈ es, Taken e := by
  induction h with
  | nil => exact nofun
  | update _ _ ih => exact List.forall_mem_cons.mpr ⟨rfl, ih⟩
  | _ =>
    rename_i ih
    exact List.forall_mem_cons.mpr ⟨trivial, ih⟩

end Feeds

theorem taken_of_permitted {okRequest : OpenedDevice → Request → Prop}
    {e : Happening (interface P)} (h : e.Permitted Call.OfReading okRequest) : Taken e := by
  match e, h with
  | .called (.report _) _, _ => trivial
  | .called .wake _, _ => trivial
  | .served .., _ => trivial
  | .paused, _ => trivial

namespace Protocol

variable {α : Type} {device : OpenedDevice} {dataEnd size : Nat} {es : Trace P}

/-- Once the writer has been fed all of the data, nothing more is fed. -/
theorem bytesFed_of_fed {fed rest : Trace P}
    {answer : Except Verity.Error (Verity.DeviceRoutine Unit)}
    (hfed : Feeds device dataEnd 0 dataEnd fed) (hrest : bytesFed rest = 0) :
    bytesFed (fed ++ finalized answer :: rest) = dataEnd := by
  rw [bytesFed_append, bytesFed_cons, hrest, ← hfed.bytesFed_eq, Nat.zero_add]
  rfl

theorem bytesFed_of_ok {a : α} (h : Protocol device dataEnd size es (.done (.ok a))) :
    bytesFed es = dataEnd := by
  generalize hu : (Routine.done (.ok a) : Attempt P HashError α) = u at h
  cases h with
  | feeding _ hleft => exact absurd hu.symm (hleft _)
  | writing _ _ _ hleft => exact absurd hu.symm (hleft _)
  | behind hfed hwritten hlater _ =>
    refine bytesFed_of_fed hfed ?_
    rw [bytesFed_append, bytesFed_of_permitted (permitted_on hwritten),
      bytesFed_of_permitted hlater]
  | _ => cases hu

/-- In a passage to the end the writer is finalized exactly if it has been fed all of the data. -/
theorem finalized_iff {outcome : Except HashError α}
    (h : Protocol device dataEnd size es (.done outcome)) :
    (∃ answer, finalized answer ∈ es) ↔ bytesFed es = dataEnd := by
  have hsome : ∀ {fed rest : Trace P} {answer}, Feeds device dataEnd 0 dataEnd fed →
      bytesFed rest = 0 → ((∃ answer', finalized answer' ∈ fed ++ finalized answer :: rest) ↔
        bytesFed (fed ++ finalized answer :: rest) = dataEnd) := by
    intro fed rest answer hfed hrest
    exact iff_of_true ⟨answer, List.mem_append_right _ (List.mem_cons_self ..)⟩
      (bytesFed_of_fed hfed hrest)
  generalize hu : (Routine.done outcome : Attempt P HashError α) = u at h
  cases h with
  | feeding _ hleft => exact absurd hu.symm (hleft _)
  | unread hfed hlast _ =>
    have hbytes := hfed.bytesFed_eq
    refine iff_of_false ?_ (by omega)
    rintro ⟨answer, hmem⟩
    exact hfed.taken _ hmem
  | refused hfed hsome hinside =>
    have hbytes := hfed.bytesFed_eq
    refine iff_of_false ?_ ?_
    · rintro ⟨answer, hmem⟩
      rcases List.mem_append.mp hmem with hmem | hmem
      · exact hfed.taken _ hmem
      · cases List.mem_singleton.mp hmem
    · rw [bytesFed_append]
      change _ + 0 ≠ dataEnd
      omega
  | unfinalized hfed => exact hsome hfed rfl
  | writing _ _ _ hleft => exact absurd hu.symm (hleft _)
  | unwritten hfed hwriting => exact hsome hfed (bytesFed_of_permitted (permitted_on hwriting))
  | behind hfed hwritten hlater _ =>
    refine hsome hfed ?_
    rw [bytesFed_append, bytesFed_of_permitted (permitted_on hwritten),
      bytesFed_of_permitted hlater]

end Protocol

end SlotVerify.Verification
