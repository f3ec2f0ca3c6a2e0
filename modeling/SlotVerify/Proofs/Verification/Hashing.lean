import SlotVerify.Proofs.Digest.Stream
import SlotVerify.Proofs.Rig.Images
import SlotVerify.Proofs.Verification.Reading
/-
  What hashing a partition comes to.

  `Position.Covers` is the invariant of the reading: the hash computation has been fed the image up
  to the position, however the reads were cut.  A partition is hashed in two stretches, and between
  them its metadata may be written, so the digest is that of the image as it was in front of the end
  of the file system data and as it is behind it (`meets_hashPartition`).

  On a quiet rig that nothing is written to, the only thing that can fail is that the image ends too
  early, and the error then says where.
-/

namespace SlotVerify.Verification

variable {P : Type}

open Rig (host surroundings Still Frame SameBut)

/-! ## Sequences -/

namespace Attempt

variable {ε ε' α β : Type} {inv : Rig P → Prop}

/-- A sequence, from what its first part comes to. -/
theorem meets_andThen {middle : Option (Except ε α) → Rig P → Prop}
    {post : Option (Except ε β) → Rig P → Prop} {t : Attempt P ε α} {f : α → Attempt P ε β}
    {r : Rig P} (ht : t.Meets host (surroundings P) inv middle r)
    (hok : ∀ a r', middle (some (.ok a)) r' → (f a).Meets host (surroundings P) inv post r')
    (herror : ∀ e r', middle (some (.error e)) r' → post (some (.error e)) r')
    (hbroken : ∀ r', middle none r' → post none r') :
    (t.andThen f).Meets host (surroundings P) inv post r := by
  apply Routine.meets_bind
  refine ht.mono (fun _ => id) ?_
  intro outcome r' hmiddle
  match outcome with
  | none => exact hbroken r' hmiddle
  | some (.ok a) => exact hok a r' hmiddle
  | some (.error e) => exact herror e r' hmiddle

theorem meets_mapError {post : Option (Except ε' α) → Rig P → Prop} {t : Attempt P ε α}
    {f : ε → ε'} {r : Rig P}
    (ht : t.Meets host (surroundings P) inv (fun a => post (a.map (·.mapError f))) r) :
    (t.mapError f).Meets host (surroundings P) inv post r := by
  apply Routine.meets_bind
  refine ht.mono (fun _ => id) ?_
  intro outcome r' hpost
  cases outcome with
  | none => exact hpost
  | some result => exact hpost

end Attempt

/-! ## Reading and hashing -/

/-- `base` has been hashed, and then the image from `first` up to the position. -/
structure Position.Covers (pos : Position P) (base image : ByteArray) (first : Nat) : Prop where
  first_le : first ≤ pos.offset
  offset_le : pos.offset ≤ image.size
  hasher : pos.hasher = .fed partitionAlgorithm (base ++ image.extract first pos.offset)

/-- Before anything is read, nothing has been hashed. -/
theorem Position.covers_start (reported : P) (image : ByteArray) :
    Position.Covers ⟨0, .start partitionAlgorithm, reported⟩ ByteArray.empty image 0 := by
  refine ⟨Nat.le_refl 0, Nat.zero_le _, ?_⟩
  rw [ByteArray.extract_same, ByteArray.append_empty, Digest.Hasher.fed_empty]

/-- The next stretch of the image is hashed. -/
theorem Position.Covers.behind {pos : Position P} {base image : ByteArray} {first n : Nat}
    (h : pos.Covers base image first) (hn : n ≤ image.size - pos.offset) (told : P) :
    (pos.behind (image.extract pos.offset (pos.offset + n)) told).Covers base image first := by
  have hlow := h.first_le
  have hhigh := h.offset_le
  have hsize : (image.extract pos.offset (pos.offset + n)).size = n := Bytes.size_slice_of_le hn
  unfold Position.behind
  rw [hsize]
  refine ⟨?_, ?_, ?_⟩
  · show first ≤ pos.offset + n
    omega
  · show pos.offset + n ≤ image.size
    omega
  · show pos.hasher.update _ = _
    rw [h.hasher, Digest.Hasher.update_fed, ByteArray.append_assoc,
      ByteArray.extract_append_extract, Nat.min_eq_left hlow, Nat.max_eq_right (by omega)]

/-- The hash computation goes on with what it was fed before the image changed. -/
theorem Position.Covers.resume {pos : Position P} {before after : ByteArray}
    (h : pos.Covers ByteArray.empty before 0) (hsize : after.size = before.size) :
    pos.Covers (before.extract 0 pos.offset) after pos.offset := by
  refine ⟨Nat.le_refl _, ?_, ?_⟩
  · rw [hsize]
    exact h.offset_le
  · rw [h.hasher, ByteArray.extract_same, ByteArray.append_empty, ByteArray.empty_append]

/-- Progress may be reported. -/
theorem meets_tell {α : Type} {inv : Rig P → Prop} {post : Option α → Rig P → Prop} {r : Rig P}
    {scale : Scale P} {reported progress : P} {next : P → Routine (interface P) α}
    (h : ∀ r' told, Still r r' → (next told).Meets host (surroundings P) inv post r') :
    (tell scale reported progress next).Meets host (surroundings P) inv post r := by
  unfold tell
  split
  · exact h (r.hear progress) progress (Rig.still_hear r progress)
  · exact h r reported (.refl r)

/-- Only a writer that is fed can object. -/
theorem meets_feed {inv : Rig P → Prop} (feeding : Bool) (offset : Nat) (bytes : ByteArray)
    (r : Rig P) :
    (feed feeding offset bytes).Meets host (surroundings P) inv
      (fun a r' => Still r r' ∧ a ≠ none ∧ (feeding = false → a = some (.ok ()))) r := by
  unfold feed
  cases feeding with
  | true =>
    refine ⟨Rig.still_updateWriter r offset bytes, ?_, ?_⟩
    · intro h
      cases h
    · intro h
      cases h
  | false =>
    refine ⟨.refl r, ?_, fun _ => rfl⟩
    intro h
    cases h

/-- What reading up to `stop` comes to. -/
def ReadUpTo (r : Rig P) (base image : ByteArray) (first stop : Nat) (feeding : Bool) :
    Option (Except HashError (Position P)) → Rig P → Prop
  | some (.ok pos), r' => Still r r' ∧ pos.offset = stop ∧ pos.Covers base image first
  | some (.error e), r' => Still r r' ∧
    (feeding = false → r.Quiet → e = .unexpectedEnd image.size ∧ image.size < stop)
  | none, _ => False

/-- A chunk is fed and told; only a writer that is fed can keep the reading from going on. -/
theorem meets_withChunk {inv : Rig P → Prop}
    {post : Option (Except HashError (Position P)) → Rig P → Prop} {scale : Scale P}
    {subject : Subject} {feeding : Bool} {stop : Nat} {pos : Position P} {chunk : ByteArray}
    {r : Rig P}
    (hbehind : ∀ r' told, Still r r' → inv r' ∧
      (hashUpTo scale subject feeding stop (pos.behind chunk told)).Meets host (surroundings P) inv
        post r')
    (hrefused : feeding = true → ∀ r' e, Still r r' → post (some (.error e)) r') :
    (withChunk scale subject feeding stop pos chunk).Meets host (surroundings P) inv post r := by
  refine Attempt.meets_andThen (meets_feed feeding pos.offset chunk r) ?_ ?_ ?_
  · rintro - r₁ ⟨hfed, -, -⟩
    apply meets_tell
    intro r₂ told htold
    apply Rig.meets_pause
    intro r₃ hpause
    exact hbehind r₃ told (hfed.trans (htold.trans hpause))
  · rintro e r₁ ⟨hfed, -, hquiet⟩
    cases feeding with
    | true => exact hrefused rfl r₁ e hfed
    | false => cases hquiet rfl
  · rintro r₁ ⟨-, hsome, -⟩
    exact absurd rfl hsome

theorem meets_hashUpTo {inv : Rig P → Prop} (scale : Scale P) (subject : Subject) (feeding : Bool)
    {stop first : Nat} {base : ByteArray} {r : Rig P} (hinv : ∀ r', Still r r' → inv r')
    {pos : Position P} (hpos : pos.Covers base (r.device subject.device).image first)
    (hstop : pos.offset ≤ stop) :
    (hashUpTo scale subject feeding stop pos).Meets host (surroundings P) inv
      (ReadUpTo r base (r.device subject.device).image first stop feeding) r := by
  -- from any rig that is still as the first one
  suffices h : ∀ r' : Rig P, Still r r' →
      (hashUpTo scale subject feeding stop pos).Meets host (surroundings P) inv
        (ReadUpTo r base (r.device subject.device).image first stop feeding) r' from h r (.refl r)
  intro r' hstill
  induction pos using hashUpTo_induction stop generalizing r' with
  | ended pos hend =>
    rw [hashUpTo_of_le hend]
    exact ⟨hstill, Nat.le_antisymm hstop hend, hpos⟩
  | chunk pos hmore ih =>
    rw [hashUpTo_eq_read hmore]
    apply Rig.meets_read
    · intro r₁ hread
      exact hinv r₁ (hstill.trans hread)
    · intro hloud r₁ e hread
      exact ⟨hstill.trans hread, fun _ hq => absurd (hstill.quiet hq) hloud⟩
    · intro r₁ n hread hlength hsize hsome
      have hstill₁ := hstill.trans hread
      rw [hstill.device_image] at hsize hsome ⊢
      have hbytes : ((r.device subject.device).image.extract pos.offset (pos.offset + n)).size =
          n := Bytes.size_slice_of_le hsize
      rcases Nat.eq_zero_or_pos n with hzero | hpositive
      · -- nothing came, so the image ends here
        rw [afterRead_of_size_eq_zero (hbytes.trans hzero)]
        refine ⟨hstill₁, fun _ hq => ?_⟩
        have hasked := chunkLength_pos hmore
        have hend := hsome (hstill.quiet hq) hzero
        have hoffset := hpos.offset_le
        have heq : pos.offset = (r.device subject.device).image.size := by omega
        exact ⟨congrArg HashError.unexpectedEnd heq, heq ▸ hmore⟩
      · rw [← hbytes] at hpositive hlength
        rw [afterRead_of_size_le hpositive hlength]
        apply meets_withChunk
        · intro r₂ told hchunk
          have hstill₂ := hstill₁.trans hchunk
          exact ⟨hinv r₂ hstill₂, ih _ told hpositive hlength (hpos.behind hsize told)
            (behind_le hstop hlength) r₂ hstill₂⟩
        · intro hfeeding r₂ e hchunk
          refine ⟨hstill₁.trans hchunk, fun hidle => ?_⟩
          rw [hfeeding] at hidle
          cases hidle

/-! ## Reading alone -/

/-- A call of a reading that feeds no writer: a progress report, or to be polled again. -/
def Call.OfReading : Call P → Prop
  | .report _ | .wake => True
  | _ => False

/-- A read of a device between two offsets. -/
def ReadBetween (device : OpenedDevice) (first stop : Nat) (d : OpenedDevice)
    (q : Device.Request) : Prop :=
  d = device ∧ ∃ offset length, q = .read offset length ∧ first ≤ offset ∧ offset + length ≤ stop

/-- A report may have to be permitted. -/
theorem only_tell {α : Type} {okCall : Call P → Prop}
    {okRequest : OpenedDevice → Device.Request → Prop} {okResult : α → Prop} {scale : Scale P}
    {reported progress : P} {next : P → Routine (interface P) α}
    (hreport : ∀ progress, okCall (.report progress))
    (h : ∀ told, (next told).Only okCall okRequest okResult) :
    (tell scale reported progress next).Only okCall okRequest okResult := by
  unfold tell
  split
  · exact ⟨hreport progress, fun _ => h progress⟩
  · exact h reported

/-- A writer that is not fed has no say. -/
theorem feed_false_andThen {β : Type} (offset : Nat) (bytes : ByteArray)
    (f : Unit → Attempt P HashError β) : (feed false offset bytes).andThen f = f () := rfl

/-- Reading without a writer does nothing else, and fails for no reason of a writer. -/
theorem only_hashUpTo (scale : Scale P) (subject : Subject) {stop : Nat} (pos : Position P) :
    (hashUpTo scale subject false stop pos).Only Call.OfReading
      (ReadBetween subject.device pos.offset stop)
      fun outcome => ∀ cause, outcome ≠ .error (.verity cause) := by
  suffices h : ∀ pos' : Position P, pos.offset ≤ pos'.offset →
      (hashUpTo scale subject false stop pos').Only Call.OfReading
        (ReadBetween subject.device pos.offset stop)
        fun outcome => ∀ cause, outcome ≠ .error (.verity cause) from h pos (Nat.le_refl _)
  intro pos' hfirst
  induction pos' using hashUpTo_induction stop with
  | ended pos' hend =>
    rw [hashUpTo_of_le hend]
    exact nofun
  | chunk pos' hmore ih =>
    rw [hashUpTo_of_lt hmore]
    refine ⟨⟨rfl, _, _, rfl, hfirst, by unfold chunkLength; omega⟩, fun outcome => ?_⟩
    obtain ⟨e, he, hfail⟩ | ⟨chunk, hsome, hlength, hchunk⟩ :=
      afterRead_cases scale subject false stop pos' outcome
    · rw [hfail]
      rintro cause ⟨⟩
      exact he cause rfl
    · rw [hchunk]
      unfold withChunk
      rw [feed_false_andThen]
      refine ⟨trivial, fun _ => only_tell (fun _ => trivial) fun told => ?_⟩
      exact ih chunk told hsome hlength (Nat.le_add_right_of_le hfirst)

/-- The rest of a partition is only read. -/
theorem only_rest (scale : Scale P) (subject : Subject) (pos : Position P) :
    ((hashUpTo scale subject false subject.size pos).andThen fun position =>
      Attempt.succeed (position.hasher.finish, position.reported)).Only Call.OfReading
        (ReadBetween subject.device pos.offset subject.size)
        fun outcome => ∀ cause, outcome ≠ .error (.verity cause) := by
  refine Routine.only_bind (only_hashUpTo scale subject pos) ?_
  intro outcome houtcome
  cases outcome with
  | error e =>
    rintro cause ⟨⟩
    exact houtcome cause rfl
  | ok pos => exact nofun

/-- Without a writer a partition is only read. -/
theorem reads_hashPartition (scale : Scale P) (subject : Subject) (dataEnd : Nat) (reported : P) :
    (hashPartition scale subject dataEnd false reported).Only Call.OfReading
      (ReadBetween subject.device 0 subject.size) fun _ => True := by
  have hinside : ∀ {first stop : Nat}, stop ≤ subject.size → ∀ d q,
      ReadBetween subject.device first stop d q →
        ReadBetween subject.device 0 subject.size d q := by
    rintro first stop hstop d q ⟨rfl, offset, length, rfl, -, hlast⟩
    exact ⟨rfl, offset, length, rfl, Nat.zero_le _, Nat.le_trans hlast hstop⟩
  have hfirst : (hashUpTo scale subject false (min dataEnd subject.size)
      ⟨0, .start partitionAlgorithm, reported⟩).Only Call.OfReading
      (ReadBetween subject.device 0 (min dataEnd subject.size)) _ :=
    only_hashUpTo scale subject ⟨0, .start partitionAlgorithm, reported⟩
  refine Routine.only_bind
    (hfirst.mono (fun _ => id) (hinside (Nat.min_le_right _ _)) fun _ => id) ?_
  intro outcome _
  cases outcome with
  | error e => trivial
  | ok pos =>
    exact (only_rest scale subject pos).mono (fun _ => id) (hinside (Nat.le_refl _))
      fun _ _ => trivial

/-! ## Writing the metadata -/

/-- Places in the image behind a device. -/
def placesOn (d : OpenedDevice) (region : Nat → Prop) (path : String) (x : Nat) : Prop :=
  path = Rig.imagePath d ∧ region x

theorem meets_finalizeOn {inv : Rig P → Prop} {r : Rig P} {d : OpenedDevice} {l : Verity.Layout}
    (hserves : r.writer.Serves l) (hinv : ∀ r', Frame (placesOn d l.Metadata) r r' → inv r') :
    (finalizeOn d).Meets host (surroundings P) inv
      (fun _ r' => Frame (placesOn d l.Metadata) r r') r := by
  have hanswer : Frame (placesOn d l.Metadata) r (r.answer .finalizeWriter).1 :=
    Rig.frame_answer r .finalizeWriter
  have houtcome : (r.answer .finalizeWriter).2 =
      r.writer.finalize.2.map Verity.Finalization.routine := rfl
  apply Rig.meets_ask
  rw [houtcome]
  cases hf : r.writer.finalize.2 with
  | error e => exact hanswer
  | ok f =>
    have hfits := hserves.finalize_fits hf
    have honly : (Routine.onDevice (J := interface P) id (fun _ => d) f.routine).Only
        (fun _ => False) (fun d' q => d' = d ∧ q.WritesIn l.Metadata) fun _ => True :=
      Routine.only_onDevice (fun _ q hq => ⟨rfl, hq⟩) hfits.only_routine
    apply Routine.meets_bind
    refine (honly.meets (Frame (placesOn d l.Metadata) r) ?_ ?_ ?_ ?_ hanswer).mono hinv ?_
    · intro r' c hc
      exact hc.elim
    · intro r' d' q _ hframe
      exact hframe.trans (Rig.still_place r' d' q).frame
    · rintro r' d' q ⟨rfl, hwrites⟩ hframe
      refine hframe.trans ⟨Rig.sameBut_finish r' (hwrites.mono ?_), fun hq => ?_⟩
      · intro x hx
        exact ⟨rfl, hx⟩
      · exact Rig.quiet_finish hq d' q
    · intro r' r'' hframe hchange
      exact hframe.trans (Rig.still_of_change hchange).frame
    · rintro outcome r' ⟨hframe, -⟩
      cases outcome with
      | none => exact hframe
      | some result => exact hframe

/-! ## A whole partition -/

/-- The places that a partition's metadata may be written to while it is hashed. -/
def writtenOn (d : OpenedDevice) (l : Verity.Layout) (writing : Bool) (path : String) (x : Nat) :
    Prop :=
  writing = true ∧ placesOn d l.Metadata path x

/-- The metadata is written between the two stretches, if it is to be written. -/
theorem meets_finalizeBetween {inv : Rig P → Prop} {r r₁ : Rig P} {d : OpenedDevice}
    {l : Verity.Layout} {writing : Bool} (hstill : Still r r₁)
    (hserves : writing = true → r.writer.Serves l)
    (hinv : ∀ r', Frame (writtenOn d l writing) r r' → inv r') :
    (if writing then finalizeOn d else Attempt.succeed ()).Meets host (surroundings P) inv
      (fun a r' => Frame (writtenOn d l writing) r r' ∧ (writing = false → a = some (.ok ())))
      r₁ := by
  cases writing with
  | false => exact ⟨hstill.frame, fun _ => rfl⟩
  | true =>
    have hwrite : ∀ r', Frame (placesOn d l.Metadata) r₁ r' → Frame (writtenOn d l true) r r' :=
      fun r' h => hstill.frame.trans (h.mono fun _ _ hx => ⟨rfl, hx⟩)
    refine (meets_finalizeOn (hstill.serves l (hserves rfl))
      fun r' h => hinv r' (hwrite r' h)).mono (fun _ => id) ?_
    intro a r' h
    refine ⟨hwrite r' h, ?_⟩
    intro hfalse
    cases hfalse

/-- What hashing a partition comes to: the digest is that of the image as it was in front of
    `dataEnd` and as it is from there on. -/
def PartitionHashed (r : Rig P) (subject : Subject) (dataEnd : Nat) (writing : Bool) :
    Option (Except HashError (ByteArray × P)) → Rig P → Prop
  | some (.ok (digest, _)), r' => subject.size ≤ (r'.device subject.device).image.size ∧
    digest = partitionAlgorithm.digest
      ((r.device subject.device).image.extract 0 (min dataEnd subject.size) ++
        (r'.device subject.device).image.extract (min dataEnd subject.size) subject.size)
  | some (.error e), _ => writing = false → r.Quiet →
    e = .unexpectedEnd (r.device subject.device).image.size ∧
      (r.device subject.device).image.size < subject.size
  | none, _ => writing = true

theorem meets_hashPartition {inv : Rig P → Prop} (scale : Scale P) (subject : Subject)
    (dataEnd : Nat) {writing : Bool} (reported : P) {r : Rig P} {l : Verity.Layout}
    (hserves : writing = true → r.writer.Serves l)
    (hinv : ∀ r', Frame (writtenOn subject.device l writing) r r' → inv r') :
    (hashPartition scale subject dataEnd writing reported).Meets host (surroundings P) inv
      (fun a r' => Frame (writtenOn subject.device l writing) r r' ∧
        PartitionHashed r subject dataEnd writing a r') r := by
  have hstart := Position.covers_start reported (r.device subject.device).image
  have hfirst := meets_hashUpTo scale subject writing
    (fun r' h => hinv r' h.frame) hstart (Nat.zero_le (min dataEnd subject.size))
  refine Attempt.meets_andThen hfirst ?_ ?_ ?_
  · rintro pos r₁ ⟨hstill, hoffset, hcovers⟩
    refine Attempt.meets_andThen (meets_finalizeBetween hstill hserves hinv) ?_ ?_ ?_
    · rintro - r₂ ⟨hframe, -⟩
      have hsize := (hframe.sameBut.device_image subject.device).size
      have hmin : min dataEnd subject.size ≤ subject.size := Nat.min_le_right _ _
      refine Attempt.meets_andThen (meets_hashUpTo scale subject false
        (fun r' h => hinv r' (hframe.trans h.frame)) (hcovers.resume hsize) (by omega)) ?_ ?_ ?_
      · rintro pos' r₃ ⟨hstill', hoffset', hcovers'⟩
        refine ⟨hframe.trans hstill'.frame, ?_, ?_⟩
        · rw [hstill'.device_image, ← hoffset']
          exact hcovers'.offset_le
        · rw [hstill'.device_image, ← hoffset, ← hoffset', hcovers'.hasher,
            Digest.Hasher.finish_fed]
      · rintro e r₃ ⟨hstill', herror⟩
        refine ⟨hframe.trans hstill'.frame, ?_⟩
        intro _ hq
        obtain ⟨he, hlt⟩ := herror rfl (hframe.quiet hq)
        rw [hsize] at he hlt
        exact ⟨he, hlt⟩
      · intro r₃ hbroken
        exact hbroken.elim
    · rintro e r₂ ⟨hframe, hdone⟩
      refine ⟨hframe, ?_⟩
      intro hwriting
      cases hdone hwriting
    · rintro r₂ ⟨hframe, hdone⟩
      refine ⟨hframe, ?_⟩
      cases writing with
      | false => cases hdone rfl
      | true => rfl
  · rintro e r₁ ⟨hstill, herror⟩
    refine ⟨hstill.frame, ?_⟩
    intro hwriting hq
    obtain ⟨he, hlt⟩ := herror hwriting hq
    exact ⟨he, Nat.lt_of_lt_of_le hlt (Nat.min_le_right _ _)⟩
  · intro r₁ hbroken
    exact hbroken.elim

end SlotVerify.Verification
