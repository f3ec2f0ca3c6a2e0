import SlotVerify.Proofs.Verification.Hashing
/-
  What a step of a partition comes to: opening its device, beginning its metadata, and hashing it.

  `Setting.imagePath` says which image a step works on, and `Setting.written` which places of it the
  step may change: none, unless the step writes metadata.  A digest that a step gives is the digest
  of that image in front of and behind the end of the file system data (`StepHashed.digest`).  A
  step that writes nothing gives, on a quiet rig, what `Partition.readable` says about the images
  alone (`StepHashed.quiet`).
-/

namespace SlotVerify

open Verification (Step Error)

/-- The bytes that a step has to hash, or what stands in the way, from the images by their paths. -/
def Partition.readable (p : Partition) (images : String → Option ByteArray) (step : Step) :
    Except Error ByteArray :=
  match Verification.dataEnd step p.hashTreeOffset.toNat p.fecOffset.toNat (p.size step) with
  | .error cause => .error (.invalidVerityLayout p.name cause)
  | .ok _ =>
    match images (p.path step) with
    | none => .error (.openFailed p.name (p.path step) .notFound)
    | some image =>
      if image.size < p.size step then .error (.unexpectedEnd p.name image.size)
      else .ok (image.extract 0 (p.size step))

namespace Verification

variable {P : Type}

open Rig (host surroundings Still Frame SameBut)

/-- Whether a step reaches its partition through the controller of dynamic partitions. -/
abbrev Setting.Mapped (s : Setting P) (p : Partition) (step : Step) : Prop :=
  step = .target ∧ s.dynamic.compressed ∧ s.dynamic.isDynamic p.name s.plan.targetSlot

/-- The path of the image that a step works on. -/
def Setting.imagePath (s : Setting P) (p : Partition) (step : Step) : String :=
  if s.Mapped p step then
    if s.writes p step then Rig.snapshotPath p.name else p.effectiveReadonlyPath
  else p.path step

/-- The places that a step may write to. -/
def Setting.written (s : Setting P) (p : Partition) (step : Step) (path : String) (x : Nat) :
    Prop :=
  s.writes p step = true ∧ path = s.imagePath p step ∧ p.verityLayout.Metadata x

/-! ## Opening -/

/-- Opening succeeds where there is an image, and fails on a quiet rig only where there is none. -/
theorem openImage_outcome (r : Rig P) (path : String) (writable : Bool) :
    match (r.openImage path writable).2 with
    | .ok () => ∃ image, r.image? path = some image
    | .error e => r.Quiet → r.image? path = none ∧ e = .notFound := by
  unfold Rig.openImage
  cases herror : r.openErrors.find? (·.1 == path) with
  | some e =>
    intro hq
    rw [hq.openErrors] at herror
    cases herror
  | none =>
    cases himage : r.image? path with
    | none => exact fun _ => ⟨rfl, rfl⟩
    | some image => exact ⟨image, rfl⟩

/-- What opening the device of a step comes to. -/
structure Opened (s : Setting P) (p : Partition) (step : Step) (r : Rig P)
    (a : Option (Except Error OpenedDevice)) (r' : Rig P) : Prop where
  still : Still r r'
  device : ∀ d, a = some (.ok d) → Rig.imagePath d = s.imagePath p step ∧
    ∃ image, r.image? (s.imagePath p step) = some image
  error : ∀ e, a = some (.error e) → ¬ s.Mapped p step → r.Quiet →
    r.image? (p.path step) = none ∧ e = .openFailed p.name (p.path step) .notFound
  broken : a ≠ none

theorem opened_ok {s : Setting P} {p : Partition} {step : Step} {r r' : Rig P} {d : OpenedDevice}
    (hstill : Still r r') (hpath : Rig.imagePath d = s.imagePath p step)
    (himage : ∃ image, r.image? (s.imagePath p step) = some image) :
    Opened s p step r (some (.ok d)) r' := by
  refine ⟨hstill, ?_, ?_, ?_⟩
  · intro d' hd'
    cases hd'
    exact ⟨hpath, himage⟩
  · intro e he
    cases he
  · intro hbroken
    cases hbroken

theorem opened_error {s : Setting P} {p : Partition} {step : Step} {r r' : Rig P} {e : Error}
    (hstill : Still r r') (herror : ¬ s.Mapped p step → r.Quiet →
      r.image? (p.path step) = none ∧ e = .openFailed p.name (p.path step) .notFound) :
    Opened s p step r (some (.error e)) r' := by
  refine ⟨hstill, ?_, ?_, ?_⟩
  · intro d hd
    cases hd
  · intro e' he'
    cases he'
    exact herror
  · intro hbroken
    cases hbroken

theorem meets_openDirect {inv : Rig P → Prop} {s : Setting P} {p : Partition} {step : Step}
    (hdirect : ¬ s.Mapped p step) (writable : Bool) (r : Rig P) :
    (openDirect p (p.path step) writable).Meets host (surroundings P) inv (Opened s p step r)
      r := by
  have hpath : s.imagePath p step = p.path step := if_neg hdirect
  have hflag := Rig.still_setReadOnly r (p.path step) (!writable)
  unfold openDirect
  apply Rig.meets_ask
  show Routine.Meets _ _ _ _ _ (r.setReadOnly (p.path step) (!writable)).1
  generalize (r.setReadOnly (p.path step) (!writable)).1 = r₁ at hflag
  have hstill := hflag.trans (Rig.still_openImage r₁ (p.path step) writable)
  have houtcome := openImage_outcome r₁ (p.path step) writable
  rw [hflag.image?] at houtcome
  apply Rig.meets_ask
  cases hanswer : (r₁.answer (.openPath (p.path step) writable)).2 with
  | ok _ =>
    change (r₁.openImage (p.path step) writable).2 = .ok () at hanswer
    rw [hanswer] at houtcome
    refine opened_ok hstill hpath.symm ?_
    rw [hpath]
    exact houtcome
  | error e =>
    change (r₁.openImage (p.path step) writable).2 = .error e at hanswer
    rw [hanswer] at houtcome
    refine opened_error hstill ?_
    intro _ hq
    obtain ⟨hnone, rfl⟩ := houtcome (hflag.quiet hq)
    exact ⟨hnone, rfl⟩

theorem meets_openSnapshot {inv : Rig P → Prop} {s : Setting P} {p : Partition} {step : Step}
    (hmapped : s.Mapped p step) (hwrites : s.writes p step) (r : Rig P) :
    (openSnapshot p).Meets host (surroundings P) inv (Opened s p step r) r := by
  have hpath : s.imagePath p step = Rig.snapshotPath p.name := by
    rw [Setting.imagePath, if_pos hmapped, if_pos hwrites]
  have hstill : Still r (r.answer (.openSnapshot p.name p.sourcePath true)).1 :=
    Rig.still_answer r trivial
  have houtcome := openImage_outcome
    (r.noteController (.openSnapshot p.name p.sourcePath true)) (Rig.snapshotPath p.name) true
  unfold openSnapshot
  apply Rig.meets_ask
  cases hanswer : (r.answer (.openSnapshot p.name p.sourcePath true)).2 with
  | ok _ =>
    unfold Rig.answer at hanswer
    dsimp only at hanswer
    split at hanswer
    · cases hanswer
    · rw [hanswer] at houtcome
      refine opened_ok hstill hpath.symm ?_
      rw [hpath]
      exact houtcome
  | error e => exact opened_error hstill fun hdirect => absurd hmapped hdirect

theorem meets_openMapped {inv : Rig P → Prop} {s : Setting P} {p : Partition} {step : Step}
    (hmapped : s.Mapped p step) (hreads : ¬ s.writes p step) (r : Rig P) :
    (openMapped p).Meets host (surroundings P) inv (Opened s p step r) r := by
  have hpath : s.imagePath p step = p.effectiveReadonlyPath := by
    rw [Setting.imagePath, if_pos hmapped, if_neg hreads]
  have hunmapped : Still r (r.answer .unmapAll).1 := Rig.still_answer r trivial
  unfold openMapped
  dsimp only
  apply Rig.meets_ask
  generalize (r.answer .unmapAll).1 = r₁ at hunmapped
  have hremapped : Still r (r₁.answer .mapAll).1 :=
    hunmapped.trans (Rig.still_answer r₁ trivial)
  apply Rig.meets_ask
  generalize (r₁.answer .mapAll).1 = r₂ at hremapped
  have hstill := hremapped.trans (Rig.still_openImage r₂ p.effectiveReadonlyPath false)
  have houtcome := openImage_outcome r₂ p.effectiveReadonlyPath false
  rw [hremapped.image?] at houtcome
  apply Rig.meets_ask
  cases hanswer : (r₂.answer (.openPath p.effectiveReadonlyPath false)).2 with
  | ok _ =>
    change (r₂.openImage p.effectiveReadonlyPath false).2 = .ok () at hanswer
    rw [hanswer] at houtcome
    refine opened_ok hstill hpath.symm ?_
    rw [hpath]
    exact houtcome
  | error e => exact opened_error hstill fun hdirect => absurd hmapped hdirect

theorem meets_openSource {inv : Rig P → Prop} (s : Setting P) (p : Partition) (step : Step)
    (r : Rig P) :
    (openSource s p step).Meets host (surroundings P) inv (Opened s p step r) r := by
  unfold openSource
  dsimp only
  split
  · rename_i hmapped
    split
    · rename_i hwrites
      exact meets_openSnapshot hmapped hwrites r
    · rename_i hreads
      exact meets_openMapped hmapped hreads r
  · rename_i hdirect
    exact meets_openDirect hdirect _ r

/-! ## Hashing -/

/-- Beginning a partition in the writer, after which the writer is in the middle of it. -/
theorem meets_initWriter {inv : Rig P → Prop} (p : Partition) (r : Rig P) :
    (initWriter p).Meets host (surroundings P) inv (fun a r' => Frame (fun _ _ => False) r r' ∧
      (a = some (.ok ()) → r'.writer.Serves p.verityLayout)) r := by
  have hframe : Frame (fun _ _ => False) r (r.answer (.initWriter p.verityLayout)).1 :=
    Rig.frame_answer r (.initWriter p.verityLayout)
  unfold initWriter
  apply Rig.meets_ask
  cases hanswer : (r.answer (.initWriter p.verityLayout)).2 with
  | ok _ => exact ⟨hframe, fun _ => Verity.Writer.serves_init hanswer⟩
  | error fault =>
    cases fault with
    | rejected e =>
      refine ⟨hframe, ?_⟩
      intro h
      cases h
    | breakdown f =>
      refine ⟨hframe, ?_⟩
      intro h
      cases h

/-- What a step comes to. -/
structure StepHashed (s : Setting P) (p : Partition) (step : Step) (r : Rig P)
    (a : Option (Except Error (ByteArray × P))) (r' : Rig P) : Prop where
  frame : Frame (s.written p step) r r'
  digest : ∀ digest told, a = some (.ok (digest, told)) → ∃ e before after,
    dataEnd step p.hashTreeOffset.toNat p.fecOffset.toNat (p.size step) = .ok e ∧
    r.image? (s.imagePath p step) = some before ∧
    r'.image? (s.imagePath p step) = some after ∧ p.size step ≤ after.size ∧
    digest = partitionAlgorithm.digest
      (before.extract 0 (min e (p.size step)) ++ after.extract (min e (p.size step)) (p.size step))
  quiet : s.writes p step = false → ¬ s.Mapped p step → r.Quiet →
    a.map (·.map (·.1)) = some ((p.readable r.image? step).map partitionAlgorithm.digest)

/-- A failure on the way. -/
theorem stepHashed_error {s : Setting P} {p : Partition} {step : Step} {r r' : Rig P} {e : Error}
    (hframe : Frame (s.written p step) r r')
    (hquiet : s.writes p step = false → ¬ s.Mapped p step → r.Quiet →
      p.readable r.image? step = .error e) :
    StepHashed s p step r (some (.error e)) r' := by
  refine ⟨hframe, ?_, ?_⟩
  · intro digest told h
    cases h
  · intro hreads hdirect hq
    rw [hquiet hreads hdirect hq]
    rfl

/-- A breakdown of the writer. -/
theorem stepHashed_none {s : Setting P} {p : Partition} {step : Step} {r r' : Rig P}
    (hframe : Frame (s.written p step) r r') (hwrites : s.writes p step = true) :
    StepHashed s p step r none r' := by
  refine ⟨hframe, ?_, ?_⟩
  · intro digest told h
    cases h
  · intro hreads
    rw [hreads] at hwrites
    cases hwrites

theorem readable_of_layout {p : Partition} {images : String → Option ByteArray} {step : Step}
    {e : Nat} (he : dataEnd step p.hashTreeOffset.toNat p.fecOffset.toNat (p.size step) = .ok e) :
    p.readable images step =
      match images (p.path step) with
      | none => .error (.openFailed p.name (p.path step) .notFound)
      | some image =>
        if image.size < p.size step then .error (.unexpectedEnd p.name image.size)
        else .ok (image.extract 0 (p.size step)) := by
  unfold Partition.readable
  rw [he]

/-- From the hashing of the step's device to the step. -/
theorem stepHashed_of_hashed {s : Setting P} {p : Partition} {step : Step} {r r₁ r₂ : Rig P}
    {d : OpenedDevice} {index partitions e : Nat} {before : ByteArray}
    {a : Option (Except HashError (ByteArray × P))}
    (he : dataEnd step p.hashTreeOffset.toNat p.fecOffset.toNat (p.size step) = .ok e)
    (hpath : Rig.imagePath d = s.imagePath p step)
    (hbefore : r.image? (s.imagePath p step) = some before)
    (hsame : Frame (fun _ _ => False) r r₁) (hframe : Frame (s.written p step) r r₂)
    (h : PartitionHashed r₁ ⟨d, p.size step, index, partitions⟩ e (s.writes p step) a r₂) :
    StepHashed s p step r (a.map (·.mapError (hashFailure p))) r₂ := by
  -- in terms of images: the device had `before` when the hashing began, and has `after` now
  obtain ⟨after, hafter, hchanged⟩ := hframe.sameBut.exists_image hbefore
  have hdevice : (r₁.device d).image = before := by
    apply Rig.device_image_of_some
    rw [hpath, hsame.sameBut.image?_eq fun _ => id, hbefore]
  have hdevice' : (r₂.device d).image = after := by
    apply Rig.device_image_of_some
    rw [hpath, hafter]
  have hreadable : ¬ s.Mapped p step → p.readable r.image? step =
      if before.size < p.size step then .error (.unexpectedEnd p.name before.size)
      else .ok (before.extract 0 (p.size step)) := by
    intro hdirect
    have himage : r.image? (p.path step) = some before := by
      rw [← hbefore, Setting.imagePath, if_neg hdirect]
    rw [readable_of_layout he, himage]
  match a, h with
  | none, hwrites => exact stepHashed_none hframe hwrites
  | some (.error cause), herror =>
    refine stepHashed_error hframe ?_
    intro hreads hdirect hq
    obtain ⟨rfl, hshort⟩ := herror hreads (hsame.quiet hq)
    rw [hdevice] at hshort ⊢
    rw [hreadable hdirect, if_pos hshort]
    rfl
  | some (.ok (digest, told)), ⟨hsize, hdigest⟩ =>
    rw [hdevice, hdevice'] at hdigest
    rw [hdevice'] at hsize
    refine ⟨hframe, ?_, ?_⟩
    · intro digest' told' h
      cases h
      exact ⟨e, before, after, he, hbefore, hafter, hsize, hdigest⟩
    · -- nothing is written, so both stretches are of the image that was found
      intro hreads hdirect _
      have hnone : ∀ x, ¬ s.written p step (s.imagePath p step) x := by
        rintro x ⟨hwrites, -⟩
        rw [hreads] at hwrites
        cases hwrites
      have heq : after = before := hchanged.eq hnone
      subst heq
      have hmin : min e (p.size step) ≤ p.size step := Nat.min_le_right _ _
      rw [ByteArray.extract_append_extract, Nat.min_eq_left (Nat.zero_le _),
        Nat.max_eq_right hmin] at hdigest
      have hlong : ¬ after.size < p.size step := Nat.not_lt.mpr hsize
      rw [hreadable hdirect, if_neg hlong, hdigest]
      rfl

/-- The writer is begun only by a step that writes. -/
theorem meets_beginWriter {inv : Rig P → Prop} (p : Partition) (writing : Bool) {r r₁ : Rig P}
    (hstill : Still r r₁) :
    (if writing then initWriter p else Attempt.succeed ()).Meets host (surroundings P) inv
      (fun a r' => Frame (fun _ _ => False) r r' ∧
        (writing = true → a = some (.ok ()) → r'.writer.Serves p.verityLayout) ∧
        (writing = false → a = some (.ok ()))) r₁ := by
  cases writing with
  | false =>
    refine ⟨hstill.frame, ?_, fun _ => rfl⟩
    intro h
    cases h
  | true =>
    refine (meets_initWriter p r₁).mono (fun _ => id) ?_
    rintro a r' ⟨hframe, hserves⟩
    refine ⟨hstill.frame.trans hframe, fun _ => hserves, ?_⟩
    intro h
    cases h

theorem meets_hashStep {inv : Rig P → Prop} (s : Setting P) (p : Partition) (step : Step)
    (index : Nat) (reported : P) {r : Rig P}
    (hinv : ∀ r', Frame (s.written p step) r r' → inv r') :
    (hashStep s p step index reported).Meets host (surroundings P) inv (StepHashed s p step r)
      r := by
  unfold hashStep
  dsimp only
  cases he : dataEnd step p.hashTreeOffset.toNat p.fecOffset.toNat (p.size step) with
  | error cause =>
    refine stepHashed_error (Still.refl r).frame ?_
    intro _ _ _
    unfold Partition.readable
    rw [he]
  | ok e =>
    refine Attempt.meets_andThen (meets_openSource s p step r) ?_ ?_ ?_
    · intro d r₁ hopened
      obtain ⟨hpath, before, hbefore⟩ := hopened.device d rfl
      have hwritten : writtenOn d p.verityLayout (s.writes p step) = s.written p step := by
        funext path x
        unfold writtenOn placesOn Setting.written
        rw [hpath]
      have hnothing : ∀ r', Frame (fun _ _ => False) r r' → Frame (s.written p step) r r' :=
        fun r' h => h.mono fun _ _ => False.elim
      refine Attempt.meets_andThen (meets_beginWriter p (s.writes p step) hopened.still) ?_ ?_ ?_
      · rintro begun r₂ ⟨hsame, hserves, -⟩
        apply Attempt.meets_mapError
        refine (meets_hashPartition s.scale ⟨d, p.size step, index, s.plan.partitions.length⟩ e
          reported (fun hwrites => hserves hwrites rfl) ?_).mono (fun _ => id) ?_
        · intro r₃ hframe
          rw [hwritten] at hframe
          exact hinv r₃ ((hnothing r₂ hsame).trans hframe)
        · rintro a r₃ ⟨hframe, hhashed⟩
          rw [hwritten] at hframe
          exact stepHashed_of_hashed he hpath hbefore hsame ((hnothing r₂ hsame).trans hframe)
            hhashed
      · rintro e' r₂ ⟨hsame, -, hbegun⟩
        refine stepHashed_error (hnothing r₂ hsame) ?_
        intro hreads
        cases hbegun hreads
      · rintro r₂ ⟨hsame, -, hbegun⟩
        refine stepHashed_none (hnothing r₂ hsame) ?_
        cases hwrites : s.writes p step with
        | false => cases hbegun hwrites
        | true => rfl
    · intro e' r₁ hopened
      refine stepHashed_error hopened.still.frame ?_
      intro _ hdirect hq
      obtain ⟨hnone, rfl⟩ := hopened.error e' rfl hdirect hq
      rw [readable_of_layout he, hnone]
    · intro r₁ hopened
      exact absurd rfl hopened.broken

end Verification

end SlotVerify
