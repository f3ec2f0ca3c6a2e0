import SlotVerify.Proofs.Verification.Partition
/-
  What verifying the partitions of a plan comes to.

  `Partition.verdict` says of a partition, from the images alone, whether it passes, and which error
  it is refused with otherwise.  `Verified` collects what holds at the end of a verification: it has
  changed bytes in the metadata of targets only, every partition has passed if it succeeds, and if
  it writes nothing on a quiet rig then its result is the first verdict that is an error
  (`meets_verifyFrom`, by induction on the partitions).
-/

namespace SlotVerify

open Verification (Step Error partitionAlgorithm)

/-- The bytes that a step has to hash; a partition of size zero may lack a device. -/
def Partition.contents (p : Partition) (images : String → Option ByteArray) (step : Step) :
    Except Error ByteArray :=
  if p.path step = "" then
    if p.size step = 0 then .ok ByteArray.empty else .error (.unresolvedDevicePath p.name step)
  else p.readable images step

/-- Whether a partition passes, and if not, with which error. -/
def Partition.verdict (images : String → Option ByteArray) (p : Partition) :
    Except Error Unit := do
  let target ← p.contents images .target
  if p.targetPath = "" ∨ partitionAlgorithm.digest target = p.targetHash then return ()
  else if p.sourceHash.size = 0 then
    .error (.targetVerification p.name p.targetHash (partitionAlgorithm.digest target))
  else
    let source ← p.contents images .source
    if partitionAlgorithm.digest source = p.sourceHash then
      .error (.targetVerification p.name p.targetHash (partitionAlgorithm.digest target))
    else
      .error (.sourceVerification p.name p.sourceHash (partitionAlgorithm.digest source))

namespace Verification

variable {P : Type}

open Rig (host surroundings Still Frame SameBut)

/-- The places that the targets of some partitions may be written to. -/
def Setting.writtenBy (s : Setting P) (partitions : List Partition) (path : String) (x : Nat) :
    Prop :=
  ∃ p ∈ partitions, p.targetPath ≠ "" ∧ s.written p .target path x

/-- The targets of some partitions are kept in different images. -/
def Setting.Apart (s : Setting P) (partitions : List Partition) : Prop :=
  partitions.Pairwise fun p q => p.targetPath ≠ "" → q.targetPath ≠ "" →
    s.imagePath p .target ≠ s.imagePath q .target

/-- A partition has passed: its digest is that of its image as it was in front of the end of the
    file system data, and as it is from there on. -/
def Setting.Passed (s : Setting P) (p : Partition) (r r' : Rig P) : Prop :=
  ∃ e before after,
    dataEnd .target p.hashTreeOffset.toNat p.fecOffset.toNat p.targetSize.toNat = .ok e ∧
    r.image? (s.imagePath p .target) = some before ∧
    r'.image? (s.imagePath p .target) = some after ∧ p.targetSize.toNat ≤ after.size ∧
    partitionAlgorithm.digest (before.extract 0 (min e p.targetSize.toNat) ++
      after.extract (min e p.targetSize.toNat) p.targetSize.toNat) = p.targetHash

/-- What the verification of some partitions comes to. -/
structure Verified (s : Setting P) (partitions : List Partition) (r : Rig P)
    (a : Option (Except Error Unit)) (r' : Rig P) : Prop where
  frame : Frame (s.writtenBy partitions) r r'
  passed : a = some (.ok ()) → s.Apart partitions →
    ∀ p ∈ partitions, p.targetPath ≠ "" → s.Passed p r r'
  quiet : (∀ p ∈ partitions, s.writes p .target = false ∧ ¬ s.Mapped p .target) → r.Quiet →
    a = some (forM partitions (Partition.verdict r.image?))

variable {s : Setting P} {p : Partition} {partitions : List Partition} {r r₁ r' : Rig P}
  {a : Option (Except Error Unit)}

/-! ## Steps on a quiet rig -/

/-- The images stay while nothing is written. -/
theorem StepHashed.image?_eq {step : Step} {b : Option (Except Error (ByteArray × P))}
    (h : StepHashed s p step r b r₁) (hreads : s.writes p step = false) :
    r₁.image? = r.image? := by
  funext path
  apply h.frame.sameBut.image?_eq
  rintro x ⟨hwrites, -⟩
  rw [hreads] at hwrites
  cases hwrites

/-- What a step had to hash on a quiet rig, from its digest. -/
theorem StepHashed.readable_of_quiet {step : Step} {digest : ByteArray} {told : P}
    (h : StepHashed s p step r (some (.ok (digest, told))) r₁)
    (hreads : s.writes p step = false) (hdirect : ¬ s.Mapped p step) (hq : r.Quiet) :
    ∃ bytes, p.readable r.image? step = .ok bytes ∧ partitionAlgorithm.digest bytes = digest := by
  have hquiet := h.quiet hreads hdirect hq
  cases hreadable : p.readable r.image? step with
  | error e =>
    rw [hreadable] at hquiet
    cases Option.some.inj hquiet
  | ok bytes =>
    rw [hreadable] at hquiet
    exact ⟨bytes, rfl, (Except.ok.inj (Option.some.inj hquiet)).symm⟩

/-- What stood in the way of a step on a quiet rig, from its failure. -/
theorem StepHashed.readable_error {step : Step} {e : Error}
    (h : StepHashed s p step r (some (.error e)) r₁) (hreads : s.writes p step = false)
    (hdirect : ¬ s.Mapped p step) (hq : r.Quiet) : p.readable r.image? step = .error e := by
  have hquiet := h.quiet hreads hdirect hq
  cases hreadable : p.readable r.image? step with
  | error e' =>
    rw [hreadable] at hquiet
    rw [Except.error.inj (Option.some.inj hquiet)]
  | ok bytes =>
    rw [hreadable] at hquiet
    cases Option.some.inj hquiet

/-! ## Sources -/

theorem written_source (s : Setting P) (p : Partition) (path : String) (x : Nat) :
    ¬ s.written p .source path x := by
  rintro ⟨hwrites, -⟩
  cases hwrites

theorem emptyDigest_eq : emptyDigest = partitionAlgorithm.digest ByteArray.empty := by
  unfold emptyDigest
  rw [← Digest.Hasher.fed_empty, Digest.Hasher.finish_fed]

/-- The diagnosis always ends with an error, and writes nothing. -/
structure Diagnosed (p : Partition) (targetDigest : ByteArray) (r : Rig P)
    (a : Option (Except Error Unit)) (r' : Rig P) : Prop where
  frame : Frame (fun _ _ => False) r r'
  refused : a ≠ some (.ok ())
  quiet : r.Quiet → a = some ((p.contents r.image? .source).bind fun source =>
    .error (judge p targetDigest (partitionAlgorithm.digest source)))

theorem meets_diagnose {inv : Rig P → Prop} (s : Setting P) (p : Partition) (index : Nat)
    (targetDigest : ByteArray) (reported : P) {r : Rig P}
    (hinv : ∀ r', Frame (fun _ _ => False) r r' → inv r') :
    (diagnose s p index targetDigest reported).Meets host (surroundings P) inv
      (Diagnosed p targetDigest r) r := by
  have hnothing : ∀ r', Frame (s.written p .source) r r' → Frame (fun _ _ => False) r r' :=
    fun r' h => h.mono fun path x hx => written_source s p path x hx
  have hdirect : ¬ s.Mapped p .source := by
    rintro ⟨h, -⟩
    cases h
  unfold diagnose
  by_cases hpath : p.sourcePath = ""
  · rw [if_pos hpath]
    have hempty : p.path .source = "" := hpath
    by_cases hsize : p.sourceSize = 0
    · have hzero : p.size .source = 0 := by
        show p.sourceSize.toNat = 0
        rw [hsize]
        rfl
      rw [if_neg (Decidable.not_not.mpr hsize)]
      refine ⟨(Still.refl r).frame, (fun h => nomatch h), ?_⟩
      intro _
      rw [Partition.contents, if_pos hempty, if_pos hzero, emptyDigest_eq]
      rfl
    · have hsome : p.size .source ≠ 0 := fun h => hsize (UInt64.toNat_inj.mp h)
      rw [if_pos hsize]
      refine ⟨(Still.refl r).frame, (fun h => nomatch h), ?_⟩
      intro _
      rw [Partition.contents, if_pos hempty, if_neg hsome]
      rfl
  · rw [if_neg hpath]
    have hnonempty : p.path .source ≠ "" := hpath
    refine Attempt.meets_andThen (meets_hashStep s p .source index reported
      fun r' h => hinv r' (hnothing r' h)) ?_ ?_ ?_
    · rintro ⟨digest, told⟩ r' hstep
      refine ⟨hnothing r' hstep.frame, (fun h => nomatch h), ?_⟩
      intro hq
      obtain ⟨source, hreadable, hdigest⟩ := hstep.readable_of_quiet rfl hdirect hq
      rw [Partition.contents, if_neg hnonempty, hreadable, ← hdigest]
      rfl
    · intro e r' hstep
      refine ⟨hnothing r' hstep.frame, (fun h => nomatch h), ?_⟩
      intro hq
      rw [Partition.contents, if_neg hnonempty, hstep.readable_error rfl hdirect hq]
      rfl
    · intro r' hstep
      refine ⟨hnothing r' hstep.frame, (fun h => nomatch h), ?_⟩
      intro hq
      cases hstep.quiet rfl hdirect hq

/-! ## Partition by partition -/

/-- The places of a target. -/
theorem writtenBy_cons (partitions : List Partition) (hpath : p.targetPath ≠ "")
    (path : String) (x : Nat) (h : s.written p .target path x) :
    s.writtenBy (p :: partitions) path x :=
  ⟨p, List.mem_cons_self, hpath, h⟩

theorem writtenBy_tail (p : Partition) (path : String) (x : Nat)
    (h : s.writtenBy partitions path x) : s.writtenBy (p :: partitions) path x := by
  obtain ⟨q, hq, hpath, hwritten⟩ := h
  exact ⟨q, List.mem_cons_of_mem p hq, hpath, hwritten⟩

/-- A refusal. -/
theorem verified_error {e : Error} (hframe : Frame (s.writtenBy partitions) r r')
    (hquiet : (∀ p ∈ partitions, s.writes p .target = false ∧ ¬ s.Mapped p .target) → r.Quiet →
      forM partitions (Partition.verdict r.image?) = .error e) :
    Verified s partitions r (some (.error e)) r' := by
  refine ⟨hframe, (fun h => nomatch h), ?_⟩
  intro hreads hq
  rw [hquiet hreads hq]

/-- An absent target of size zero passes. -/
theorem Verified.skip (h : Verified s partitions r a r') (hpath : p.targetPath = "")
    (hsize : p.targetSize = 0) : Verified s (p :: partitions) r a r' := by
  refine ⟨h.frame.mono (writtenBy_tail p), ?_, ?_⟩
  · intro ha hapart q hq hne
    rcases List.mem_cons.mp hq with rfl | hq
    · exact absurd hpath hne
    · exact h.passed ha hapart.tail q hq hne
  · intro hreads hq
    have hempty : p.path .target = "" := hpath
    have hzero : p.size .target = 0 := by
      show p.targetSize.toNat = 0
      rw [hsize]
      rfl
    have hverdict : p.verdict r.image? = .ok () := by
      unfold Partition.verdict Partition.contents
      rw [if_pos hempty, if_pos hzero]
      show (if p.targetPath = "" ∨ _ then _ else _) = _
      rw [if_pos (Or.inl hpath)]
      rfl
    rw [List.forM_cons, hverdict]
    exact h.quiet (fun q hq => hreads q (List.mem_cons_of_mem p hq)) hq

/-- The verdict on a target whose bytes could be hashed. -/
theorem verdict_of_readable {images : String → Option ByteArray} {target : ByteArray}
    (hpath : p.targetPath ≠ "") (h : p.readable images .target = .ok target) :
    p.verdict images =
      if partitionAlgorithm.digest target = p.targetHash then .ok ()
      else if p.sourceHash.size = 0 then
        .error (.targetVerification p.name p.targetHash (partitionAlgorithm.digest target))
      else (p.contents images .source).bind fun source =>
        .error (judge p (partitionAlgorithm.digest target) (partitionAlgorithm.digest source)) := by
  have hnonempty : p.path .target ≠ "" := hpath
  unfold Partition.verdict
  rw [Partition.contents, if_neg hnonempty, h]
  -- any hash function will do, and this one must not be unfolded
  generalize Digest.Algorithm.digest partitionAlgorithm = hash
  show (if _ then _ else _) = _
  by_cases hdigest : hash target = p.targetHash
  · rw [if_pos (Or.inr hdigest), if_pos hdigest]
    rfl
  · rw [if_neg (not_or.mpr ⟨hpath, hdigest⟩), if_neg hdigest]
    split
    · rfl
    · cases p.contents images .source with
      | error e => rfl
      | ok source =>
        show (if _ then _ else _) = Except.error (judge p _ _)
        unfold judge
        by_cases hsource : hash source = p.sourceHash
        · rw [if_pos hsource, if_pos hsource]
        · rw [if_neg hsource, if_neg hsource]

/-- A target with the expected digest passes, and the others follow. -/
theorem Verified.cons {digest : ByteArray} {told : P} (h : Verified s partitions r₁ a r')
    (hstep : StepHashed s p .target r (some (.ok (digest, told))) r₁) (hpath : p.targetPath ≠ "")
    (hdigest : digest = p.targetHash) : Verified s (p :: partitions) r a r' := by
  have hfirst := hstep.frame.mono (writtenBy_cons partitions hpath)
  refine ⟨hfirst.trans (h.frame.mono (writtenBy_tail p)), ?_, ?_⟩
  · intro ha hapart q hq hne
    obtain ⟨hpq, hrest⟩ := List.pairwise_cons.mp hapart
    rcases List.mem_cons.mp hq with rfl | hq
    · -- the images of the others are not this one
      obtain ⟨e, before, after, he, hbefore, hafter, hsize, heq⟩ := hstep.digest digest told rfl
      refine ⟨e, before, after, he, hbefore, ?_, hsize, ?_⟩
      · rw [← hafter]
        apply h.frame.sameBut.image?_eq
        rintro x ⟨q', hq', hne', -, hsame, -⟩
        exact hpq q' hq' hne hne' hsame
      · rw [← hdigest, heq]
        rfl
    · -- nor was the image of another written to on the way
      obtain ⟨e, before, after, he, hbefore, hafter, hsize, heq⟩ := h.passed ha hrest q hq hne
      refine ⟨e, before, after, he, ?_, hafter, hsize, heq⟩
      rw [← hbefore]
      apply Eq.symm
      apply hstep.frame.sameBut.image?_eq
      rintro x ⟨-, hsame, -⟩
      exact hpq q hq hpath hne hsame.symm
  · intro hreads hq
    obtain ⟨hreads', hdirect⟩ := hreads p List.mem_cons_self
    obtain ⟨bytes, hreadable, hbytes⟩ := hstep.readable_of_quiet hreads' hdirect hq
    rw [List.forM_cons, verdict_of_readable hpath hreadable, hbytes, if_pos hdigest]
    have hrest := h.quiet (fun q hq => hreads q (List.mem_cons_of_mem p hq)) (hstep.frame.quiet hq)
    rw [hstep.image?_eq hreads'] at hrest
    exact hrest

/-- A target that could not be hashed is refused. -/
theorem StepHashed.verified_failed {e : Error}
    (h : StepHashed s p .target r (some (.error e)) r₁) (hpath : p.targetPath ≠ "") :
    Verified s (p :: partitions) r (some (.error e)) r₁ := by
  refine verified_error (h.frame.mono (writtenBy_cons partitions hpath)) ?_
  intro hreads hq
  obtain ⟨hreads', hdirect⟩ := hreads p List.mem_cons_self
  have hnonempty : p.path .target ≠ "" := hpath
  rw [List.forM_cons, Partition.verdict, Partition.contents, if_neg hnonempty,
    h.readable_error hreads' hdirect hq]
  rfl

/-- A wrong target without an expected source is refused. -/
theorem StepHashed.verified_unexplained {digest : ByteArray} {told : P}
    (h : StepHashed s p .target r (some (.ok (digest, told))) r₁) (hpath : p.targetPath ≠ "")
    (hdigest : digest ≠ p.targetHash) (hsource : p.sourceHash.size = 0) :
    Verified s (p :: partitions) r
      (some (.error (.targetVerification p.name p.targetHash digest))) r₁ := by
  refine verified_error (h.frame.mono (writtenBy_cons partitions hpath)) ?_
  intro hreads hq
  obtain ⟨hreads', hdirect⟩ := hreads p List.mem_cons_self
  obtain ⟨bytes, hreadable, hbytes⟩ := h.readable_of_quiet hreads' hdirect hq
  rw [List.forM_cons, verdict_of_readable hpath hreadable, hbytes, if_neg hdigest, if_pos hsource]
  rfl

/-- A wrong target with an expected source is refused with the diagnosis. -/
theorem StepHashed.verified_diagnosed {digest : ByteArray} {told : P}
    (h : StepHashed s p .target r (some (.ok (digest, told))) r₁) (hpath : p.targetPath ≠ "")
    (hdigest : digest ≠ p.targetHash) (hsource : p.sourceHash.size ≠ 0)
    (hdiagnosed : Diagnosed p digest r₁ a r') : Verified s (p :: partitions) r a r' := by
  have hfirst := h.frame.mono (writtenBy_cons partitions hpath)
  refine ⟨hfirst.trans (hdiagnosed.frame.mono fun _ _ => False.elim), ?_, ?_⟩
  · intro ha
    exact absurd ha hdiagnosed.refused
  · intro hreads hq
    obtain ⟨hreads', hdirect⟩ := hreads p List.mem_cons_self
    obtain ⟨bytes, hreadable, hbytes⟩ := h.readable_of_quiet hreads' hdirect hq
    have hrefused := hdiagnosed.quiet (h.frame.quiet hq)
    rw [h.image?_eq hreads'] at hrefused
    rw [List.forM_cons, verdict_of_readable hpath hreadable, hbytes, if_neg hdigest,
      if_neg hsource, hrefused]
    cases p.contents r.image? .source with
    | error e => rfl
    | ok source => rfl

theorem meets_verifyFrom {inv : Rig P → Prop} (s : Setting P) (partitions : List Partition) :
    ∀ (index : Nat) (reported : P) {r : Rig P},
      (∀ r', Frame (s.writtenBy partitions) r r' → inv r') →
      (verifyFrom s index partitions reported).Meets host (surroundings P) inv
        (Verified s partitions r) r := by
  induction partitions with
  | nil =>
    intro index reported r _
    refine ⟨(Still.refl r).frame, ?_, fun _ _ => rfl⟩
    intro _ _ p hp
    cases hp
  | cons p rest ih =>
    intro index reported r hinv
    unfold verifyFrom
    by_cases hpath : p.targetPath = ""
    · rw [if_pos hpath]
      by_cases hsize : p.targetSize = 0
      · rw [if_neg (Decidable.not_not.mpr hsize)]
        refine (ih (index + 1) reported fun r' h => hinv r' (h.mono (writtenBy_tail p))).mono
          (fun _ => id) ?_
        intro a r' h
        exact h.skip hpath hsize
      · rw [if_pos hsize]
        refine verified_error (Still.refl r).frame ?_
        intro _ _
        have hempty : p.path .target = "" := hpath
        have hsome : p.size .target ≠ 0 := fun h => hsize (UInt64.toNat_inj.mp h)
        rw [List.forM_cons, Partition.verdict, Partition.contents, if_pos hempty, if_neg hsome]
        rfl
    · rw [if_neg hpath]
      have hwritten : ∀ {r₁}, Frame (s.written p .target) r r₁ →
          Frame (s.writtenBy (p :: rest)) r r₁ := fun h => h.mono (writtenBy_cons rest hpath)
      refine Attempt.meets_andThen (meets_hashStep s p .target index reported
        fun r' h => hinv r' (hwritten h)) ?_ ?_ ?_
      · rintro ⟨digest, told⟩ r₁ hstep
        have hfirst := hwritten hstep.frame
        dsimp only
        by_cases hdigest : digest = p.targetHash
        · rw [if_pos hdigest]
          refine (ih (index + 1) told fun r' h =>
            hinv r' (hfirst.trans (h.mono (writtenBy_tail p)))).mono (fun _ => id) ?_
          intro a r' h
          exact h.cons hstep hpath hdigest
        · rw [if_neg hdigest]
          by_cases hsource : p.sourceHash.size = 0
          · rw [if_pos hsource]
            exact hstep.verified_unexplained hpath hdigest hsource
          · rw [if_neg hsource]
            refine (meets_diagnose s p index digest told fun r' h =>
              hinv r' (hfirst.trans (h.mono fun _ _ => False.elim))).mono (fun _ => id) ?_
            intro a r' h
            exact hstep.verified_diagnosed hpath hdigest hsource h
      · intro e r₁ hstep
        exact hstep.verified_failed hpath
      · intro r₁ hstep
        refine ⟨hwritten hstep.frame, (fun h => nomatch h), ?_⟩
        intro hreads hq
        obtain ⟨hreads', hdirect⟩ := hreads p List.mem_cons_self
        cases hstep.quiet hreads' hdirect hq

/-! ## The whole verification -/

/-- What the verification of a plan comes to. -/
structure Concluded (s : Setting P) (r : Rig P) (a : Option (Except Error InstallPlan))
    (r' : Rig P) : Prop where
  frame : Frame (s.writtenBy s.plan.partitions) r r'
  passed : ∀ plan, a = some (.ok plan) → plan = s.plan ∧ (s.Apart s.plan.partitions →
    ∀ p ∈ s.plan.partitions, p.targetPath ≠ "" → s.Passed p r r')
  quiet : (∀ p ∈ s.plan.partitions, s.writes p .target = false ∧ ¬ s.Mapped p .target) →
    r.Quiet →
    a = some ((forM s.plan.partitions (Partition.verdict r.image?)).map fun _ => s.plan)

theorem Setting.Passed.still (h : s.Passed p r r₁) (hstill : Still r₁ r') : s.Passed p r r' := by
  obtain ⟨e, before, after, he, hbefore, hafter, hrest⟩ := h
  refine ⟨e, before, after, he, hbefore, ?_, hrest⟩
  rw [hstill.image?, hafter]

theorem Concluded.still {a : Option (Except Error InstallPlan)} (h : Concluded s r a r₁)
    (hstill : Still r₁ r') : Concluded s r a r' := by
  refine ⟨h.frame.trans hstill.frame, ?_, h.quiet⟩
  intro plan ha
  obtain ⟨hplan, hpassed⟩ := h.passed plan ha
  exact ⟨hplan, fun hapart p hp hne => (hpassed hapart p hp hne).still hstill⟩

/-- A rig in which nothing has happened yet that matters. -/
theorem Concluded.before {a : Option (Except Error InstallPlan)} (h : Concluded s r₁ a r')
    (hstill : Still r r₁) : Concluded s r a r' := by
  have himages : r₁.image? = r.image? := funext hstill.image?
  refine ⟨hstill.frame.trans h.frame, ?_, ?_⟩
  · intro plan ha
    obtain ⟨hplan, hpassed⟩ := h.passed plan ha
    refine ⟨hplan, ?_⟩
    intro hapart p hp hne
    obtain ⟨e, before, after, he, hbefore, hrest⟩ := hpassed hapart p hp hne
    rw [himages] at hbefore
    exact ⟨e, before, after, he, hbefore, hrest⟩
  · intro hreads hq
    rw [h.quiet hreads (hstill.quiet hq), himages]

/-- The untouched partitions are compared by the controller; without one they are the same. -/
theorem meets_verifyUntouched {inv : Rig P → Prop} (plan : InstallPlan) (r : Rig P) :
    (verifyUntouched plan).Meets host (surroundings P) inv
      (fun a r' => Still r r' ∧ a ≠ none ∧ (r.Quiet → a = some (.ok ()))) r := by
  unfold verifyUntouched
  split
  · exact ⟨.refl r, (fun h => nomatch h), fun _ => rfl⟩
  · have hstill : Still r (r.answer (.verifyExtents plan.sourceSlot plan.targetSlot
        plan.untouchedDynamicPartitions)).1 := Rig.still_answer r trivial
    apply Rig.meets_ask
    cases hsame : (r.answer (.verifyExtents plan.sourceSlot plan.targetSlot
        plan.untouchedDynamicPartitions)).2 with
    | true => exact ⟨hstill, (fun h => nomatch h), fun _ => rfl⟩
    | false =>
      refine ⟨hstill, (fun h => nomatch h), ?_⟩
      intro hq
      change (r.controller.map (·.extents)).getD true = false at hsame
      rw [hq.controller] at hsame
      cases hsame

theorem meets_program {inv : Rig P → Prop} (s : Setting P) {r : Rig P}
    (hinv : ∀ r', Frame (s.writtenBy s.plan.partitions) r r' → inv r') :
    (program s.scale s.dynamic (some s.plan)).Meets host (surroundings P) inv (Concluded s r)
      r := by
  refine Attempt.meets_andThen (meets_verifyFrom s s.plan.partitions 0 s.scale.zero hinv) ?_ ?_ ?_
  · rintro ⟨⟩ r₁ hverified
    refine Attempt.meets_andThen (meets_verifyUntouched s.plan r₁) ?_ ?_ ?_
    · rintro ⟨⟩ r₂ ⟨hstill, -, -⟩
      refine ⟨hverified.frame.trans hstill.frame, ?_, ?_⟩
      · intro plan hplan
        cases hplan
        exact ⟨rfl, fun hapart p hp hne => (hverified.passed rfl hapart p hp hne).still hstill⟩
      · intro hreads hq
        rw [← Option.some.inj (hverified.quiet hreads hq)]
        rfl
    · rintro e r₂ ⟨hstill, -, hok⟩
      refine ⟨hverified.frame.trans hstill.frame, (fun _ h => nomatch h), ?_⟩
      intro _ hq
      cases hok (hverified.frame.quiet hq)
    · rintro r₂ ⟨-, hsome, -⟩
      exact absurd rfl hsome
  · intro e r₁ hverified
    refine ⟨hverified.frame, (fun _ h => nomatch h), ?_⟩
    intro hreads hq
    rw [← Option.some.inj (hverified.quiet hreads hq)]
    rfl
  · intro r₁ hverified
    refine ⟨hverified.frame, (fun _ h => nomatch h), ?_⟩
    intro hreads hq
    cases hverified.quiet hreads hq

/-- A verification from its beginning to its end. -/
theorem meets_whole {inv : Rig P → Prop} (s : Setting P) {r : Rig P}
    (hinv : ∀ r', Frame (s.writtenBy s.plan.partitions) r r' → inv r') :
    (whole s.scale s.dynamic (some s.plan)).Meets host (surroundings P) inv (Concluded s r) r := by
  apply Routine.meets_bind
  refine (meets_program s hinv).mono (fun _ => id) ?_
  intro outcome r₁ hconcluded
  cases outcome with
  | none => exact hconcluded
  | some result =>
    dsimp only
    split
    · have hunmapped : Still r₁ (r₁.answer .unmapAll).1 := Rig.still_answer r₁ trivial
      exact hconcluded.still (hunmapped.trans (Rig.still_hear _ _))
    · exact hconcluded.still (Rig.still_hear r₁ _)

end Verification

end SlotVerify
