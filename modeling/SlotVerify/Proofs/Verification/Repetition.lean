import SlotVerify.Proofs.Rig.Repetition
import SlotVerify.Proofs.Verification.Completion
import SlotVerify.Proofs.Verification.Freshness
import SlotVerify.Proofs.Verification.Stages
/-
  Verifying a plan again on the devices that it has been verified on.

  A verification never writes where it has been before (`fresh_whole`), so on what it has left it
  goes the same way once more and changes nothing (`run_whole_again`).  This is so whatever it comes
  to, and wherever it stops.  If the plan was accepted, every target then has the expected digest as
  it is, and the plan is accepted as well without its metadata being written (`accepted_reading`).
-/

namespace SlotVerify

/-- A plan that asks for the same partitions, with no metadata to be written. -/
def InstallPlan.reading (plan : InstallPlan) : InstallPlan := { plan with writeVerity := false }

namespace Verification

open Device Routine
open Rig (host)

variable {P : Type} {r : Rig P} {s : Setting P} {p : Partition}

/-! ## Once more -/

section

variable {scale : Scale P} {dynamic : DynamicPartitions} {plan : InstallPlan}

theorem run_whole_again (hfaultless : r.Faultless)
    (hapart : Setting.Apart ⟨scale, dynamic, plan⟩ plan.partitions)
    (hordered : ∀ p ∈ plan.partitions, p.verityLayout.Ordered)
    (images : List (String × ByteArray)) (himages : ∀ path, (r.refilled images).image? path =
      ((whole scale dynamic (some plan)).run host r).1.image? path) :
    ((whole scale dynamic (some plan)).run host (r.refilled images)).2 =
        ((whole scale dynamic (some plan)).run host r).2 ∧
      ∀ path, ((whole scale dynamic (some plan)).run host (r.refilled images)).1.image? path =
        (r.refilled images).image? path := by
  obtain ⟨u, hreaches⟩ := (whole scale dynamic (some plan)).reaches_trail host r
  obtain ⟨w, hcarries⟩ := (whole scale dynamic (some plan)).carried_trail carries_onRig r
  exact Rig.run_again _ hfaultless (fresh_whole hapart hordered hreaches hcarries) himages

end

/-! ## Targets that are as expected -/

/-- A partition that passes as it is: its target has the expected digest, or is absent and empty. -/
def Setting.Expects (s : Setting P) (images : String → Option ByteArray) (p : Partition) : Prop :=
  if p.targetPath = "" then p.targetSize = 0
  else ∃ e image,
    dataEnd .target p.hashTreeOffset.toNat p.fecOffset.toNat p.targetSize.toNat = .ok e ∧
    images (s.imagePath p .target) = some image ∧ p.targetSize.toNat ≤ image.size ∧
    partitionAlgorithm.digest (image.extract 0 p.targetSize.toNat) = p.targetHash

/-- Where the targets are read without being written, they are as they have been left where they are
    written. -/
def Setting.Shows (s : Setting P) (left images : String → Option ByteArray) : Prop :=
  ∀ p ∈ s.plan.partitions, p.targetPath ≠ "" →
    images (Setting.imagePath ⟨s.scale, s.dynamic, s.plan.reading⟩ p .target) =
      left (s.imagePath p .target)

/-- Without dynamic partitions that is one and the same place. -/
theorem Setting.shows_self (s : Setting P) (images : String → Option ByteArray)
    (hdirect : ∀ p ∈ s.plan.partitions,
      ¬ (s.dynamic.compressed ∧ s.dynamic.isDynamic p.name s.plan.targetSlot)) :
    s.Shows images images := by
  intro p hp _
  rw [imagePath_target (hdirect p hp),
    imagePath_target (s := ⟨s.scale, s.dynamic, s.plan.reading⟩) (hdirect p hp)]

/-- The device of a target can be opened for reading if it is there. -/
theorem run_openSource (hsound : r.Sound) (hreads : s.writes p .target = false) {image : ByteArray}
    (himage : r.image? (s.imagePath p .target) = some image) :
    ∃ device, ((openSource s p .target).run host r).2 = some (.ok device) := by
  unfold openSource
  unfold Setting.imagePath at himage
  dsimp only
  rw [hreads] at himage ⊢
  split
  · rename_i hmapped
    rw [if_pos hmapped, if_neg Bool.false_ne_true] at himage
    rw [if_neg Bool.false_ne_true]
    refine ⟨⟨.snapshotMapped, p.effectiveReadonlyPath, false⟩, ?_⟩
    -- mapping the snapshots anew makes nothing fail
    have hsame : Rig.SameSetup r ((r.answer .unmapAll).1.answer .mapAll).1 :=
      (Rig.sameSetup_answer r .unmapAll).trans (Rig.sameSetup_answer _ .mapAll)
    have hopen : (((r.answer .unmapAll).1.answer .mapAll).1.answer
        (.openPath p.effectiveReadonlyPath false)).2 = .ok () :=
      (hsound.of_sameSetup hsame).openImage himage false
    unfold openMapped
    dsimp only
    rw [run_ask, run_ask, run_ask, hopen]
    rfl
  · rename_i hdirect
    rw [if_neg hdirect] at himage
    refine ⟨⟨.direct, p.path .target, false⟩, ?_⟩
    have hflag : (r.answer (.setReadOnly (p.path .target) true)).1.image? (p.path .target) =
        some image :=
      ((Rig.still_setReadOnly r (p.path .target) true).image? _).trans himage
    have hopen : ((r.answer (.setReadOnly (p.path .target) true)).1.answer
        (.openPath (p.path .target) false)).2 = .ok () :=
      (hsound.of_sameSetup (Rig.sameSetup_answer r _)).openImage hflag false
    unfold openDirect
    rw [run_ask, run_ask, show (!false) = true from rfl, hopen]
    rfl

theorem Calls.reads {ε α : Type} {t : Attempt P ε α} (h : Calls t) :
    t.Only (fun _ => True) (fun _ q => q.WritesIn fun _ => False) fun _ => True :=
  h.mono (fun _ => id) (fun _ _ => False.elim) fun _ => id

/-- Hashing a target that is there, without writing, comes to its digest. -/
theorem run_hashStep_reading (hsound : r.Sound) (hreads : s.writes p .target = false) {e : Nat}
    (he : dataEnd .target p.hashTreeOffset.toNat p.fecOffset.toNat p.targetSize.toNat = .ok e)
    {image : ByteArray} (himage : r.image? (s.imagePath p .target) = some image)
    (hsize : p.targetSize.toNat ≤ image.size) (index : Nat) (told : P) :
    ∃ told', ((hashStep s p .target index told).run host r).2 =
      some (.ok (partitionAlgorithm.digest (image.extract 0 p.targetSize.toNat), told')) := by
  obtain ⟨device, hopened⟩ := run_openSource hsound hreads himage
  obtain ⟨es, hreaches⟩ := exists_reaches_of_run hopened
  have hpath := imagePath_of_openSource hreaches
  have hoffers : ((openSource s p .target).run host r).1.Offers device image := by
    refine ⟨(Rig.sameSetup_run _ r).reliable hsound.toReliable, ?_⟩
    rw [hpath, Rig.image?_run_of_reads (calls_openSource s p .target).reads, himage]
  obtain ⟨told', r', hhash, -⟩ := run_hashPartition_of_offers s.scale
    ⟨device, p.size .target, index, s.plan.partitions.length⟩ e told hoffers hsize
  refine ⟨told', ?_⟩
  unfold hashStep
  dsimp only
  rw [show dataEnd .target p.hashTreeOffset.toNat p.fecOffset.toNat (p.size .target) = .ok e
    from he, hreads]
  dsimp only
  rw [Attempt.run_andThen_of_ok (Prod.ext rfl hopened)]
  show (((hashPartition _ _ _ _ _).mapError _).run host _).2 = _
  unfold Attempt.mapError
  rw [run_bind, hhash]
  rfl

/-- If nothing is to be written, partitions that are as expected pass. -/
theorem run_verifyFrom_of_expects (s : Setting P) (l : List Partition) :
    ∀ {r : Rig P} {index : Nat} {told : P}, r.Sound → (∀ p ∈ l, s.writes p .target = false) →
      (∀ p ∈ l, s.Expects r.image? p) →
      ((verifyFrom s index l told).run host r).2 = some (.ok ()) := by
  induction l with
  | nil => exact fun _ _ _ => rfl
  | cons p rest ih =>
    intro r index told hsound hreads hexpects
    have hreads' : ∀ q ∈ rest, s.writes q .target = false :=
      fun q hq => hreads q (List.mem_cons_of_mem p hq)
    have hexpects' : ∀ q ∈ rest, s.Expects r.image? q :=
      fun q hq => hexpects q (List.mem_cons_of_mem p hq)
    have hfirst := hexpects p List.mem_cons_self
    unfold Setting.Expects at hfirst
    by_cases hpath : p.targetPath = ""
    · rw [if_pos hpath] at hfirst
      rw [verifyFrom, if_pos hpath, if_neg (not_not_intro hfirst)]
      exact ih hsound hreads' hexpects'
    · rw [if_neg hpath] at hfirst
      obtain ⟨e, image, he, himage, hsize, hdigest⟩ := hfirst
      have hreading := hreads p List.mem_cons_self
      obtain ⟨told', hhash⟩ := run_hashStep_reading hsound hreading he himage hsize index told
      have hstep : StepHashed s p .target r ((hashStep s p .target index told).run host r).2
          ((hashStep s p .target index told).run host r).1 :=
        run_meets (meets_hashStep s p .target index told fun _ _ => trivial).still
      rw [verifyFrom, if_neg hpath, Attempt.run_andThen_of_ok (Prod.ext rfl hhash)]
      dsimp only
      rw [if_pos hdigest]
      refine ih (hsound.of_sameSetup (Rig.sameSetup_run _ r)) hreads' ?_
      rwa [hstep.image?_eq hreading]

/-! ## Accepted plans -/

section

variable {scale : Scale P} {dynamic : DynamicPartitions} {plan accepted : InstallPlan}

/-- The end of a verification does not change its result. -/
theorem run_whole_result (scale : Scale P) (dynamic : DynamicPartitions)
    (plan : Option InstallPlan) (r : Rig P) :
    ((whole scale dynamic plan).run host r).2 = ((program scale dynamic plan).run host r).2 := by
  unfold whole
  rw [run_bind]
  generalize (program scale dynamic plan).run host r = last
  obtain ⟨r', outcome⟩ := last
  cases outcome with
  | none => rfl
  | some outcome =>
    dsimp only
    split <;> rfl

/-- A plan is accepted if all of its partitions pass and the controller agrees. -/
theorem run_whole_ok_iff : ((whole scale dynamic (some plan)).run host r).2 = some (.ok accepted) ↔
    accepted = plan ∧ ∃ r₁, (verifyFrom ⟨scale, dynamic, plan⟩ 0 plan.partitions scale.zero).run
      host r = (r₁, some (.ok ())) ∧ ((verifyUntouched plan).run host r₁).2 = some (.ok ()) := by
  rw [run_whole_result]
  unfold program
  constructor
  · intro h
    obtain ⟨_, r₁, hverify, hrun⟩ := Attempt.run_andThen_ok h
    rw [hrun] at h
    obtain ⟨_, r₂, huntouched, hrun⟩ := Attempt.run_andThen_ok h
    rw [hrun] at h
    cases h
    exact ⟨rfl, r₁, hverify, congrArg Prod.snd huntouched⟩
  · rintro ⟨rfl, r₁, hverify, huntouched⟩
    rw [Attempt.run_andThen_of_ok hverify, Attempt.run_andThen_of_ok (Prod.ext rfl huntouched)]
    rfl

/-- What the controller says of the untouched partitions does not depend on anything else. -/
theorem run_verifyUntouched_congr (plan : InstallPlan) {r r' : Rig P}
    (h : r'.controller = r.controller) :
    ((verifyUntouched plan).run host r').2 = ((verifyUntouched plan).run host r).2 := by
  unfold verifyUntouched
  split
  · rfl
  · have hanswer : (r'.answer (.verifyExtents plan.sourceSlot plan.targetSlot
        plan.untouchedDynamicPartitions)).2 = (r.answer (.verifyExtents plan.sourceSlot
          plan.targetSlot plan.untouchedDynamicPartitions)).2 := by
      show (r'.controller.map (·.extents)).getD true = (r.controller.map (·.extents)).getD true
      rw [h]
    rw [run_ask, run_ask, hanswer]
    cases (r.answer (.verifyExtents plan.sourceSlot plan.targetSlot
      plan.untouchedDynamicPartitions)).2 <;> rfl

/-- If a plan is accepted, its targets are as expected from then on. -/
theorem expects_of_accepted (hfaultless : r.Faultless)
    (hapart : Setting.Apart ⟨scale, dynamic, plan⟩ plan.partitions)
    (hordered : ∀ p ∈ plan.partitions, p.verityLayout.Ordered)
    (haccepted : ((whole scale dynamic (some plan)).run host r).2 = some (.ok accepted)) :
    ∀ p ∈ plan.partitions, Setting.Expects ⟨scale, dynamic, plan⟩
      ((whole scale dynamic (some plan)).run host r).1.image? p := by
  intro p hp
  unfold Setting.Expects
  split
  · rename_i hpath
    obtain ⟨-, r₁, hverify, -⟩ := run_whole_ok_iff.mp haccepted
    obtain ⟨es, hreaches⟩ := exists_reaches_of_run (congrArg Prod.snd hverify)
    exact targetSize_eq_zero_of_passed _ _ hreaches p hp hpath
  · rename_i hpath
    -- a second run would find each image as it leaves it, so its digest is that of the image
    obtain ⟨hresult, himages⟩ := run_whole_again hfaultless hapart hordered
      ((whole scale dynamic (some plan)).run host r).1.images fun _ => rfl
    have hconcluded : Concluded ⟨scale, dynamic, plan⟩
        (r.refilled ((whole scale dynamic (some plan)).run host r).1.images) _ _ :=
      run_meets (meets_whole _ fun _ _ => trivial).still
    obtain ⟨-, hpassed⟩ := hconcluded.passed accepted (hresult.trans haccepted)
    obtain ⟨e, before, after, he, hbefore, hafter, hsize, hdigest⟩ := hpassed hapart p hp hpath
    rw [himages] at hafter
    obtain rfl : before = after := Option.some.inj (hbefore.symm.trans hafter)
    rw [ByteArray.extract_append_extract, Nat.zero_min, Nat.max_eq_right (Nat.min_le_right _ _)]
      at hdigest
    exact ⟨e, before, he, hbefore, hsize, hdigest⟩

/-- A plan that has been accepted is accepted as it is, without its metadata being written. -/
theorem accepted_reading (hfaultless : r.Faultless)
    (hapart : Setting.Apart ⟨scale, dynamic, plan⟩ plan.partitions)
    (hordered : ∀ p ∈ plan.partitions, p.verityLayout.Ordered)
    (haccepted : ((whole scale dynamic (some plan)).run host r).2 = some (.ok accepted))
    {r' : Rig P} (hsound : r'.Sound) (hcontroller : r'.controller = r.controller)
    (hshows : Setting.Shows ⟨scale, dynamic, plan⟩
      ((whole scale dynamic (some plan)).run host r).1.image? r'.image?) :
    ((whole scale dynamic (some plan.reading)).run host r').2 = some (.ok plan.reading) := by
  obtain ⟨-, r₁, hverify, huntouched⟩ := run_whole_ok_iff.mp haccepted
  have hexpects : ∀ p ∈ plan.partitions,
      Setting.Expects ⟨scale, dynamic, plan.reading⟩ r'.image? p := by
    intro p hp
    have hexpected := expects_of_accepted hfaultless hapart hordered haccepted p hp
    unfold Setting.Expects at hexpected ⊢
    split
    · rename_i hpath
      rwa [if_pos hpath] at hexpected
    · rename_i hpath
      rw [if_neg hpath] at hexpected
      rwa [hshows p hp hpath]
  have hpassed : ((verifyFrom ⟨scale, dynamic, plan.reading⟩ 0 plan.partitions scale.zero).run host
      r').2 = some (.ok ()) :=
    run_verifyFrom_of_expects _ _ hsound (fun p _ => rfl) hexpects
  refine run_whole_ok_iff.mpr ⟨rfl, _, Prod.ext rfl hpassed, ?_⟩
  have hsame : ((verifyFrom ⟨scale, dynamic, plan.reading⟩ 0 plan.partitions scale.zero).run host
      r').1.controller = r₁.controller := by
    rw [(Rig.sameSetup_run _ r').controller, hcontroller, ← (Rig.sameSetup_run _ r).controller]
    exact congrArg (fun last => last.1.controller) hverify
  exact (run_verifyUntouched_congr plan hsame).trans huntouched

end

/-! ## Lives -/

/-- A verification without failures on order, that nobody aborts, of targets that are kept in
    different images and whose metadata comes in its order: the data, the tree, and the parity bytes
    behind all that they cover.  A second one on the images that it leaves ends with the same
    result, and leaves each image as it is.  If the plan was accepted and nothing goes wrong by
    itself, then it is also accepted without metadata to be written, where the targets can be read
    as they were left; unless there are dynamic partitions, that is on the same images
    (`Setting.shows_self`). -/
theorem repeatable (scale : Scale P) (dynamic : DynamicPartitions) (plan : InstallPlan) {r : Rig P}
    (hfaultless : r.Faultless) (hundisturbed : Undisturbed r)
    (hapart : Setting.Apart ⟨scale, dynamic, plan⟩ plan.partitions)
    (hordered : ∀ p ∈ plan.partitions, p.verityLayout.Ordered) :
    ∃ n, ∀ m m', n ≤ m → n ≤ m' →
      let end₁ := Life.polls r (Life.new scale dynamic plan) m
      let end₂ := Life.polls (r.refilled end₁.1.images) (Life.new scale dynamic plan) m'
      end₁.2.Over ∧ end₂.2 = end₁.2 ∧ (∀ path, end₂.1.image? path = end₁.1.image? path) ∧
      ∀ accepted, end₁.2.accepted? = some accepted → r.Sound → ∀ images,
        Setting.Shows ⟨scale, dynamic, plan⟩ end₁.1.image? (r.refilled images).image? →
        ∃ k, ∀ m, k ≤ m →
          (Life.polls (r.refilled images) (Life.new scale dynamic plan.reading) m).2 =
            .completed (.ok plan.reading) := by
  obtain ⟨n, hn⟩ := Life.exists_polls_run hundisturbed scale dynamic plan
  -- the second life has its own number of polls, and whichever is larger does for both
  obtain ⟨n', hn'⟩ := Life.exists_polls_run (r := r.refilled
    ((whole scale dynamic (some plan)).run host r).1.images) hundisturbed scale dynamic plan
  refine ⟨max n n', fun m m' hm hm' => ?_⟩
  intro end₁ end₂
  have hend₁ : end₁ = Life.ofRun ((whole scale dynamic (some plan)).run host r) :=
    hn m (by omega)
  have hend₂ : end₂ = Life.ofRun ((whole scale dynamic (some plan)).run host
      (r.refilled ((whole scale dynamic (some plan)).run host r).1.images)) := by
    rw [← hn' m' (by omega), ← Life.ofRun_fst, ← hend₁]
  obtain ⟨hresult, himages⟩ := run_whole_again hfaultless hapart hordered
    ((whole scale dynamic (some plan)).run host r).1.images fun _ => rfl
  rw [hend₁, hend₂, Life.ofRun_fst, Life.ofRun_fst]
  refine ⟨Life.ofRun_over _, ?_, himages, fun accepted haccepted hsound images hshows => ?_⟩
  · rw [Life.ofRun_snd, Life.ofRun_snd, hresult]
  · obtain ⟨k, hk⟩ := Life.exists_polls_run (r := r.refilled images) hundisturbed scale dynamic
      plan.reading
    refine ⟨k, fun m hm => ?_⟩
    have hsound' : (r.refilled images).Sound := hsound.of_sameSetup (Rig.sameSetup_of_eq rfl)
    rw [hk m hm, Life.ofRun_snd, accepted_reading hfaultless hapart hordered
      (Life.accepted?_ofRun.mp haccepted) hsound' rfl hshows]

/-- The life of a plan for the byte with its parity bytes, on the device without them. -/
abbrev parityLife (n : Nat) : Rig Nat × Life Nat :=
  Life.polls parityMissing
    (Life.new .bytes parityMissing.dynamicPartitions { partitions := [parityBehind] }) n

/-- Eight polls are enough, so any number behind them is. -/
theorem parityLife_accepts (n : Nat) :
    (parityLife (8 + n)).2.accepted? = some { partitions := [parityBehind] } ∧
      (parityLife (8 + n)).1.image? "/dev/system" = some [0, 0, 0].toByteArray := by
  have hfirst : (parityLife 8).2.accepted? = some { partitions := [parityBehind] } ∧
      (parityLife 8).1.image? "/dev/system" = some [0, 0, 0].toByteArray := by
    decide +kernel
  unfold parityLife at hfirst ⊢
  rw [Life.polls_add_of_over (Life.over_of_accepted hfirst.1)]
  exact hfirst

/-- The plan is accepted, again on what is left, and then also without writing. -/
theorem repeatable_parityBehind :
    ∃ n,
      let left := parityMissing.refilled (parityLife n).1.images
      let again := Life.polls left
        (Life.new .bytes parityMissing.dynamicPartitions { partitions := [parityBehind] }) n
      (parityLife n).2.accepted? = some { partitions := [parityBehind] } ∧
      left.image? "/dev/system" = some [0, 0, 0].toByteArray ∧
      again.2.accepted? = some { partitions := [parityBehind] } ∧
      again.1.image? "/dev/system" = some [0, 0, 0].toByteArray ∧
      ∃ k, (Life.polls left (Life.new .bytes parityMissing.dynamicPartitions
        { partitions := [parityBehind], writeVerity := false }) k).2 =
          .completed (.ok { partitions := [parityBehind], writeVerity := false }) := by
  have hordered : ∀ p ∈ [parityBehind], p.verityLayout.Ordered := by
    intro p hp
    obtain rfl := List.mem_singleton.mp hp
    exact ⟨fun hsome => absurd rfl hsome, fun hsome => absurd rfl hsome, fun _ => by decide⟩
  obtain ⟨n, hn⟩ := repeatable .bytes parityMissing.dynamicPartitions
    { partitions := [parityBehind] } (r := parityMissing) ⟨rfl, rfl⟩ ⟨rfl, rfl⟩
    (List.pairwise_singleton _ _) hordered
  obtain ⟨haccepted, himage⟩ := parityLife_accepts n
  obtain ⟨-, hsame, himages, hreading⟩ :=
    hn (8 + n) (8 + n) (Nat.le_add_left n 8) (Nat.le_add_left n 8)
  have hshows : Setting.Shows
      ⟨.bytes, parityMissing.dynamicPartitions, { partitions := [parityBehind] }⟩
      (parityLife (8 + n)).1.image?
      (parityMissing.refilled (parityLife (8 + n)).1.images).image? := by
    rw [Rig.image?_refilled]
    exact Setting.shows_self _ _ (by decide)
  obtain ⟨k, hk⟩ := hreading _ haccepted ⟨⟨rfl, rfl, rfl, by decide⟩, rfl⟩ _ hshows
  refine ⟨8 + n, haccepted, ?_, ?_, ?_, k, hk k (Nat.le_refl k)⟩
  · rw [Rig.image?_refilled]
    exact himage
  · rw [hsame]
    exact haccepted
  · rw [himages]
    exact himage

end Verification

end SlotVerify
