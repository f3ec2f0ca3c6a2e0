import SlotVerify.Proofs.Verification.Footprint
/-
  What an accepted plan says about the devices.

  The digest that a target has to have is computed in two stretches: up to the end of the file
  system data as the image was found, and from there on as the run has left it.  This is the digest
  of the image that is on the device in the end, if the run has not written in front of the end of
  the data (`passed_of_accepted`).

  The end of the data is found from the offsets of the metadata, where zero stands for absence,
  while the sizes say what is written.  So the two agree exactly for metadata that does not begin at
  offset zero (`metadata_behind_iff`).  Metadata of some size at offset zero is written over bytes
  that have been hashed, and the plan is accepted all the same (`accepted_of_overwritten`).
-/

namespace SlotVerify

/-- No metadata is at offset zero, where it would count as absent. -/
def Partition.Placed (p : Partition) : Prop :=
  (p.hashTreeSize ≠ 0 → p.hashTreeOffset ≠ 0) ∧ (p.fecSize ≠ 0 → p.fecOffset ≠ 0)

instance (p : Partition) : Decidable p.Placed := inferInstanceAs (Decidable (_ ∧ _))

namespace Verification

variable {P : Type}

theorem toNat_eq_zero {n : UInt64} : n.toNat = 0 ↔ n = 0 :=
  ⟨fun h => UInt64.toNat_inj.mp h, fun h => h ▸ rfl⟩

/-- Where the data of a target ends. -/
theorem dataEnd_target_eq_ok {p : Partition} {e : Nat}
    (h : dataEnd .target p.hashTreeOffset.toNat p.fecOffset.toNat p.targetSize.toNat = .ok e) :
    e = metadataStart p.hashTreeOffset.toNat p.fecOffset.toNat p.targetSize.toNat ∧
      e ≤ p.targetSize.toNat ∧
      (p.hashTreeOffset.toNat ≠ 0 → p.fecOffset.toNat ≠ 0 →
        p.hashTreeOffset.toNat ≤ p.fecOffset.toNat) := by
  unfold dataEnd at h
  split at h
  · cases h
  · rename_i hordered
    dsimp only at h
    split at h
    · rename_i hfits
      cases h
      refine ⟨rfl, hfits, ?_⟩
      intro htree hfec
      exact Nat.not_lt.mp fun hlt => hordered ⟨htree, hfec, hlt⟩
    · cases h

/-- A target that is not empty has data. -/
theorem metadataStart_pos (hashTreeOffset fecOffset : Nat) {size : Nat} (h : size ≠ 0) :
    0 < metadataStart hashTreeOffset fecOffset size := by
  unfold metadataStart
  split
  · omega
  · split <;> omega

/-- The metadata of a target is behind its data, exactly if none is at offset zero; an empty target
    has no data to be in the way. -/
theorem metadata_behind_iff {p : Partition} {e : Nat}
    (h : dataEnd .target p.hashTreeOffset.toNat p.fecOffset.toNat p.targetSize.toNat = .ok e) :
    (∀ x, p.IsMetadata x → e ≤ x) ↔ p.Placed ∨ p.targetSize = 0 := by
  obtain ⟨he, hsize, hordered⟩ := dataEnd_target_eq_ok h
  constructor
  · intro hbehind
    by_cases hzero : p.targetSize = 0
    · exact Or.inr hzero
    · -- metadata at offset zero would be in front of the end of the data, which is not zero
      have hpos := metadataStart_pos p.hashTreeOffset.toNat p.fecOffset.toNat
        fun h => hzero (toNat_eq_zero.mp h)
      refine Or.inl ⟨?_, ?_⟩
      · rintro htree hoffset
        have hsome : p.hashTreeSize.toNat ≠ 0 := fun h => htree (toNat_eq_zero.mp h)
        have hfirst : p.hashTreeOffset.toNat = 0 := toNat_eq_zero.mpr hoffset
        have hle := hbehind 0 (Or.inl ⟨by omega, by omega⟩)
        omega
      · rintro hfec hoffset
        have hsome : p.fecSize.toNat ≠ 0 := fun h => hfec (toNat_eq_zero.mp h)
        have hfirst : p.fecOffset.toNat = 0 := toNat_eq_zero.mpr hoffset
        have hle := hbehind 0 (Or.inr ⟨by omega, by omega⟩)
        omega
  · have hstart : e = if p.hashTreeOffset.toNat ≠ 0 then p.hashTreeOffset.toNat
        else if p.fecOffset.toNat ≠ 0 then p.fecOffset.toNat else p.targetSize.toNat := he
    rintro (⟨htree, hfec⟩ | hzero) x hx
    · rcases hx with ⟨hlow, hhigh⟩ | ⟨hlow, hhigh⟩
      · have hoffset : p.hashTreeOffset.toNat ≠ 0 := by
          intro hfirst
          refine htree ?_ (toNat_eq_zero.mp hfirst)
          intro hnone
          have := toNat_eq_zero.mpr hnone
          omega
        rw [if_pos hoffset] at hstart
        omega
      · have hoffset : p.fecOffset.toNat ≠ 0 := by
          intro hfirst
          refine hfec ?_ (toNat_eq_zero.mp hfirst)
          intro hnone
          have := toNat_eq_zero.mpr hnone
          omega
        by_cases hboth : p.hashTreeOffset.toNat ≠ 0
        · rw [if_pos hboth] at hstart
          have := hordered hboth hoffset
          omega
        · rw [if_neg hboth, if_pos hoffset] at hstart
          omega
    · have := toNat_eq_zero.mpr hzero
      omega

/-! ## Accepted plans -/

/-- Two partitions of a list that are related one way or the other are not at one place. -/
theorem eq_of_targetPath_eq {partitions : List Partition}
    (hpaths : partitions.Pairwise fun p q => p.targetPath ≠ "" → p.targetPath ≠ q.targetPath)
    {p q : Partition} (hp : p ∈ partitions) (hq : q ∈ partitions) (hne : p.targetPath ≠ "")
    (heq : p.targetPath = q.targetPath) : p = q := by
  induction partitions with
  | nil => cases hp
  | cons first rest ih =>
    obtain ⟨hfirst, hrest⟩ := List.pairwise_cons.mp hpaths
    rcases List.mem_cons.mp hp with rfl | hp'
    · rcases List.mem_cons.mp hq with rfl | hq'
      · rfl
      · exact absurd heq (hfirst q hq' hne)
    · rcases List.mem_cons.mp hq with rfl | hq'
      · exact absurd heq.symm (hfirst p hp' (heq ▸ hne))
      · exact ih hrest hp' hq'

/-- Without dynamic partitions a target is kept behind its own path. -/
theorem imagePath_target {s : Setting P} {p : Partition}
    (h : ¬ (s.dynamic.compressed ∧ s.dynamic.isDynamic p.name s.plan.targetSlot)) :
    s.imagePath p .target = p.targetPath := by
  rw [Setting.imagePath, if_neg fun hmapped => h hmapped.2]
  rfl

/-- What is written to the device of a partition is its own metadata. -/
theorem isMetadata_of_writtenBy {s : Setting P} {p : Partition} {x : Nat}
    (hpaths : s.plan.partitions.Pairwise fun p q =>
      p.targetPath ≠ "" → p.targetPath ≠ q.targetPath)
    (hdynamic : ∀ p ∈ s.plan.partitions,
      ¬ (s.dynamic.compressed ∧ s.dynamic.isDynamic p.name s.plan.targetSlot))
    (hp : p ∈ s.plan.partitions) (hne : p.targetPath ≠ "")
    (h : s.writtenBy s.plan.partitions p.targetPath x) :
    s.plan.writeVerity = true ∧ p.IsMetadata x := by
  obtain ⟨q, hq, -, hwritten⟩ := h
  obtain ⟨hasked, -, hpath, hmetadata⟩ := written_target hwritten
  have hpq : p = q := by
    refine eq_of_targetPath_eq hpaths hp hq hne ?_
    rw [hpath, Partition.targetImage, if_neg (hdynamic q hq)]
  subst hpq
  exact ⟨hasked, hmetadata⟩

/-- If a plan is accepted, the digest of each target is the expected one, computed from the image
    as it was found up to the end of the data and as it is on the device from there on.  Unless
    metadata has been written at offset zero, it is the digest of what is on the device; metadata at
    offset zero is in front of the end of the data. -/
theorem passed_of_accepted (scale : Scale P) (dynamic : DynamicPartitions) (plan : InstallPlan)
    {accepted : InstallPlan} (r : Rig P) (events : List Event)
    (hpaths : plan.partitions.Pairwise fun p q => p.targetPath ≠ "" → p.targetPath ≠ q.targetPath)
    (hdynamic : ∀ p ∈ plan.partitions,
      ¬ (dynamic.compressed ∧ dynamic.isDynamic p.name plan.targetSlot))
    (haccepted : (Life.run r (Life.new scale dynamic plan) events).2.accepted? = some accepted) :
    accepted = plan ∧ ∀ p ∈ plan.partitions, p.targetPath ≠ "" → ∃ e before after,
      dataEnd .target p.hashTreeOffset.toNat p.fecOffset.toNat p.targetSize.toNat = .ok e ∧
      r.image? p.targetPath = some before ∧
      (Life.run r (Life.new scale dynamic plan) events).1.image? p.targetPath = some after ∧
      p.targetSize.toNat ≤ after.size ∧
      partitionAlgorithm.digest
        (before.extract 0 e ++ after.extract e p.targetSize.toNat) = p.targetHash ∧
      ((∀ x, p.IsMetadata x → e ≤ x) ↔ p.Placed ∨ p.targetSize = 0) ∧
      ((plan.writeVerity = true → p.Placed ∨ p.targetSize = 0) →
        partitionAlgorithm.digest (after.extract 0 p.targetSize.toNat) = p.targetHash) := by
  obtain ⟨hframe, hconcluded⟩ := Life.concluded ⟨scale, dynamic, plan⟩ r events
  have himage : ∀ p ∈ plan.partitions,
      Setting.imagePath (⟨scale, dynamic, plan⟩ : Setting P) p .target = p.targetPath :=
    fun p hp => imagePath_target (hdynamic p hp)
  have hapart : Setting.Apart (⟨scale, dynamic, plan⟩ : Setting P) plan.partitions := by
    refine hpaths.imp_of_mem ?_
    intro p q hp hq h hne _
    rw [himage p hp, himage q hq]
    exact h hne
  generalize Life.run r (Life.new scale dynamic plan) events = state at *
  obtain ⟨r', life⟩ := state
  have hlife : life = .completed (.ok accepted) := by
    unfold Life.accepted? at haccepted
    split at haccepted
    · cases haccepted
      assumption
    · cases haccepted
  rcases hconcluded _ hlife with hconcluded | hcancelled
  · obtain ⟨rfl, hpassed⟩ := hconcluded.passed accepted rfl
    refine ⟨rfl, ?_⟩
    intro p hp hne
    obtain ⟨e, before, after, he, hbefore, hafter, hsize, hdigest⟩ := hpassed hapart p hp hne
    rw [himage p hp] at hbefore hafter
    obtain ⟨-, hfits, -⟩ := dataEnd_target_eq_ok he
    rw [Nat.min_eq_left hfits] at hdigest
    refine ⟨e, before, after, he, hbefore, hafter, hsize, hdigest, metadata_behind_iff he, ?_⟩
    intro hplaced
    obtain ⟨after', hafter', hsame⟩ := hframe.sameBut.exists_image hbefore
    have heq : after' = after := Option.some.inj (hafter'.symm.trans hafter)
    subst heq
    have hfront : after'.extract 0 e = before.extract 0 e := by
      refine hsame.extract_eq (by rw [← hsame.size]; omega) ?_
      rintro x - hx hwritten
      obtain ⟨hasked, hmetadata⟩ := isMetadata_of_writtenBy hpaths hdynamic hp hne hwritten
      have hbehind := (metadata_behind_iff he).mpr (hplaced hasked) x hmetadata
      omega
    rw [← hfront, ByteArray.extract_append_extract, Nat.min_eq_left (Nat.zero_le e),
      Nat.max_eq_right hfits] at hdigest
    exact hdigest
  · cases hcancelled

/-! ## Parity bytes behind their data, and in front of it -/

/-- A byte of data with its two parity bytes behind it. -/
def parityBehind : Partition where
  name := "system"
  targetPath := "/dev/system"
  targetSize := 3
  targetHash := partitionAlgorithm.digest [0, 0, 0].toByteArray
  blockSize := 1
  fecDataSize := 1
  fecOffset := 1
  fecSize := 2

/-- A device of that size with other bytes in place of the parity. -/
def parityMissing : Rig Nat where
  images := [("/dev/system", [0, 5, 7].toByteArray)]

/-- The parity bytes are written, and the whole is what was expected. -/
theorem passed_of_accepted_parityBehind :
    ∃ after, (Life.run parityMissing
        (Life.new .bytes parityMissing.dynamicPartitions { partitions := [parityBehind] })
        (List.replicate 8 .poll)).1.image? "/dev/system" = some after ∧
      partitionAlgorithm.digest (after.extract 0 3) = parityBehind.targetHash := by
  have haccepted : (Life.run parityMissing
      (Life.new .bytes parityMissing.dynamicPartitions { partitions := [parityBehind] })
      (List.replicate 8 .poll)).2.accepted? = some { partitions := [parityBehind] } := by
    -- eight polls are enough, and few enough to be computed
    decide +kernel
  obtain ⟨-, hpassed⟩ := passed_of_accepted .bytes parityMissing.dynamicPartitions
    { partitions := [parityBehind] } parityMissing (List.replicate 8 .poll) (by decide) (by decide)
    haccepted
  obtain ⟨-, -, after, -, -, hafter, -, -, -, hdigest⟩ :=
    hpassed parityBehind List.mem_cons_self (by decide)
  exact ⟨after, hafter, hdigest fun _ => Or.inl (by decide)⟩

/-- A byte of data whose parity bytes are to be at offset zero. -/
def parityInFront : Partition where
  name := "system"
  targetPath := "/dev/system"
  targetSize := 2
  targetHash := partitionAlgorithm.digest [0, 7].toByteArray
  blockSize := 1
  fecDataSize := 1
  fecSize := 2

/-- A device with the data that is expected. -/
def dataPresent : Rig Nat where
  images := [("/dev/system", [0, 7].toByteArray)]

/-- All of the data is hashed before the parity bytes are written over it: the plan is accepted, and
    the device does not hold what was expected any more. -/
theorem accepted_of_overwritten :
    let last := Life.run dataPresent
      (Life.new .bytes dataPresent.dynamicPartitions { partitions := [parityInFront] })
      (List.replicate 8 .poll)
    last.2.accepted? = some { partitions := [parityInFront] } ∧
      (last.1.image? "/dev/system").map (fun after => partitionAlgorithm.digest (after.extract 0 2))
        ≠ some parityInFront.targetHash := by
  decide +kernel

end Verification

end SlotVerify
