import SlotVerify.Proofs.Verification.Schedule
/-
  The result of a verification that writes nothing.

  `InstallPlan.reference` computes the result of a plan from the images alone: partition by
  partition, each hashed at once.  A verification in which no metadata is written, on a rig on which
  nothing goes wrong and nobody asks for an abort, comes to this result after finitely many polls,
  however short its reads are (`completed_reference`).
-/

namespace SlotVerify

open Verification (Error partitionAlgorithm)

/-- The result of a plan: the first verdict that is an error, or the plan itself. -/
def InstallPlan.reference (plan : InstallPlan) (images : String → Option ByteArray) :
    Except Error InstallPlan :=
  (forM plan.partitions (Partition.verdict images)).map fun _ => plan

namespace Verification

variable {P : Type}

/-! ## No aborts -/

/-- Nobody has asked for an abort, or will. -/
def Undisturbed (r : Rig P) : Prop := r.aborted = false ∧ r.abortAtReport = none

theorem Undisturbed.answer {r : Rig P} (h : Undisturbed r) (c : Call P) :
    Undisturbed (r.answer c).1 := by
  have hopen : ∀ (r : Rig P) path writable, Undisturbed r →
      Undisturbed (r.openImage path writable).1 := by
    intro r path writable h
    unfold Rig.openImage
    split
    · exact h
    · split <;> exact h
  cases c with
  | setReadOnly path readOnly =>
    show Undisturbed (r.setReadOnly path readOnly).1
    unfold Rig.setReadOnly
    split
    · exact h
    · split <;> exact h
  | openPath path writable => exact hopen r path writable h
  | openSnapshot name sourcePath writable =>
    unfold Rig.answer
    dsimp only
    split
    · exact h
    · exact hopen _ _ _ h
  | report progress =>
    show Undisturbed (r.hear progress)
    unfold Rig.hear
    split
    · obtain ⟨haborted, hreport⟩ := h
      refine ⟨?_, hreport⟩
      show (r.aborted || r.abortAtReport == some r.journal.progress.size) = false
      rw [haborted, hreport]
      rfl
    · exact h
  | _ => exact h

theorem Undisturbed.submit {r : Rig P} (h : Undisturbed r) (d : OpenedDevice)
    (q : Device.Request) : Undisturbed (Rig.host.submit r d q).1 := by
  show Undisturbed (r.place d q).1
  unfold Rig.place
  dsimp only
  split
  · split <;> exact h
  · split <;> exact h

theorem Undisturbed.complete {r : Rig P} (h : Undisturbed r) (d : OpenedDevice)
    (q : Device.Request) : Undisturbed (Rig.host.complete r d q).1 := by
  cases hfailing : r.failing with
  | some f =>
    rw [Rig.complete_of_failing hfailing]
    exact h
  | none =>
    rw [Rig.complete_of_settled hfailing]
    exact h

/-- Left to itself, no routine asks for an abort. -/
theorem meets_undisturbed {α : Type} (t : Routine (interface P) α) {r : Rig P}
    (h : Undisturbed r) :
    t.Meets Rig.host (.still (Rig P)) Undisturbed (fun _ => Undisturbed) r := by
  refine ((Routine.only_true t).meets Undisturbed ?_ ?_ ?_ ?_ h).mono (fun _ => id) ?_
  · exact fun _ c _ hr => hr.answer c
  · exact fun _ d q _ hr => hr.submit d q
  · exact fun _ d q _ hr => hr.complete d q
  · rintro r₁ r₂ hr rfl
    exact hr
  · exact fun _ _ hr => hr.1

/-- A verification that is only polled is never dropped. -/
theorem Life.not_dropped_polls (n : Nat) :
    ∀ {r : Rig P} {life : Life P}, life ≠ .dropped → (Life.polls r life n).2 ≠ .dropped := by
  induction n with
  | zero =>
    intro r life h
    exact h
  | succ n ih =>
    intro r life h
    rw [Life.polls_succ]
    apply ih
    cases life with
    | running v =>
      show (Life.poll r v).2 ≠ .dropped
      unfold Life.poll
      split <;> exact fun h => nomatch h
    | completed result => exact h
    | dropped => exact h
    | broken => exact h

/-- The same for a whole verification, and with what it comes to. -/
theorem meets_whole_undisturbed (s : Setting P) {r : Rig P} (h : Undisturbed r) :
    (whole s.scale s.dynamic (some s.plan)).Meets Rig.host (.still (Rig P)) Undisturbed
      (Concluded s r) r := by
  have hconcludes : (whole s.scale s.dynamic (some s.plan)).Meets Rig.host (Rig.surroundings P)
      (fun _ => True) (Concluded s r) r := meets_whole s fun _ _ => trivial
  exact (hconcludes.still.and (meets_undisturbed _ h)).mono (fun _ h => h.2) fun _ _ h => h.1

theorem closed_undisturbed (s : Setting P) (r : Rig P) :
    Closed (.still (Rig P)) Undisturbed (Concluded s r) := by
  refine ⟨?_, ?_, fun _ h => h.answer .unmapAll⟩
  · rintro r₁ r₂ h rfl
    exact h
  · rintro a r₁ r₂ h rfl
    exact h

/-! ## The result -/

/-- A target that gets no metadata, on a device without dynamic partitions. -/
theorem target_untouched {s : Setting P} {p : Partition}
    (hreads : s.plan.writeVerity = false ∨ p.hasVerity = false)
    (hdynamic : s.dynamic.compressed = false) :
    s.writes p .target = false ∧ ¬ s.Mapped p .target := by
  constructor
  · show (true && s.plan.writeVerity && p.hasVerity) = false
    rcases hreads with hplan | hpartition
    · rw [hplan]
      rfl
    · rw [hpartition, Bool.and_false]
  · rintro ⟨-, hcompressed, -⟩
    rw [hdynamic] at hcompressed
    cases hcompressed

/-- Without metadata to write, the verification comes to the reference result. -/
theorem completed_reference (scale : Scale P) (plan : InstallPlan) (r : Rig P)
    (hreads : plan.writeVerity = false ∨ ∀ p ∈ plan.partitions, p.hasVerity = false)
    (hquiet : r.Quiet) (haborted : r.aborted = false) (hreport : r.abortAtReport = none) :
    ∃ n, ∀ m, n ≤ m → (Life.polls r (Life.new scale r.dynamicPartitions plan) m).2 =
      .completed (plan.reference r.image?) := by
  let s : Setting P := ⟨scale, r.dynamicPartitions, plan⟩
  have hundisturbed : Undisturbed r := ⟨haborted, hreport⟩
  have hdynamic : r.dynamicPartitions.compressed = false := by
    unfold Rig.dynamicPartitions
    rw [hquiet.controller]
  have hsimple : ∀ p ∈ plan.partitions, s.writes p .target = false ∧ ¬ s.Mapped p .target :=
    fun p hp => target_untouched (hreads.imp id fun h => h p hp) hdynamic
  obtain ⟨n, hover⟩ := Life.exists_polls r scale r.dynamicPartitions plan
  refine ⟨n, ?_⟩
  intro m hm
  have hend := hover m hm
  have hlives : Life.new scale r.dynamicPartitions plan ≠ .dropped := fun h => nomatch h
  have hdropped := Life.not_dropped_polls (r := r) m hlives
  have hkeeps := Life.run_new_keeps (closed_undisturbed s r) (List.replicate m .poll)
    (fun habort => nomatch List.eq_of_mem_replicate habort) scale r.dynamicPartitions plan
    hundisturbed (by
      rintro r₁ rfl
      exact meets_whole_undisturbed s hundisturbed)
  change Life.Keeps _ _ _ (Life.polls r (Life.new scale r.dynamicPartitions plan) m) at hkeeps
  generalize Life.polls r (Life.new scale r.dynamicPartitions plan) m = state at *
  obtain ⟨r', life⟩ := state
  -- it has ended, and neither by being dropped nor by an abort
  cases life with
  | running v => exact hend.elim
  | completed result =>
    rcases hkeeps with hconcluded | ⟨-, -, r₁, hnever, hask⟩
    · exact congrArg Life.completed (Option.some.inj (hconcluded.quiet hsimple hquiet))
    · rw [hnever.1] at hask
      cases hask
  | dropped => exact absurd rfl hdropped
  | broken => cases hkeeps.quiet hsimple hquiet

/-- A plan whose second target is longer than its device. -/
def overlongPlan : InstallPlan where
  partitions :=
    [{ name := "vendor" }, { name := "boot", targetPath := "/dev/boot", targetSize := 4 }]

/-- The device, which delivers a byte at a time. -/
def shortDevice : Rig Nat where
  images := [("/dev/boot", [1, 2, 3].toByteArray)]
  readLimit := some 1

/-- The result names the partition and the place where its device ends. -/
theorem completed_reference_overlongPlan :
    ∃ n, ∀ m, n ≤ m →
      (Life.polls shortDevice (Life.new .bytes shortDevice.dynamicPartitions overlongPlan) m).2 =
        .completed (.error (.unexpectedEnd "boot" 3)) := by
  have hresult : overlongPlan.reference shortDevice.image? =
      .error (.unexpectedEnd "boot" 3) := rfl
  rw [← hresult]
  exact completed_reference .bytes overlongPlan shortDevice (Or.inr (by decide))
    ⟨⟨rfl, rfl, rfl, by decide⟩, rfl, rfl⟩ rfl rfl

end Verification

end SlotVerify
