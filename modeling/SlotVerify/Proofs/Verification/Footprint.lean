import SlotVerify.Proofs.Verification.Schedule
/-
  Which bytes a verification may change.

  However a verification is polled, aborted, dropped or disturbed by failures, a byte that differs
  afterwards is verity metadata of a target that has some, in the image that the target is written
  to, and only if the plan asks for it (`changes_only_target_metadata`).  A step of a source never
  asks for more than to read (`only_source`): what it may do at all is settled by its tree, whoever
  answers it.
-/

namespace SlotVerify

/-- The image that a target is written to: its own, or its copy-on-write snapshot. -/
def Partition.targetImage (dynamic : Verification.DynamicPartitions) (slot : Slot)
    (p : Partition) : String :=
  if dynamic.compressed ∧ dynamic.isDynamic p.name slot then Rig.snapshotPath p.name
  else p.targetPath

/-- The bytes of a partition's hash tree and of its error correction. -/
def Partition.IsMetadata (p : Partition) (x : Nat) : Prop :=
  (p.hashTreeOffset.toNat ≤ x ∧ x < p.hashTreeOffset.toNat + p.hashTreeSize.toNat) ∨
    (p.fecOffset.toNat ≤ x ∧ x < p.fecOffset.toNat + p.fecSize.toNat)

namespace Verification

variable {P : Type}

/-! ## Sources -/

/-- A call that neither makes anything writable nor concerns the writer. -/
def Call.ForReading : Call P → Prop
  | .setReadOnly _ readOnly => readOnly = true
  | .openPath _ writable => writable = false
  | .report _ | .wake => True
  | _ => False

/-- A read from a device that was opened for reading. -/
def PlainRead (d : OpenedDevice) (q : Device.Request) : Prop :=
  d.writable = false ∧ ∃ offset length, q = .read offset length

/-- A sequence of parts that only read. -/
theorem only_andThen {ε α β : Type} {ok : α → Prop} {t : Attempt P ε α} {f : α → Attempt P ε β}
    (ht : t.Only Call.ForReading PlainRead fun outcome => ∀ a, outcome = .ok a → ok a)
    (hf : ∀ a, ok a → (f a).Only Call.ForReading PlainRead fun _ => True) :
    (t.andThen f).Only Call.ForReading PlainRead fun _ => True := by
  apply Routine.only_bind ht
  intro outcome hok
  cases outcome with
  | ok a => exact hf a (hok a rfl)
  | error e => trivial

theorem only_hashPartition (scale : Scale P) {subject : Subject} (dataEnd : Nat) (reported : P)
    (hreading : subject.device.writable = false) :
    (hashPartition scale subject dataEnd false reported).Only Call.ForReading PlainRead
      fun _ => True := by
  refine (reads_hashPartition scale subject dataEnd reported).mono ?_ ?_ fun _ => id
  · intro c hc
    cases c with
    | report progress => trivial
    | wake => trivial
    | _ => exact hc.elim
  · rintro d q ⟨rfl, offset, length, hq, -⟩
    exact ⟨hreading, offset, length, hq⟩

/-- A step of a source does nothing but open a device for reading, read it and report. -/
theorem only_source (s : Setting P) (p : Partition) (index : Nat) (reported : P) :
    (hashStep s p .source index reported).Only Call.ForReading PlainRead fun _ => True := by
  unfold hashStep
  dsimp only
  cases dataEnd .source p.hashTreeOffset.toNat p.fecOffset.toNat (p.size .source) with
  | error cause => trivial
  | ok e =>
    have hopen : (openSource s p .source).Only Call.ForReading PlainRead
        fun outcome => ∀ d, outcome = .ok d → d.writable = false := by
      show (openDirect p p.sourcePath false).Only _ _ _
      refine ⟨rfl, fun _ => ⟨rfl, ?_⟩⟩
      intro outcome
      cases outcome with
      | ok _ =>
        intro d hd
        cases hd
        rfl
      | error e =>
        intro d hd
        cases hd
    refine only_andThen hopen ?_
    intro d hreading
    show Routine.Only _ _ _ (Attempt.mapError _ _)
    apply Routine.only_bind (only_hashPartition s.scale e reported hreading)
    intro outcome _
    trivial

/-! ## Whole verifications -/

/-- What a target is written to, in other words. -/
theorem written_target {s : Setting P} {p : Partition} {path : String} {x : Nat}
    (h : s.written p .target path x) :
    s.plan.writeVerity = true ∧ p.hasVerity = true ∧
      path = p.targetImage s.dynamic s.plan.targetSlot ∧ p.IsMetadata x := by
  obtain ⟨hwrites, hpath, hmetadata⟩ := h
  have hboth : s.plan.writeVerity = true ∧ p.hasVerity = true := by
    simpa [Setting.writes] using hwrites
  refine ⟨hboth.1, hboth.2, ?_, hmetadata⟩
  rw [hpath, Setting.imagePath, if_pos hwrites]
  unfold Partition.targetImage
  by_cases hmapped : s.Mapped p .target
  · rw [if_pos hmapped, if_pos hmapped.2]
  · rw [if_neg hmapped, if_neg fun h => hmapped ⟨rfl, h⟩]
    rfl

/-- However it is polled, aborted, dropped or disturbed, a verification changes verity metadata of
    targets only, and only if the plan asks for it.  Sources are only read. -/
theorem changes_only_target_metadata (scale : Scale P) (dynamic : DynamicPartitions)
    (plan : InstallPlan) (r : Rig P) (events : List Event) :
    let r' := (Life.run r (Life.new scale dynamic plan) events).1
    (∀ path, Option.Rel
      (fun before after : ByteArray => after.size = before.size ∧
        ∀ x, Bytes.at0 after x ≠ Bytes.at0 before x →
          plan.writeVerity = true ∧ ∃ p ∈ plan.partitions, p.hasVerity = true ∧
            path = p.targetImage dynamic plan.targetSlot ∧ p.IsMetadata x)
      (r.image? path) (r'.image? path)) ∧
    (plan.writeVerity = false → ∀ path, r'.image? path = r.image? path) ∧
    ∀ p index reported, (hashStep ⟨scale, dynamic, plan⟩ p .source index reported).Only
      Call.ForReading PlainRead fun _ => True := by
  intro r'
  have hframe := (Life.concluded ⟨scale, dynamic, plan⟩ r events).1
  refine ⟨?_, ?_, only_source _⟩
  · intro path
    have hpath := hframe.sameBut path
    show Option.Rel _ (r.image? path) (r'.image? path)
    change Option.Rel _ (r.image? path) (r'.image? path) at hpath
    generalize r.image? path = before at hpath
    generalize r'.image? path = after at hpath
    cases hpath with
    | none => exact .none
    | some hsame =>
      refine .some ⟨hsame.size, ?_⟩
      -- a byte that is no metadata has not changed
      intro x hx
      apply Classical.byContradiction
      intro hnone
      refine hx (hsame.at0 x ?_)
      rintro ⟨p, hp, -, hwritten⟩
      obtain ⟨hasked, hrest⟩ := written_target hwritten
      exact hnone ⟨hasked, p, hp, hrest⟩
  · intro hasks path
    apply hframe.sameBut.image?_eq
    rintro x ⟨p, -, -, hwritten⟩
    have hasked : plan.writeVerity = true := (written_target hwritten).1
    rw [hasks] at hasked
    cases hasked

end Verification

end SlotVerify
