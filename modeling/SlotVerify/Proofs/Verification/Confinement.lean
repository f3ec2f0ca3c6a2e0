import SlotVerify.Proofs.Verification.Chronicle
import SlotVerify.Proofs.Verification.Soundness
import SlotVerify.Proofs.Verification.Writing
/-
  Whether the verity metadata stays inside its partition.

  Every request to write in the record of a life is one that the target step of a partition has
  asked for: a passage to it has come to that step, and then through a part of it (`AsksInStep`,
  `asks_course`).  What the step writes is metadata of the partition, and if the plan is accepted
  then all of it has been written (`wrote_of_accepted`).

  So nothing is written behind the end of a partition whose metadata ends inside it, and that is all
  there is to it: neither the check of the layout nor the writer looks at where the metadata ends
  (`writes_confined`, `written_beyond`).
-/

namespace SlotVerify

/-- The tree and the parity bytes of a partition end inside it. -/
def Partition.MetadataInside (p : Partition) : Prop :=
  (p.hashTreeSize ≠ 0 →
    p.hashTreeOffset.toNat + p.hashTreeSize.toNat ≤ p.targetSize.toNat) ∧
  (p.fecSize ≠ 0 → p.fecOffset.toNat + p.fecSize.toNat ≤ p.targetSize.toNat)

instance (p : Partition) : Decidable p.MetadataInside :=
  inferInstanceAs (Decidable (_ ∧ _))

/-- That is to say, every byte of it. -/
theorem Partition.metadataInside_iff {p : Partition} :
    p.MetadataInside ↔ ∀ x, p.IsMetadata x → x < p.targetSize.toNat := by
  have hregion : ∀ (size : UInt64) (offset : Nat),
      (size ≠ 0 → offset + size.toNat ≤ p.targetSize.toNat) ↔
        ∀ x, offset ≤ x ∧ x < offset + size.toNat → x < p.targetSize.toNat := by
    intro size offset
    have hzero : size = 0 ↔ size.toNat = 0 := UInt64.toNat_inj.symm
    rw [Ne, hzero]
    constructor
    · rintro h x ⟨hlow, hhigh⟩
      have hend := h (by omega)
      omega
    · intro h hsome
      have hlast := h (offset + size.toNat - 1) (by omega)
      omega
  unfold Partition.MetadataInside Partition.IsMetadata
  rw [hregion, hregion]
  constructor
  · rintro ⟨htree, hfec⟩ x (hx | hx)
    · exact htree x hx
    · exact hfec x hx
  · exact fun h => ⟨fun x hx => h x (.inl hx), fun x hx => h x (.inr hx)⟩

namespace Verification

open Device Routine
open Verity (Writer)

variable {P W : Type}

/-! ## From the step to the whole verification -/

section

variable {α β : Type} {d : OpenedDevice} {q : Request} {offset : Nat} {data : ByteArray}
  {es : Trace P}

theorem Attempt.andThen_assoc {ε γ : Type} (t : Attempt P ε α) (f : α → Attempt P ε β)
    (g : β → Attempt P ε γ) :
    (t.andThen f).andThen g = t.andThen fun a => (f a).andThen g := by
  refine (Routine.bind_assoc t _ _).trans (congrArg _ (funext ?_))
  rintro (e | a) <;> rfl

/-- From the end of the first part a sequence goes on with the second one. -/
theorem Attempt.reaches_second {ε : Type} {t : Attempt P ε α} {a : α}
    (h : t.Reaches es (.done (.ok a))) (f : α → Attempt P ε β) : (t.andThen f).Reaches es (f a) :=
  Reaches.bind h _

/-- A request comes from the first part of a sequence or from the second one. -/
theorem Attempt.reaches_request {ε : Type} {t : Attempt P ε α} {f : α → Attempt P ε β}
    {next : Except IoError q.Reply → Attempt P ε β}
    (h : (t.andThen f).Reaches es (.request d q next)) :
    (∃ next', t.Reaches es (.request d q next')) ∨
    ∃ es₁ a es₂, es = es₁ ++ es₂ ∧ t.Reaches es₁ (.done (.ok a)) ∧
      (f a).Reaches es₂ (.request d q next) := by
  rcases reaches_bind t h with ⟨t', ht, hleft, heq⟩ | ⟨es₁, outcome, es₂, rfl, ht, hf⟩
  · cases t' with
    | done a => exact absurd rfl (hleft a)
    | request d' q' next' =>
      cases heq
      exact .inl ⟨next', ht⟩
    | _ => cases heq
  · cases outcome with
    | error e => cases (reaches_done hf).2
    | ok a => exact .inr ⟨es₁, a, es₂, rfl, ht, hf⟩

/-- A passage has come to a request of the target step of a partition. -/
def AsksInStep (s : Setting P) (p : Partition) (index : Nat) (t : Attempt P Error α) (es : Trace P)
    (d : OpenedDevice) (q : Request) : Prop :=
  ∃ before since told next, ∃ f : ByteArray × P → Attempt P Error α, es = before ++ since ∧
    t.Reaches before ((hashStep s p .target index told).andThen f) ∧
    (hashStep s p .target index told).Reaches since (.request d q next)

variable {s : Setting P} {p : Partition} {index : Nat}

theorem AsksInStep.after {t u : Attempt P Error α} {es' : Trace P}
    (h : AsksInStep s p index u es d q) (ht : t.Reaches es' u) :
    AsksInStep s p index t (es' ++ es) d q := by
  obtain ⟨before, since, told, next, f, rfl, hbefore, hsince⟩ := h
  exact ⟨es' ++ before, since, told, next, f, (List.append_assoc ..).symm, ht.trans hbefore,
    hsince⟩

theorem AsksInStep.andThen {t : Attempt P Error α} (h : AsksInStep s p index t es d q)
    (g : α → Attempt P Error β) : AsksInStep s p index (t.andThen g) es d q := by
  obtain ⟨before, since, told, next, f, rfl, hbefore, hsince⟩ := h
  refine ⟨before, since, told, next, fun a => (f a).andThen g, rfl, ?_, hsince⟩
  rw [← Attempt.andThen_assoc]
  exact hbefore.bind _

/-- The diagnosis does not write. -/
theorem diagnose_not_writes {digest : ByteArray} {told : P}
    {next : Except IoError (Request.write offset data).Reply → Attempt P Error Unit} :
    ¬ (diagnose s p index digest told).Reaches es (.request d (.write offset data) next) := by
  intro h
  unfold diagnose at h
  split at h
  · split at h <;> cases h
  · rcases Attempt.reaches_request h with ⟨next', hstep⟩ | ⟨_, _, _, -, -, hfail⟩
    · obtain ⟨-, ⟨⟨-, _, _, hread⟩, -⟩⟩ := (only_source s p index told).reaches hstep
      cases hread
    · cases hfail

/-- Nor does it succeed. -/
theorem diagnose_not_succeeds {digest : ByteArray} {told : P} :
    ¬ (diagnose s p index digest told).Reaches es (.done (.ok ())) := by
  intro h
  unfold diagnose at h
  split at h
  · split at h <;> cases h
  · rcases Attempt.reaches_andThen h with ⟨_, -, -, hleft⟩ | ⟨_, -, he⟩ | ⟨_, _, _, -, -, hfail⟩
    · exact absurd rfl (hleft _)
    · cases he
    · cases hfail

/-- What comes behind the target step of a partition. -/
def Setting.afterTarget (s : Setting P) (p : Partition) (index : Nat) (rest : List Partition) :
    ByteArray × P → Attempt P Error Unit := fun (digest, told) =>
  if digest = p.targetHash then verifyFrom s (index + 1) rest told
  else if p.sourceHash.size = 0 then
    Attempt.fail (.targetVerification p.name p.targetHash digest)
  else diagnose s p index digest told

theorem verifyFrom_cons (s : Setting P) {p : Partition} (hpath : p.targetPath ≠ "") (index : Nat)
    (rest : List Partition) (told : P) :
    verifyFrom s index (p :: rest) told =
      (hashStep s p .target index told).andThen (s.afterTarget p index rest) := by
  rw [verifyFrom, if_neg hpath]
  rfl

/-- A partition without a target is passed over if it is empty. -/
theorem verifyFrom_cons_absent (s : Setting P) {p : Partition} (hpath : p.targetPath = "")
    (index : Nat) (rest : List Partition) (told : P) :
    verifyFrom s index (p :: rest) told = verifyFrom s (index + 1) rest told ∨
      ∃ e, verifyFrom s index (p :: rest) told = .done (.error e) := by
  rw [verifyFrom, if_pos hpath]
  split
  · exact .inr ⟨_, rfl⟩
  · exact .inl rfl

theorem afterTarget_cases (s : Setting P) (p : Partition) (index : Nat) (rest : List Partition)
    (digest : ByteArray) (told : P) :
    s.afterTarget p index rest (digest, told) = verifyFrom s (index + 1) rest told ∨
    (∃ e, s.afterTarget p index rest (digest, told) = .done (.error e)) ∨
    s.afterTarget p index rest (digest, told) = diagnose s p index digest told := by
  unfold Setting.afterTarget
  dsimp only
  split
  · exact .inl rfl
  · split
    · exact .inr (.inl ⟨_, rfl⟩)
    · exact .inr (.inr rfl)

/-- What a passage through the verification of a partition and of those behind it has come to. -/
inductive ComesTo (s : Setting P) (p : Partition) (rest : List Partition) (index : Nat) (told : P) :
    Trace P → Attempt P Error Unit → Prop where
  /-- The target is absent and empty. -/
  | skipped {es : Trace P} {u : Attempt P Error Unit} (hpath : p.targetPath = "")
      (hsize : p.targetSize = 0) (hrest : (verifyFrom s (index + 1) rest told).Reaches es u) :
      ComesTo s p rest index told es u
  /-- The target is absent, and should not be. -/
  | unresolved {e : Error} (hpath : p.targetPath = "") :
      ComesTo s p rest index told [] (.done (.error e))
  /-- The target step has not come to a digest. -/
  | stepping {es : Trace P} {u : Attempt P Error (ByteArray × P)} (hpath : p.targetPath ≠ "")
      (hstep : (hashStep s p .target index told).Reaches es u) (hnone : ∀ a, u ≠ .done (.ok a)) :
      ComesTo s p rest index told es (u.andThen (s.afterTarget p index rest))
  /-- The target has passed. -/
  | passed {es es' : Trace P} {u : Attempt P Error Unit} {digest : ByteArray} {told' : P}
      (hpath : p.targetPath ≠ "")
      (hstep : (hashStep s p .target index told).Reaches es (.done (.ok (digest, told'))))
      (hrest : (verifyFrom s (index + 1) rest told').Reaches es' u) :
      ComesTo s p rest index told (es ++ es') u
  /-- The target is wrong, and has no source. -/
  | refused {es : Trace P} {digest : ByteArray} {told' : P} {e : Error} (hpath : p.targetPath ≠ "")
      (hstep : (hashStep s p .target index told).Reaches es (.done (.ok (digest, told')))) :
      ComesTo s p rest index told es (.done (.error e))
  /-- The target is wrong, and its source is looked at. -/
  | diagnosing {es es' : Trace P} {u : Attempt P Error Unit} {digest : ByteArray} {told' : P}
      (hpath : p.targetPath ≠ "")
      (hstep : (hashStep s p .target index told).Reaches es (.done (.ok (digest, told'))))
      (hdiagnose : (diagnose s p index digest told').Reaches es' u) :
      ComesTo s p rest index told (es ++ es') u

theorem comesTo_verifyFrom {rest : List Partition} {told : P} {u : Attempt P Error Unit}
    (h : (verifyFrom s index (p :: rest) told).Reaches es u) :
    ComesTo s p rest index told es u := by
  by_cases hpath : p.targetPath = ""
  · rw [verifyFrom, if_pos hpath] at h
    split at h
    · obtain ⟨rfl, rfl⟩ := reaches_done h
      exact .unresolved hpath
    · rename_i hsize
      exact .skipped hpath (Decidable.not_not.mp hsize) h
  · rw [verifyFrom_cons s hpath] at h
    rcases Attempt.reaches_parts h with ⟨t', hstep, hnone, rfl⟩ |
      ⟨es₁, ⟨digest, told'⟩, es₂, rfl, hstep, hverdict⟩
    · exact .stepping hpath hstep hnone
    · rcases afterTarget_cases s p index rest digest told' with hpass | ⟨e, hfail⟩ | hdiagnose
      · exact .passed hpath hstep (hpass ▸ hverdict)
      · rw [hfail] at hverdict
        obtain ⟨rfl, rfl⟩ := reaches_done hverdict
        rw [List.append_nil]
        exact .refused hpath hstep
      · exact .diagnosing hpath hstep (hdiagnose ▸ hverdict)

/-- A write is asked for by the target step of one of the partitions. -/
theorem asks_verifyFrom (s : Setting P) (l : List Partition) :
    ∀ {index : Nat} {told : P} {es : Trace P}
      {next : Except IoError (Request.write offset data).Reply → Attempt P Error Unit},
      (verifyFrom s index l told).Reaches es (.request d (.write offset data) next) →
      ∃ i p, l[i]? = some p ∧
        AsksInStep s p (index + i) (verifyFrom s index l told) es d (.write offset data) := by
  induction l with
  | nil => exact fun h => nomatch h
  | cons p rest ih =>
    intro index told es next h
    have hlater : ∀ told' es₁ es₂, (verifyFrom s index (p :: rest) told).Reaches es₁
        (verifyFrom s (index + 1) rest told') →
        (verifyFrom s (index + 1) rest told').Reaches es₂
          (.request d (.write offset data) next) →
        ∃ i p', (p :: rest)[i]? = some p' ∧ AsksInStep s p' (index + i)
          (verifyFrom s index (p :: rest) told) (es₁ ++ es₂) d (.write offset data) := by
      intro told' es₁ es₂ hcome hrest
      obtain ⟨i, p', hp', hasks⟩ := ih hrest
      rw [Nat.add_assoc, Nat.add_comm 1] at hasks
      exact ⟨i + 1, p', hp', hasks.after hcome⟩
    by_cases hpath : p.targetPath = ""
    · rcases verifyFrom_cons_absent s hpath index rest told with hskip | ⟨e, hfail⟩
      · exact hlater told [] es (hskip ▸ .refl _) (hskip ▸ h)
      · rw [hfail] at h
        cases h
    · have hcons := verifyFrom_cons s hpath index rest told
      rw [hcons] at h
      rcases Attempt.reaches_request h with ⟨next', hstep⟩ | ⟨es₁, ⟨digest, told'⟩, es₂, rfl,
        hstep, hverdict⟩
      · exact ⟨0, p, rfl, [], es, told, next', s.afterTarget p index rest, rfl, hcons ▸ .refl _,
          hstep⟩
      · rcases afterTarget_cases s p index rest digest told' with hpass | ⟨e, hfail⟩ | hdiagnose
        · refine hlater told' es₁ es₂ ?_ (hpass ▸ hverdict)
          rw [hcons, ← hpass]
          exact Attempt.reaches_second hstep _
        · rw [hfail] at hverdict
          cases hverdict
        · rw [hdiagnose] at hverdict
          exact absurd hverdict diagnose_not_writes

/-- How the first partition has passed if all have: it has an empty target without a device, or its
    target step has come to its end. -/
theorem passed_cons {rest : List Partition} {told : P} {es : Trace P}
    (h : (verifyFrom s index (p :: rest) told).Reaches es (.done (.ok ()))) :
    (p.targetPath = "" ∧ p.targetSize = 0 ∧
      (verifyFrom s (index + 1) rest told).Reaches es (.done (.ok ()))) ∨
    (p.targetPath ≠ "" ∧ ∃ es₁ digest told' es₂, es = es₁ ++ es₂ ∧
      (hashStep s p .target index told).Reaches es₁ (.done (.ok (digest, told'))) ∧
      (verifyFrom s (index + 1) rest told').Reaches es₂ (.done (.ok ()))) := by
  generalize hu : (Routine.done (.ok ()) : Attempt P Error Unit) = u at h
  cases comesTo_verifyFrom h with
  | skipped hpath hsize hrest => exact .inl ⟨hpath, hsize, hu ▸ hrest⟩
  | unresolved _ => cases hu
  | @stepping es t _ _ hnone =>
    cases t with
    | done outcome =>
      cases outcome with
      | error e => cases hu
      | ok a => exact absurd rfl (hnone a)
    | _ => cases hu
  | passed hpath hstep hrest => exact .inr ⟨hpath, _, _, _, _, rfl, hstep, hu ▸ hrest⟩
  | refused _ _ => cases hu
  | diagnosing _ _ hdiagnose => exact absurd (hu ▸ hdiagnose) diagnose_not_succeeds

/-- If all partitions pass, then every target step has come to its end. -/
theorem passed_verifyFrom (s : Setting P) (l : List Partition) :
    ∀ {index : Nat} {told : P} {es : Trace P},
      (verifyFrom s index l told).Reaches es (.done (.ok ())) →
      ∀ p ∈ l, p.targetPath ≠ "" → ∃ es₁ es₂ es₃ i told' result, es = es₁ ++ (es₂ ++ es₃) ∧
        (hashStep s p .target i told').Reaches es₂ (.done (.ok result)) := by
  induction l with
  | nil => exact fun _ p hp => nomatch hp
  | cons p rest ih =>
    intro index told es h p' hp' hpath'
    rcases passed_cons h with ⟨hpath, -, hrest⟩ |
      ⟨hpath, es₁, digest, told', es₂, rfl, hstep, hrest⟩
    · cases hp' with
      | head => exact absurd hpath hpath'
      | tail _ hp' => exact ih hrest p' hp' hpath'
    · cases hp' with
      | head => exact ⟨[], es₁, es₂, index, told, _, rfl, hstep⟩
      | tail _ hp' =>
        obtain ⟨before, step, after, i, told'', result, rfl, hreaches⟩ := ih hrest p' hp' hpath'
        exact ⟨es₁ ++ before, step, after, i, told'', result, (List.append_assoc ..).symm,
          hreaches⟩

/-- If all partitions pass, then targets without a device are empty. -/
theorem targetSize_eq_zero_of_passed (s : Setting P) (l : List Partition) :
    ∀ {index : Nat} {told : P} {es : Trace P},
      (verifyFrom s index l told).Reaches es (.done (.ok ())) →
      ∀ p ∈ l, p.targetPath = "" → p.targetSize = 0 := by
  induction l with
  | nil => exact fun _ p hp => nomatch hp
  | cons p rest ih =>
    intro index told es h p' hp' hpath'
    rcases passed_cons h with ⟨-, hsize, hrest⟩ | ⟨hpath, _, _, _, _, -, -, hrest⟩
    · cases hp' with
      | head => exact hsize
      | tail _ hp' => exact ih hrest p' hp' hpath'
    · cases hp' with
      | head => exact absurd hpath' hpath
      | tail _ hp' => exact ih hrest p' hp' hpath'

/-- Nothing else in a verification asks for a write. -/
theorem asks_program (scale : Scale P) (dynamic : DynamicPartitions) (plan : Option InstallPlan)
    {next : Except IoError (Request.write offset data).Reply → Attempt P Error InstallPlan}
    (h : (program scale dynamic plan).Reaches es (.request d (.write offset data) next)) :
    ∃ plan' i p, plan = some plan' ∧ plan'.partitions[i]? = some p ∧
      AsksInStep ⟨scale, dynamic, plan'⟩ p i (program scale dynamic plan) es d
        (.write offset data) := by
  cases plan with
  | none => cases h
  | some plan =>
    rcases Attempt.reaches_request h with ⟨next', hverify⟩ | ⟨_, _, rest, -, -, hrest⟩
    · obtain ⟨i, p, hp, hasks⟩ := asks_verifyFrom _ _ hverify
      rw [Nat.zero_add] at hasks
      exact ⟨plan, i, p, rfl, hp, hasks.andThen _⟩
    · rcases Attempt.reaches_request hrest with ⟨next', hasks⟩ | ⟨_, _, _, -, -, hend⟩
      · exact (((calls_verifyUntouched plan).reaches hasks).2).1.elim
      · cases hend

/-- What a target step asks for is metadata of its partition. -/
theorem AsksInStep.isMetadata {t : Attempt P Error α} {w w' : Writer}
    (h : AsksInStep s p index t es d (.write offset data)) (hcarries : Carries w es w') :
    s.writes p .target = true ∧ ∀ x, offset ≤ x → x < offset + data.size → p.IsMetadata x := by
  obtain ⟨before, since, told, next, f, rfl, -, hsince⟩ := h
  obtain ⟨w₁, -, hcarries⟩ := hcarries.append_cases
  -- however the write turns out, it is part of a passage through the step
  have hserved : (hashStep s p .target index told).Reaches
      (since ++ [.served d (.write offset data) (.error .notFound)]) (next (.error .notFound)) :=
    hsince.trans (.request _ (.refl _))
  exact writes_hashStep hserved (hcarries.append (.served (.nil _)))
    (List.mem_append_right since (.head _))

end

/-! ## Lives -/

namespace Assignment

variable {S : Type} {a : Assignment P W} {use : S → (c : Call P) → c.Answer → S → Prop}
  {part : W → S} {w : W} {occasions : List (Occasion W)}

theorem asks_course {es : Trace P} {d : OpenedDevice} {offset : Nat} {data : ByteArray}
    {next : Except IoError (Request.write offset data).Reply → Attempt P Error InstallPlan}
    (h : a.course.Reaches es (.request d (.write offset data) next)) :
    ∃ plan i p, a.plan = some plan ∧ plan.partitions[i]? = some p ∧
      AsksInStep ⟨a.scale, a.dynamic, plan⟩ p i a.course es d (.write offset data) := by
  cases h with
  | pause h =>
    obtain ⟨plan, i, p, hplan, hp, hasks⟩ := asks_program _ _ _ h
    exact ⟨plan, i, p, hplan, hp, hasks.after (.pause (.refl _))⟩

theorem Released.submitted_not_mem {release : Record P} (h : a.Released release) {d : OpenedDevice}
    {q : Request} {taken : Except IoError Nat} : .submitted d q taken ∉ release := by
  intro hmem
  obtain ⟨success, hunmapped⟩ := h.eq_unmapped hmem
  cases hunmapped

/-- A request in the record of a life is one that the course has come to. -/
theorem course_of_submitted (hcarries : a.host.Carries use part)
    (hkeeps : ∀ o ∈ occasions, o.Keeps part) {before after : Record P} {d : OpenedDevice}
    {q : Request} {taken : Except IoError Nat}
    (hrecord : (a.run w occasions).1.2 = before ++ .submitted d q taken :: after) :
    ∃ es next x, a.course.Reaches es (.request d q next) ∧ Recorded es before ∧
      Carried (I := interface P) use (part w) es x := by
  have halong : ∀ {w' ds ending later}, a.Along use part (part w) w' ds ending →
      ds ++ later = before ++ .submitted d q taken :: after → .submitted d q taken ∉ later →
      ∃ es next x, a.course.Reaches es (.request d q next) ∧ Recorded es before ∧
        Carried (I := interface P) use (part w) es x := by
    rintro w' ds ending later ⟨es, harrives, hcarried⟩ heq hlater
    obtain ⟨rest, rfl, -⟩ := cut_of_not_mem heq hlater
    obtain ⟨es₁, es₂, next, rfl, hreaches, hbefore⟩ := harrives.cut_submitted
    obtain ⟨x, hfirst, -⟩ := hcarried.append_cases
    exact ⟨es₁, next, x, hreaches, hbefore, hfirst⟩
  have hbegun := begun_of_recorded hcarries hkeeps hrecord
  generalize a.run w occasions = state at hrecord hbegun
  cases hbegun with
  | running h => exact halong h ((List.append_nil _).trans hrecord) List.not_mem_nil
  | broken h => exact halong h ((List.append_nil _).trans hrecord) List.not_mem_nil
  | cancelled h hrelease => exact halong h hrecord hrelease.submitted_not_mem
  | dropped h hrelease => exact halong h hrecord hrelease.submitted_not_mem
  | completed h hrelease =>
    refine halong h ((List.append_assoc ..).symm.trans hrecord) ?_
    intro hmem
    rcases List.mem_append.mp hmem with hmem | hmem
    · exact hrelease.submitted_not_mem hmem
    · cases List.mem_singleton.mp hmem

/-- A course that accepts its plan has written all metadata of the partitions. -/
theorem wrote_course {es : Trace P} {plan accepted : InstallPlan} {v v' : Writer} {p : Partition}
    {x : Nat} (h : a.course.Reaches es (.done (.ok accepted))) (hcarries : Carries v es v')
    (hplan : a.plan = some plan) (hp : p ∈ plan.partitions) (hpath : p.targetPath ≠ "")
    (hwrites : Setting.writes ⟨a.scale, a.dynamic, plan⟩ p .target = true)
    (hx : p.IsMetadata x) : Wrote es x := by
  cases h with
  | pause hprogram =>
    rw [hplan] at hprogram
    rcases Attempt.reaches_andThen hprogram with ⟨_, -, -, hleft⟩ | ⟨_, -, he⟩ |
      ⟨es₁, _, es₂, rfl, hverify, -⟩
    · exact absurd rfl (hleft _)
    · cases he
    · obtain ⟨first, step, last, i, told, result, rfl, hstep⟩ :=
        passed_verifyFrom _ _ hverify p hp hpath
      cases hcarries with
      | paused hcarries =>
        obtain ⟨_, hverified, -⟩ := hcarries.append_cases
        obtain ⟨_, -, hrest⟩ := hverified.append_cases
        obtain ⟨_, hstepped, -⟩ := hrest.append_cases
        refine (wrote_hashStep hstep hstepped hwrites hx).mono fun e he => .tail _ ?_
        exact List.mem_append_left es₂ (List.mem_append_right first
          (List.mem_append_left last he))

/-- If the plan is accepted, all metadata of its partitions has been written. -/
theorem wrote_of_accepted {writer : W → Writer} (hcarries : a.host.Carries Answers writer)
    (hkeeps : ∀ o ∈ occasions, o.Keeps writer) {plan accepted : InstallPlan}
    (hplan : a.plan = some plan)
    (haccepted : (a.run w occasions).2.accepted? = some accepted) {p : Partition}
    (hp : p ∈ plan.partitions) (hpath : p.targetPath ≠ "")
    (hwrites : Setting.writes ⟨a.scale, a.dynamic, plan⟩ p .target = true) {x : Nat}
    (hx : p.IsMetadata x) :
    ∃ d offset data taken, .submitted d (.write offset data) taken ∈ (a.run w occasions).1.2 ∧
      offset ≤ x ∧ x < offset + data.size := by
  cases hbegins : a.begins w occasions with
  | false =>
    -- a life that has not begun accepts nothing
    rcases (run_of_not_begins occasions hbegins).2 with hlife | hlife | hlife <;>
      · rw [hlife] at haccepted
        cases haccepted
  | true =>
    have hbegun := run_of_begins hcarries occasions hkeeps hbegins
    generalize a.run w occasions = state at haccepted hbegun
    cases hbegun with
    | @completed w' w'' ds release result h _ =>
      obtain rfl : result = .ok accepted := by
        cases result with
        | error e => cases haccepted
        | ok plan' =>
          cases haccepted
          rfl
      obtain ⟨es, harrives, hcarried⟩ := h
      obtain ⟨d, offset, data, outcome, hmem, hbyte⟩ :=
        wrote_course harrives.reaches hcarried hplan hp hpath hwrites hx
      obtain ⟨taken, hsubmitted⟩ := harrives.recorded.submitted_of_served hmem
      exact ⟨d, offset, data, taken,
        List.mem_append_left _ (List.mem_append_left _ hsubmitted), hbyte⟩
    | _ => cases haccepted

end Assignment

/-- Whatever a verification writes in its life, whatever it is answered and however it ends, its
    target step of some partition has asked for it, and it is metadata of that partition; so it
    stays inside the partition if the metadata does.  If the metadata does not and the plan is
    accepted, then something has been written behind the end. -/
theorem writes_confined {host : Host (interface P) W} {writer : W → Writer}
    (hcarries : host.Carries Answers writer) (aborted : W → Bool) (scale : Scale P)
    (dynamic : DynamicPartitions) (plan : InstallPlan) (w : W) {occasions : List (Occasion W)}
    (hkeeps : ∀ o ∈ occasions, o.Keeps writer) :
    let a : Assignment P W := ⟨host, aborted, scale, dynamic, some plan⟩
    (∀ before d offset data taken after,
      (a.run w occasions).1.2 = before ++ .submitted d (.write offset data) taken :: after →
      ∃ i p es, plan.partitions[i]? = some p ∧ Recorded es before ∧
        AsksInStep ⟨scale, dynamic, plan⟩ p i a.course es d (.write offset data) ∧
        plan.writeVerity = true ∧ p.hasVerity = true ∧
        ∀ x, offset ≤ x → x < offset + data.size →
          p.IsMetadata x ∧ (p.MetadataInside → x < p.targetSize.toNat)) ∧
    ∀ accepted, (a.run w occasions).2.accepted? = some accepted → plan.writeVerity = true →
      ∀ p ∈ plan.partitions, p.targetPath ≠ "" → p.hasVerity = true → ¬ p.MetadataInside →
        ∃ x, p.targetSize.toNat ≤ x ∧ ∃ d offset data taken,
          .submitted d (.write offset data) taken ∈ (a.run w occasions).1.2 ∧
            offset ≤ x ∧ x < offset + data.size := by
  intro a
  constructor
  · intro before d offset data taken after hrecord
    obtain ⟨es, next, w', hcourse, hbefore, hcarried⟩ :=
      Assignment.course_of_submitted hcarries hkeeps hrecord
    obtain ⟨_, i, p, ⟨⟩, hp, hasks⟩ := Assignment.asks_course hcourse
    obtain ⟨hwrites, hmetadata⟩ := hasks.isMetadata hcarried
    obtain ⟨hasked, hverity⟩ : plan.writeVerity = true ∧ p.hasVerity = true := by
      simpa [Setting.writes] using hwrites
    refine ⟨i, p, es, hp, hbefore, hasks, hasked, hverity, ?_⟩
    intro x hlow hhigh
    have hx := hmetadata x hlow hhigh
    exact ⟨hx, fun hinside => Partition.metadataInside_iff.mp hinside x hx⟩
  · intro accepted haccepted hasked p hp hpath hverity hbeyond
    obtain ⟨x, hx, hbehind⟩ : ∃ x, p.IsMetadata x ∧ ¬ x < p.targetSize.toNat := by
      simpa [Partition.metadataInside_iff] using hbeyond
    refine ⟨x, Nat.le_of_not_lt hbehind, ?_⟩
    exact Assignment.wrote_of_accepted (a := a) hcarries hkeeps rfl haccepted hp hpath
      (by simp [Setting.writes, hasked, hverity]) hx

/-! ## On a rig -/

theorem writer_openImage (r : Rig P) (path : String) (writable : Bool) :
    (r.openImage path writable).1.writer = r.writer := by
  unfold Rig.openImage
  split
  · rfl
  · split <;> rfl

/-- A rig has a writer. -/
theorem carries_onRig : (Rig.host (P := P)).Carries Answers (·.writer) where
  answer r c := by
    cases c with
    | setReadOnly path readOnly =>
      show (r.setReadOnly path readOnly).1.writer = r.writer
      unfold Rig.setReadOnly
      split
      · rfl
      · split <;> rfl
    | openPath path writable => exact writer_openImage r path writable
    | openSnapshot name sourcePath writable =>
      show (r.answer (.openSnapshot name sourcePath writable)).1.writer = r.writer
      unfold Rig.answer
      dsimp only
      split
      · rfl
      · exact writer_openImage (r.noteController _) (Rig.snapshotPath name) writable
    | report progress =>
      show (r.hear progress).writer = r.writer
      unfold Rig.hear
      split <;> rfl
    | _ => rfl
  submit r d q := by
    show (r.place d q).1.writer = r.writer
    unfold Rig.place
    dsimp only
    split
    · split <;> rfl
    · split <;> rfl
  complete := Rig.writer_finish

theorem keeps_writer (events : List Event) :
    ∀ o ∈ events.map Event.occasion, (o : Occasion (Rig P)).Keeps (·.writer) := by
  intro o ho
  obtain ⟨e, -, rfl⟩ := List.mem_map.mp ho
  cases e with
  | abort => exact fun _ => rfl
  | _ => trivial

/-- A verification of one partition on the device without parity bytes. -/
def parityOnRig (p : Partition) : Assignment Nat (Rig Nat) :=
  onRig .bytes parityMissing.dynamicPartitions { partitions := [p] }

/-- A request to write something has been submitted. -/
def isWriting : Dealing (interface P) → Bool
  | .submitted _ (.write _ data) _ => 0 < data.size
  | _ => false

/-- The parity bytes are written, and they are inside the partition. -/
theorem writes_confined_parityBehind :
    parityBehind.MetadataInside ∧ ∃ d offset data taken,
      .submitted d (.write offset data) taken ∈
        ((parityOnRig parityBehind).run parityMissing
          ((List.replicate 5 Event.poll).map Event.occasion)).1.2 ∧
      0 < data.size ∧ offset + data.size ≤ 3 := by
  have hinside : parityBehind.MetadataInside := by decide
  -- the record of five polls reaches as far as the write
  have hwriting : ((parityOnRig parityBehind).run parityMissing
      ((List.replicate 5 Event.poll).map Event.occasion)).1.2.any isWriting := by
    decide +kernel
  obtain ⟨hconfined, -⟩ := writes_confined carries_onRig (·.aborted) .bytes
    parityMissing.dynamicPartitions { partitions := [parityBehind] } parityMissing
    (keeps_writer (List.replicate 5 .poll))
  obtain ⟨dealing, hmem, hdealing⟩ := List.any_eq_true.mp hwriting
  match dealing, hdealing with
  | .submitted d (.write offset data) taken, hsome =>
    have hpos : 0 < data.size := of_decide_eq_true hsome
    obtain ⟨before, after, hrecord⟩ := List.append_of_mem hmem
    obtain ⟨i, p, es, hp, -, -, -, -, hbytes⟩ :=
      hconfined before d offset data taken after hrecord
    obtain rfl : p = parityBehind := by
      cases i with
      | zero => exact (Option.some.inj hp).symm
      | succ i => cases hp
    refine ⟨hinside, d, offset, data, taken, hmem, hpos, ?_⟩
    have hlast := (hbytes (offset + data.size - 1) (by omega) (by omega)).2 hinside
    change offset + data.size - 1 < 3 at hlast
    omega

/-- The same parity bytes behind a partition that ends in front of them. -/
def parityBeyond : Partition :=
  { parityBehind with
    targetSize := 1
    targetHash := partitionAlgorithm.digest [0].toByteArray }

theorem run_parityBeyond :
    let last := (parityOnRig parityBeyond).run parityMissing
      ((List.replicate 8 Event.poll).map Event.occasion)
    last.2.accepted? = some { partitions := [parityBeyond] } ∧
      last.1.1.image? "/dev/system" = some [0, 0, 0].toByteArray := by
  decide +kernel

/-- The plan is accepted, and what was behind the partition has been overwritten. -/
theorem written_beyond :
    let last := (parityOnRig parityBeyond).run parityMissing
      ((List.replicate 8 Event.poll).map Event.occasion)
    last.2.accepted? = some { partitions := [parityBeyond] } ∧
    last.1.1.image? "/dev/system" = some [0, 0, 0].toByteArray ∧
    ∃ x, parityBeyond.targetSize.toNat ≤ x ∧ ∃ d offset data taken,
      .submitted d (.write offset data) taken ∈ last.1.2 ∧ offset ≤ x ∧ x < offset + data.size := by
  obtain ⟨haccepted, himage⟩ := run_parityBeyond
  refine ⟨haccepted, himage, 1, by decide, ?_⟩
  exact Assignment.wrote_of_accepted carries_onRig (keeps_writer _) rfl haccepted
    List.mem_cons_self (by decide) rfl (Or.inr ⟨by decide, by decide⟩)

end Verification

end SlotVerify
