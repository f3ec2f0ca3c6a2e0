import SlotVerify.Proofs.Verification.Chronicle
/-
  When the snapshots are mapped and when they are released.

  A verification calls the controller to unmap its snapshots for two reasons: to map them afresh,
  which it does directly afterwards (`Refreshes`), and to release them in the end.  The record of a
  life that has ended is a course, in which there are only refreshments, and then at most one
  release (`record_of_ended`).

  Whether there is a release depends on the plan alone, and on whether the verification has begun
  its work at all (`release_of_ended`).  Its owner gives a verification up also when it has ended;
  then nothing is released once more (`owned_of_ended`).  Whether there is anything to release
  depends on the partitions, so snapshots stay mapped exactly if some have been mapped for a plan
  that asks for verity metadata (`unmaps_iff_of_ended`).
-/

namespace SlotVerify.Verification

open Routine

variable {P W : Type}

/-- It has come to its end by itself, or it has been cancelled or given up. -/
def Life.ended : Life P → Bool
  | .completed _ | .dropped => true
  | .running _ | .broken => false

theorem Life.ended_of_accepted {life : Life P} {plan : InstallPlan}
    (h : life.accepted? = some plan) : life.ended = true := by
  cases life with
  | completed result => rfl
  | _ => cases h

/-- Whenever the snapshots are unmapped, then only to be mapped afresh. -/
def Refreshes (record : Record P) : Prop :=
  ∀ before success after, record = before ++ unmapped success :: after →
    ∃ success' after', after = mapped success' :: after'

/-- Whenever the snapshots have been mapped, they are unmapped later. -/
def Unmaps (record : Record P) : Prop :=
  ∀ before success after, record = before ++ mapped success :: after →
    ∃ success', unmapped success' ∈ after

/-- The controller has mapped the snapshots. -/
def isMapping : Dealing (interface P) → Bool
  | .called .mapAll success => success
  | _ => false

theorem mapped_mem_of_any {record : Record P} (h : record.any isMapping = true) :
    mapped true ∈ record := by
  obtain ⟨d, hd, hmapping⟩ := List.any_eq_true.mp h
  match d, hmapping with
  | .called .mapAll true, _ => exact hd

/-- Nothing but progress is reported. -/
def OnlyReports (record : Record P) : Prop := ∀ d ∈ record, ∃ progress, d = reported progress

/-! ## Records -/

namespace Refreshes

variable {record later : Record P}

theorem nil : Refreshes ([] : Record P) := by
  intro before success after h
  cases before <;> cases h

/-- Something else may come behind it. -/
theorem append (h : Refreshes record) (hlater : ∀ success, unmapped success ∉ later) :
    Refreshes (record ++ later) := by
  intro before success after heq
  obtain ⟨rest, rfl, rfl⟩ := cut_of_not_mem heq (hlater success)
  obtain ⟨success', after', rfl⟩ := h before success rest rfl
  exact ⟨success', after' ++ later, rfl⟩

/-- Then whatever has been mapped stays mapped: behind every unmapping it is mapped again. -/
theorem not_unmaps (h : Refreshes record) {success : Bool} (hmem : mapped success ∈ record) :
    ¬ Unmaps record := by
  intro hunmaps
  obtain ⟨before, after, heq⟩ := List.append_of_mem hmem
  -- by induction on what is left of the record behind a mapping
  suffices hall : ∀ (n : Nat) (before : Record P) success (after : Record P), after.length = n →
      record ≠ before ++ mapped success :: after from hall _ before success after rfl heq
  intro n
  induction n using Nat.strongRecOn with
  | ind n ih =>
    rintro before success after rfl heq
    obtain ⟨success₁, hunmapped⟩ := hunmaps before success after heq
    obtain ⟨between, rest, rfl⟩ := List.append_of_mem hunmapped
    have hrefresh := h (before ++ mapped success :: between) success₁ rest (by simpa using heq)
    obtain ⟨success₂, after', rfl⟩ := hrefresh
    refine ih after'.length ?_ (before ++ mapped success :: (between ++ [unmapped success₁]))
      success₂ after' rfl (by simpa using heq)
    simp
    omega

end Refreshes

namespace OnlyReports

variable {record : Record P}

theorem unmapped_not_mem (h : OnlyReports record) (success : Bool) : unmapped success ∉ record := by
  intro hmem
  obtain ⟨progress, hreport⟩ := h _ hmem
  cases hreport

theorem mapped_not_mem (h : OnlyReports record) (success : Bool) : mapped success ∉ record := by
  intro hmem
  obtain ⟨progress, hreport⟩ := h _ hmem
  cases hreport

end OnlyReports

/-! ## Lives -/

namespace Assignment

variable {a : Assignment P W}

theorem refreshes_of_anyhow {w : W} {record : Record P}
    {ending : Ending (interface P) (Option Unit) (Except Error InstallPlan)}
    (h : a.Anyhow w record ending) : Refreshes record := by
  rintro before success after rfl
  obtain ⟨es, harrives, -⟩ := h
  exact harrives.followed a.orderly_course fun _ => id

theorem hasViews_of_anyhow {w : W} {record : Record P}
    {ending : Ending (interface P) (Option Unit) (Except Error InstallPlan)}
    (h : a.Anyhow w record ending) {success : Bool} (hmem : mapped success ∈ record) :
    HasViews a.scale a.dynamic a.plan := by
  obtain ⟨es, harrives, -⟩ := h
  obtain ⟨es₁, es₂, rfl⟩ := List.append_of_mem (harrives.called_mem_iff.mp hmem)
  exact a.orderly_course.rule_of_reaches harrives.reaches

/-- The parts of a record: the course, in which the snapshots are only refreshed, their release, and
    the last report, if there is one. -/
structure Parts (a : Assignment P W) (course release reports : Record P) : Prop where
  refreshes : Refreshes course
  views : ∀ success, mapped success ∈ course → HasViews a.scale a.dynamic a.plan
  released : a.Released release
  reports : OnlyReports reports

/-- A life that has ended without having begun has no record; any other one ends with the release of
    the snapshots. -/
theorem record_of_ended {w : W} {occasions : List (Occasion W)}
    (hended : (a.run w occasions).2.ended = true) :
    if a.begins w occasions then
      ∃ course release reports, (a.run w occasions).1.2 = course ++ release ++ reports ∧
        a.Parts course release reports
    else (a.run w occasions).1.2 = [] := by
  cases hbegins : a.begins w occasions with
  | false => exact (run_of_not_begins occasions hbegins).1
  | true =>
    have hbegun := run_of_begins a.host.carries_nothing occasions (fun o _ => o.keeps_nothing)
      hbegins
    generalize a.run w occasions = state at hended hbegun
    cases hbegun with
    | running _ => cases hended
    | broken _ => cases hended
    | completed h hrelease =>
      refine ⟨_, _, _, rfl, refreshes_of_anyhow h, fun _ => hasViews_of_anyhow h, hrelease, ?_⟩
      intro d hd
      exact ⟨_, List.mem_singleton.mp hd⟩
    | cancelled h hrelease =>
      exact ⟨_, _, [], (List.append_nil _).symm, refreshes_of_anyhow h,
        fun _ => hasViews_of_anyhow h, hrelease, nofun⟩
    | dropped h hrelease =>
      exact ⟨_, _, [], (List.append_nil _).symm, refreshes_of_anyhow h,
        fun _ => hasViews_of_anyhow h, hrelease, nofun⟩

namespace Parts

variable {course release reports : Record P}

/-- Nothing is released in the end. -/
theorem refreshes_all (h : a.Parts course release reports) (hunmaps : a.unmaps = false) :
    Refreshes (course ++ release ++ reports) := by
  rcases h.released with ⟨hrelease, -⟩ | ⟨-, rfl⟩
  · rw [hunmaps] at hrelease
    cases hrelease
  · rw [List.append_nil]
    exact h.refreshes.append h.reports.unmapped_not_mem

/-- The release is the last call to the controller. -/
theorem release_last (h : a.Parts course release reports) (hunmaps : a.unmaps = true) :
    ∃ success, course ++ release ++ reports = course ++ unmapped success :: reports := by
  rcases h.released with ⟨-, success, rfl⟩ | ⟨hrelease, -⟩
  · exact ⟨success, by simp⟩
  · rw [hunmaps] at hrelease
    cases hrelease

/-- Whatever has been mapped is unmapped in the end. -/
theorem unmaps (h : a.Parts course release reports) (hunmaps : a.unmaps = true) :
    Unmaps (course ++ release ++ reports) := by
  intro before success after heq
  obtain ⟨success', hlast⟩ := h.release_last hunmaps
  rw [hlast] at heq
  rcases List.append_eq_append_iff.mp heq with ⟨rest, -, hrest⟩ | ⟨rest, -, hrest⟩
  · -- behind the release nothing is mapped
    have hmem : mapped success ∈ unmapped success' :: reports := by simp [hrest]
    cases hmem with
    | tail _ hmem => exact absurd hmem (h.reports.mapped_not_mem success)
  · cases rest with
    | nil => cases hrest
    | cons e rest =>
      obtain ⟨-, rfl⟩ := List.cons.inj hrest
      exact ⟨success', by simp⟩

/-- Only in its course a verification maps snapshots. -/
theorem mapped_mem (h : a.Parts course release reports) {success : Bool}
    (hmem : mapped success ∈ course ++ release ++ reports) : mapped success ∈ course := by
  rcases List.mem_append.mp hmem with hmem | hmem
  · rcases List.mem_append.mp hmem with hmem | hmem
    · exact hmem
    · obtain ⟨success', hunmapped⟩ := h.released.eq_unmapped hmem
      cases hunmapped
  · exact absurd hmem (h.reports.mapped_not_mem success)

end Parts

end Assignment

/-! ## In the hands of an owner -/

/-- A verification as its owner holds it, with what its cleanup goes by. -/
structure Owned (P : Type) where
  life : Life P
  /-- Whether there are snapshots to unmap. -/
  unmaps : Bool
  cleanedUp : Bool

/-- What giving it up makes of a verification. -/
def Life.givenUp : Life P → Life P
  | .running _ => .dropped
  | life => life

namespace Assignment

variable (a : Assignment P W)

/-- The cleanup is done once. -/
def cleanup : (W × Record P) × Owned P → (W × Record P) × Owned P
  | (world, v) =>
    if v.cleanedUp then (world, v)
    else
      (if v.unmaps then (a.host.recorded.answer world .unmapAll).1 else world,
        { v with cleanedUp := true })

/-- What an occasion makes of the world and of the verification.  Its owner gives it up also when it
    has ended.  Only a poll that begins its work finds out whether there is anything to unmap, and a
    poll in which it ends has cleaned up. -/
def ownedStep : (W × Record P) × Owned P → Occasion W → (W × Record P) × Owned P
  | (world, v), .poll =>
    match v.life with
    | .running rest =>
      let (world', life) := a.poll world rest
      (world', ⟨life, if a.aborted world.1 then v.unmaps else a.unmaps, life.ended⟩)
    | _ => (world, v)
  | state, .drop =>
    let (world, v) := a.cleanup state
    (world, { v with life := v.life.givenUp })
  | ((w, record), v), .change f => ((f w, record), v)

/-- A life in the hands of an owner. -/
def owned (w : W) (occasions : List (Occasion W)) : (W × Record P) × Owned P :=
  occasions.foldl a.ownedStep
    ((w, []), ⟨.running (Running.new a.scale a.dynamic a.plan), false, false⟩)

variable {a}

/-- How the verification stands with its owner.  Of one that has broken down nothing is known. -/
inductive Holds (a : Assignment P W) :
    (W × Record P) × Life P → (W × Record P) × Owned P → Prop where
  | running {world : W × Record P} {v : Running P} (hunmaps : v.unmaps = a.unmaps) :
      Holds a (world, .running v) (world, ⟨.running v, v.started && a.unmaps, false⟩)
  | ended {world : W × Record P} {life : Life P} {unmaps : Bool} (hended : life.ended = true) :
      Holds a (world, life) (world, ⟨life, unmaps, true⟩)
  | broken {world world' : W × Record P} {v : Owned P} : Holds a (world, .broken) (world', v)

/-- A verification that a poll leaves on its way has begun its work. -/
theorem running_of_poll {world world' : W × Record P} {v v' : Running P}
    (h : a.poll world v = (world', .running v')) :
    a.aborted world.1 = false ∧ v'.started = true ∧ v'.unmaps = v.unmaps := by
  unfold poll Running.poll Running.drive at h
  cases haborted : a.aborted world.1 with
  | true =>
    rw [if_pos haborted] at h
    cases h
  | false =>
    rw [if_neg (by simp [haborted])] at h
    dsimp only at h
    split at h
    · cases h
    · cases h
      exact ⟨rfl, rfl, rfl⟩
    · cases h
    · cases h

theorem Holds.step {state : (W × Record P) × Life P} {owned : (W × Record P) × Owned P}
    (h : a.Holds state owned) (o : Occasion W) :
    a.Holds (a.step state o) (a.ownedStep owned o) := by
  cases h with
  | @running world v hunmaps =>
    cases o with
    | poll =>
      show a.Holds (a.poll world v) ((a.poll world v).1, ⟨(a.poll world v).2,
        if a.aborted world.1 then v.started && a.unmaps else a.unmaps, (a.poll world v).2.ended⟩)
      cases hpoll : a.poll world v with
      | mk world' life =>
        cases life with
        | running v' =>
          obtain ⟨haborted, hstarted, hsame⟩ := running_of_poll hpoll
          have hholds : a.Holds (world', .running v')
              (world', ⟨.running v', v'.started && a.unmaps, false⟩) :=
            .running (hsame.trans hunmaps)
          rw [hstarted, Bool.true_and] at hholds
          rw [haborted]
          exact hholds
        | completed result => exact .ended rfl
        | dropped => exact .ended rfl
        | broken => exact .broken
    | drop =>
      show a.Holds ((if v.started && v.unmaps then _ else world), .dropped) _
      rw [hunmaps]
      exact .ended rfl
    | change f => exact .running hunmaps
  | @ended world life unmaps hended =>
    cases life with
    | running v => cases hended
    | broken => cases hended
    | _ => cases o <;> exact .ended rfl
  | broken => cases o <;> exact .broken

/-- A verification that has ended is not cleaned up once more when its owner gives it up. -/
theorem owned_of_ended {w : W} (occasions : List (Occasion W))
    (hended : (a.run w occasions).2.ended = true) :
    (a.owned w occasions).1 = (a.run w occasions).1 := by
  have hholds : ∀ (rest : List (Occasion W)) {state owned}, a.Holds state owned →
      a.Holds (rest.foldl a.step state) (rest.foldl a.ownedStep owned) := by
    intro rest
    induction rest with
    | nil => exact id
    | cons o rest ih => exact fun h => ih (h.step o)
  have hlast : a.Holds (a.run w occasions) (a.owned w occasions) :=
    hholds occasions (.running rfl)
  generalize a.run w occasions = state at hlast hended
  generalize a.owned w occasions = owned at hlast
  cases hlast with
  | running _ => cases hended
  | ended _ => rfl
  | broken => cases hended

end Assignment

/-! ## The release -/

/-- However a life ends: a plan that asks for no verity metadata, under a controller of compressed
    snapshots, has them released, once and as the last thing but for the last report, exactly if the
    verification has begun its work; if it has not, then it has had no dealings at all.  For any
    other plan, and without compressed snapshots, they are only ever refreshed.  All of this is so
    whether or not the verification is given up again after its end. -/
theorem release_of_ended (host : Host (interface P) W) (aborted : W → Bool) (scale : Scale P)
    (dynamic : DynamicPartitions) (plan : InstallPlan) (w : W) (occasions : List (Occasion W))
    (hended : ((⟨host, aborted, scale, dynamic, some plan⟩ : Assignment P W).run w
      occasions).2.ended = true) :
    let a : Assignment P W := ⟨host, aborted, scale, dynamic, some plan⟩
    (plan.writeVerity = false ∧ dynamic.compressed = true →
      if a.begins w occasions then
        ∃ before success after, (a.run w occasions).1.2 = before ++ unmapped success :: after ∧
          Refreshes before ∧ OnlyReports after
      else (a.run w occasions).1.2 = []) ∧
    (plan.writeVerity = true ∨ dynamic.compressed = false →
      Refreshes (a.run w occasions).1.2) ∧
    (a.owned w occasions).1 = (a.run w occasions).1 := by
  intro a
  have hrecord := Assignment.record_of_ended hended
  change if a.begins w occasions then _ else _ at hrecord
  refine ⟨?_, ?_, Assignment.owned_of_ended occasions hended⟩
  · rintro ⟨hplan, hcompressed⟩
    have hunmaps : a.unmaps = true := by simp [a, unmapsAtEnd, hplan, hcompressed]
    split at hrecord
    · rename_i hbegins
      obtain ⟨course, release, reports, heq, hparts⟩ := hrecord
      obtain ⟨success, hlast⟩ := hparts.release_last hunmaps
      rw [if_pos hbegins]
      exact ⟨course, success, reports, heq.trans hlast, hparts.refreshes, hparts.reports⟩
    · rename_i hbegins
      rw [if_neg hbegins]
      exact hrecord
  · intro hother
    have hunmaps : a.unmaps = false := by
      rcases hother with hplan | hcompressed
      · simp [a, unmapsAtEnd, hplan]
      · simp [a, unmapsAtEnd, hcompressed]
    split at hrecord
    · obtain ⟨course, release, reports, heq, hparts⟩ := hrecord
      show Refreshes (a.run w occasions).1.2
      rw [heq]
      exact hparts.refreshes_all hunmaps
    · show Refreshes (a.run w occasions).1.2
      rw [hrecord]
      exact .nil

/-- A dynamic partition of three bytes. -/
def systemPartition : Partition where
  name := "system"
  targetPath := "/dev/system"
  targetSize := 3
  targetHash := partitionAlgorithm.digest [0, 5, 7].toByteArray

/-- A plan for it. -/
def systemPlan (writeVerity : Bool) : InstallPlan where
  targetSlot := ⟨1⟩
  writeVerity
  partitions := [systemPartition]

/-- Its device, under a controller of compressed snapshots. -/
def snapshotRig : Rig Nat where
  images := [("/dev/system", [0, 5, 7].toByteArray)]
  controller := some ⟨true, [("system", 1)], true, true, true⟩

/-- A verification of the partition on that device. -/
def systemOnRig (writeVerity : Bool) : Assignment Nat (Rig Nat) :=
  onRig .bytes snapshotRig.dynamicPartitions (systemPlan writeVerity)

/-- Polled until it has ended, and then given up. -/
def pollsAndDrop : List (Occasion (Rig Nat)) := List.replicate 4 .poll ++ [.drop]

/-- The plan is accepted, and snapshots have been mapped. -/
theorem run_systemOnRig : ∀ writeVerity,
    ((systemOnRig writeVerity).run snapshotRig pollsAndDrop).2.accepted? =
        some (systemPlan writeVerity) ∧
      ((systemOnRig writeVerity).run snapshotRig pollsAndDrop).1.2.any isMapping := by
  decide +kernel

/-- Without verity metadata to write, the snapshots are released. -/
theorem release_of_ended_system :
    ∃ before success after,
      ((systemOnRig false).owned snapshotRig pollsAndDrop).1.2 =
        before ++ unmapped success :: after ∧ Refreshes before ∧ OnlyReports after := by
  obtain ⟨hreleases, -, howned⟩ := release_of_ended Rig.host (·.aborted) .bytes
    snapshotRig.dynamicPartitions (systemPlan false) snapshotRig pollsAndDrop
    (Life.ended_of_accepted (run_systemOnRig false).1)
  obtain ⟨before, success, after, hrecord, hparts⟩ : ∃ before success after,
      ((systemOnRig false).run snapshotRig pollsAndDrop).1.2 =
        before ++ unmapped success :: after ∧ Refreshes before ∧ OnlyReports after :=
    hreleases ⟨rfl, rfl⟩
  exact ⟨before, success, after, (congrArg Prod.snd howned).trans hrecord, hparts⟩

/-- If the abort comes before the first poll, they are not. -/
theorem unreleased_of_early_abort :
    (systemOnRig false).plan = some (systemPlan false) ∧ (systemPlan false).writeVerity = false ∧
    (systemOnRig false).dynamic.compressed = true ∧
    ((systemOnRig false).run snapshotRig ([Event.abort, .poll].map Event.occasion)).2 =
      .completed (.error .cancelled) ∧
    ∀ success, unmapped success ∉
      ((systemOnRig false).run snapshotRig ([Event.abort, .poll].map Event.occasion)).1.2 := by
  refine ⟨rfl, rfl, rfl, rfl, ?_⟩
  have hnone : ((systemOnRig false).run snapshotRig
      ([Event.abort, .poll].map Event.occasion)).1.2 = [] := rfl
  rw [hnone]
  exact fun _ => List.not_mem_nil

/-- However a life ends: snapshots that have been mapped are unmapped afterwards, unless the plan
    asks for verity metadata; then they stay mapped.  They are mapped only if the target of some
    partition is read through a mapped view. -/
theorem unmaps_iff_of_ended (host : Host (interface P) W) (aborted : W → Bool)
    (scale : Scale P) (dynamic : DynamicPartitions) (plan : InstallPlan) (w : W)
    (occasions : List (Occasion W))
    (hended : ((⟨host, aborted, scale, dynamic, some plan⟩ : Assignment P W).run w
      occasions).2.ended = true) :
    let record := ((⟨host, aborted, scale, dynamic, some plan⟩ : Assignment P W).run w
      occasions).1.2
    (Unmaps record ↔ plan.writeVerity = false ∨ ∀ success, mapped success ∉ record) ∧
    ∀ success, mapped success ∈ record → ∃ p ∈ plan.partitions,
      Setting.Views ⟨scale, dynamic, plan⟩ p := by
  intro record
  have hrecord := Assignment.record_of_ended hended
  change if _ then ∃ course release reports, record = _ ∧ _ else record = [] at hrecord
  split at hrecord
  · obtain ⟨course, release, reports, heq, hparts⟩ := hrecord
    have hviews : ∀ success, mapped success ∈ record → ∃ p ∈ plan.partitions,
        Setting.Views ⟨scale, dynamic, plan⟩ p := by
      intro success hmem
      rw [heq] at hmem
      obtain ⟨plan', ⟨⟩, hp⟩ := hparts.views success (hparts.mapped_mem hmem)
      exact hp
    refine ⟨?_, hviews⟩
    constructor
    · intro hunmaps
      cases hplan : plan.writeVerity with
      | false => exact .inl rfl
      | true =>
        refine .inr fun success hmem => ?_
        have hnone := hparts.refreshes_all (by simp [unmapsAtEnd, hplan])
        rw [← heq] at hnone
        exact hnone.not_unmaps hmem hunmaps
    · rintro hcause before success after hmapped
      have hmem : mapped success ∈ record := by simp [hmapped]
      rcases hcause with hplan | hnone
      · obtain ⟨p, -, -, hcompressed, -⟩ := hviews success hmem
        have hunmaps := hparts.unmaps (by simpa [unmapsAtEnd, hplan] using hcompressed)
        exact hunmaps before success after (heq.symm.trans hmapped)
      · exact absurd hmem (hnone success)
  · have hnone : ∀ success, mapped success ∉ record := by simp [hrecord]
    refine ⟨⟨fun _ => .inr hnone, ?_⟩, fun success hmem => absurd hmem (hnone success)⟩
    rintro - before success after hmapped
    exact absurd (by simp [hmapped]) (hnone success)

/-- Snapshots are mapped and unmapped. -/
theorem unmaps_iff_of_ended_system :
    (∃ p ∈ (systemPlan false).partitions,
      Setting.Views ⟨.bytes, snapshotRig.dynamicPartitions, systemPlan false⟩ p) ∧
    Unmaps ((systemOnRig false).run snapshotRig pollsAndDrop).1.2 := by
  obtain ⟨haccepted, hmapping⟩ := run_systemOnRig false
  obtain ⟨hiff, hviews⟩ := unmaps_iff_of_ended Rig.host (·.aborted) .bytes
    snapshotRig.dynamicPartitions (systemPlan false) snapshotRig pollsAndDrop
    (Life.ended_of_accepted haccepted)
  exact ⟨hviews true (mapped_mem_of_any hmapping), hiff.mpr (.inl rfl)⟩

/-- The plan asks for verity metadata and the partition has none: it is read through a mapped view,
    and the view stays mapped when the plan has been accepted. -/
theorem mapped_of_accepted :
    ((systemOnRig true).run snapshotRig pollsAndDrop).2.accepted? =
      some (systemPlan true) ∧
    mapped true ∈ ((systemOnRig true).run snapshotRig pollsAndDrop).1.2 ∧
    ¬ Unmaps ((systemOnRig true).run snapshotRig pollsAndDrop).1.2 := by
  obtain ⟨haccepted, hmapping⟩ := run_systemOnRig true
  have hmapped := mapped_mem_of_any hmapping
  refine ⟨haccepted, hmapped, ?_⟩
  obtain ⟨course, release, reports, heq, hparts⟩ :=
    Assignment.record_of_ended (Life.ended_of_accepted haccepted)
  have hrefreshes := hparts.refreshes_all rfl
  rw [← heq] at hrefreshes
  exact hrefreshes.not_unmaps hmapped

end SlotVerify.Verification
