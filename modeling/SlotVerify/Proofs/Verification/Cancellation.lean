import Mathlib.Data.List.Induction
import SlotVerify.Proofs.Verification.Chronicle
/-
  Cancelling a verification.

  An abort takes effect at the beginning of the next poll.  That poll ends the verification as
  cancelled and has no dealings any more but the release of the snapshots, and nothing comes after
  it (`run_aborted`).  Until then the verification goes on; but a poll in which progress is reported
  ends right there, so an abort from inside a report is never too late, unless it is the report that
  all is done (`run_polled`).  Conversely a verification is cancelled only because some poll has
  found an abort (`exists_abort_of_cancelled`).
-/

namespace SlotVerify.Verification

open Routine

variable {P W : Type}

instance (life : Life P) : Decidable life.Over :=
  match life with
  | .running _ => isFalse id
  | .completed _ | .dropped | .broken => isTrue trivial

theorem Life.exists_of_not_over {life : Life P} (h : ¬ life.Over) : ∃ v, life = .running v := by
  cases life with
  | running v => exact ⟨v, rfl⟩
  | _ => exact absurd trivial h

namespace Assignment

variable {a : Assignment P W} {w : W} {record : Record P}

/-- At most the snapshots are unmapped. -/
def AtMostReleased (record : Record P) : Prop :=
  record = [] ∨ ∃ success, record = [unmapped success]

theorem run_append (a : Assignment P W) (w : W) (first second : List (Occasion W)) :
    a.run w (first ++ second) = second.foldl a.step (a.run w first) :=
  List.foldl_append

theorem cleanup_atMostReleased (a : Assignment P W) (v : Running P) (started : Bool) (w : W)
    (record : Record P) :
    ∃ w' release, AtMostReleased release ∧
      v.cleanup a.host.recorded started (w, record) = (w', record ++ release) := by
  unfold Running.cleanup
  split
  · exact ⟨_, _, .inr ⟨_, rfl⟩, rfl⟩
  · exact ⟨w, [], .inl rfl, by rw [List.append_nil]⟩

/-- Nothing happens any more to a verification that has completed. -/
theorem foldl_completed (a : Assignment P W) (record : Record P)
    (result : Except Error InstallPlan) (occasions : List (Occasion W)) :
    ∀ w : W, ∃ w', occasions.foldl a.step ((w, record), .completed result) =
      ((w', record), .completed result) := by
  induction occasions with
  | nil => exact fun w => ⟨w, rfl⟩
  | cons o rest ih =>
    intro w
    cases o with
    | change f => exact ih (f w)
    | _ => exact ih w

/-- The poll that finds an abort is the last thing that happens. -/
theorem run_aborted {occasions : List (Occasion W)} {v : Running P}
    (hrun : a.run w occasions = ((w', record), .running v)) (f : W → W)
    (haborted : a.aborted (f w') = true) (later : List (Occasion W)) :
    ∃ release, AtMostReleased release ∧
      (a.run w (occasions ++ .change f :: .poll :: later)).1.2 = record ++ release ∧
      (a.run w (occasions ++ .change f :: .poll :: later)).2 = .completed (.error .cancelled) := by
  obtain ⟨w'', release, hrelease, hcleanup⟩ :=
    cleanup_atMostReleased a v v.started (f w') record
  have hpoll : a.poll (f w', record) v = _ := poll_aborted haborted v
  rw [hcleanup] at hpoll
  obtain ⟨w₁, hlater⟩ := foldl_completed a (record ++ release) (.error .cancelled) later w''
  have hlast : a.run w (occasions ++ .change f :: .poll :: later) =
      ((w₁, record ++ release), .completed (.error .cancelled)) := by
    rw [run_append, hrun]
    show later.foldl a.step (a.poll (f w', record) v) = _
    rw [hpoll, hlater]
  rw [hlast]
  exact ⟨release, hrelease, rfl, rfl⟩

/-- The course does not come to a cancellation. -/
theorem result_ne_cancelled {ds : Record P} {result : Except Error InstallPlan}
    (h : a.Anyhow w ds (.finished result)) : result ≠ .error .cancelled := by
  rintro rfl
  obtain ⟨es, harrives, -⟩ := h
  exact a.orderly_course.reaches harrives.reaches _ rfl rfl

/-- What is known about a report that was made in a poll: it was the last thing that the
    verification did.  Either more is to be done, and the world is as the report has left it; or all
    is done. -/
def LastReport (a : Assignment P W) (ds : Record P) (progress : P)
    (state : (W × Record P) × Life P) : Prop :=
  ∃ before, ds = before ++ [reported progress] ∧
    (¬ state.2.Over ∧ (∃ w₀, (a.host.answer w₀ (Call.report progress)).1 = state.1.1) ∨
      (∃ result, state.2 = .completed result) ∧ progress = a.scale.one ∧
        ∀ progress', reported progress' ∉ before)

/-- A poll that finds no abort does not cancel the verification, and a report is the last thing that
    it does. -/
theorem run_polled {occasions : List (Occasion W)} {v : Running P} {w' : W}
    (hrun : a.run w occasions = ((w', record), .running v)) (haborted : a.aborted w' = false) :
    (a.run w (occasions ++ [.poll])).2 ≠ .completed (.error .cancelled) ∧
      ∃ ds, (a.run w (occasions ++ [.poll])).1.2 = record ++ ds ∧
        ∀ progress, reported progress ∈ ds →
          a.LastReport ds progress (a.run w (occasions ++ [.poll])) := by
  obtain ⟨started, rest, rfl, hanyhow⟩ := anyhow_of_running hrun
  have hpolled := polled a.host.carries_nothing started hanyhow haborted
  have hnext : a.run w (occasions ++ [.poll]) =
      a.poll (w', record) ⟨started, a.unmaps, rest.bind a.conclude⟩ := by
    rw [run_append, hrun]
    rfl
  rw [hnext]
  generalize a.poll (w', record) ⟨started, a.unmaps, rest.bind a.conclude⟩ = state at hpolled
  cases hpolled with
  | left h hprompt =>
    refine ⟨nofun, _, rfl, ?_⟩
    intro progress hmem
    obtain ⟨⟨before, hlast⟩, hworld⟩ := hprompt progress hmem
    exact ⟨before, hlast, .inl ⟨id, hworld⟩⟩
  | @completed w₁ w₂ ds release result h hquiet hrelease =>
    have hbefore : ∀ progress, reported progress ∉ ds ++ release := by
      intro progress hmem
      rcases List.mem_append.mp hmem with hmem | hmem
      · exact hquiet progress hmem
      · obtain ⟨success, hunmapped⟩ := hrelease.eq_unmapped hmem
        cases hunmapped
    refine ⟨?_, ds ++ release ++ [reported a.scale.one], by simp, ?_⟩
    · intro hcancelled
      exact result_ne_cancelled h (Life.completed.inj hcancelled)
    · intro progress hmem
      rcases List.mem_append.mp hmem with hmem | hmem
      · exact absurd hmem (hbefore progress)
      · cases List.mem_singleton.mp hmem
        exact ⟨_, rfl, .inr ⟨⟨result, rfl⟩, rfl, hbefore⟩⟩
  | broken h hquiet =>
    refine ⟨nofun, _, rfl, ?_⟩
    intro progress hmem
    exact absurd hmem (hquiet progress)

/-- A cancelled verification has been polled when an abort had been asked for. -/
theorem exists_abort_of_cancelled {w : W} (occasions : List (Occasion W)) :
    (a.run w occasions).2 = .completed (.error .cancelled) →
      ∃ before after, occasions = before ++ .poll :: after ∧
        ¬ (a.run w before).2.Over ∧ a.aborted (a.run w before).1.1 = true := by
  -- by induction from the last occasion on
  induction occasions using List.reverseRecOn with
  | nil => exact nofun
  | append_singleton occasions o ih =>
    intro hcancelled
    have hearlier : (a.run w occasions).2 = .completed (.error .cancelled) →
        ∃ before after, occasions ++ [o] = before ++ .poll :: after ∧
          ¬ (a.run w before).2.Over ∧ a.aborted (a.run w before).1.1 = true := by
      intro h
      obtain ⟨before, after, rfl, hfound⟩ := ih h
      exact ⟨before, after ++ [o], by simp, hfound⟩
    cases hrun : a.run w occasions with
    | mk world life =>
      obtain ⟨w', record⟩ := world
      have hstep : a.run w (occasions ++ [o]) = a.step ((w', record), life) o := by
        rw [run_append, hrun]
        rfl
      cases life with
      | running v =>
        cases o with
        | poll =>
          cases haborted : a.aborted w' with
          | true =>
            refine ⟨occasions, [], rfl, ?_⟩
            rw [hrun]
            exact ⟨id, haborted⟩
          | false => exact absurd hcancelled (run_polled hrun haborted).1
        | drop =>
          rw [hstep] at hcancelled
          cases hcancelled
        | change f =>
          rw [hstep] at hcancelled
          cases hcancelled
      | completed result =>
        refine hearlier ?_
        rw [hrun]
        rw [hstep] at hcancelled
        cases o <;> exact hcancelled
      | dropped =>
        rw [hstep] at hcancelled
        cases o <;> cases hcancelled
      | broken =>
        rw [hstep] at hcancelled
        cases o <;> cases hcancelled

end Assignment

/-- Cancelling is prompt and final, wherever the verification stands.  If an abort has been asked
    for when a poll begins, this poll ends the verification as cancelled, with no dealings but the
    release of the snapshots, and none come later.  If not, the poll does not cancel it, and if it
    makes a report, it ends there: so the next poll finds the abort that a report has asked for,
    unless it was the report that all is done.  And no verification is cancelled without an
    abort. -/
theorem cancelled_at_next_poll (a : Assignment P W) (w : W) (occasions : List (Occasion W)) :
    (¬ (a.run w occasions).2.Over →
      (∀ (f : W → W), a.aborted (f (a.run w occasions).1.1) = true → ∀ later, ∃ release,
        Assignment.AtMostReleased release ∧
        (a.run w (occasions ++ .change f :: .poll :: later)).1.2 =
          (a.run w occasions).1.2 ++ release ∧
        (a.run w (occasions ++ .change f :: .poll :: later)).2 = .completed (.error .cancelled)) ∧
      (a.aborted (a.run w occasions).1.1 = false →
        (a.run w (occasions ++ [.poll])).2 ≠ .completed (.error .cancelled) ∧
        ∃ ds, (a.run w (occasions ++ [.poll])).1.2 = (a.run w occasions).1.2 ++ ds ∧
          ∀ progress, reported progress ∈ ds →
            a.LastReport ds progress (a.run w (occasions ++ [.poll])))) ∧
    ((a.run w occasions).2 = .completed (.error .cancelled) →
      ∃ before after, occasions = before ++ .poll :: after ∧
        ¬ (a.run w before).2.Over ∧ a.aborted (a.run w before).1.1 = true) := by
  refine ⟨?_, a.exists_abort_of_cancelled occasions⟩
  intro hlives
  obtain ⟨v, hv⟩ := Life.exists_of_not_over hlives
  have hrun : a.run w occasions = (((a.run w occasions).1.1, (a.run w occasions).1.2),
      .running v) := by
    rw [← hv]
  exact ⟨fun f haborted later => Assignment.run_aborted hrun f haborted later,
    fun haborted => Assignment.run_polled hrun haborted⟩

/-- Two bytes that are read one by one; whoever listens aborts the verification after the first. -/
def impatientRig : Rig Nat where
  images := [("/dev/boot", [1, 2].toByteArray)]
  readLimit := some 1
  abortAtReport := some 0

/-- A plan that expects something else of them. -/
def impatientPlan : InstallPlan where
  partitions := [{ name := "boot", targetPath := "/dev/boot", targetSize := 2 }]

/-- The first report is the last dealing; the next poll is the end. -/
theorem cancelled_at_next_poll_twoBytes :
    let a := onRig .bytes impatientRig.dynamicPartitions impatientPlan
    (a.run impatientRig [.poll, .poll]).1.1.journal.progress.size = 1 ∧
    ¬ (a.run impatientRig [.poll, .poll]).2.Over ∧
    ∃ release, Assignment.AtMostReleased release ∧
      (a.run impatientRig [.poll, .poll, .change id, .poll, .drop]).1.2 =
        (a.run impatientRig [.poll, .poll]).1.2 ++ release ∧
      (a.run impatientRig [.poll, .poll, .change id, .poll, .drop]).2 =
        .completed (.error .cancelled) := by
  intro a
  have hlives : ¬ (a.run impatientRig [.poll, .poll]).2.Over := by decide +kernel
  have haborted : (a.run impatientRig [.poll, .poll]).1.1.aborted = true := by decide +kernel
  refine ⟨by decide +kernel, hlives, ?_⟩
  exact ((cancelled_at_next_poll a impatientRig [.poll, .poll]).1 hlives).1 id haborted [.drop]

end SlotVerify.Verification
