import SlotVerify.Proofs.Task.Aborting
import SlotVerify.Proofs.Verification.Cancellation
/-
  A verification whose abort is called for from elsewhere.

  A poll of such a verification begins with an observer's two steps: it leaves the waker of its task
  with the abort signal, and then it looks at the flag, which decides how `Running.poll` goes on.
  Between any two steps the callers may take theirs, and the world may become another
  (`Observed.Step`).

  1. With its verification left out, this is an observer among callers (`Observed.Reached.parties`).
  2. A poll that has seen the flag ends the verification, so one that is still there has not seen it
     when it looked last (`Observed.Reached.unseen`).  It has been woken, then, or is about to be.

  Main result: `abort_not_missed`.
-/

namespace SlotVerify.Verification

open SlotVerify.Task (Parties AbortEvent Finished Woke lastCheck lastRegistered lastCheck_cons)

/-- A verification, its world, and what it shares with those who may call for its abort. -/
structure Observed (P W K : Type) where
  parties : Parties K := {}
  world : W
  /-- What the polls so far have come to. -/
  stands : Outcome P Unit

variable {P W K : Type} [DecidableEq K] {host : Host (interface P) W} {v₀ v : Running P} {w₀ w : W}

namespace Observed

/-- The verification leaves the waker that it is polled with. -/
def register (m : Observed P W K) (waker : K) : Observed P W K :=
  { m with parties := m.parties.register waker }

/-- The rest of a poll: the verification looks at the flag and goes on as that says. -/
def look (m : Observed P W K) (host : Host (interface P) W) (v : Running P) : Observed P W K :=
  let polled := v.poll host (fun _ => m.parties.shared.aborted) m.world
  { parties := m.parties.check, world := polled.1, stands := polled.2 }

/-- The steps of the verification, and those of the callers, with whatever happens elsewhere. -/
inductive Step (host : Host (interface P) W) (m : Observed P W K) : Observed P W K → Prop where
  | register {v : Running P} (waker : K) (hleft : m.stands = .left () v)
      (h : m.parties.between = false) : Step host m (m.register waker)
  | look {v : Running P} (hleft : m.stands = .left () v) (h : m.parties.between = true) :
      Step host m (m.look host v)
  | elsewhere {p : Parties K} (hstep : m.parties.Step p) (h : p.between = m.parties.between)
      (w : W) : Step host m { m with parties := p, world := w }

/-- What a verification comes to that begins in this world. -/
inductive Reached (host : Host (interface P) W) (v₀ : Running P) (w₀ : W) :
    Observed P W K → Prop where
  | start : Reached host v₀ w₀ { world := w₀, stands := .left () v₀ }
  | step {m m' : Observed P W K} (h : Reached host v₀ w₀ m) (hstep : m.Step host m') :
      Reached host v₀ w₀ m'

variable {m m' : Observed P W K}

/-- The verification is an observer among the callers. -/
theorem Reached.parties (h : Reached host v₀ w₀ m) : m.parties.Reached := by
  induction h with
  | start => exact .start
  | step _ hstep ih =>
    cases hstep with
    | register waker _ hbetween => exact ih.step (.register waker hbetween)
    | look _ hbetween => exact ih.step (.check hbetween)
    | elsewhere hstep _ _ => exact ih.step hstep

omit [DecidableEq K] in
theorem poll_of_aborted (aborted : W → Bool) (h : aborted w = true) (v : Running P) :
    (v.poll host aborted w).2 = .completed (.error .cancelled) := by
  unfold Running.poll Running.drive
  rw [if_pos h]

/-- Between its polls a verification that has not ended has not seen the flag. -/
theorem Reached.unseen (h : Reached host v₀ w₀ m) (hleft : m.stands = .left () v)
    (hbetween : m.parties.between = false) : lastCheck m.parties.journal ≠ some true := by
  induction h generalizing v with
  | start => exact nofun
  | @step m m' _ hstep ih =>
    cases hstep with
    | register waker _ _ => cases hbetween
    | look _ _ =>
      intro hseen
      have haborted : m.parties.shared.aborted = true := Option.some.inj hseen
      cases hleft.symm.trans (poll_of_aborted (fun _ => m.parties.shared.aborted) haborted _)
    | elsewhere hstep hsame w =>
      -- the callers do not look at the flag
      cases hstep with
      | register waker h => cases hsame.trans h
      | check h => cases hsame.trans h
      | setFlag caller _ =>
        exact mt (lastCheck_cons (by simp)).symm.trans (ih hleft hbetween)
      | takeWaker caller _ =>
        exact mt (lastCheck_cons (by simp)).symm.trans (ih hleft hbetween)
      | wake caller taken _ =>
        exact mt (lastCheck_cons (by simp)).symm.trans (ih hleft hbetween)

end Observed

/-- Once a call for an abort has finished, an observer that has polled and is not in the middle of
    its two steps has seen the flag when it looked last, or the waker that it has left last has been
    called since.  If taking the waker and calling it are two steps, a caller may be in between.  A
    verification that is pending has not seen the flag, so its waker has been called since it left
    it, or is about to be. -/
theorem abort_not_missed (host : Host (interface P) W) (v₀ : Running P) (w₀ : W) :
    (∀ m : Parties K, m.ReachedAtOnce → Finished m.journal → m.between = false →
      ∀ (waker : K) (since : List (AbortEvent K)), lastRegistered m.journal = some (waker, since) →
        lastCheck m.journal = some true ∨ Woke since waker) ∧
    (∀ m : Parties K, m.Reached → Finished m.journal → m.between = false →
      ∀ (waker : K) (since : List (AbortEvent K)), lastRegistered m.journal = some (waker, since) →
        lastCheck m.journal = some true ∨ Woke since waker ∨ m.InHand waker) ∧
    ∀ m : Observed P W K, m.Reached host v₀ w₀ → Finished m.parties.journal →
      m.parties.between = false → ∀ v : Running P, m.stands = .left () v →
        ∀ (waker : K) (since : List (AbortEvent K)),
          lastRegistered m.parties.journal = some (waker, since) →
            Woke since waker ∨ m.parties.InHand waker := by
  refine ⟨?_, ?_, ?_⟩
  · intro m h hfinished hbetween waker since hlast
    obtain ⟨hreached, hnone⟩ := h.reached
    refine (hreached.seen_or_woken hfinished hbetween hlast).imp_right fun hwoken =>
      hwoken.resolve_right ?_
    rintro ⟨caller, hhand⟩
    rw [hnone] at hhand
    cases hhand
  · intro m h hfinished hbetween waker since hlast
    exact h.seen_or_woken hfinished hbetween hlast
  · intro m h hfinished hbetween v hleft waker since hlast
    exact (h.parties.seen_or_woken hfinished hbetween hlast).resolve_left
      (h.unseen hleft hbetween)

/-- The first task has polled and found nothing; then somebody has called for an abort. -/
def oneAbort : Parties Task.Waker :=
  ((((Parties.register {} (.task 0)).check.setFlag 0).takeWaker 0).wake 0 (some (.task 0)))

/-- The same with two calls; the one that has come too late for the waker is finished first. -/
def twoAborts : Parties Task.Waker :=
  ((((((Parties.register {} (.task 0)).check.setFlag 0).setFlag 1).takeWaker 0).takeWaker 1).wake 1
    none)

/-- A verification of two bytes before its first poll. -/
def beforeAbort : Running Nat :=
  .new .bytes impatientRig.dynamicPartitions (some impatientPlan)

/-- It has been the observer of the one call. -/
def abortedVerification : Observed Nat (Rig Nat) Task.Waker :=
  let polled := beforeAbort.poll Rig.host (fun _ => false) impatientRig
  { parties := oneAbort, world := polled.1, stands := polled.2 }

theorem reachedAtOnce_oneAbort : oneAbort.ReachedAtOnce := by
  have hregistered := Parties.ReachedAtOnce.start.step (.register (Task.Waker.task 0) rfl) rfl
  have hflagged := (hregistered.step (.check rfl) rfl).step (.setFlag 0 List.not_mem_nil) rfl
  exact hflagged.takeAndWake 0 List.mem_cons_self

theorem reached_twoAborts : twoAborts.Reached := by
  have hregistered := Parties.Reached.start.step (.register (Task.Waker.task 0) rfl)
  have hflagged := (hregistered.step (.check rfl)).step (.setFlag 0 List.not_mem_nil)
  have hboth := hflagged.step (.setFlag 1 (by decide))
  have htaken := (hboth.step (.takeWaker 0 (by decide))).step (.takeWaker 1 (by decide))
  exact htaken.step (.wake 1 none (by decide))

theorem reached_abortedVerification :
    abortedVerification.Reached Rig.host beforeAbort impatientRig := by
  have hstart : Observed.Reached (K := Task.Waker) Rig.host beforeAbort impatientRig _ := .start
  have hlooked := (hstart.step (.register (.task 0) rfl rfl)).step (.look rfl rfl)
  have hworld := abortedVerification.world
  have hflagged := hlooked.step (.elsewhere (.setFlag 0 List.not_mem_nil) rfl hworld)
  have htaken := hflagged.step (.elsewhere (.takeWaker 0 List.mem_cons_self) rfl hworld)
  exact htaken.step (.elsewhere (.wake 0 _ List.mem_cons_self) rfl _)

theorem left_abortedVerification : ∃ v, abortedVerification.stands = .left () v := by
  have hleft : (match abortedVerification.stands with
      | .left _ _ => true
      | _ => false) = true := by
    decide +kernel
  cases hstands : abortedVerification.stands with
  | left _ v => exact ⟨v, rfl⟩
  | completed result => rw [hstands] at hleft; cases hleft
  | broken => rw [hstands] at hleft; cases hleft

/-- The task has been woken, for it had not seen the flag, and its verification can go on; of two
    callers the one who has the waker in hand may not be the one who has finished. -/
theorem abort_not_missed_pending :
    (lastCheck oneAbort.journal = some false ∧
      Woke [.finished 0 (some (.task 0)), .took 0 (some (.task 0)), .flagged 0, .checked false]
        (Task.Waker.task 0)) ∧
    (Finished twoAborts.journal ∧ lastCheck twoAborts.journal = some false ∧
      twoAborts.InHand (.task 0)) ∧
    ∃ v, abortedVerification.stands = .left () v ∧
      Woke [.finished 0 (some (.task 0)), .took 0 (some (.task 0)), .flagged 0, .checked false]
        (Task.Waker.task 0) := by
  obtain ⟨hatOnce, hinTurn, hpending⟩ :=
    abort_not_missed (K := Task.Waker) Rig.host beforeAbort impatientRig
  have hfinished : Finished oneAbort.journal := ⟨0, some (.task 0), List.mem_cons_self⟩
  have hfinished' : Finished twoAborts.journal := ⟨1, none, List.mem_cons_self⟩
  refine ⟨⟨rfl, ?_⟩, ⟨hfinished', rfl, ?_⟩, ?_⟩
  · exact (hatOnce _ reachedAtOnce_oneAbort hfinished rfl _ _ rfl).resolve_left (by decide)
  · have hwoken := hinTurn _ reached_twoAborts hfinished' rfl _ _ rfl
    refine (hwoken.resolve_left (by decide)).resolve_left ?_
    rintro ⟨caller, hmem⟩
    simp at hmem
  · obtain ⟨v, hleft⟩ := left_abortedVerification
    refine ⟨v, hleft, ?_⟩
    have hwoken := hpending _ reached_abortedVerification hfinished rfl v hleft _ _ rfl
    refine hwoken.resolve_right ?_
    rintro ⟨caller, hmem⟩
    cases hmem

end SlotVerify.Verification
