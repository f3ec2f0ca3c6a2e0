import Mathlib
import SlotVerify.Proofs.Task.Delivery
import SlotVerify.Task.Script
/-
  What becomes of the result of a task that has been cancelled.

  1. `underway` reads off the journal which task is being polled.  A poll ends only while it is
     underway (`Loop.Timely`), and no poll of a task begins after its cancellation.
  2. So a result of a cancelled task comes of the poll in which it was cancelled, or was there
     before: only what a task that is done leaves behind can cancel it then.
  3. A task that is cancelled at any other time yields nothing.  One that is cancelled in its own
     poll yields what this poll brings; whoever cancels himself and ends in the same poll is an
     instance.
-/

namespace SlotVerify.Task

open Loop

variable {T S V : Type} {b : Behavior T S V} {p p' : Phase} {owed : List Waker}
  {l l' : Loop T S V} {id : TaskId} {ev : Event V}

/-! ## Polls that are underway -/

/-- The task that is being polled after these events. -/
def underway : List (Event V) → Option TaskId
  | [] => none
  | .began id :: _ => some id
  | .ended _ _ :: _ => none
  | .posted _ :: rest | .completed _ :: rest | .cancelled _ :: rest | .woken _ :: rest
  | .asked _ _ _ :: rest | .took _ _ :: rest | .dropped _ :: rest => underway rest

/-- The task that is being polled in a phase. -/
def Phase.polled : Phase → Option TaskId
  | .polling id => some id
  | .idle | .finishing _ => none

theorem Phase.polled_eq_some : p.polled = some id ↔ p = .polling id := by
  cases p <;> simp [Phase.polled]

/-- Only the beginnings and the ends of polls tell which task is being polled. -/
theorem underway_cons {journal : List (Event V)} (hbegan : ∀ id, ev ≠ .began id)
    (hended : ∀ id r, ev ≠ .ended id r) : underway (ev :: journal) = underway journal := by
  cases ev with
  | began id => exact absurd rfl (hbegan id)
  | ended id r => exact absurd rfl (hended id r)
  | posted _ | completed _ | cancelled _ | woken _ | asked _ _ _ | took _ _ | dropped _ => rfl

/-- A poll that is underway and has not begun in the later part has been underway before it. -/
theorem underway_of_append {later earlier : List (Event V)}
    (h : underway (later ++ earlier) = some id) (hnot : .began id ∉ later) :
    underway earlier = some id := by
  induction later with
  | nil => exact h
  | cons ev rest ih =>
    rw [List.mem_cons, not_or] at hnot
    cases ev with
    | began i => exact absurd (congrArg Event.began (Option.some.inj h)).symm hnot.1
    | ended i r => cases h
    | posted _ | completed _ | cancelled _ | woken _ | asked _ _ _ | took _ _ | dropped _ =>
      exact ih h hnot.2

/-- The journal tells which task is being polled, and polls end that are underway. -/
structure Loop.Timely (p : Phase) (l : Loop T S V) : Prop where
  now : underway l.journal = p.polled
  ended : ∀ {later earlier : List (Event V)} {id : TaskId} {r : Option V},
    l.journal = later ++ .ended id r :: earlier → underway earlier = some id

/-- Other events leave this alone. -/
theorem Loop.Timely.cons (h : l.Timely p) (hjournal : l'.journal = ev :: l.journal)
    (hphase : p'.polled = p.polled) (hbegan : ∀ id, ev ≠ .began id)
    (hended : ∀ id r, ev ≠ .ended id r) : l'.Timely p' where
  now := by rw [hjournal, underway_cons hbegan hended, h.now, hphase]
  ended {later earlier id r} hcut := by
    rcases cut_cons (hjournal ▸ hcut) with ⟨-, heq, -⟩ | ⟨rest, -, hrest⟩
    · exact absurd heq (hended id r)
    · exact h.ended hrest

/-- The end of the poll that is underway. -/
theorem Loop.Timely.settle {r : Option V} (h : l.Timely (.polling id))
    (hjournal : l'.journal = .ended id r :: l.journal) (hphase : p'.polled = none) :
    l'.Timely p' where
  now := by rw [hjournal, hphase, underway]
  ended {later earlier id' r'} hcut := by
    rcases cut_cons (hjournal ▸ hcut) with ⟨-, heq, rfl⟩ | ⟨rest, -, hrest⟩
    · rw [← (Event.ended.inj heq).1]
      exact h.now
    · exact h.ended hrest

theorem Loop.Use.ne_began (h : l.Use id ev) (i : TaskId) : ev ≠ .began i := by
  cases h <;> simp

theorem Course.timely (h : Course p owed l) : l.Timely p := by
  induction h with
  | empty s => exact ⟨rfl, by simp [Loop.empty]⟩
  | shared s _ ih => exact ⟨ih.now, ih.ended⟩
  | posted t _ ih => exact ih.cons journal_post rfl (by simp) (by simp)
  | owing w _ ih => exact ih
  | woken _ ih => exact ih.cons journal_wake rfl (by simp) (by simp)
  | cancelled _ _ ih => exact ih.cons rfl rfl (by simp) (by simp)
  | used _ huse ih => exact ih.cons journal_endWaiter rfl huse.ne_began huse.ne_ended
  | waiting w _ _ ih => exact ih.cons rfl rfl (by simp) (by simp)
  | @began _ l id _ _ ih =>
    refine ⟨rfl, fun {later earlier id' r} hcut => ?_⟩
    rcases cut_cons hcut with ⟨-, heq, -⟩ | ⟨rest, -, hrest⟩
    · cases heq
    · exact ih.ended hrest
  | paused t _ ih => exact ih.settle rfl rfl
  | stored v _ ih => exact ih.settle journal_putResult rfl
  | completed _ _ ih => exact ih.cons rfl rfl (by simp) (by simp)
  | gone _ _ ih => exact ⟨ih.now, ih.ended⟩

/-! ## Cancelled tasks -/

/-- A task has its result, or may come to one in the poll that is underway. -/
def Decided (journal : List (Event V)) (id : TaskId) : Prop :=
  underway journal = some id ∨ ∃ v, .ended id (some v) ∈ journal

/-- A result of a task that has been cancelled comes of the poll that was underway then, or was
    there before. -/
theorem Course.decided_of_cancelled (h : Course p owed l) {later earlier : List (Event V)}
    (hcut : l.journal = later ++ .cancelled id :: earlier) {v : V}
    (hmem : .ended id (some v) ∈ l.journal) : Decided earlier id := by
  -- a cancelled task is not polled again
  have hnot : .began id ∉ later := by
    have hpair := hcut ▸ h.ended.never
    exact fun hbegan =>
      (List.pairwise_append.1 hpair).2.2 _ hbegan _ List.mem_cons_self id rfl (.inl rfl)
  rw [hcut, List.mem_append, List.mem_cons] at hmem
  rcases hmem with hmem | heq | hmem
  · obtain ⟨after, between, rfl⟩ := List.append_of_mem hmem
    have hended : underway (between ++ .cancelled id :: earlier) = some id :=
      h.timely.ended (by rw [hcut, List.append_assoc, List.cons_append])
    rw [List.mem_append, List.mem_cons, not_or, not_or] at hnot
    have hcancelled : underway (.cancelled id :: earlier) = some id :=
      underway_of_append hended hnot.2.2
    exact .inl hcancelled
  · cases heq
  · exact .inr ⟨v, hmem⟩

/-- What a waiter whose task is out of the queue has to say, in either way of asking it. -/
theorem yields_of_not_queued (h : id ∉ l.ids) :
    (l.takeResult id).2 = (l.waiter? id).join ∧
      ∀ w, (l.pollWaiter id w).2 = some (l.waiter? id).join :=
  ⟨rfl, fun _ => pollWaiter_answer fun _ => h⟩

/-- A task that has been cancelled yields nothing, unless it was being polled or had its result
    when it was cancelled; only then it can come to a result at all, and that is what its waiter
    yields.  A call that tells that the task is cancelled finds it without a result, and being
    polled if it is made in the task's own poll. -/
theorem cancelled_yields_nothing (b : Behavior T S V) :
    (∀ (p : Phase) (l : Loop T S V), Reached b p l → ∀ id, (l.cancel b id).2 = true →
      (∃ later, (l.cancel b id).1.journal = later ++ .cancelled id :: l.journal) ∧
        (Decided l.journal id ↔ p = .polling id)) ∧
    ∀ (p : Phase) (l : Loop T S V), Reached b p l → ∀ id later earlier,
      l.journal = later ++ .cancelled id :: earlier →
        (¬ Decided earlier id →
          (∀ ev ∈ l.journal, ∀ v, ¬ ev.Delivers id v) ∧
            (l.takeResult id).2 = none ∧ ∀ w, (l.pollWaiter id w).2 = some none) ∧
        ∀ v, .ended id (some v) ∈ l.journal →
          Decided earlier id ∧
            (Unused l.journal id →
              (l.takeResult id).2 = some v ∧ ∀ w, (l.pollWaiter id w).2 = some (some v)) := by
  constructor
  · intro p l h id hqueued
    obtain ⟨e, he⟩ := Option.isSome_iff_exists.1 hqueued
    have hid := mem_ids_of_queued? he
    refine ⟨?_, ?_⟩
    · rw [cancel_of_queued he]
      obtain ⟨later, hlater⟩ := ((shrinks_destroy b ((l.removeEntry id).note (.cancelled id))
        e.task).history).trans suffix_journal_wakeAny
      exact ⟨later, hlater.symm⟩
    · -- between calls a queued task has no result
      have hnone : ∀ v, .ended id (some v) ∉ l.journal :=
        fun v hmem => h.phase id ((h.course.ended.value hmem).2 hid)
      rw [Decided, h.course.timely.now, Phase.polled_eq_some]
      exact or_iff_left fun ⟨v, hmem⟩ => hnone v hmem
  · intro p l h id later earlier hcut
    have hstored := h.course.stored_once
    have hleft : id ∉ l.ids :=
      (h.course.numbered.departed (.inl (hcut ▸ List.mem_append_right _ List.mem_cons_self))).2
    obtain ⟨htake, hpoll⟩ := yields_of_not_queued hleft
    constructor
    · intro hundecided
      have hnone : ∀ v, .ended id (some v) ∉ l.journal :=
        fun v hmem => hundecided (h.course.decided_of_cancelled hcut hmem)
      have hwaiter : (l.waiter? id).join = none :=
        Option.eq_none_iff_forall_ne_some.2 fun v hv =>
          hnone v (hstored.genuine (Option.join_eq_some_iff.1 hv))
      rw [hwaiter] at htake hpoll
      exact ⟨fun ev hev v hdelivers => hnone v (hstored.delivered hev hdelivers).1, htake, hpoll⟩
    · intro v hmem
      refine ⟨h.course.decided_of_cancelled hcut hmem, fun hunused => ?_⟩
      obtain ⟨r, hr, hresult⟩ := hstored.kept (h.course.ended.value hmem).1 hunused
      have hwaiter : (l.waiter? id).join = some v := by rw [hr, hresult v hmem]; rfl
      rw [hwaiter] at htake hpoll
      exact ⟨htake, hpoll⟩

/-! ## Two cancellations -/

/-- A loop whose only task, which would have its result with its first poll, is cancelled. -/
def onePromptCancelled : Loop Unit Unit Nat := (((Loop.empty ()).post ()).1.cancel prompt 0).1

/-- The script of a task that cancels itself and is done with the same poll. -/
def hasty : Script := .mk "a" [.act (.cancel "a")] 7

/-- The loop in which it has been posted. -/
def oneHasty : ScriptLoop := (ScriptLoop.perform (Loop.empty {}) (.post hasty)).1

/-- The same loop after a run. -/
def oneHastyRun : ScriptLoop := (ScriptLoop.run oneHasty).1

theorem reached_oneHastyRun : Reached scripted .idle oneHastyRun := by
  have hposted : Reached scripted .idle oneHasty :=
    (Reached.empty ({} : Registry)).converse _
  have hrun : turns scripted 2 none oneHasty = some (oneHastyRun, true) := by cbv
  exact hposted.turns hrun

theorem journal_oneHastyRun :
    oneHastyRun.journal = [.ended 0 (some 7), .cancelled 0, .began 0, .posted 0] := by cbv

/-- The task that is cancelled before it is polled yields nothing; the one that cancels itself was
    being polled then, and yields what its poll brings. -/
theorem cancelled_yields_nothing_prompt :
    ((((Loop.empty ()).post ()).1.cancel prompt 0).2 = true ∧
      ¬ Decided [(.posted 0 : Event Nat)] 0 ∧ (onePromptCancelled.takeResult 0).2 = none ∧
      ∀ w, (onePromptCancelled.pollWaiter 0 w).2 = some none) ∧
    Decided [.began 0, (.posted 0 : Event Int)] 0 ∧ (oneHastyRun.takeResult 0).2 = some 7 := by
  have hposted : Reached prompt .idle ((Loop.empty ()).post ()).1 :=
    (Reached.empty ()).answered (.post ())
  have hidle := ((cancelled_yields_nothing prompt).1 .idle _ hposted 0 rfl).2
  have hundecided : ¬ Decided [(.posted 0 : Event Nat)] 0 := hidle.not.2 (by simp)
  obtain ⟨-, hnothing⟩ := ((cancelled_yields_nothing prompt).2 .idle onePromptCancelled
    (hposted.answered (.cancel 0)) 0 [] [.posted 0] rfl).1 hundecided
  have hended : .ended 0 (some 7) ∈ oneHastyRun.journal := by
    rw [journal_oneHastyRun]
    exact List.mem_cons_self
  have hunused : Unused oneHastyRun.journal 0 := by
    rw [journal_oneHastyRun, Unused]
    decide
  obtain ⟨hdecided, hresult⟩ := ((cancelled_yields_nothing scripted).2 .idle oneHastyRun
    reached_oneHastyRun 0 [.ended 0 (some 7)] [.began 0, .posted 0] journal_oneHastyRun).2 7 hended
  exact ⟨⟨rfl, hundecided, hnothing⟩, hdecided, (hresult hunused).1⟩

/-- The task that cancels itself, successfully as the log tells, yields its result all the same. -/
theorem taken_of_self_cancelled :
    Reached scripted .idle oneHastyRun ∧
      oneHastyRun.shared.log.toList = ["a poll", "a cancel: true", "a done"] ∧
      oneHastyRun.journal = [.ended 0 (some 7), .cancelled 0, .began 0, .posted 0] ∧
      (oneHastyRun.takeResult 0).2 = some 7 ∧
      (oneHastyRun.pollWaiter 0 (.outside 0)).2 = some (some 7) :=
  ⟨reached_oneHastyRun, by cbv, journal_oneHastyRun, by cbv, by cbv⟩

end SlotVerify.Task
