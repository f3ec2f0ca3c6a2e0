import SlotVerify.Proofs.Task.Numbering
/-
  No wake-up is lost.

  1. `LastPoll` reads the journal back to the beginning of a task's last poll: its waker has not
     been called since, and all that is told of its polls is how this one ended, if it has.
  2. `Rests` says so of every queued task that is not runnable: the poll of the one being polled
     has not ended, and the last polls of the others have left them pending.  The crux is the
     beginning of a poll, which blocks the task before it can be woken again.
  3. A run ends when nothing is runnable; then all that is left rests.
-/

namespace SlotVerify.Task

open Loop

variable {T S V : Type} {b : Behavior T S V} {p : Phase} {owed : List Waker} {l : Loop T S V}
  {id : TaskId} {journal told : List (Event V)} {ev : Event V}

/-- An event tells of a poll of a task. -/
def Event.ofPoll (id : TaskId) : Event V → Bool
  | .began i => i == id
  | .ended i _ => i == id
  | _ => false

/-- The task's waker has not been called since its last poll began, and since then this has been
    told of its polls. -/
def LastPoll (journal : List (Event V)) (id : TaskId) (told : List (Event V)) : Prop :=
  ∃ since before, journal = since ++ .began id :: before ∧ .woken (.task id) ∉ since ∧
    since.filter (Event.ofPoll id) = told

/-- What concerns others changes nothing. -/
theorem LastPoll.cons (h : LastPoll journal id told) (hwoken : ev ≠ .woken (.task id))
    (hpoll : ev.ofPoll id = false) : LastPoll (ev :: journal) id told := by
  obtain ⟨since, before, rfl, hnot, htold⟩ := h
  refine ⟨ev :: since, before, rfl, ?_, ?_⟩
  · rw [List.mem_cons, not_or]
    exact ⟨hwoken.symm, hnot⟩
  · rw [List.filter_cons_of_neg (by simp [hpoll]), htold]

theorem LastPoll.began (journal : List (Event V)) (id : TaskId) :
    LastPoll (.began id :: journal) id [] :=
  ⟨[], journal, rfl, List.not_mem_nil, rfl⟩

theorem LastPoll.ended (h : LastPoll journal id []) :
    LastPoll (.ended id none :: journal) id [.ended id none] := by
  obtain ⟨since, before, rfl, hnot, htold⟩ := h
  refine ⟨.ended id none :: since, before, rfl, by simpa using hnot, ?_⟩
  rw [List.filter_cons_of_pos (by simp [Event.ofPoll]), htold]

/-- A task that is not runnable has been polled, and it has not been woken since that poll began,
    which has left it pending if it is over. -/
structure Entry.Rests (p : Phase) (journal : List (Event V)) (e : Entry T) : Prop where
  polled : p = .polling e.id → LastPoll journal e.id []
  pending : p ≠ .polling e.id → p ≠ .finishing e.id → LastPoll journal e.id [.ended e.id none]

theorem Entry.Rests.cons {e : Entry T} (h : e.Rests p journal) (ev : Event V)
    (hwoken : ev ≠ .woken (.task e.id)) (hpoll : ev.ofPoll e.id = false) :
    e.Rests p (ev :: journal) :=
  ⟨fun hp => (h.polled hp).cons hwoken hpoll, fun hp hf => (h.pending hp hf).cons hwoken hpoll⟩

/-- Every queued task that is not runnable rests. -/
theorem Course.rests (h : Course p owed l) :
    ∀ e ∈ l.entries, e.runnable = false → e.Rests p l.journal := by
  induction h with
  | empty s => simp [Loop.empty]
  | shared s _ ih => exact ih
  | posted t _ ih =>
    intro e he hrun
    rcases List.mem_append.1 he with he | he
    · exact (ih e he hrun).cons _ (by simp) rfl
    · rw [List.mem_singleton.1 he] at hrun
      exact absurd hrun (by simp)
  | owing w _ ih => exact ih
  | @woken _ _ l w _ ih =>
    cases w with
    | task id =>
      refine forall_mem_modifyEntry.2 fun a ha => ⟨fun _ hrun => ?_, fun hne hrun => ?_⟩
      · exact absurd hrun (by simp)
      · exact (ih a ha hrun).cons _ (by simpa using Ne.symm hne) rfl
    | outside name => exact fun e he hrun => (ih e he hrun).cons _ (by simp) rfl
  | cancelled _ _ ih =>
    exact fun e he hrun => (ih e (mem_removeEntry.1 he).1 hrun).cons _ (by simp) rfl
  | used _ huse ih =>
    intro e he hrun
    cases huse with
    | take => exact (ih e he hrun).cons _ (by simp) rfl
    | ask w => exact (ih e he hrun).cons _ (by simp) rfl
    | drop _ => exact (ih e he hrun).cons _ (by simp) rfl
  | @waiting _ _ l id w _ _ ih =>
    refine forall_mem_modifyEntry.2 fun a ha => ⟨fun _ hrun => ?_, fun _ hrun => ?_⟩
    · have hold := (ih a ha hrun).cons (.asked id w none) (by simp) rfl
      exact ⟨hold.polled, hold.pending⟩
    · exact (ih a ha hrun).cons _ (by simp) rfl
  | @began _ l id _ _ ih =>
    refine forall_mem_modifyEntry.2 fun a ha => ⟨fun hid _ => ?_, fun hne hrun => ?_⟩
    -- it has been blocked by the beginning of this poll, and nobody has woken it since
    · subst hid
      exact ⟨fun _ => .began _ _, fun hp => absurd rfl hp⟩
    · have hold := (ih a ha hrun).cons (.began id) (by simp)
        (by simpa [Event.ofPoll] using Ne.symm hne)
      exact ⟨fun hp => absurd (Phase.polling.inj hp).symm hne,
        fun _ _ => hold.pending (by simp) (by simp)⟩
  | @paused _ l id t _ ih =>
    refine forall_mem_modifyEntry.2 fun a ha => ⟨fun hid hrun => ?_, fun hne hrun => ?_⟩
    · subst hid
      exact ⟨by simp, fun _ _ => ((ih a ha hrun).polled rfl).ended⟩
    · have hold := (ih a ha hrun).cons (.ended id none) (by simp)
        (by simpa [Event.ofPoll] using Ne.symm hne)
      exact ⟨by simp, fun _ _ => hold.pending (by simpa using Ne.symm hne) (by simp)⟩
  | @stored _ l id v _ ih =>
    intro e he hrun
    refine ⟨by simp, fun _ hf => ?_⟩
    -- the task that is done is on its way out, so this one is another
    have hne : id ≠ e.id := fun hid => hf (hid ▸ rfl)
    have hold := (ih e he hrun).cons (.ended id (some v)) (by simp)
      (by simpa [Event.ofPoll] using hne)
    exact hold.pending (by simpa using hne) (by simp)
  | @completed _ l id _ _ _ ih =>
    intro e he hrun
    obtain ⟨hmem, hne⟩ := mem_removeEntry.1 he
    have hold := (ih e hmem hrun).cons (.completed id) (by simp) rfl
    exact ⟨by simp, fun _ _ => hold.pending (by simp) (by simpa using Ne.symm hne)⟩
  | @gone _ l id _ hleft ih =>
    intro e he hrun
    have hne : id ≠ e.id := fun hid => hleft (hid ▸ id_mem_ids he)
    exact ⟨by simp, fun _ _ => (ih e he hrun).pending (by simp) (by simpa using hne)⟩

/-! ## Runs -/

/-- A run ends with nothing that is runnable, and tells whether anything is left. -/
theorem turns_over {n : Nat} {last : Option TaskId} {l' : Loop T S V} {allDone : Bool}
    (hrun : turns b n last l = some (l', allDone)) :
    firstRunnable l'.entries = none ∧ allDone = l'.entries.isEmpty := by
  induction n generalizing l last with
  | zero => simp [turns] at hrun
  | succ n ih =>
    cases hnext : l.nextRunnable last with
    | none =>
      simp only [turns, turn, hnext, Option.some.injEq, Prod.mk.injEq] at hrun
      obtain ⟨rfl, rfl⟩ := hrun
      refine ⟨?_, rfl⟩
      cases last with
      | none => exact hnext
      | some last => exact ((Option.orElse_eq_none _ _).1 hnext).2
    | some next =>
      simp only [turns, turn, hnext] at hrun
      exact ih hrun

/-- A run tells truly whether all tasks are done, and if they are not, each of those that are left
    has been polled, was left pending by its last poll and has not been woken since this began.
    Waking a task that has left the queue does nothing. -/
theorem no_wakeup_lost (b : Behavior T S V) :
    (∀ l : Loop T S V, Reached b .idle l →
      ∀ (n : Nat) (l' : Loop T S V) (allDone : Bool), run b n l = some (l', allDone) →
        (allDone = true ↔ l'.entries = []) ∧
        (allDone = false → ∀ e ∈ l'.entries, LastPoll l'.journal e.id [.ended e.id none])) ∧
    ∀ (p : Phase) (l : Loop T S V), Reached b p l →
      ∀ id, l.Departed id → l.wake (.task id) = l := by
  constructor
  · intro l h n l' allDone hrun
    obtain ⟨hnone, rfl⟩ := turns_over hrun
    have hcourse := (h.turns hrun).course
    refine ⟨List.isEmpty_iff, fun _ e he => ?_⟩
    -- between polls every task is in its entry, so one that is not polled any more is blocked
    have hblocked : e.runnable = false := by
      by_contra hrunnable
      have htask := firstRunnable_eq_none.1 hnone e he (by simpa using hrunnable)
      exact hcourse.task_of_idle e he htask
    exact (hcourse.rests e he hblocked).pending (by simp) (by simp)
  · intro p l h id hdeparted
    have hleft := (h.course.numbered.departed hdeparted).2
    rw [wake, modifyEntry_of_not_mem hleft]

/-- A task that waits for being woken, whoever may do so. -/
def dozing : Behavior Unit Unit Unit where
  poll _ _ := .done (.pending ())
  destroyed _ s := (s, [])

/-- Two dozing tasks, the first of which has been cancelled. -/
def oneDozing : Loop Unit Unit Unit :=
  ((((Loop.empty ()).post ()).1.post ()).1.cancel dozing 0).1

theorem reached_oneDozing : Reached dozing .idle oneDozing :=
  (((Reached.empty ()).answered (.post ())).answered (.post ())).answered (.cancel 0)

/-- The run of the one that is left stops with it asleep, and the other one is not there to be
    woken. -/
theorem no_wakeup_lost_dozing :
    (∃ l', run dozing 2 oneDozing = some (l', false) ∧ l'.entries.map (·.id) = [1] ∧
      ∀ e ∈ l'.entries, LastPoll l'.journal e.id [.ended e.id none]) ∧
    oneDozing.Departed 0 ∧ oneDozing.wake (.task 0) = oneDozing := by
  have hdeparted : oneDozing.Departed 0 := .inl (by decide)
  refine ⟨⟨_, rfl, by decide, ?_⟩, hdeparted, ?_⟩
  · exact (((no_wakeup_lost dozing).1 oneDozing reached_oneDozing) 2 _ false rfl).2 rfl
  · exact (no_wakeup_lost dozing).2 _ _ reached_oneDozing 0 hdeparted

end SlotVerify.Task
