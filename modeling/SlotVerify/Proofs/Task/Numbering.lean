import SlotVerify.Proofs.Task.Course
/-
  Numbers and entries of a loop in the course of its life.

  1. The queue is in the order of the numbers, and a number that has left it does not come back:
     new numbers are above all that are in use (`Numbered`, `Course.numbered`).
  2. Only the task that is being polled is out of its entry (`Course.task_of_entry`), so whenever a
     turn begins every queued task can be polled.
-/

namespace SlotVerify.Task

open Loop

variable {T S V : Type} {p : Phase} {owed : List Waker} {l : Loop T S V} {id : TaskId}

/-- A task has left the queue. -/
def Loop.Departed (l : Loop T S V) (id : TaskId) : Prop :=
  .cancelled id ∈ l.journal ∨ .completed id ∈ l.journal

/-- The queue is in the order of the numbers, every number in use is below the next one, and no
    number comes back to the queue. -/
structure Loop.Numbered (l : Loop T S V) : Prop where
  sorted : l.ids.Pairwise (· < ·)
  queued : ∀ {id : TaskId}, id ∈ l.ids → id < l.nextId
  waiters : ∀ {id : TaskId}, l.waiter? id ≠ none → id < l.nextId
  departed : ∀ {id : TaskId}, l.Departed id → id < l.nextId ∧ id ∉ l.ids

/-- Only the queue, the waiters and the departures matter. -/
theorem Loop.Numbered.of_same {l' : Loop T S V} (h : l.Numbered) (hids : l'.ids = l.ids)
    (hnext : l'.nextId = l.nextId)
    (hwaiters : ∀ {id : TaskId}, l'.waiter? id ≠ none → l.waiter? id ≠ none)
    (hdeparted : ∀ {id : TaskId}, l'.Departed id → l.Departed id) : l'.Numbered where
  sorted := hids ▸ h.sorted
  queued hid := hnext ▸ h.queued (hids ▸ hid)
  waiters hid := hnext ▸ h.waiters (hwaiters hid)
  departed hid := by
    rw [hids, hnext]
    exact h.departed (hdeparted hid)

theorem Loop.Numbered.post (h : l.Numbered) (t : T) : (l.post t).1.Numbered where
  sorted := by
    rw [ids_post, List.pairwise_append]
    refine ⟨h.sorted, List.pairwise_singleton _ _, fun id hid new hnew => ?_⟩
    rw [List.mem_singleton.1 hnew]
    exact h.queued hid
  queued {id} hid := by
    rw [ids_post, List.mem_append, List.mem_singleton] at hid
    show id < l.nextId + 1
    rcases hid with hid | rfl
    · exact Nat.lt_succ_of_lt (h.queued hid)
    · exact Nat.lt_succ_self _
  waiters {id} hid := by
    rw [waiter?_post] at hid
    show id < l.nextId + 1
    by_cases hnew : id = l.nextId
    · exact hnew ▸ Nat.lt_succ_self _
    · rw [if_neg hnew] at hid
      exact Nat.lt_succ_of_lt (h.waiters hid)
  departed {id} hid := by
    have hold : l.Departed id := by simpa [Departed] using hid
    obtain ⟨hlt, hleft⟩ := h.departed hold
    exact ⟨Nat.lt_succ_of_lt hlt, fun hmem => hleft (mem_of_mem_post hlt hmem)⟩

/-- A task that leaves the queue is out of it for good. -/
theorem Loop.Numbered.depart (h : l.Numbered) (hqueued : id ∈ l.ids) {ev : Event V}
    (hev : ev = .cancelled id ∨ ev = .completed id) :
    ((l.removeEntry id).note ev).Numbered where
  sorted := by
    rw [ids_note, ids_removeEntry]
    exact h.sorted.filter _
  queued hid := h.queued (mem_of_mem_removeEntry hid)
  waiters := h.waiters
  departed {id'} hid := by
    by_cases hsame : id' = id
    · subst hsame
      exact ⟨h.queued hqueued, not_mem_removeEntry⟩
    · have hold : l.Departed id' := by
        rcases hev with rfl | rfl <;> simpa [Departed, removeEntry, hsame] using hid
      obtain ⟨hlt, hleft⟩ := h.departed hold
      exact ⟨hlt, fun hmem => hleft (mem_of_mem_removeEntry hmem)⟩

theorem Course.numbered (h : Course p owed l) : l.Numbered := by
  induction h with
  | empty s =>
    refine ⟨List.Pairwise.nil, ?_, ?_, ?_⟩ <;> simp [ids, waiter?, Departed, Loop.empty]
  | shared s _ ih => exact ih.of_same rfl rfl id id
  | posted t _ ih => exact ih.post t
  | owing w _ ih => exact ih
  | woken _ ih =>
    refine ih.of_same ids_wake nextId_wake (fun hid => ?_) (fun hid => ?_)
    · rwa [waiter?_wake] at hid
    · simpa [Departed] using hid
  | cancelled _ he ih => exact ih.depart (mem_ids_of_queued? he) (.inl rfl)
  | used _ huse ih =>
    refine ih.of_same rfl rfl (fun hid => ?_) (fun hid => ?_)
    · rw [waiter?_endWaiter] at hid
      split at hid
      · exact absurd rfl hid
      · exact hid
    · cases huse <;> simpa [Departed] using hid
  | waiting w _ hqueued ih =>
    refine ih.of_same ids_modifyEntry_waker rfl id (fun hid => ?_)
    simpa [Departed, modifyEntry] using hid
  | began _ hqueued ih =>
    refine ih.of_same ids_beginPoll rfl id (fun hid => ?_)
    simpa [Departed] using hid
  | paused t _ ih =>
    refine ih.of_same ids_modifyEntry_task rfl id (fun hid => ?_)
    simpa [Departed, modifyEntry] using hid
  | stored v _ ih =>
    refine ih.of_same rfl rfl (fun {id'} hid => ?_) (fun hid => ?_)
    · rw [waiter?_putResult] at hid
      split at hid <;> simpa using hid
    · simpa [Departed] using hid
  | completed _ he ih => exact ih.depart (mem_ids_of_queued? he) (.inr rfl)
  | gone _ _ ih => exact ih

/-- A task is in its entry, unless it is being polled or is done. -/
theorem Course.task_of_entry (h : Course p owed l) :
    ∀ e ∈ l.entries, e.task = none → p = .polling e.id ∨ p = .finishing e.id := by
  induction h with
  | empty s => simp [Loop.empty]
  | shared s _ ih => exact ih
  | @posted p _ l t _ ih =>
    intro e he hnone
    rcases List.mem_append.1 he with he | he
    · exact ih e he hnone
    · rw [List.mem_singleton.1 he] at hnone
      exact absurd hnone (Option.some_ne_none t)
  | owing w _ ih => exact ih
  | @woken p _ l w _ ih =>
    cases w with
    | task id => exact forall_mem_modifyEntry.2 fun a ha => ⟨fun _ => ih a ha, fun _ => ih a ha⟩
    | outside name => exact ih
  | cancelled _ _ ih => exact fun e he => ih e (mem_removeEntry.1 he).1
  | used _ _ ih => exact ih
  | waiting w _ _ ih =>
    exact forall_mem_modifyEntry.2 fun a ha => ⟨fun _ => ih a ha, fun _ => ih a ha⟩
  | began _ _ ih =>
    -- nothing was going on before, so only the task whose poll begins is out of its entry
    refine forall_mem_modifyEntry.2 fun a ha => ⟨fun hid _ => .inl (hid ▸ rfl), fun _ hnone => ?_⟩
    rcases ih a ha hnone with h | h <;> cases h
  | paused t _ ih =>
    refine forall_mem_modifyEntry.2 fun a ha => ⟨fun _ hnone => ?_, fun hne hnone => ?_⟩
    · exact absurd hnone (Option.some_ne_none t)
    · rcases ih a ha hnone with h | h
      · exact absurd (Phase.polling.inj h).symm hne
      · cases h
  | stored v _ ih =>
    intro e he hnone
    rcases ih e he hnone with h | h
    · exact .inr (Phase.polling.inj h ▸ rfl)
    · cases h
  | completed _ he ih =>
    intro e he' hnone
    obtain ⟨hmem, hne⟩ := mem_removeEntry.1 he'
    rcases ih e hmem hnone with h | h
    · cases h
    · exact absurd (Phase.finishing.inj h).symm hne
  | gone _ hleft ih =>
    intro e he hnone
    rcases ih e he hnone with h | h
    · cases h
    · exact absurd (Phase.finishing.inj h ▸ id_mem_ids he) hleft

/-- Between polls every queued task is in its entry. -/
theorem Course.task_of_idle (h : Course .idle owed l) : ∀ e ∈ l.entries, e.task ≠ none := by
  intro e he hnone
  rcases h.task_of_entry e he hnone with hp | hp <;> cases hp

end SlotVerify.Task
