import SlotVerify.Task.Loop
import Mathlib.Data.List.Basic
/-
  The queue and the waiters, change by change.

  1. `ids` lists the numbers in the queue.  A change to an entry keeps them, a removal takes one
     away, and only posting adds one.
  2. A waiter is looked up by the number of its task; what posting, storing a result and using a
     waiter up do to such a lookup is said once for the waiter in question and once for the others.
-/

namespace SlotVerify.Task.Loop

variable {T S V : Type} {l : Loop T S V} {id id' : TaskId} {e : Entry T} {ev : Event V}

/-- The numbers of the queued tasks. -/
def ids (l : Loop T S V) : List TaskId := l.entries.map (·.id)

theorem id_mem_ids (he : e ∈ l.entries) : e.id ∈ l.ids := List.mem_map_of_mem he

theorem mem_of_queued? (h : l.queued? id = some e) : e ∈ l.entries := List.mem_of_find?_eq_some h

theorem id_of_queued? (h : l.queued? id = some e) : e.id = id := by
  have h := List.find?_some h
  simpa using h

theorem queued?_eq_none : l.queued? id = none ↔ id ∉ l.ids := by
  simp [queued?, ids, List.find?_eq_none]

theorem queued?_ne_none : l.queued? id ≠ none ↔ id ∈ l.ids := by
  rw [ne_eq, queued?_eq_none, not_not]

theorem mem_ids_of_queued? (h : l.queued? id = some e) : id ∈ l.ids := by
  rw [← queued?_ne_none, h]
  exact Option.some_ne_none e

/-! ## Entries -/

theorem forall_mem_modifyEntry {f : Entry T → Entry T} {P : Entry T → Prop} :
    (∀ e ∈ (l.modifyEntry id f).entries, P e) ↔
      ∀ a ∈ l.entries, (a.id = id → P (f a)) ∧ (a.id ≠ id → P a) := by
  simp only [modifyEntry, List.forall_mem_map, beq_iff_eq]
  refine forall₂_congr fun a _ => ?_
  by_cases h : a.id = id <;> simp [h]

theorem ids_modifyEntry {f : Entry T → Entry T} (hf : ∀ a, (f a).id = a.id) :
    (l.modifyEntry id f).ids = l.ids := by
  simp only [ids, modifyEntry, List.map_map]
  refine List.map_congr_left fun a _ => ?_
  by_cases h : a.id = id <;> simp [h, hf]

@[simp] theorem ids_modifyEntry_waker {w : Option Waker} :
    (l.modifyEntry id fun e => { e with waker := w }).ids = l.ids :=
  ids_modifyEntry fun _ => rfl

@[simp] theorem ids_modifyEntry_task {t : Option T} :
    (l.modifyEntry id fun e => { e with task := t }).ids = l.ids :=
  ids_modifyEntry fun _ => rfl

/-- Nothing changes for a task that is not queued. -/
theorem modifyEntry_of_not_mem {f : Entry T → Entry T} (h : id ∉ l.ids) :
    l.modifyEntry id f = l := by
  have hmap : ∀ a ∈ l.entries, (if a.id == id then f a else a) = a := by
    intro a ha
    have hne : a.id ≠ id := fun hid => h (hid ▸ id_mem_ids ha)
    simp [hne]
  rw [modifyEntry, List.map_congr_left hmap, List.map_id']

theorem ids_removeEntry : (l.removeEntry id).ids = l.ids.filter (· != id) := by
  simp only [ids, removeEntry, List.filter_map]
  rfl

theorem not_mem_removeEntry : id ∉ (l.removeEntry id).ids := by
  simp [ids_removeEntry]

theorem mem_of_mem_removeEntry (h : id' ∈ (l.removeEntry id).ids) : id' ∈ l.ids := by
  rw [ids_removeEntry] at h
  exact List.mem_of_mem_filter h

theorem mem_removeEntry : e ∈ (l.removeEntry id).entries ↔ e ∈ l.entries ∧ e.id ≠ id := by
  simp [removeEntry]

/-- A removal makes the queue shorter. -/
theorem length_removeEntry (h : id ∈ l.ids) : (l.removeEntry id).ids.length < l.ids.length := by
  rw [ids_removeEntry]
  exact List.length_filter_lt_length_iff_exists.2 ⟨id, h, by simp⟩

@[simp] theorem ids_note : (l.note ev).ids = l.ids := rfl

@[simp] theorem ids_endWaiter : (l.endWaiter id ev).ids = l.ids := rfl

@[simp] theorem ids_putResult {v : V} : (l.putResult id v).ids = l.ids := rfl

@[simp] theorem ids_shared {s : S} : ({ l with shared := s } : Loop T S V).ids = l.ids := rfl

@[simp] theorem ids_wake {w : Waker} : (l.wake w).ids = l.ids := by
  cases w with
  | task id => exact ids_modifyEntry fun _ => rfl
  | outside name => rfl

@[simp] theorem ids_wakeAny {w : Option Waker} : (l.wakeAny w).ids = l.ids := by
  cases w with
  | some w => exact ids_wake
  | none => rfl

@[simp] theorem ids_beginPoll : (l.beginPoll id).ids = l.ids := ids_modifyEntry fun _ => rfl

@[simp] theorem ids_post {t : T} : (l.post t).1.ids = l.ids ++ [l.nextId] := by
  simp [ids, post]

/-- Only the number of the task that is posted comes into the queue. -/
theorem mem_of_mem_post {t : T} (hlt : id < l.nextId) (h : id ∈ (l.post t).1.ids) : id ∈ l.ids := by
  rw [ids_post, List.mem_append, List.mem_singleton] at h
  rcases h with h | rfl
  · exact h
  · exact absurd hlt (Nat.lt_irrefl _)

/-- Asking a waiter changes no number in the queue. -/
@[simp] theorem ids_pollWaiter {w : Waker} : (l.pollWaiter id w).1.ids = l.ids := by
  unfold pollWaiter
  split
  · exact ids_modifyEntry_waker
  · rfl

/-! ## Waiters -/

theorem waiter?_post {t : T} :
    (l.post t).1.waiter? id = if id = l.nextId then some none else l.waiter? id := by
  by_cases h : l.nextId = id
  · simp [waiter?, post, h]
  · simp [waiter?, post, h, Ne.symm h]

theorem waiter?_endWaiter :
    (l.endWaiter id ev).waiter? id' = if id' = id then none else l.waiter? id' := by
  by_cases h : id' = id
  · subst h
    simp [waiter?, endWaiter, List.find?_filter, List.find?_eq_none]
  · have hf : (fun r : TaskId × Option V => r.1 != id && r.1 == id') = fun r => r.1 == id' := by
      funext r
      by_cases hr : r.1 = id' <;> simp [hr, h]
    simp only [waiter?, endWaiter, List.find?_filter, Bool.decide_and, Bool.decide_eq_true, hf,
      if_neg h]

theorem waiter?_putResult {v : V} :
    (l.putResult id v).waiter? id' =
      if id' = id then (l.waiter? id').map fun _ => some v else l.waiter? id' := by
  have hf : ((fun r : TaskId × Option V => r.1 == id') ∘
      fun r => if r.1 == id then (id, some v) else r) = fun r => r.1 == id' := by
    funext r
    by_cases hr : r.1 = id <;> simp [hr]
  simp only [waiter?, putResult, List.find?_map, hf, Option.map_map]
  cases hr : l.waiters.find? fun r => r.1 == id' with
  | none => simp
  | some r =>
    have hid : r.1 = id' := by simpa using List.find?_some hr
    by_cases h : id' = id <;> simp [hid, h]

/-- Waking concerns no waiter. -/
@[simp] theorem waiter?_wake {w : Waker} : (l.wake w).waiter? id = l.waiter? id := by
  cases w <;> rfl

/-! ## The journal -/

@[simp] theorem journal_note : (l.note ev).journal = ev :: l.journal := rfl

@[simp] theorem journal_endWaiter : (l.endWaiter id ev).journal = ev :: l.journal := rfl

@[simp] theorem journal_post {t : T} :
    (l.post t).1.journal = .posted l.nextId :: l.journal := rfl

@[simp] theorem journal_wake {w : Waker} : (l.wake w).journal = l.journal := by
  cases w <;> rfl

@[simp] theorem journal_beginPoll : (l.beginPoll id).journal = .began id :: l.journal := rfl

@[simp] theorem journal_putResult {v : V} :
    (l.putResult id v).journal = .ended id (some v) :: l.journal := rfl

@[simp] theorem nextId_wake {w : Waker} : (l.wake w).nextId = l.nextId := by
  cases w <;> rfl

end SlotVerify.Task.Loop
