import SlotVerify.Proofs.Task.Numbering
import Mathlib.Data.List.Pairwise
/-
  The results of tasks, from the poll that brings them to the waiter that hands them out.

  1. `Ended`: what has a result, or has been cancelled, is not polled again, and no task ends twice.
     A poll can begin only while the task is queued, and the task is out of the queue for good
     before the next poll of anything.
  2. `Stored`: a waiter that nobody has used has the result as soon as there is one, and what a
     waiter hands out is that result; with it the waiter is gone.
-/

namespace SlotVerify.Task

open Loop

variable {T S V : Type} {p p' : Phase} {owed : List Waker} {l l' : Loop T S V} {id : TaskId}
  {ev : Event V}

/-! ## Ends -/

/-- The task is polled no more after this event, apart from a poll that has begun. -/
def Event.Closes (id : TaskId) (ev : Event V) : Prop :=
  ev = .cancelled id ∨ ∃ v, ev = .ended id (some v)

/-- A task that has a result is on its way out of the queue, one that is being polled has none, and
    no poll begins and no result comes after the end. -/
structure Loop.Ended (p : Phase) (l : Loop T S V) : Prop where
  value : ∀ {id : TaskId} {v : V}, .ended id (some v) ∈ l.journal →
    id < l.nextId ∧ (id ∈ l.ids → p = .finishing id)
  polling : ∀ {id : TaskId}, p = .polling id →
    id < l.nextId ∧ ∀ v, .ended id (some v) ∉ l.journal
  never : l.journal.Pairwise fun late early => ∀ id, late = .began id → ¬ early.Closes id
  once : l.journal.Pairwise fun late early =>
    ∀ id v v', late = .ended id (some v) → early ≠ .ended id (some v')

/-- Other events leave this alone. -/
theorem Loop.Ended.cons (h : l.Ended p) (hids : ∀ id ∈ l'.ids, id ∈ l.ids)
    (hnext : l'.nextId = l.nextId) (hjournal : l'.journal = ev :: l.journal)
    (hbegan : ∀ id, ev ≠ .began id) (hended : ∀ id v, ev ≠ .ended id (some v))
    (hfinishing : ∀ id ∈ l'.ids, p = .finishing id → p' = .finishing id)
    (hpolling : ∀ id, p' = .polling id → p = .polling id) : l'.Ended p' where
  value {id v} hmem := by
    rw [hjournal, List.mem_cons] at hmem
    rcases hmem with heq | hmem
    · exact absurd heq.symm (hended id v)
    · obtain ⟨hlt, hout⟩ := h.value hmem
      exact ⟨hnext ▸ hlt, fun hid => hfinishing _ hid (hout (hids _ hid))⟩
  polling {id} hp := by
    obtain ⟨hlt, hnone⟩ := h.polling (hpolling id hp)
    refine ⟨hnext ▸ hlt, fun v => ?_⟩
    rw [hjournal, List.mem_cons, not_or]
    exact ⟨(hended id v).symm, hnone v⟩
  never := by
    rw [hjournal, List.pairwise_cons]
    exact ⟨fun _ _ id heq => absurd heq (hbegan id), h.never⟩
  once := by
    rw [hjournal, List.pairwise_cons]
    exact ⟨fun _ _ id v _ heq => absurd heq (hended id v), h.once⟩

theorem Loop.Ended.post (h : l.Ended p) (t : T) : (l.post t).1.Ended p := by
  have hquiet : (l.note (.posted l.nextId)).Ended p :=
    h.cons (fun _ hid => hid) rfl rfl (by simp) (by simp) (fun _ _ hp => hp) fun _ hp => hp
  refine ⟨fun hmem => ?_, fun hp => ?_, hquiet.never, hquiet.once⟩
  · obtain ⟨hlt, hout⟩ := hquiet.value hmem
    exact ⟨Nat.lt_succ_of_lt hlt, fun hid => hout (mem_of_mem_post hlt hid)⟩
  · obtain ⟨hlt, hnone⟩ := hquiet.polling hp
    exact ⟨Nat.lt_succ_of_lt hlt, hnone⟩

theorem Loop.Ended.beginPoll (h : l.Ended .idle) (hnumbered : l.Numbered) (hqueued : id ∈ l.ids) :
    (l.beginPoll id).Ended (.polling id) := by
  have hnone : ∀ v, .ended id (some v) ∉ l.journal := by
    intro v hmem
    exact absurd ((h.value hmem).2 hqueued) (by simp)
  -- a queued task has neither been cancelled nor come to a result, so its poll may begin
  have hopen : ∀ early ∈ l.journal, ¬ early.Closes id := by
    rintro early hmem (rfl | ⟨v, rfl⟩)
    · exact (hnumbered.departed (.inl hmem)).2 hqueued
    · exact hnone v hmem
  refine ⟨fun hmem => ?_, fun hp => ?_, ?_, ?_⟩
  · rw [journal_beginPoll, List.mem_cons, or_iff_right (by simp)] at hmem
    obtain ⟨hlt, hout⟩ := h.value hmem
    exact ⟨hlt, fun hid => absurd (hout (ids_beginPoll ▸ hid)) (by simp)⟩
  · rw [← Phase.polling.inj hp]
    refine ⟨hnumbered.queued hqueued, fun v => ?_⟩
    rw [journal_beginPoll, List.mem_cons, not_or]
    exact ⟨by simp, hnone v⟩
  · rw [journal_beginPoll, List.pairwise_cons]
    refine ⟨fun early hmem id' heq => ?_, h.never⟩
    exact Event.began.inj heq ▸ hopen early hmem
  · rw [journal_beginPoll, List.pairwise_cons]
    exact ⟨by simp, h.once⟩

theorem Loop.Ended.putResult (h : l.Ended (.polling id)) (v : V) :
    (l.putResult id v).Ended (.finishing id) := by
  obtain ⟨hlt, hnone⟩ := h.polling rfl
  refine ⟨fun {id' v'} hmem => ?_, by simp, ?_, ?_⟩
  · rw [journal_putResult, List.mem_cons] at hmem
    rcases hmem with heq | hmem
    · obtain ⟨rfl, -⟩ := Event.ended.inj heq
      exact ⟨hlt, fun _ => rfl⟩
    · obtain ⟨hlt', hout⟩ := h.value hmem
      exact ⟨hlt', fun hid => absurd (hout hid) (by simp)⟩
  · rw [journal_putResult, List.pairwise_cons]
    exact ⟨by simp, h.never⟩
  · rw [journal_putResult, List.pairwise_cons]
    refine ⟨fun early hmem id' v' v'' heq => ?_, h.once⟩
    -- while a task is being polled there is no result of it yet
    obtain ⟨rfl, -⟩ := Event.ended.inj heq
    rintro rfl
    exact hnone v'' hmem

/-- Once the task that has its result is out of the queue, nothing is going on. -/
theorem Loop.Ended.settled (h : l.Ended (.finishing id)) (hleft : id ∉ l.ids) : l.Ended .idle := by
  refine ⟨fun hmem => ?_, by simp, h.never, h.once⟩
  obtain ⟨hlt, hout⟩ := h.value hmem
  exact ⟨hlt, fun hid => absurd (Phase.finishing.inj (hout hid) ▸ hid) hleft⟩

theorem Course.ended (h : Course p owed l) : l.Ended p := by
  induction h with
  | empty s =>
    exact ⟨by simp [Loop.empty], by simp, List.Pairwise.nil, List.Pairwise.nil⟩
  | shared s _ ih => exact ⟨ih.value, ih.polling, ih.never, ih.once⟩
  | posted t _ ih => exact ih.post t
  | owing w _ ih => exact ih
  | woken _ ih =>
    exact ih.cons (fun _ hid => by rwa [ids_wake] at hid) nextId_wake journal_wake (by simp)
      (by simp) (fun _ _ hp => hp) fun _ hp => hp
  | cancelled _ _ ih =>
    exact ih.cons (fun _ => mem_of_mem_removeEntry) rfl rfl (by simp) (by simp)
      (fun _ _ hp => hp) fun _ hp => hp
  | used _ huse ih =>
    refine ih.cons (fun _ hid => hid) rfl rfl (fun id heq => ?_) (fun id v heq => ?_)
      (fun _ _ hp => hp) fun _ hp => hp
    all_goals subst heq; cases huse
  | waiting w _ _ ih =>
    refine ih.cons (fun _ hid => ?_) rfl rfl (by simp) (by simp) (fun _ _ hp => hp) fun _ hp => hp
    rwa [ids_note, ids_modifyEntry_waker] at hid
  | began h hqueued ih => exact ih.beginPoll h.numbered hqueued
  | paused t _ ih =>
    refine ih.cons (fun _ hid => ?_) rfl rfl (by simp) (by simp) (by simp) (by simp)
    rwa [ids_modifyEntry_task, ids_note] at hid
  | stored v _ ih => exact ih.putResult v
  | @completed _ l id _ _ _ ih =>
    have hremoved : ((l.removeEntry id).note (.completed id)).Ended (.finishing id) :=
      ih.cons (fun _ => mem_of_mem_removeEntry) rfl rfl (by simp) (by simp)
        (fun _ _ hp => hp) fun _ hp => hp
    exact hremoved.settled not_mem_removeEntry
  | gone _ hleft ih => exact ih.settled hleft

/-- A task has no two results. -/
theorem Loop.Ended.value_unique (h : l.Ended p) {v v' : V} (hv : .ended id (some v) ∈ l.journal)
    (hv' : .ended id (some v') ∈ l.journal) : v = v' := by
  by_contra hne
  have hsymm : Std.Symm fun late early : Event V =>
      ∀ id v v', late = .ended id (some v) → early ≠ .ended id (some v') :=
    ⟨fun _ _ hpair id v v' hearly hlate => hpair id v' v hlate hearly⟩
  exact h.once.forall hv hv' (by simpa using hne) id v v' rfl rfl

/-! ## Results -/

/-- A waiter hands out a result. -/
def Event.Delivers (id : TaskId) (v : V) (ev : Event V) : Prop :=
  ev = .took id (some v) ∨ ∃ w, ev = .asked id w (some (some v))

/-- A waiter is used up: it has been taken, or answered other than to wait, or dropped. -/
def Event.Uses (id : TaskId) : Event V → Prop
  | .took i _ => i = id
  | .asked i _ (some _) => i = id
  | .dropped i => i = id
  | _ => False

instance (id : TaskId) (ev : Event V) : Decidable (ev.Uses id) :=
  match ev with
  | .took i _ | .dropped i | .asked i _ (some _) => inferInstanceAs (Decidable (i = id))
  | .asked _ _ none | .posted _ | .began _ | .ended _ _ | .completed _ | .cancelled _ | .woken _ =>
    .isFalse not_false

/-- Nobody has used the waiter of a task. -/
def Unused (journal : List (Event V)) (id : TaskId) : Prop := ∀ ev ∈ journal, ¬ ev.Uses id

/-- What a waiter has is the result of its task; an unused one has it as soon as it is there; and
    with the result handed out the waiter is gone. -/
structure Loop.Stored (l : Loop T S V) : Prop where
  genuine : ∀ {id : TaskId} {v : V}, l.waiter? id = some (some v) →
    .ended id (some v) ∈ l.journal
  kept : ∀ {id : TaskId}, id < l.nextId → Unused l.journal id →
    ∃ r, l.waiter? id = some r ∧ ∀ v, .ended id (some v) ∈ l.journal → r = some v
  delivered : ∀ {id : TaskId} {v : V} {ev : Event V}, ev ∈ l.journal → ev.Delivers id v →
    .ended id (some v) ∈ l.journal ∧ l.waiter? id = none ∧ id < l.nextId
  once : l.journal.Pairwise fun late early =>
    ∀ id v v', late.Delivers id v → ¬ early.Delivers id v'

theorem Event.Delivers.uses {v : V} (h : ev.Delivers id v) : ev.Uses id := by
  rcases h with rfl | ⟨w, rfl⟩ <;> exact rfl

theorem Unused.tail {journal : List (Event V)} (h : Unused (ev :: journal) id) :
    Unused journal id :=
  fun e he => h e (List.mem_cons_of_mem ev he)

/-- Events that neither use a waiter nor bring a result leave this alone. -/
theorem Loop.Stored.cons (h : l.Stored) (hnext : l'.nextId = l.nextId)
    (hwaiters : ∀ id, l'.waiter? id = l.waiter? id) (hjournal : l'.journal = ev :: l.journal)
    (hended : ∀ id v, ev ≠ .ended id (some v)) (huses : ∀ id, ¬ ev.Uses id) : l'.Stored where
  genuine hw := by
    rw [hwaiters] at hw
    rw [hjournal]
    exact List.mem_cons_of_mem _ (h.genuine hw)
  kept {id} hlt hunused := by
    rw [hjournal] at hunused
    obtain ⟨r, hr, hresult⟩ := h.kept (hnext ▸ hlt) hunused.tail
    refine ⟨r, (hwaiters id).trans hr, fun v hmem => ?_⟩
    rw [hjournal, List.mem_cons, or_iff_right (hended id v).symm] at hmem
    exact hresult v hmem
  delivered {id v e} hmem hdelivers := by
    rw [hjournal, List.mem_cons] at hmem
    rcases hmem with rfl | hmem
    · exact absurd hdelivers.uses (huses id)
    · obtain ⟨hended', hgone, hlt⟩ := h.delivered hmem hdelivers
      rw [hjournal, hwaiters, hnext]
      exact ⟨List.mem_cons_of_mem _ hended', hgone, hlt⟩
  once := by
    rw [hjournal, List.pairwise_cons]
    exact ⟨fun _ _ id v _ hdelivers => absurd hdelivers.uses (huses id), h.once⟩

/-- A use of a waiter hands out what the waiter has, if it hands out anything. -/
theorem Loop.Use.waiter_of_delivers {i : TaskId} {v : V} (h : l.Use id ev)
    (hdelivers : ev.Delivers i v) : i = id ∧ l.waiter? id = some (some v) := by
  cases h with
  | take =>
    rcases hdelivers with heq | ⟨w, heq⟩
    · obtain ⟨rfl, hjoin⟩ := Event.took.inj heq
      exact ⟨rfl, Option.join_eq_some_iff.1 hjoin⟩
    · cases heq
  | ask w =>
    rcases hdelivers with heq | ⟨w', heq⟩
    · cases heq
    · obtain ⟨rfl, -, hjoin⟩ := Event.asked.inj heq
      exact ⟨rfl, Option.join_eq_some_iff.1 (Option.some.inj hjoin)⟩
  | drop _ => rcases hdelivers with heq | ⟨w, heq⟩ <;> cases heq

theorem Loop.Use.uses (h : l.Use id ev) : ev.Uses id := by
  cases h <;> exact rfl

theorem Loop.Use.ne_ended (h : l.Use id ev) (i : TaskId) (r : Option V) : ev ≠ .ended i r := by
  cases h <;> simp

theorem Loop.Stored.post (h : l.Stored) (hended : l.Ended p) (t : T) : (l.post t).1.Stored := by
  have hquiet : (l.note (.posted l.nextId)).Stored :=
    h.cons rfl (fun _ => rfl) rfl (by simp) (by simp [Event.Uses])
  have hother : ∀ {id}, id < l.nextId → (l.post t).1.waiter? id = l.waiter? id := by
    intro id hlt
    rw [waiter?_post, if_neg (Nat.ne_of_lt hlt)]
  refine ⟨fun {id v} hw => ?_, fun {id} hlt hunused => ?_, fun hmem hdelivers => ?_, hquiet.once⟩
  · by_cases hnew : id = l.nextId
    · rw [waiter?_post, if_pos hnew] at hw
      cases hw
    · rw [waiter?_post, if_neg hnew] at hw
      exact hquiet.genuine hw
  · rcases Nat.lt_succ_iff_lt_or_eq.1 hlt with hlt | rfl
    · rw [hother hlt]
      exact hquiet.kept hlt hunused
    · refine ⟨none, by rw [waiter?_post, if_pos rfl], fun v hmem => ?_⟩
      rw [journal_post, List.mem_cons, or_iff_right (by simp)] at hmem
      exact absurd (hended.value hmem).1 (Nat.lt_irrefl _)
  · obtain ⟨hresult, hgone, hlt⟩ := hquiet.delivered hmem hdelivers
    exact ⟨hresult, (hother hlt).trans hgone, Nat.lt_succ_of_lt hlt⟩

/-- A waiter is used up. -/
theorem Loop.Stored.endWaiter (h : l.Stored) (hnumbered : l.Numbered) (huse : l.Use id ev) :
    (l.endWaiter id ev).Stored := by
  refine ⟨fun {i v} hw => ?_, fun {i} hlt hunused => ?_, fun {i v e} hmem hdelivers => ?_, ?_⟩
  · rw [waiter?_endWaiter] at hw
    split at hw
    · cases hw
    · exact List.mem_cons_of_mem _ (h.genuine hw)
  · have hne : i ≠ id := by
      rintro rfl
      exact hunused ev List.mem_cons_self huse.uses
    obtain ⟨r, hr, hresult⟩ := h.kept hlt hunused.tail
    refine ⟨r, by rw [waiter?_endWaiter, if_neg hne, hr], fun v hmem => hresult v ?_⟩
    rw [journal_endWaiter, List.mem_cons, or_iff_right (huse.ne_ended i (some v)).symm] at hmem
    exact hmem
  · rw [journal_endWaiter, List.mem_cons] at hmem
    rcases hmem with rfl | hmem
    · obtain ⟨rfl, hw⟩ := huse.waiter_of_delivers hdelivers
      refine ⟨List.mem_cons_of_mem _ (h.genuine hw), by rw [waiter?_endWaiter, if_pos rfl], ?_⟩
      exact hnumbered.waiters (by rw [hw]; exact Option.some_ne_none _)
    · obtain ⟨hresult, hgone, hlt⟩ := h.delivered hmem hdelivers
      refine ⟨List.mem_cons_of_mem _ hresult, ?_, hlt⟩
      rw [waiter?_endWaiter, hgone, ite_self]
  · rw [journal_endWaiter, List.pairwise_cons]
    refine ⟨fun early hmem i v v' hlate hearly => ?_, h.once⟩
    -- an earlier delivery would have left no waiter to hand out anything
    obtain ⟨rfl, hw⟩ := huse.waiter_of_delivers hlate
    rw [(h.delivered hmem hearly).2.1] at hw
    cases hw

/-- The first result of a task is put into its waiter. -/
theorem Loop.Stored.putResult (h : l.Stored) (hnone : ∀ v, .ended id (some v) ∉ l.journal) (v : V) :
    (l.putResult id v).Stored := by
  refine ⟨fun {i u} hw => ?_, fun {i} hlt hunused => ?_, fun {i u e} hmem hdelivers => ?_, ?_⟩
  · rw [waiter?_putResult] at hw
    rw [journal_putResult, List.mem_cons]
    split at hw
    case isTrue hid =>
      obtain ⟨r, -, hr⟩ := Option.map_eq_some_iff.1 hw
      exact .inl (by rw [hid, Option.some.inj hr])
    case isFalse => exact .inr (h.genuine hw)
  · obtain ⟨r, hr, hresult⟩ := h.kept hlt hunused.tail
    by_cases hid : i = id
    · subst hid
      refine ⟨some v, by rw [waiter?_putResult, if_pos rfl, hr]; rfl, fun u hmem => ?_⟩
      rw [journal_putResult, List.mem_cons, or_iff_left (hnone u)] at hmem
      exact (Event.ended.inj hmem).2.symm
    · refine ⟨r, by rw [waiter?_putResult, if_neg hid, hr], fun u hmem => hresult u ?_⟩
      rw [journal_putResult, List.mem_cons] at hmem
      rcases hmem with heq | hmem
      · exact absurd (Event.ended.inj heq).1 hid
      · exact hmem
  · rw [journal_putResult, List.mem_cons] at hmem
    rcases hmem with rfl | hmem
    · exact absurd hdelivers.uses not_false
    · obtain ⟨hresult, hgone, hlt⟩ := h.delivered hmem hdelivers
      refine ⟨List.mem_cons_of_mem _ hresult, ?_, hlt⟩
      rw [waiter?_putResult, hgone]
      split <;> rfl
  · rw [journal_putResult, List.pairwise_cons]
    exact ⟨fun _ _ i u _ hdelivers => absurd hdelivers.uses not_false, h.once⟩

theorem Course.stored_once (h : Course p owed l) : l.Stored := by
  induction h with
  | empty s =>
    exact ⟨by simp [Loop.empty, waiter?], by simp [Loop.empty], by simp [Loop.empty],
      List.Pairwise.nil⟩
  | shared s _ ih => exact ⟨ih.genuine, ih.kept, ih.delivered, ih.once⟩
  | posted t h ih => exact ih.post h.ended t
  | owing w _ ih => exact ih
  | woken _ ih =>
    exact ih.cons nextId_wake (fun _ => waiter?_wake) journal_wake (by simp) (by simp [Event.Uses])
  | cancelled _ _ ih => exact ih.cons rfl (fun _ => rfl) rfl (by simp) (by simp [Event.Uses])
  | used h huse ih => exact ih.endWaiter h.numbered huse
  | waiting w _ _ ih => exact ih.cons rfl (fun _ => rfl) rfl (by simp) (by simp [Event.Uses])
  | began _ _ ih => exact ih.cons rfl (fun _ => rfl) rfl (by simp) (by simp [Event.Uses])
  | paused t _ ih => exact ih.cons rfl (fun _ => rfl) rfl (by simp) (by simp [Event.Uses])
  | stored v h ih => exact ih.putResult (h.ended.polling rfl).2 v
  | completed _ _ ih => exact ih.cons rfl (fun _ => rfl) rfl (by simp) (by simp [Event.Uses])
  | gone _ _ ih => exact ih

end SlotVerify.Task
