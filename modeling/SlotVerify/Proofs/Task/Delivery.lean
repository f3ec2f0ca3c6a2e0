import SlotVerify.Proofs.Task.Results
import SlotVerify.Proofs.Task.Waiting
/-
  Results are delivered once.

  A result comes into being when a poll ends with it, lies in the waiter of its task until that is
  asked or taken, and is gone with it; whoever waits is woken.  `DeliversOnce` says what this comes
  to for one task, at any loop that is reached.

  A waiter that is dropped with nothing in it takes its task out of the queue, also when it is
  dropped by a task that is destroyed (`Dropped`): it was not used, so it had the result if there
  was one, and a task with a result is on its way out.
-/

namespace SlotVerify.Task

open Loop

variable {T S V : Type} {b : Behavior T S V} {p p' : Phase} {owed : List Waker}
  {l l' : Loop T S V} {id : TaskId} {ev : Event V}

/-! ## Dropped waiters -/

/-- A waiter that is dropped before anything has been had from it takes its task out of the queue,
    unless the task is on its way out anyway. -/
structure Loop.Dropped (p : Phase) (l : Loop T S V) : Prop where
  posted : ∀ {id : TaskId}, .posted id ∈ l.journal → id < l.nextId
  out : ∀ {later earlier : List (Event V)} {id : TaskId},
    l.journal = later ++ .dropped id :: earlier → .posted id ∈ earlier → Unused earlier id →
    id < l.nextId ∧ (id ∈ l.ids → p = .finishing id)

/-- Other events leave this alone. -/
theorem Loop.Dropped.cons (h : l.Dropped p) (hids : ∀ id ∈ l'.ids, id ∈ l.ids)
    (hnext : l'.nextId = l.nextId) (hjournal : l'.journal = ev :: l.journal)
    (hposted : ∀ id, ev ≠ .posted id) (hdropped : ∀ id, ev ≠ .dropped id)
    (hfinishing : ∀ id ∈ l'.ids, p = .finishing id → p' = .finishing id) : l'.Dropped p' where
  posted {id} hmem := by
    rw [hjournal, List.mem_cons, or_iff_right (hposted id).symm] at hmem
    exact hnext ▸ h.posted hmem
  out {later earlier id} hcut hmem hunused := by
    rcases cut_cons (hjournal ▸ hcut) with ⟨-, heq, -⟩ | ⟨rest, -, hrest⟩
    · exact absurd heq (hdropped id)
    · obtain ⟨hlt, hout⟩ := h.out hrest hmem hunused
      exact ⟨hnext ▸ hlt, fun hid => hfinishing _ hid (hout (hids _ hid))⟩

theorem Loop.Dropped.post (h : l.Dropped p) (t : T) : (l.post t).1.Dropped p := by
  refine ⟨fun hmem => ?_, fun {later earlier id} hcut hmem hunused => ?_⟩
  · rw [journal_post, List.mem_cons] at hmem
    rcases hmem with heq | hmem
    · rw [Event.posted.inj heq]
      exact Nat.lt_succ_self _
    · exact Nat.lt_succ_of_lt (h.posted hmem)
  · rcases cut_cons hcut with ⟨-, heq, -⟩ | ⟨rest, -, hrest⟩
    · cases heq
    · obtain ⟨hlt, hout⟩ := h.out hrest hmem hunused
      exact ⟨Nat.lt_succ_of_lt hlt, fun hid => hout (mem_of_mem_post hlt hid)⟩

theorem Loop.Dropped.drop (h : l.Dropped p) (hended : l.Ended p) (hstored : l.Stored)
    (hleft : l.waiter? id = some none → id ∉ l.ids) :
    (l.endWaiter id (.dropped id)).Dropped p := by
  refine ⟨fun hmem => ?_, fun {later earlier i} hcut hmem hunused => ?_⟩
  · rw [journal_endWaiter, List.mem_cons, or_iff_right (by simp)] at hmem
    exact h.posted hmem
  · rcases cut_cons hcut with ⟨-, heq, rfl⟩ | ⟨rest, -, hrest⟩
    · obtain rfl := Event.dropped.inj heq
      have hlt := h.posted hmem
      refine ⟨hlt, fun hid => ?_⟩
      -- nothing has been had from the waiter, so it is there, with the result if there is one
      obtain ⟨r, hr, -⟩ := hstored.kept hlt hunused
      cases r with
      | none => exact absurd hid (hleft hr)
      | some v => exact (hended.value (hstored.genuine hr)).2 hid
    · exact h.out hrest hmem hunused

/-- Once the task that has its result is out of the queue, nothing is going on. -/
theorem Loop.Dropped.settled (h : l.Dropped (.finishing id)) (hleft : id ∉ l.ids) :
    l.Dropped .idle := by
  refine ⟨h.posted, fun hcut hmem hunused => ?_⟩
  obtain ⟨hlt, hout⟩ := h.out hcut hmem hunused
  exact ⟨hlt, fun hid => absurd (Phase.finishing.inj (hout hid) ▸ hid) hleft⟩

theorem Course.dropped (h : Course p owed l) : l.Dropped p := by
  induction h with
  | empty s => exact ⟨by simp [Loop.empty], by simp [Loop.empty]⟩
  | shared s _ ih => exact ⟨ih.posted, ih.out⟩
  | posted t _ ih => exact ih.post t
  | owing w _ ih => exact ih
  | woken _ ih =>
    exact ih.cons (fun _ hid => by rwa [ids_wake] at hid) nextId_wake journal_wake (by simp)
      (by simp) fun _ _ hp => hp
  | cancelled _ _ ih =>
    exact ih.cons (fun _ => mem_of_mem_removeEntry) rfl rfl (by simp) (by simp) fun _ _ hp => hp
  | used h huse ih =>
    cases huse with
    | take => exact ih.cons (fun _ hid => hid) rfl rfl (by simp) (by simp) fun _ _ hp => hp
    | ask w => exact ih.cons (fun _ hid => hid) rfl rfl (by simp) (by simp) fun _ _ hp => hp
    | drop hleft => exact ih.drop h.ended h.stored_once hleft
  | waiting w _ _ ih =>
    refine ih.cons (fun _ hid => ?_) rfl rfl (by simp) (by simp) fun _ _ hp => hp
    rwa [ids_note, ids_modifyEntry_waker] at hid
  | began _ _ ih =>
    exact ih.cons (fun _ hid => ids_beginPoll ▸ hid) rfl rfl (by simp) (by simp) (by simp)
  | paused t _ ih =>
    refine ih.cons (fun _ hid => ?_) rfl rfl (by simp) (by simp) (by simp)
    rwa [ids_modifyEntry_task, ids_note] at hid
  | stored v _ ih => exact ih.cons (fun _ hid => hid) rfl rfl (by simp) (by simp) (by simp)
  | @completed _ l id _ _ _ ih =>
    have hremoved : ((l.removeEntry id).note (.completed id)).Dropped (.finishing id) :=
      ih.cons (fun _ => mem_of_mem_removeEntry) rfl rfl (by simp) (by simp) fun _ _ hp => hp
    exact hremoved.settled not_mem_removeEntry
  | gone _ hleft ih => exact ih.settled hleft

/-! ## Delivery -/

/-- Between calls no task is on its way out. -/
theorem Reached.phase (h : Reached b p l) (id : TaskId) : p ≠ .finishing id := by
  induction h with
  | empty => simp
  | answered _ _ ih => exact ih
  | began => simp
  | settled => simp

/-- What a waiter that is asked has to say. -/
theorem pollWaiter_answer {w : Waker} (h : l.waiter? id = some none → id ∉ l.ids) :
    (l.pollWaiter id w).2 = some (l.waiter? id).join := by
  unfold pollWaiter
  split
  case h_1 hnone he => exact absurd (mem_ids_of_queued? he) (h hnone)
  case h_2 => rfl

/-- How the result of a task gets to those who want it. -/
structure Loop.DeliversOnce (b : Behavior T S V) (l : Loop T S V) (id : TaskId) : Prop where
  /-- The task is not polled after a poll has brought the result or the task has been cancelled. -/
  not_polled : ∀ later ev earlier, l.journal = later ++ ev :: earlier → ev.Closes id →
    .began id ∉ later
  /-- When a call tells that the task is cancelled, it has been. -/
  cancelled : (l.cancel b id).2 = true → .cancelled id ∈ (l.cancel b id).1.journal
  /-- The result is there for the one who has the waiter, by taking and by asking. -/
  obtainable : ∀ v, .ended id (some v) ∈ l.journal → .cancelled id ∉ l.journal →
    Unused l.journal id →
    (l.takeResult id).2 = some v ∧ ∀ w, (l.pollWaiter id w).2 = some (some v)
  /-- What has been handed out is what the last poll brought, and there is nothing more to be
      had. -/
  delivered : ∀ ev ∈ l.journal, ∀ v, ev.Delivers id v →
    (∀ v', .ended id (some v') ∈ l.journal ↔ v' = v) ∧
      (l.takeResult id).2 = none ∧ ∀ w, (l.pollWaiter id w).2 = some none
  /-- Nothing is handed out twice. -/
  once : l.journal.Pairwise fun late early => ∀ v v', late.Delivers id v → ¬ early.Delivers id v'
  /-- A waiter lets wait only while the task is queued, and keeps whom to wake. -/
  pending : ∀ w, (l.pollWaiter id w).2 = none →
    id ∈ l.ids ∧ lastWaker (l.pollWaiter id w).1.journal id = some w
  /-- Whoever waited when the task left the queue has been woken since. -/
  woken : ∀ later ev earlier w, l.journal = later ++ ev :: earlier → ev.Departs id →
    lastWaker earlier id = some w → .woken w ∈ later
  /-- Dropping a waiter that has nothing yet takes the task out of the queue. -/
  drop_cancels : l.waiter? id = some none → id ∉ (l.dropWaiter b id).ids
  /-- So does the dropping of waiters by tasks that are destroyed. -/
  dropped : ∀ later earlier, l.journal = later ++ .dropped id :: earlier → .posted id ∈ earlier →
    Unused earlier id → id ∉ l.ids

/-- In whatever way a loop has been used, every task's result is delivered once. -/
theorem results_delivered_once (h : Reached b p l) (id : TaskId) : l.DeliversOnce b id := by
  have hended := h.course.ended
  have hstored := h.course.stored_once
  have hout : ∀ {v}, .ended id (some v) ∈ l.journal → id ∉ l.ids :=
    fun hmem hid => h.phase id ((hended.value hmem).2 hid)
  constructor
  case not_polled =>
    intro later ev earlier hcut hcloses hbegan
    -- the beginning of a poll would be the later one of a pair that is excluded
    have hpair := hcut ▸ hended.never
    exact (List.pairwise_append.1 hpair).2.2 _ hbegan ev List.mem_cons_self id rfl hcloses
  case cancelled =>
    intro hqueued
    obtain ⟨e, he⟩ := Option.isSome_iff_exists.1 hqueued
    rw [cancel_of_queued he]
    exact mem_journal_wakeAny ((shrinks_destroy b _ e.task).journal _ List.mem_cons_self)
  case obtainable =>
    intro v hmem _ hunused
    obtain ⟨r, hr, hresult⟩ := hstored.kept (hended.value hmem).1 hunused
    have hwaiter : l.waiter? id = some (some v) := hresult v hmem ▸ hr
    refine ⟨by rw [takeResult, hwaiter]; rfl, fun w => ?_⟩
    rw [pollWaiter_answer fun _ => hout hmem, hwaiter]
    rfl
  case delivered =>
    intro ev hev v hdelivers
    obtain ⟨hmem, hgone, -⟩ := hstored.delivered hev hdelivers
    refine ⟨fun v' => ⟨fun hmem' => ?_, fun heq => heq ▸ hmem⟩, ?_, fun w => ?_⟩
    · exact hended.value_unique hmem' hmem
    · rw [takeResult, hgone]
      rfl
    · rw [pollWaiter_answer fun _ => hout hmem, hgone]
      rfl
  case once =>
    exact hstored.once.imp fun hpair v v' => hpair id v v'
  case pending =>
    intro w
    unfold pollWaiter
    split
    case h_1 he => exact fun _ => ⟨mem_ids_of_queued? he, lastWaker_asked⟩
    case h_2 => exact fun hnone => absurd hnone (Option.some_ne_none _)
  case woken =>
    intro later ev earlier w hcut hdep hlast
    have hwoken := h.course.watched.woken hcut hdep hlast
    simpa using hwoken
  case drop_cancels =>
    intro hnone
    have hcancelled := (cancels_cancelChain b _ id l (Nat.le_of_eq length_ids)).2
    simp only [dropWaiter, dropBy, hnone]
    exact hcancelled
  case dropped =>
    intro later earlier hcut hposted hunused hid
    exact h.phase id ((h.course.dropped.out hcut hposted hunused).2 hid)

/-- A task that has its result with the first poll. -/
def prompt : Behavior Unit Unit Nat where
  poll _ _ := .done (.ready 7 none)
  destroyed _ s := (s, [])

/-- A loop in which such a task has been polled. -/
def onePrompt : Loop Unit Unit Nat := pollTask prompt 0 () ((Loop.empty ()).post ()).1

theorem reached_onePrompt : Reached prompt .idle onePrompt := by
  have hnext : ((Loop.empty ()).post () : Loop Unit Unit Nat × TaskId).1.nextRunnable none =
      some (0, ()) := rfl
  exact ((Reached.empty ()).answered (.post ())).pollTask hnext

/-- Its result is there to be taken, and once it has been taken there is none. -/
theorem results_delivered_once_prompt :
    (onePrompt.takeResult 0).2 = some 7 ∧ ((onePrompt.takeResult 0).1.takeResult 0).2 = none := by
  have hunused : Unused onePrompt.journal 0 := by
    unfold Unused
    decide
  refine ⟨((results_delivered_once reached_onePrompt 0).obtainable 7 (by decide) (by decide)
    hunused).1, ?_⟩
  have htaken : Reached prompt .idle (onePrompt.takeResult 0).1 :=
    reached_onePrompt.answered (.takeResult 0)
  exact ((results_delivered_once htaken 0).delivered (.took 0 (some 7)) (by decide) 7
    (.inl rfl)).2.1

end SlotVerify.Task
