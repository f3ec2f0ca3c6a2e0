import SlotVerify.Proofs.Task.Numbering
/-
  Whoever waits for a task is woken when the task leaves the queue.

  A queued task knows for whom its waiter was asked last (`Watched.waker`): asking is the only thing
  that changes it.  With the task that leaves the queue this one becomes one of those who are owed
  a wake-up, and stays it until he has been woken, whatever is cancelled in between
  (`Watched.woken`).
-/

namespace SlotVerify.Task

open Loop

variable {T S V : Type} {p : Phase} {owed : List Waker} {l l' : Loop T S V} {id : TaskId}
  {ev : Event V}

/-- For whom the waiter of a task was asked last while there was nothing in it. -/
def lastWaker (journal : List (Event V)) (id : TaskId) : Option Waker :=
  journal.findSome? fun
    | .asked i w none => if i = id then some w else none
    | _ => none

/-- A task leaves the queue. -/
def Event.Departs (id : TaskId) (ev : Event V) : Prop := ev = .cancelled id ∨ ev = .completed id

/-- A queued task knows for whom its waiter was asked last, and whoever that was when the task left
    the queue has been woken since, or is owed it. -/
structure Loop.Watched (owed : List Waker) (l : Loop T S V) : Prop where
  waker : ∀ e ∈ l.entries, e.waker = lastWaker l.journal e.id
  known : ∀ {id : TaskId}, lastWaker l.journal id ≠ none → id < l.nextId
  woken : ∀ {later earlier : List (Event V)} {ev : Event V} {id : TaskId} {w : Waker},
    l.journal = later ++ ev :: earlier → ev.Departs id → lastWaker earlier id = some w →
    .woken w ∈ later ∨ w ∈ owed

theorem lastWaker_cons {journal : List (Event V)} (h : ∀ w, ev ≠ .asked id w none) :
    lastWaker (ev :: journal) id = lastWaker journal id := by
  unfold lastWaker
  rw [List.findSome?_cons]
  split
  case h_2 => rfl
  case h_1 w hw =>
    split at hw
    case h_1 i w' =>
      split at hw
      case isTrue hid => exact absurd (congrArg (Event.asked · w' none) hid) (h w')
      case isFalse => cases hw
    case h_2 => cases hw

theorem lastWaker_asked {journal : List (Event V)} {w : Waker} :
    lastWaker (.asked id w none :: journal) id = some w := by
  simp [lastWaker]

/-- A list that is cut behind its first element. -/
theorem cut_cons {α : Type} {x y : α} {xs later earlier : List α}
    (h : x :: xs = later ++ y :: earlier) :
    later = [] ∧ x = y ∧ xs = earlier ∨ ∃ rest, later = x :: rest ∧ xs = rest ++ y :: earlier := by
  cases later with
  | nil =>
    obtain ⟨rfl, rfl⟩ := List.cons.inj h
    exact .inl ⟨rfl, rfl, rfl⟩
  | cons z rest =>
    obtain ⟨rfl, hrest⟩ := List.cons.inj h
    exact .inr ⟨rest, rfl, hrest⟩

/-- Nobody is asked for and no task leaves the queue with other events. -/
theorem Loop.Watched.cons (h : l.Watched owed) (hnext : l'.nextId = l.nextId)
    (hentries : ∀ e ∈ l'.entries, ∃ a ∈ l.entries, a.id = e.id ∧ a.waker = e.waker)
    (hjournal : l'.journal = ev :: l.journal) (hasked : ∀ id w, ev ≠ .asked id w none)
    (hdeparts : ∀ id, ¬ ev.Departs id) : l'.Watched owed where
  waker e he := by
    obtain ⟨a, ha, hid, hwaker⟩ := hentries e he
    rw [hjournal, lastWaker_cons (hasked _), ← hwaker, ← hid]
    exact h.waker a ha
  known {id} hmem := by
    rw [hjournal, lastWaker_cons (hasked id)] at hmem
    exact hnext ▸ h.known hmem
  woken hcut hdep hlast := by
    rcases cut_cons (hjournal ▸ hcut) with ⟨-, rfl, -⟩ | ⟨rest, rfl, hrest⟩
    · exact absurd hdep (hdeparts _)
    · rcases h.woken hrest hdep hlast with hwoken | howed
      · exact .inl (List.mem_cons_of_mem _ hwoken)
      · exact .inr howed

/-- With a task that leaves the queue, its waker is owed a wake-up. -/
theorem Loop.Watched.depart {e : Entry T} (h : l.Watched owed) (he : l.queued? id = some e)
    (hev : ev.Departs id) :
    ((l.removeEntry id).note ev).Watched (e.waker.toList ++ owed) := by
  have hasked : ∀ i w, ev ≠ .asked i w none := by
    rintro i w rfl
    rcases hev with heq | heq <;> cases heq
  refine ⟨fun a ha => ?_, fun {i} hmem => ?_, fun {later earlier ev' i w} hcut hdep hlast => ?_⟩
  · rw [journal_note, lastWaker_cons (hasked _)]
    exact h.waker a (mem_removeEntry.1 ha).1
  · rw [journal_note, lastWaker_cons (hasked i)] at hmem
    exact h.known hmem
  · rcases cut_cons hcut with ⟨rfl, rfl, rfl⟩ | ⟨rest, rfl, hrest⟩
    · have hsame : i = id := by
        rcases hev with rfl | rfl <;> rcases hdep with heq | heq <;> cases heq <;> rfl
      have hwaker : e.waker = some w := by
        rw [h.waker e (mem_of_queued? he), id_of_queued? he, ← hsame]
        exact hlast
      -- whoever the waiter was asked for last is now owed the wake-up
      exact .inr (List.mem_append_left _ (by simp [hwaker]))
    · rcases h.woken hrest hdep hlast with hwoken | howed
      · exact .inl (List.mem_cons_of_mem _ hwoken)
      · exact .inr (List.mem_append_right _ howed)

/-- A change to an entry that leaves the waker as it is. -/
theorem exists_of_modifyEntry {f : Entry T → Entry T} (hid : ∀ a, (f a).id = a.id)
    (hwaker : ∀ a, (f a).waker = a.waker) :
    ∀ e ∈ (l.modifyEntry id f).entries, ∃ a ∈ l.entries, a.id = e.id ∧ a.waker = e.waker :=
  forall_mem_modifyEntry.2 fun a ha =>
    ⟨fun _ => ⟨a, ha, (hid a).symm, (hwaker a).symm⟩, fun _ => ⟨a, ha, rfl, rfl⟩⟩

theorem Loop.Watched.post (h : l.Watched owed) (t : T) : (l.post t).1.Watched owed := by
  have hquiet : (l.note (.posted l.nextId)).Watched owed :=
    h.cons rfl (fun e he => ⟨e, he, rfl, rfl⟩) rfl (by simp) (by simp [Event.Departs])
  refine ⟨fun e he => ?_, fun hmem => Nat.lt_succ_of_lt (hquiet.known hmem), hquiet.woken⟩
  rcases List.mem_append.1 he with he | he
  · exact hquiet.waker e he
  · rw [List.mem_singleton.1 he]
    -- a number that is new has not been asked for yet
    by_contra hne
    exact Nat.lt_irrefl _ (hquiet.known (Ne.symm hne))

/-- A wake-up that was owed is owed no more. -/
theorem Loop.Watched.wake {w : Waker} (h : l.Watched (w :: owed)) :
    ((l.note (.woken w)).wake w).Watched owed := by
  have hentries : ∀ e ∈ ((l.note (.woken w)).wake w).entries,
      ∃ a ∈ l.entries, a.id = e.id ∧ a.waker = e.waker := by
    cases w with
    | task id => exact exists_of_modifyEntry (fun _ => rfl) fun _ => rfl
    | outside name => exact fun e he => ⟨e, he, rfl, rfl⟩
  have hquiet := h.cons (nextId_wake (l := l.note (.woken w))) hentries journal_wake (by simp)
    (by simp [Event.Departs])
  refine ⟨hquiet.waker, hquiet.known, fun {later earlier ev id w'} hcut hdep hlast => ?_⟩
  rcases hquiet.woken hcut hdep hlast with hwoken | howed
  · exact .inl hwoken
  · rcases List.mem_cons.1 howed with rfl | howed
    · rw [journal_wake, journal_note] at hcut
      rcases cut_cons hcut with ⟨-, rfl, -⟩ | ⟨rest, rfl, -⟩
      · rcases hdep with heq | heq <;> cases heq
      · exact .inl List.mem_cons_self
    · exact .inr howed

/-- The waiter of a queued task is asked, and has nothing yet. -/
theorem Loop.Watched.ask (h : l.Watched owed) (w : Waker) (hlt : id < l.nextId) :
    ((l.modifyEntry id fun e => { e with waker := some w }).note
      (.asked id w none)).Watched owed := by
  have hother : ∀ i, i ≠ id → lastWaker (.asked id w none :: l.journal) i = lastWaker l.journal i :=
    fun i hne => lastWaker_cons fun w' heq => hne (Event.asked.inj heq).1.symm
  refine ⟨?_, fun {i} hmem => ?_, fun {later earlier ev i w'} hcut hdep hlast => ?_⟩
  · refine forall_mem_modifyEntry.2 fun a ha => ⟨fun hid => ?_, fun hne => ?_⟩
    · subst hid
      exact lastWaker_asked.symm
    · exact (h.waker a ha).trans (hother _ hne).symm
  · by_cases hid : i = id
    · exact hid ▸ hlt
    · exact h.known fun hnone => hmem ((hother i hid).trans hnone)
  · rcases cut_cons hcut with ⟨-, rfl, -⟩ | ⟨rest, rfl, hrest⟩
    · rcases hdep with heq | heq <;> cases heq
    · exact (h.woken hrest hdep hlast).imp_left (List.mem_cons_of_mem _)

theorem Course.watched (h : Course p owed l) : l.Watched owed := by
  induction h with
  | empty s => exact ⟨by simp [Loop.empty], by simp [Loop.empty, lastWaker], by simp [Loop.empty]⟩
  | shared s _ ih => exact ⟨ih.waker, ih.known, ih.woken⟩
  | posted t _ ih => exact ih.post t
  | owing w _ ih =>
    refine ⟨ih.waker, ih.known, fun hcut hdep hlast => ?_⟩
    exact (ih.woken hcut hdep hlast).imp_right (List.mem_cons_of_mem w)
  | woken _ ih => exact ih.wake
  | cancelled _ he ih => exact ih.depart he (.inl rfl)
  | used _ huse ih =>
    refine ih.cons rfl (fun e he => ⟨e, he, rfl, rfl⟩) rfl (fun i w => ?_) (fun i hdep => ?_)
    · cases huse <;> simp
    · cases huse <;> rcases hdep with heq | heq <;> cases heq
  | waiting w h hqueued ih => exact ih.ask w (h.numbered.queued hqueued)
  | began _ _ ih =>
    exact ih.cons rfl (exists_of_modifyEntry (fun _ => rfl) fun _ => rfl) rfl (by simp)
      (by simp [Event.Departs])
  | paused t _ ih =>
    exact ih.cons rfl (exists_of_modifyEntry (fun _ => rfl) fun _ => rfl) rfl (by simp)
      (by simp [Event.Departs])
  | stored v _ ih =>
    exact ih.cons rfl (fun e he => ⟨e, he, rfl, rfl⟩) rfl (by simp) (by simp [Event.Departs])
  | completed _ he ih => exact ih.depart he (.inr rfl)
  | gone _ _ ih => exact ih

end SlotVerify.Task
