import SlotVerify.Proofs.Task.Queue
import Mathlib.Data.Option.Basic
/-
  How a loop gets where it is.

  1. `Reached` are the loops at which a call is answered or a turn begins: a loop without tasks is
     reached, and so is what an answered call, the beginning of a poll and what follows the poll
     make of a loop that is.  What tasks ask for and how their polls end is left open here, so this
     holds whatever the tasks do.
  2. `Course` goes through the same in the smallest pieces, each of which changes the queue, the
     waiters or the journal once.  Between a task's leaving the queue and the waking of the one who
     waits for it, other tasks may be cancelled along; who is still to be woken is a part of the
     state, and so is whether a task is being polled, or done but not yet out of the queue.
  3. The crux is that a cancellation is made of such pieces (`cancels_cancelChain`), by induction on
     the number of tasks in the queue, which each cancellation in a chain lowers.  So what every
     piece preserves holds of every loop that is reached (`Reached.course`).
-/

namespace SlotVerify.Task

open Loop

/-- What is going on in a loop. -/
inductive Phase where
  | idle
  /-- A task is being polled. -/
  | polling (id : TaskId)
  /-- A task has its result, but has not been taken out of the queue. -/
  | finishing (id : TaskId)
deriving DecidableEq

variable {T S V : Type}

/-- A loop is reached by calls, from outside and from tasks, and by polls. -/
inductive Reached (b : Behavior T S V) : Phase → Loop T S V → Prop where
  | empty (s : S) : Reached b .idle (Loop.empty s)
  | answered {p : Phase} {l : Loop T S V} (c : Call T S V) (h : Reached b p l) :
      Reached b p (l.answer b c).1
  | began {l : Loop T S V} {last : Option TaskId} {id : TaskId} {t : T} (h : Reached b .idle l)
      (hnext : l.nextRunnable last = some (id, t)) : Reached b (.polling id) (l.beginPoll id)
  | settled {id : TaskId} {l : Loop T S V} (outcome : Poll T V) (h : Reached b (.polling id) l) :
      Reached b .idle (settle b id outcome l)

/-- The ways in which a waiter is used up, each with its event: it hands out what it has, or it is
    dropped, for which a task without a result has to be out of the queue. -/
inductive Loop.Use (l : Loop T S V) (id : TaskId) : Event V → Prop where
  | take : l.Use id (.took id (l.waiter? id).join)
  | ask (w : Waker) : l.Use id (.asked id w (some (l.waiter? id).join))
  | drop (hleft : l.waiter? id = some none → id ∉ l.ids) : l.Use id (.dropped id)

/-- What a loop goes through, piece by piece, with those who are still to be woken. -/
inductive Course : Phase → List Waker → Loop T S V → Prop where
  | empty (s : S) : Course .idle [] (Loop.empty s)
  | shared {p : Phase} {owed : List Waker} {l : Loop T S V} (s : S) (h : Course p owed l) :
      Course p owed { l with shared := s }
  | posted {p : Phase} {owed : List Waker} {l : Loop T S V} (t : T) (h : Course p owed l) :
      Course p owed (l.post t).1
  | owing {p : Phase} {owed : List Waker} {l : Loop T S V} (w : Waker) (h : Course p owed l) :
      Course p (w :: owed) l
  | woken {p : Phase} {owed : List Waker} {l : Loop T S V} {w : Waker}
      (h : Course p (w :: owed) l) : Course p owed ((l.note (.woken w)).wake w)
  | cancelled {p : Phase} {owed : List Waker} {l : Loop T S V} {id : TaskId} {e : Entry T}
      (h : Course p owed l) (he : l.queued? id = some e) :
      Course p (e.waker.toList ++ owed) ((l.removeEntry id).note (.cancelled id))
  | used {p : Phase} {owed : List Waker} {l : Loop T S V} {id : TaskId} {ev : Event V}
      (h : Course p owed l) (huse : l.Use id ev) : Course p owed (l.endWaiter id ev)
  | waiting {p : Phase} {owed : List Waker} {l : Loop T S V} {id : TaskId} (w : Waker)
      (h : Course p owed l) (hqueued : id ∈ l.ids) :
      Course p owed
        ((l.modifyEntry id fun e => { e with waker := some w }).note (.asked id w none))
  | began {owed : List Waker} {l : Loop T S V} {id : TaskId} (h : Course .idle owed l)
      (hqueued : id ∈ l.ids) : Course (.polling id) owed (l.beginPoll id)
  | paused {owed : List Waker} {l : Loop T S V} {id : TaskId} (t : T)
      (h : Course (.polling id) owed l) :
      Course .idle owed
        ((l.note (.ended id none)).modifyEntry id fun e => { e with task := some t })
  | stored {owed : List Waker} {l : Loop T S V} {id : TaskId} (v : V)
      (h : Course (.polling id) owed l) : Course (.finishing id) owed (l.putResult id v)
  | completed {owed : List Waker} {l : Loop T S V} {id : TaskId} {e : Entry T}
      (h : Course (.finishing id) owed l) (he : l.queued? id = some e) :
      Course .idle (e.waker.toList ++ owed) ((l.removeEntry id).note (.completed id))
  | gone {owed : List Waker} {l : Loop T S V} {id : TaskId} (h : Course (.finishing id) owed l)
      (hleft : id ∉ l.ids) : Course .idle owed l

variable {b : Behavior T S V} {p : Phase} {owed : List Waker} {l : Loop T S V} {id : TaskId}

/-- A wake-up that nobody is owed. -/
theorem Course.wake (h : Course p owed l) (w : Waker) :
    Course p owed ((l.note (.woken w)).wake w) :=
  (h.owing w).woken

/-- The wake-up that somebody is owed. -/
theorem Course.wakeAny {w : Option Waker} (h : Course p (w.toList ++ owed) l) :
    Course p owed (l.wakeAny w) := by
  cases w with
  | some w => exact h.woken
  | none => exact h

/-! ## Cancelling -/

/-- The polls that a journal tells of, the latest first. -/
def begun (journal : List (Event V)) : List TaskId :=
  journal.filterMap fun
    | .began id => some id
    | _ => none

theorem begun_wake {w : Waker} :
    begun ((l.note (.woken w)).wake w).journal = begun l.journal := by
  rw [journal_wake]
  rfl

theorem begun_wakeAny {w : Option Waker} : begun (l.wakeAny w).journal = begun l.journal := by
  cases w with
  | some w => exact begun_wake
  | none => rfl

theorem suffix_journal_wake {w : Waker} :
    l.journal <:+ ((l.note (.woken w)).wake w).journal := by
  rw [journal_wake]
  exact List.suffix_cons _ _

theorem suffix_journal_wakeAny {w : Option Waker} : l.journal <:+ (l.wakeAny w).journal := by
  cases w with
  | some w => exact suffix_journal_wake
  | none => exact List.suffix_rfl

theorem mem_journal_wakeAny {w : Option Waker} {ev : Event V} (h : ev ∈ l.journal) :
    ev ∈ (l.wakeAny w).journal :=
  suffix_journal_wakeAny.subset h

/-- A change takes tasks out of the queue at most, polls none, adds to what has happened, and is
    made of pieces. -/
structure Shrinks (l l' : Loop T S V) : Prop where
  ids : l'.ids.Sublist l.ids
  begun : begun l'.journal = begun l.journal
  history : l.journal <:+ l'.journal
  course : ∀ {p : Phase} {owed : List Waker}, Course p owed l → Course p owed l'

theorem Shrinks.journal {l l' : Loop T S V} (h : Shrinks l l') :
    ∀ ev ∈ l.journal, ev ∈ l'.journal :=
  fun _ hmem => h.history.subset hmem

theorem Shrinks.refl (l : Loop T S V) : Shrinks l l := ⟨.refl _, rfl, List.suffix_rfl, id⟩

theorem Shrinks.trans {l₁ l₂ l₃ : Loop T S V} (h₁ : Shrinks l₁ l₂) (h₂ : Shrinks l₂ l₃) :
    Shrinks l₁ l₃ :=
  ⟨h₂.ids.trans h₁.ids, h₂.begun.trans h₁.begun, h₁.history.trans h₂.history,
    fun h => h₂.course (h₁.course h)⟩

/-- A way to cancel does what it should, on queues of at most `n` tasks. -/
def Cancels (n : Nat) (cancel : TaskId → Loop T S V → Loop T S V) : Prop :=
  ∀ (id : TaskId) (l : Loop T S V), l.ids.length ≤ n →
    Shrinks l (cancel id l) ∧ id ∉ (cancel id l).ids

section Parting

variable {n : Nat} {cancel : TaskId → Loop T S V → Loop T S V}

theorem shrinks_dropBy (hc : Cancels n cancel) (hn : l.ids.length ≤ n) :
    Shrinks l (l.dropBy cancel id) := by
  unfold dropBy
  split
  case h_1 =>
    -- nothing has come of the task yet, so it is cancelled before its waiter goes
    obtain ⟨hshrinks, hleft⟩ := hc id l hn
    exact ⟨hshrinks.ids, hshrinks.begun, hshrinks.history.trans (List.suffix_cons _ _),
      fun h => (hshrinks.course h).used (.drop fun _ => hleft)⟩
  case h_2 hfound =>
    exact ⟨.refl _, rfl, List.suffix_cons _ _,
      fun h => h.used (.drop fun hnone => absurd hnone hfound)⟩

theorem shrinks_partBy (hc : Cancels n cancel) (hn : l.ids.length ≤ n) (parting : Parting) :
    Shrinks l (l.partBy cancel parting) := by
  cases parting with
  | dropWaiter id => exact shrinks_dropBy hc hn
  | cancel id => exact (hc id l hn).1
  | wake w =>
    exact ⟨by rw [partBy, ids_wake, ids_note], begun_wake, suffix_journal_wake, fun h => h.wake w⟩

theorem shrinks_partings (hc : Cancels n cancel) (partings : List Parting) :
    ∀ {l : Loop T S V}, l.ids.length ≤ n → Shrinks l (partings.foldl (partBy cancel) l) := by
  induction partings with
  | nil => exact fun _ => .refl _
  | cons parting rest ih =>
    intro l hn
    have hfirst := shrinks_partBy hc hn parting
    exact hfirst.trans (ih (Nat.le_trans hfirst.ids.length_le hn))

theorem shrinks_destroyBy (hc : Cancels n cancel) (hn : l.ids.length ≤ n) (t : Option T) :
    Shrinks l (l.destroyBy b cancel t) := by
  cases t with
  | none => exact .refl _
  | some t =>
    have hshared : Shrinks l { l with shared := (b.destroyed t l.shared).1 } :=
      ⟨.refl _, rfl, List.suffix_rfl, fun h => h.shared _⟩
    exact hshared.trans (shrinks_partings hc _ hn)

end Parting

/-- A chain of cancellations that may be as long as the queue is made of pieces, and the task is
    out of the queue afterwards. -/
theorem cancels_cancelChain (b : Behavior T S V) : ∀ n, Cancels n (cancelChain b n) := by
  -- by induction on the bound: a cancellation takes its task out of the queue first, so whatever
  -- it cancels in its turn finds a shorter one
  intro n
  induction n with
  | zero =>
    intro id l hn
    have hids : l.ids = [] := List.length_eq_zero_iff.1 (by omega)
    exact ⟨.refl _, by simp [cancelChain, hids]⟩
  | succ n ih =>
    intro id l hn
    cases he : l.queued? id with
    | none =>
      simp only [cancelChain, he]
      exact ⟨.refl _, queued?_eq_none.1 he⟩
    | some e =>
      simp only [cancelChain, he]
      have hshort : (l.removeEntry id).ids.length < l.ids.length :=
        length_removeEntry (mem_ids_of_queued? he)
      have hn' : ((l.removeEntry id).note (.cancelled id)).ids.length ≤ n := by
        rw [ids_note]
        omega
      have hrest := shrinks_destroyBy (b := b) ih hn' e.task
      refine ⟨⟨?_, ?_, ?_, fun h => (hrest.course (h.cancelled he)).wakeAny⟩, ?_⟩
      · rw [ids_wakeAny]
        refine hrest.ids.trans ?_
        rw [ids_note, ids_removeEntry]
        exact List.filter_sublist
      · exact begun_wakeAny.trans hrest.begun
      · exact ((List.suffix_cons _ _).trans hrest.history).trans suffix_journal_wakeAny
      · rw [ids_wakeAny]
        exact fun hmem => not_mem_removeEntry (hrest.ids.subset hmem)

/-! A longer chain is not needed: with any bound that is not below the length of the queue, the
same comes of it. -/

section Enough

variable {n m : Nat} {cancel cancel' : TaskId → Loop T S V → Loop T S V}

theorem partBy_congr (hagree : ∀ id (l : Loop T S V), l.ids.length ≤ n → cancel id l = cancel' id l)
    (hn : l.ids.length ≤ n) (parting : Parting) :
    l.partBy cancel parting = l.partBy cancel' parting := by
  cases parting with
  | dropWaiter id => simp only [partBy, dropBy, hagree id l hn]
  | cancel id => exact hagree id l hn
  | wake w => rfl

theorem partings_congr (hc : Cancels n cancel)
    (hagree : ∀ id (l : Loop T S V), l.ids.length ≤ n → cancel id l = cancel' id l)
    (partings : List Parting) :
    ∀ {l : Loop T S V}, l.ids.length ≤ n →
      partings.foldl (partBy cancel) l = partings.foldl (partBy cancel') l := by
  induction partings with
  | nil => exact fun _ => rfl
  | cons parting rest ih =>
    intro l hn
    have hshort := (shrinks_partBy hc hn parting).ids.length_le
    rw [List.foldl_cons, List.foldl_cons, ih (Nat.le_trans hshort hn), partBy_congr hagree hn]

theorem destroyBy_congr (hc : Cancels n cancel)
    (hagree : ∀ id (l : Loop T S V), l.ids.length ≤ n → cancel id l = cancel' id l)
    (hn : l.ids.length ≤ n) (t : Option T) :
    l.destroyBy b cancel t = l.destroyBy b cancel' t := by
  cases t with
  | none => rfl
  | some t => exact partings_congr hc hagree _ hn

theorem cancelChain_enough (hn : l.ids.length ≤ n) (hm : l.ids.length ≤ m) :
    cancelChain b n id l = cancelChain b m id l := by
  induction n generalizing m l id with
  | zero =>
    have hids : id ∉ l.ids := by
      rw [List.length_eq_zero_iff.1 (Nat.le_zero.1 hn)]
      exact List.not_mem_nil
    cases m <;> simp [cancelChain, queued?_eq_none.2 hids]
  | succ n ih =>
    cases he : l.queued? id with
    | none => cases m <;> simp [cancelChain, he]
    | some e =>
      have hshort : (l.removeEntry id).ids.length < l.ids.length :=
        length_removeEntry (mem_ids_of_queued? he)
      -- what is left of both chains is long enough for what is left of the queue
      obtain ⟨m, rfl⟩ : ∃ k, m = k + 1 := ⟨m - 1, by omega⟩
      simp only [cancelChain, he]
      have hagree : ∀ id (l' : Loop T S V), l'.ids.length ≤ min n m →
          cancelChain b n id l' = cancelChain b m id l' :=
        fun id l' h => ih (by omega) (by omega)
      have hc : Cancels (min n m) (cancelChain b n) :=
        fun id l' h => cancels_cancelChain b n id l' (by omega)
      rw [destroyBy_congr hc hagree (by rw [ids_note]; omega)]

end Enough

theorem length_ids : l.ids.length = l.entries.length := List.length_map _

/-- What the destruction of a task cancels is cancelled as by a call. -/
theorem destroy_eq (t : Option T) :
    l.destroy b t = l.destroyBy b (fun id l => (l.cancel b id).1) t :=
  destroyBy_congr (cancels_cancelChain b _)
    (fun _ _ h => cancelChain_enough h (Nat.le_of_eq length_ids)) (Nat.le_of_eq length_ids) t

/-- A queued task that is cancelled leaves the queue, is destroyed, and then the one who waits for
    it is woken. -/
theorem cancel_of_queued {e : Entry T} (he : l.queued? id = some e) :
    (l.cancel b id).1 =
      (((l.removeEntry id).note (.cancelled id)).destroy b e.task).wakeAny e.waker := by
  have hshort : (l.removeEntry id).ids.length < l.ids.length :=
    length_removeEntry (mem_ids_of_queued? he)
  rw [length_ids (l := l)] at hshort
  obtain ⟨n, hn⟩ : ∃ n, l.entries.length = n + 1 := ⟨l.entries.length - 1, by omega⟩
  have hle : ((l.removeEntry id).note (.cancelled id)).ids.length ≤ n := by
    rw [ids_note]
    omega
  simp only [cancel, hn, cancelChain, he]
  -- the chain that is left is one link shorter than a call's, and the queue by one task
  rw [destroy_eq, destroyBy_congr (cancels_cancelChain b n)
    (fun _ _ h => cancelChain_enough h (Nat.le_of_eq length_ids)) hle]
  rfl

theorem shrinks_cancel (b : Behavior T S V) (l : Loop T S V) (id : TaskId) :
    Shrinks l (l.cancel b id).1 :=
  (cancels_cancelChain b _ id l (Nat.le_of_eq length_ids)).1

theorem shrinks_destroy (b : Behavior T S V) (l : Loop T S V) (t : Option T) :
    Shrinks l (l.destroy b t) :=
  shrinks_destroyBy (cancels_cancelChain b _) (Nat.le_of_eq length_ids) t

theorem shrinks_dropWaiter (b : Behavior T S V) (l : Loop T S V) (id : TaskId) :
    Shrinks l (l.dropWaiter b id) :=
  shrinks_dropBy (cancels_cancelChain b _) (Nat.le_of_eq length_ids)

/-! ## Calls and polls -/

theorem Course.pollWaiter (h : Course p owed l) (id : TaskId) (w : Waker) :
    Course p owed (l.pollWaiter id w).1 := by
  unfold Loop.pollWaiter
  split
  case h_1 he => exact h.waiting w (mem_ids_of_queued? he)
  case h_2 => exact h.used (.ask w)

theorem Course.answer (h : Course p owed l) (b : Behavior T S V) (c : Call T S V) :
    Course p owed (l.answer b c).1 := by
  cases c with
  | post t => exact h.posted t
  | cancel id => exact (shrinks_cancel b l id).course h
  | pollWaiter id w => exact h.pollWaiter id w
  | takeResult id => exact h.used .take
  | dropWaiter id => exact (shrinks_dropWaiter b l id).course h
  | wake w => exact h.wake w
  | isEmpty => exact h
  | getShared => exact h
  | setShared s => exact h.shared s

theorem Course.complete (h : Course (.finishing id) owed l) :
    Course .idle owed (l.complete id) := by
  unfold Loop.complete
  split
  case h_1 e he => exact (h.completed he).wakeAny
  case h_2 he => exact h.gone (queued?_eq_none.1 he)

theorem Course.settle (h : Course (.polling id) owed l) (b : Behavior T S V)
    (outcome : Poll T V) : Course .idle owed (Loop.settle b id outcome l) := by
  cases outcome with
  | ready v left =>
    have hstored := (shrinks_destroy b _ left).course (h.stored v)
    exact hstored.complete
  | pending t =>
    have hpaused := h.paused t
    simp only [Loop.settle]
    split
    case h_1 => exact hpaused
    case h_2 he =>
      -- it was cancelled in its own poll, so there is no entry to put it back into
      have hleft : id ∉ (l.note (.ended id none)).ids := queued?_eq_none.1 he
      rw [modifyEntry_of_not_mem hleft] at hpaused
      exact (shrinks_destroy b _ (some t)).course hpaused

/-- The task whose turn it is stands in the queue, runnable. -/
theorem mem_of_firstRunnable {entries : List (Entry T)} {t : T}
    (h : firstRunnable entries = some (id, t)) :
    ∃ e ∈ entries, e.id = id ∧ e.runnable = true ∧ e.task = some t := by
  obtain ⟨e, he, hfound⟩ := List.exists_of_findSome?_eq_some h
  by_cases hrun : e.runnable = true
  · rw [if_pos hrun, Option.map_eq_some_iff] at hfound
    obtain ⟨t', ht, heq⟩ := hfound
    rw [Prod.mk.injEq] at heq
    exact ⟨e, he, heq.1, hrun, ht.trans (congrArg some heq.2)⟩
  · rw [if_neg hrun] at hfound
    exact absurd hfound (Option.some_ne_none _).symm

theorem firstRunnable_eq_none {entries : List (Entry T)} :
    firstRunnable entries = none ↔ ∀ e ∈ entries, e.runnable = true → e.task = none := by
  unfold firstRunnable
  rw [List.findSome?_eq_none_iff]
  refine forall₂_congr fun e _ => ?_
  by_cases hrun : e.runnable = true <;> simp [hrun]

theorem mem_of_nextRunnable {last : Option TaskId} {t : T}
    (h : l.nextRunnable last = some (id, t)) :
    ∃ e ∈ l.entries, e.id = id ∧ e.runnable = true ∧ e.task = some t := by
  cases last with
  | none => exact mem_of_firstRunnable h
  | some last =>
    rcases (Option.orElse_eq_some _ _ _).1 h with h | ⟨-, h⟩
    · obtain ⟨e, he, hrest⟩ := mem_of_firstRunnable h
      exact ⟨e, (List.mem_filter.1 he).1, hrest⟩
    · exact mem_of_firstRunnable h

/-- Every loop that is reached has been come to piece by piece, and nobody is left to be woken. -/
theorem Reached.course (h : Reached b p l) : Course p [] l := by
  induction h with
  | empty s => exact .empty s
  | answered c _ ih => exact ih.answer b c
  | began _ hnext ih =>
    obtain ⟨e, he, hid, -⟩ := mem_of_nextRunnable hnext
    exact ih.began (hid ▸ id_mem_ids he)
  | settled outcome _ ih => exact ih.settle b outcome

/-! ## Runs -/

theorem Reached.converse {α : Type} (a : Activity T S V α) (h : Reached b p l) :
    Reached b p (Loop.converse b a l).1 := by
  induction a generalizing l with
  | done => exact h
  | call c next ih => exact ih _ (h.answered c)

theorem Reached.pollTask {last : Option TaskId} {t : T} (h : Reached b .idle l)
    (hnext : l.nextRunnable last = some (id, t)) : Reached b .idle (pollTask b id t l) :=
  ((h.began hnext).converse _).settled _

/-- What a run leaves behind is reached. -/
theorem Reached.turns {n : Nat} {last : Option TaskId} {l' : Loop T S V} {allDone : Bool}
    (h : Reached b .idle l) (hrun : turns b n last l = some (l', allDone)) :
    Reached b .idle l' := by
  induction n generalizing l last with
  | zero => simp [Loop.turns] at hrun
  | succ n ih =>
    cases hnext : l.nextRunnable last with
    | none =>
      simp only [Loop.turns, turn, hnext, Option.some.injEq, Prod.mk.injEq] at hrun
      exact hrun.1 ▸ h
    | some next =>
      simp only [Loop.turns, turn, hnext] at hrun
      exact ih (h.pollTask hnext) hrun

/-! ## What a run polls -/

theorem begun_answer (c : Call T S V) : begun (l.answer b c).1.journal = begun l.journal := by
  cases c with
  | pollWaiter id w =>
    simp only [answer, pollWaiter]
    split <;> rfl
  | cancel id => exact (shrinks_cancel b l id).begun
  | dropWaiter id => exact (shrinks_dropWaiter b l id).begun
  | wake w => exact begun_wake
  | post _ | takeResult _ | isEmpty | getShared | setShared _ => rfl

theorem begun_converse {α : Type} (a : Activity T S V α) :
    begun (converse b a l).1.journal = begun l.journal := by
  induction a generalizing l with
  | done => rfl
  | call c next ih => exact (ih _).trans (begun_answer c)

theorem begun_settle (outcome : Poll T V) :
    begun (settle b id outcome l).journal = begun l.journal := by
  cases outcome with
  | ready v left =>
    have hdestroyed := (shrinks_destroy b (l.putResult id v) left).begun
    simp only [settle, complete]
    split
    · exact begun_wakeAny.trans hdestroyed
    · exact hdestroyed
  | pending t =>
    simp only [settle]
    split
    · rfl
    · exact (shrinks_destroy b (l.note (.ended id none)) (some t)).begun

/-- A turn begins one poll. -/
theorem begun_pollTask (t : T) :
    begun (pollTask b id t l).journal = id :: begun l.journal := by
  have hconverse := begun_converse (l := l.beginPoll id) (b := b) (b.poll id t)
  exact (begun_settle _).trans hconverse

end SlotVerify.Task
