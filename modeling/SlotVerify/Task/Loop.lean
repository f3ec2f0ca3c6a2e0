/-
  A loop that runs tasks in turns.

  A task is a state; polling it is a finite conversation with the loop (`Activity`) that ends with
  the task's result or with its next state.  In the conversation a task may post and cancel tasks,
  wake them, and use the waiters through which the results of others are had.  What tasks share
  besides the loop is a value of their own choice.

  Posted tasks wait in a queue in the order of their posting.  A task is runnable when it is posted
  and whenever it is woken; it is blocked from the beginning of each of its polls on.  `turn` polls
  the next runnable task behind the one polled last, in cyclic order; a run is turns until no task
  is runnable.

  A waiter is named by its task.  Dropping it cancels the task, unless the task has a result.
  Cancelling a task takes it out of the queue and destroys it, which may drop the waiters that it
  owns and so cancel further tasks; a task that is being polled is destroyed when its poll returns.
  Tasks post nothing while they are destroyed, and none of them runs the loop: each cancellation in
  a chain shortens the queue.

  Numbers of tasks do not run out.  There is a journal of what happens to the loop, which nothing
  reads; what is said about the past of a loop is said about its journal.  Whoever calls a waker
  writes the call down, and what the waker does then is another matter.
-/

namespace SlotVerify.Task

/-- Tasks are numbered in the order of their posting. -/
abbrev TaskId := Nat

/-- Whom to wake: a task of the loop, or somebody outside of it. -/
inductive Waker where
  | task (id : TaskId)
  | outside (name : Nat)
deriving DecidableEq, Repr

/-- What a task may ask of the loop: tasks are of type `T`, their results of type `V`, and what
    they share is of type `S`. -/
inductive Call (T S V : Type) where
  | post (t : T)
  | cancel (id : TaskId)
  /-- Asks a waiter for its task's result, for somebody who is to be woken if there is none yet. -/
  | pollWaiter (id : TaskId) (w : Waker)
  /-- Takes a waiter's result, if there is one, and ends the waiter. -/
  | takeResult (id : TaskId)
  | dropWaiter (id : TaskId)
  | wake (w : Waker)
  /-- Whether no tasks are queued. -/
  | isEmpty
  | getShared
  | setShared (s : S)

/-- What the loop answers: a waiter asked gives `none` while its task is queued, and then the
    result, which a cancelled task does not have. -/
abbrev Call.Answer {T S V : Type} : Call T S V → Type
  | .post _ => TaskId
  | .cancel _ => Bool
  | .pollWaiter _ _ => Option (Option V)
  | .takeResult _ => Option V
  | .dropWaiter _ => Unit
  | .wake _ => Unit
  | .isEmpty => Bool
  | .getShared => S
  | .setShared _ => Unit

/-- A conversation with the loop that ends with an `α`. -/
inductive Activity (T S V α : Type) where
  | done (result : α)
  | call (c : Call T S V) (next : c.Answer → Activity T S V α)

/-- Goes on with the result. -/
def Activity.bind {T S V α β : Type} :
    Activity T S V α → (α → Activity T S V β) → Activity T S V β
  | .done a, f => f a
  | .call c next, f => .call c fun x => (next x).bind f

instance {T S V : Type} : Monad (Activity T S V) where
  pure := .done
  bind := Activity.bind

/-- How a poll ends. -/
inductive Poll (T V : Type) where
  /-- With the result; what is left of the task is destroyed. -/
  | ready (value : V) (left : Option T)
  | pending (next : T)

/-- What a task does when it is destroyed. -/
inductive Parting where
  | dropWaiter (id : TaskId)
  | cancel (id : TaskId)
  | wake (w : Waker)

/-- What tasks are and do. -/
structure Behavior (T S V : Type) where
  /-- A poll of a task, which knows its number. -/
  poll : TaskId → T → Activity T S V (Poll T V)
  /-- What the destruction of a task leaves behind, and what the task does thereby. -/
  destroyed : T → S → S × List Parting

/-- A task in the queue. -/
structure Entry (T : Type) where
  id : TaskId
  runnable : Bool
  /-- Absent while the task is being polled. -/
  task : Option T
  /-- Whom to wake when the task leaves the queue. -/
  waker : Option Waker

/-- What happens to a loop. -/
inductive Event (V : Type) where
  | posted (id : TaskId)
  /-- A poll of a task begins. -/
  | began (id : TaskId)
  /-- A poll of a task returns, with the result if it has one. -/
  | ended (id : TaskId) (value : Option V)
  /-- A task leaves the queue because it is done. -/
  | completed (id : TaskId)
  /-- A task is taken out of the queue. -/
  | cancelled (id : TaskId)
  /-- A waker is called. -/
  | woken (w : Waker)
  /-- A waiter is asked and answers. -/
  | asked (id : TaskId) (w : Waker) (answer : Option (Option V))
  | took (id : TaskId) (result : Option V)
  | dropped (id : TaskId)
deriving DecidableEq, Repr

/-- The loop. -/
structure Loop (T S V : Type) where
  entries : List (Entry T)
  nextId : TaskId
  /-- The waiters that have not been used up, with the results that are there. -/
  waiters : List (TaskId × Option V)
  shared : S
  /-- What has happened, the latest first. -/
  journal : List (Event V)

namespace Loop

variable {T S V : Type}

/-- A loop without tasks. -/
def empty (shared : S) : Loop T S V := ⟨[], 0, [], shared, []⟩

/-- The queue entry of a task. -/
def queued? (l : Loop T S V) (id : TaskId) : Option (Entry T) := l.entries.find? (·.id == id)

/-- The waiter of a task, unless it is used up: the result, if it is there. -/
def waiter? (l : Loop T S V) (id : TaskId) : Option (Option V) :=
  (l.waiters.find? (·.1 == id)).map (·.2)

/-- The loop with one more line in its journal. -/
def note (l : Loop T S V) (e : Event V) : Loop T S V := { l with journal := e :: l.journal }

/-- The loop with the entry of a task changed. -/
def modifyEntry (l : Loop T S V) (id : TaskId) (f : Entry T → Entry T) : Loop T S V :=
  { l with entries := l.entries.map fun e => if e.id == id then f e else e }

/-- The loop without the entry of a task. -/
def removeEntry (l : Loop T S V) (id : TaskId) : Loop T S V :=
  { l with entries := l.entries.filter fun e => e.id != id }

/-- The loop with a waiter used up, in the way that the event tells. -/
def endWaiter (l : Loop T S V) (id : TaskId) (e : Event V) : Loop T S V :=
  { l with
    waiters := l.waiters.filter fun r => r.1 != id
    journal := e :: l.journal }

/-- What a waker does when it is called: its task becomes runnable, but one that is not queued stays
    away; those outside are not the loop's concern. -/
def wake (l : Loop T S V) : Waker → Loop T S V
  | .task id => l.modifyEntry id fun e => { e with runnable := true }
  | .outside _ => l

/-- Calls a waker, if there is one. -/
def wakeAny (l : Loop T S V) : Option Waker → Loop T S V
  | some w => (l.note (.woken w)).wake w
  | none => l

/-- Queues a task. -/
def post (l : Loop T S V) (t : T) : Loop T S V × TaskId :=
  ({ l with
      entries := l.entries ++ [⟨l.nextId, true, some t, none⟩]
      nextId := l.nextId + 1
      waiters := (l.nextId, none) :: l.waiters
      journal := .posted l.nextId :: l.journal },
    l.nextId)

/-! ## Cancelling

What a destroyed task does is told in terms of a way to cancel tasks, so that the recursion stands
in one place. -/

/-- Drops a waiter. -/
def dropBy (cancel : TaskId → Loop T S V → Loop T S V) (l : Loop T S V) (id : TaskId) :
    Loop T S V :=
  match l.waiter? id with
  | some none => (cancel id l).endWaiter id (.dropped id)
  | _ => l.endWaiter id (.dropped id)

/-- Does what a destroyed task does. -/
def partBy (cancel : TaskId → Loop T S V → Loop T S V) (l : Loop T S V) : Parting → Loop T S V
  | .dropWaiter id => l.dropBy cancel id
  | .cancel id => cancel id l
  | .wake w => (l.note (.woken w)).wake w

/-- Destroys a task, if there is one. -/
def destroyBy (b : Behavior T S V) (cancel : TaskId → Loop T S V → Loop T S V) (l : Loop T S V) :
    Option T → Loop T S V
  | none => l
  | some t =>
    let (s, partings) := b.destroyed t l.shared
    partings.foldl (partBy cancel) { l with shared := s }

/-- Cancels a task, and others along with it in a chain of at most `n` tasks. -/
def cancelChain (b : Behavior T S V) : (n : Nat) → TaskId → Loop T S V → Loop T S V
  | 0, _, l => l
  | n + 1, id, l =>
    match l.queued? id with
    | none => l
    | some e =>
      let left := (l.removeEntry id).note (.cancelled id)
      (left.destroyBy b (cancelChain b n) e.task).wakeAny e.waker

/-- Cancels a task; tells whether it was queued.  No chain of cancellations is longer than the
    queue. -/
def cancel (b : Behavior T S V) (l : Loop T S V) (id : TaskId) : Loop T S V × Bool :=
  (cancelChain b l.entries.length id l, (l.queued? id).isSome)

/-- Destroys a task that is not in the queue any more, if there is one. -/
def destroy (b : Behavior T S V) (l : Loop T S V) (t : Option T) : Loop T S V :=
  l.destroyBy b (cancelChain b l.entries.length) t

/-- Drops a waiter. -/
def dropWaiter (b : Behavior T S V) (l : Loop T S V) (id : TaskId) : Loop T S V :=
  l.dropBy (cancelChain b l.entries.length) id

/-! ## Results -/

/-- Takes a result. -/
def takeResult (l : Loop T S V) (id : TaskId) : Loop T S V × Option V :=
  let result := (l.waiter? id).join
  (l.endWaiter id (.took id result), result)

/-- Asks a waiter, on behalf of somebody who is to be woken. -/
def pollWaiter (l : Loop T S V) (id : TaskId) (w : Waker) : Loop T S V × Option (Option V) :=
  match l.waiter? id, l.queued? id with
  | some none, some _ =>
    ((l.modifyEntry id fun e => { e with waker := some w }).note (.asked id w none), none)
  | result, _ => (l.endWaiter id (.asked id w (some result.join)), some result.join)

/-- Answers a call. -/
def answer (b : Behavior T S V) (l : Loop T S V) : (c : Call T S V) → Loop T S V × c.Answer
  | .post t => l.post t
  | .cancel id => l.cancel b id
  | .pollWaiter id w => l.pollWaiter id w
  | .takeResult id => l.takeResult id
  | .dropWaiter id => (l.dropWaiter b id, ())
  | .wake w => ((l.note (.woken w)).wake w, ())
  | .isEmpty => (l, l.entries.isEmpty)
  | .getShared => (l, l.shared)
  | .setShared s => ({ l with shared := s }, ())

/-- Holds a conversation. -/
def converse {α : Type} (b : Behavior T S V) : Activity T S V α → Loop T S V → Loop T S V × α
  | .done a, l => (l, a)
  | .call c next, l =>
    let (l, x) := l.answer b c
    converse b (next x) l

/-! ## Turns -/

/-- The first runnable task of a part of the queue, with its number. -/
def firstRunnable (entries : List (Entry T)) : Option (TaskId × T) :=
  entries.findSome? fun e => if e.runnable then e.task.map (e.id, ·) else none

/-- The runnable task whose turn it is: the first one posted after the task polled last, or else
    the first of all. -/
def nextRunnable (l : Loop T S V) (last : Option TaskId) : Option (TaskId × T) :=
  match last with
  | none => firstRunnable l.entries
  | some last => firstRunnable (l.entries.filter (last < ·.id)) <|> firstRunnable l.entries

/-- The beginning of a poll: the task is blocked, so that no wake-up is missed, and out of its
    entry. -/
def beginPoll (l : Loop T S V) (id : TaskId) : Loop T S V :=
  (l.modifyEntry id fun e => { e with runnable := false, task := none }).note (.began id)

/-- Stores a task's result where the waiter finds it, if the waiter is still there. -/
def putResult (l : Loop T S V) (id : TaskId) (v : V) : Loop T S V :=
  { l with
    waiters := l.waiters.map fun r => if r.1 == id then (id, some v) else r
    journal := .ended id (some v) :: l.journal }

/-- Takes a task that is done out of the queue, unless it is not there any more. -/
def complete (l : Loop T S V) (id : TaskId) : Loop T S V :=
  match l.queued? id with
  | some e => ((l.removeEntry id).note (.completed id)).wakeAny e.waker
  | none => l

/-- What follows a poll. -/
def settle (b : Behavior T S V) (id : TaskId) (outcome : Poll T V) (l : Loop T S V) :
    Loop T S V :=
  match outcome with
  | .ready v left => ((l.putResult id v).destroy b left).complete id
  | .pending t =>
    let ended := l.note (.ended id none)
    match l.queued? id with
    | some _ => ended.modifyEntry id fun e => { e with task := some t }
    | none => ended.destroy b (some t)

/-- Polls a task that is in the queue. -/
def pollTask (b : Behavior T S V) (id : TaskId) (t : T) (l : Loop T S V) : Loop T S V :=
  let (l, outcome) := converse b (b.poll id t) (l.beginPoll id)
  settle b id outcome l

/-- What a turn comes to. -/
inductive Turn (T S V : Type) where
  /-- No task is runnable; whether none is queued at all. -/
  | over (allDone : Bool)
  | polled (id : TaskId) (l : Loop T S V)

/-- Polls the task whose turn it is. -/
def turn (b : Behavior T S V) (last : Option TaskId) (l : Loop T S V) : Turn T S V :=
  match l.nextRunnable last with
  | none => .over l.entries.isEmpty
  | some (id, t) => .polled id (pollTask b id t l)

/-- Turns until no task is runnable; `none` if that takes more than `n` turns. -/
def turns (b : Behavior T S V) : (n : Nat) → (last : Option TaskId) → Loop T S V →
    Option (Loop T S V × Bool)
  | 0, _, _ => none
  | n + 1, last, l =>
    match turn b last l with
    | .over allDone => some (l, allDone)
    | .polled id l => turns b n (some id) l

/-- A run of at most `n` turns. -/
def run (b : Behavior T S V) (n : Nat) (l : Loop T S V) : Option (Loop T S V × Bool) :=
  turns b n none l

end Loop

end SlotVerify.Task
