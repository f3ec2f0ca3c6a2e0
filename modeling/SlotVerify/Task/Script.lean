import SlotVerify.Task.Loop
/-
  Scripted tasks.

  A script is a list of steps and a value.  Its task logs every poll, goes through its steps, and
  ends with the value.  Scripts know each other by names: three tables hold, for a name, the waiter
  of the task last posted under it, that task's number, and the waker that a task of that name has
  left behind.

  A script has finitely many steps, the posted scripts' ones included, so a run of scripted tasks
  comes to an end.
-/

namespace SlotVerify.Task

mutual

/-- What a task does. -/
inductive Script where
  | mk (name : String) (steps : List Step) (value : Int)

/-- A step of a task. -/
inductive Step where
  /-- Gives way once. -/
  | yieldNow
  /-- Leaves its waker in the table and waits for being polled again. -/
  | pend
  | log (text : String)
  /-- Waits for another task, with the waiter from the table. -/
  | await (other : String)
  | act (a : Action)

/-- What may be done from outside the tasks as well. -/
inductive Action where
  | post (s : Script)
  | cancel (name : String)
  | take (name : String)
  | drop (name : String)
  | wake (name : String)
  | hasId (name : String)
  | empty

end

namespace Script

def name : Script → String
  | .mk name _ _ => name

def steps : Script → List Step
  | .mk _ steps _ => steps

def value : Script → Int
  | .mk _ _ value => value

end Script

/-- A table by names. -/
abbrev Table := List (String × TaskId)

namespace Table

def get? (t : Table) (name : String) : Option TaskId := (t.find? (·.1 == name)).map (·.2)

def erase (t : Table) (name : String) : Table := t.filter (·.1 != name)

def set (t : Table) (name : String) (id : TaskId) : Table := (name, id) :: t.erase name

end Table

/-- What the tasks share. -/
structure Registry where
  waiters : Table := []
  ids : Table := []
  wakers : Table := []
  log : Array String := #[]

/-- A scripted task between two polls. -/
structure ScriptTask where
  name : String
  steps : List Step
  value : Int
  /-- The task whose result is awaited, with its name. -/
  awaiting : Option (String × TaskId) := none

/-- A conversation of a scripted task. -/
abbrev Talk (α : Type) := Activity ScriptTask Registry Int α

namespace Talk

/-- One call. -/
def ask (c : Call ScriptTask Registry Int) : Talk c.Answer := .call c .done

/-- Changes what the tasks share. -/
def modify (f : Registry → Registry) : Talk Unit := do
  let r ← ask .getShared
  ask (.setShared (f r))

/-- Logs a line. -/
def log (line : String) : Talk Unit := modify fun r => { r with log := r.log.push line }

/-- Takes an entry out of a table. -/
def takeFrom (table : Registry → Table) (put : Registry → Table → Registry) (name : String) :
    Talk (Option TaskId) := do
  let r ← ask .getShared
  match (table r).get? name with
  | none => return none
  | some id =>
    ask (.setShared (put r ((table r).erase name)))
    return some id

/-- Takes a waiter out of its table. -/
def takeWaiter (name : String) : Talk (Option TaskId) :=
  takeFrom Registry.waiters (fun r t => { r with waiters := t }) name

/-- Takes a waker out of its table. -/
def takeWaker (name : String) : Talk (Option TaskId) :=
  takeFrom Registry.wakers (fun r t => { r with wakers := t }) name

end Talk

/-- The text of a result. -/
def resultText : Option Int → String
  | some v => s!"some {v}"
  | none => "none"

/-- The text of a truth value. -/
def truthText (b : Bool) : String := if b then "true" else "false"

/-- The task of a script. -/
def Script.task (s : Script) : ScriptTask := ⟨s.name, s.steps, s.value, none⟩

open Talk in
/-- Does an action; gives the text of what comes of it. -/
def Action.perform : Action → Talk String
  | .post s => do
    let id ← ask (.post s.task)
    let r ← ask .getShared
    let old := r.waiters.get? s.name
    ask (.setShared
      { r with waiters := r.waiters.set s.name id, ids := r.ids.set s.name id })
    if let some old := old then ask (.dropWaiter old)
    return "posted"
  | .cancel name => do
    let r ← ask .getShared
    match r.ids.get? name with
    | none => return "unknown"
    | some id => return truthText (← ask (.cancel id))
  | .take name => do
    match ← takeWaiter name with
    | none => return "unknown"
    | some id => return resultText (← ask (.takeResult id))
  | .drop name => do
    match ← takeWaiter name with
    | none => return "unknown"
    | some id =>
      ask (.dropWaiter id)
      return "dropped"
  | .wake name => do
    match ← takeWaker name with
    | none => return "unknown"
    | some id =>
      ask (.wake (.task id))
      return "woken"
  | .hasId name => do
    let r ← ask .getShared
    match r.waiters.get? name with
    | none => return "unknown"
    | some _ => return "true"
  | .empty => do return truthText (← ask .isEmpty)

/-- The name of an action in the log. -/
def Action.label : Action → String
  | .post _ => "post"
  | .cancel _ => "cancel"
  | .take _ => "take"
  | .drop _ => "drop"
  | .wake _ => "wake"
  | .hasId _ => "has_id"
  | .empty => "empty"

open Talk in
/-- Goes through steps of the task `self` up to the end of the poll. -/
def follow (self : TaskId) (name : String) (value : Int) : List Step → Talk (Poll ScriptTask Int)
  | [] => do
    log s!"{name} done"
    return .ready value none
  | .yieldNow :: rest => do
    ask (.wake (.task self))
    return .pending ⟨name, rest, value, none⟩
  | .pend :: rest => do
    modify fun r => { r with wakers := r.wakers.set name self }
    return .pending ⟨name, rest, value, none⟩
  | .log text :: rest => do
    log s!"{name} {text}"
    follow self name value rest
  | .await other :: rest => do
    match ← takeWaiter other with
    | none =>
      log s!"{name} await {other}: unknown"
      follow self name value rest
    | some id =>
      match ← ask (.pollWaiter id (.task self)) with
      | none => return .pending ⟨name, rest, value, some (other, id)⟩
      | some result =>
        log s!"{name} await {other}: {resultText result}"
        follow self name value rest
  | .act a :: rest => do
    let result ← a.perform
    log s!"{name} {a.label}: {result}"
    follow self name value rest

open Talk in
/-- A poll of a scripted task. -/
def ScriptTask.poll (self : TaskId) (t : ScriptTask) : Talk (Poll ScriptTask Int) := do
  log s!"{t.name} poll"
  match t.awaiting with
  | none => follow self t.name t.value t.steps
  | some (other, id) =>
    match ← ask (.pollWaiter id (.task self)) with
    | none => return .pending t
    | some result =>
      log s!"{t.name} await {other}: {resultText result}"
      follow self t.name t.value t.steps

/-- Scripted tasks. -/
def scripted : Behavior ScriptTask Registry Int where
  poll := ScriptTask.poll
  destroyed t r :=
    ({ r with log := r.log.push s!"{t.name} dropped" },
      t.awaiting.toList.map fun (_, id) => .dropWaiter id)

/-- The loop of scripted tasks. -/
abbrev ScriptLoop := Loop ScriptTask Registry Int

/-! ## How long a run can be -/

mutual

/-- The steps of a script with those of the scripts that it posts. -/
def Script.weight : Script → Nat
  | .mk _ steps _ => weightOfSteps steps + 1

/-- The weight of a step. -/
def Step.weight : Step → Nat
  | .act a => a.weight + 1
  | .yieldNow | .pend | .log _ | .await _ => 1

/-- The weight of an action. -/
def Action.weight : Action → Nat
  | .post s => s.weight
  | .cancel _ | .take _ | .drop _ | .wake _ | .hasId _ | .empty => 0

/-- The weight of a list of steps. -/
def weightOfSteps : List Step → Nat
  | [] => 0
  | s :: rest => s.weight + weightOfSteps rest

end

/-- The weight of a queued task. -/
def ScriptTask.weight (t : ScriptTask) : Nat := weightOfSteps t.steps + 1

namespace ScriptLoop

/-- The weight of all queued tasks. -/
def weight (l : ScriptLoop) : Nat :=
  l.entries.foldl (fun n e => n + (e.task.map ScriptTask.weight).getD 0) 0

/-- A run: no task is polled without a step taken, a post, a wake-up or the end of another one
    before, and there are no more of these than the weight allows. -/
def run (l : ScriptLoop) : ScriptLoop × Bool :=
  (Loop.run scripted (4 * weight l + 4) l).getD (l, l.entries.isEmpty)

/-- An action from outside the tasks. -/
def perform (l : ScriptLoop) (a : Action) : ScriptLoop × String :=
  Loop.converse scripted a.perform l

/-- The lines logged so far, and the loop with an empty log. -/
def takeLog (l : ScriptLoop) : Array String × ScriptLoop :=
  (l.shared.log, { l with shared := { l.shared with log := #[] } })

end ScriptLoop

end SlotVerify.Task
