/-
  Giving way once.

  `YieldNow` is a future that is pending at its first poll and ready at the second.  Nothing would
  ever poll it again if it did not wake its own task, so that is what it does in between.
-/

namespace SlotVerify.Task

/-- Gives way once. -/
structure YieldNow where
  /-- Whether it has been pending. -/
  yielded : Bool := false
deriving DecidableEq, Repr

namespace YieldNow

variable {β : Type}

/-- A poll, with what is done next if it is ready or pending; `wake` wakes the task first. -/
def poll (y : YieldNow) (wake : β → β) (pending : YieldNow → β) (ready : β) : β :=
  if y.yielded then ready else wake (pending { y with yielded := true })

end YieldNow

end SlotVerify.Task
