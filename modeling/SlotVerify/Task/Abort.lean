/-
  Aborting a task from elsewhere.

  A flag and a place for one waker.  The observer puts its waker there and then looks at the flag;
  whoever aborts sets the flag and then takes the waker and wakes it.  Each of these is one step, so
  that steps of several parties may come in any order.
-/

namespace SlotVerify.Task

/-- The state between the two sides; wakers are of type `W`. -/
structure AbortState (W : Type) where
  aborted : Bool := false
  waker : Option W := none
deriving DecidableEq, Repr

namespace AbortState

variable {W : Type}

/-- The observer leaves its current waker; an earlier one is forgotten, unless it is the same. -/
def register [DecidableEq W] (s : AbortState W) (w : W) : AbortState W :=
  match s.waker with
  | some r => if r = w then s else { s with waker := some w }
  | none => { s with waker := some w }

/-- The first step of an abort. -/
def setFlag (s : AbortState W) : AbortState W := { s with aborted := true }

/-- The second step of an abort: the waker to wake, if one is there. -/
def takeWaker (s : AbortState W) : AbortState W × Option W := ({ s with waker := none }, s.waker)

/-- An abort without anything in between. -/
def abort (s : AbortState W) : AbortState W × Option W := s.setFlag.takeWaker

@[simp] theorem waker_register [DecidableEq W] {s : AbortState W} {w : W} :
    (s.register w).waker = some w := by
  unfold register
  split
  case h_1 r hr => split <;> simp_all
  case h_2 => rfl

@[simp] theorem aborted_register [DecidableEq W] {s : AbortState W} {w : W} :
    (s.register w).aborted = s.aborted := by
  unfold register
  split
  case h_1 r hr => split <;> rfl
  case h_2 => rfl

end AbortState

end SlotVerify.Task
