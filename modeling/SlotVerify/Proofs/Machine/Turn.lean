import SlotVerify.Verification.Program
/-
  What a machine does in a turn.

  A machine is polled.  A poll is a loop: in each turn the machine looks at its state, deals with
  its surroundings, and then goes on, waits, or is ready.  `Turn` is what happens in one turn, with
  every answer that there may be.  Requests come apart into their submission, which leaves a future
  behind, and their completion, when that future is polled for the last time; and the machine sees
  whether a request that fails is handed back.

  A turn can go astray: the machine finds that it does not have what it should have.  Each place
  where a machine checks this is a `Breach`.  `Turn.Ends` says that a turn does not go astray
  whatever is answered, and what holds at its end.
-/

namespace SlotVerify.Machine

open Device Verification

variable {P α β : Type}

/-- A broken invariant of the program itself, by the place where it would be found. -/
inductive Breach where
  /-- There is no plan when a partition is to be hashed. -/
  | planToHash
  /-- There is no writer when a partition's metadata is to be written. -/
  | writerToBegin
  /-- There is no plan when a digest is to be judged. -/
  | planToJudge
  /-- The partition that has been hashed is not in the plan. -/
  | partitionToJudge
  /-- There is no plan when it is to be handed on. -/
  | planToForward
  /-- There is no hasher when the digest is due. -/
  | hasherToFinish
  /-- There is no encoder when bytes for it have been read. -/
  | encoderToFill
  /-- The encoder's buffer has no room for bytes that have been read. -/
  | bufferToFill
  /-- A future is polled with a device of another kind than the one it came from. -/
  | foreignFuture
  /-- A future is polled after it has been answered. -/
  | answeredFuture
  /-- A machine is polled after it has been ready. -/
  | finishedMachine
deriving DecidableEq

/-- One turn, up to a result. -/
inductive Turn (P α : Type) where
  | ret (a : α)
  | call (c : Call P) (next : c.Answer → Turn P α)
  /-- A request is submitted; once it is taken, it will be pending for a number of polls. -/
  | submit (d : OpenedDevice) (r : Request) (next : Placement r Nat → Turn P α)
  /-- A request is carried out that is no longer pending. -/
  | complete (d : OpenedDevice) (r : Request) (next : Completion r → Turn P α)
  /-- A computation outside the machine breaks down. -/
  | broken
  | astray (b : Breach)

namespace Turn

/-- Goes on with the result. -/
def bind : Turn P α → (α → Turn P β) → Turn P β
  | .ret a, f => f a
  | .call c next, f => .call c fun x => (next x).bind f
  | .submit d r next, f => .submit d r fun x => (next x).bind f
  | .complete d r next, f => .complete d r fun x => (next x).bind f
  | .broken, _ => .broken
  | .astray b, _ => .astray b

theorem bind_assoc {γ : Type} (t : Turn P α) (f : α → Turn P β) (g : β → Turn P γ) :
    (t.bind f).bind g = t.bind fun a => (f a).bind g := by
  induction t with
  | ret a => rfl
  | call c next ih => exact congrArg _ (funext ih)
  | submit d r next ih => exact congrArg _ (funext ih)
  | complete d r next ih => exact congrArg _ (funext ih)
  | broken => rfl
  | astray b => rfl

/-- Calls that are made one after the other, without waiting for anything. -/
def asking : Routine (interface P) α → Turn P α
  | .done a => .ret a
  | .call c next => .call c fun x => asking (next x)
  | .request .. | .pause _ | .broken => .broken

end Turn

/-- What follows a turn. -/
inductive After (α : Type) where
  | again
  | pending
  | ready (a : α)

/-! ## Futures -/

/-- The kind of device that a future belongs to. -/
inductive Kind where
  | device
  | copyOnWrite
deriving DecidableEq

/-- The kind of device behind an access. -/
def kindOf : Access → Kind
  | .direct | .snapshotMapped => .device
  | .copyOnWrite => .copyOnWrite

/-- A request that a device has taken. -/
structure IoFuture where
  kind : Kind
  /-- For how many polls it will be pending; nothing is left of it once it has been answered. -/
  polls : Option Nat

/-- A future of a device. -/
def IoFuture.of (d : OpenedDevice) (polls : Nat) : IoFuture := ⟨kindOf d.access, some polls⟩

/-- Submits a request to a device; what it leaves behind is a future of this device. -/
def Turn.start (d : OpenedDevice) (r : Request) (next : Placement r IoFuture → Turn P α) :
    Turn P α :=
  .submit d r fun placement => next (placement.map (.of d))

theorem Turn.start_bind (d : OpenedDevice) (r : Request) (next : Placement r IoFuture → Turn P α)
    (f : α → Turn P β) : (start d r next).bind f = start d r fun x => (next x).bind f := rfl

/-- Polls a future with a device: what is left of it, and the answer when it is there. -/
def IoFuture.poll (f : IoFuture) (d : OpenedDevice) (r : Request) :
    Turn P (IoFuture × Option (Completion r)) :=
  if f.kind = kindOf d.access then
    match f.polls with
    | none => .astray .answeredFuture
    | some 0 => .complete d r fun x => .ret ({ f with polls := none }, some x)
    | some (n + 1) => .ret ({ f with polls := some n }, none)
  else .astray .foreignFuture

theorem IoFuture.poll_of_zero (d : OpenedDevice) (r : Request) :
    ((of d 0).poll d r : Turn P _) =
      .complete d r fun x => .ret (⟨kindOf d.access, none⟩, some x) :=
  if_pos rfl

theorem IoFuture.poll_of_succ (d : OpenedDevice) (r : Request) (n : Nat) :
    ((of d (n + 1)).poll d r : Turn P _) = .ret (of d n, none) :=
  if_pos rfl

/-- A future of a device that is still to be answered. -/
structure IoFuture.Awaits (f : IoFuture) (d : OpenedDevice) : Prop where
  kind : f.kind = kindOf d.access
  unanswered : f.polls.isSome

/-! ## Turns that do not go astray -/

/-- Whatever is answered, the turn does not go astray, and its result is as described. -/
def Turn.Ends (ok : α → Prop) : Turn P α → Prop
  | .ret a => ok a
  | .call _ next => ∀ x, (next x).Ends ok
  | .submit _ _ next => ∀ x, (next x).Ends ok
  | .complete _ _ next => ∀ x, (next x).Ends ok
  | .broken => True
  | .astray _ => False

namespace Turn

variable {ok : α → Prop} {okAfter : β → Prop}

theorem ends_bind {t : Turn P α} {f : α → Turn P β} (h : t.Ends ok)
    (hf : ∀ a, ok a → (f a).Ends okAfter) : (t.bind f).Ends okAfter := by
  induction t with
  | ret a => exact hf a h
  | call c next ih => exact fun x => ih x (h x)
  | submit d r next ih => exact fun x => ih x (h x)
  | complete d r next ih => exact fun x => ih x (h x)
  | broken => trivial
  | astray b => exact h

/-- Calls alone do not go astray. -/
theorem ends_asking (t : Routine (interface P) α) : (asking t).Ends fun _ => True := by
  induction t with
  | call c next ih => exact ih
  | _ => trivial

/-- A submitted request leaves a future of its device. -/
theorem ends_start {d : OpenedDevice} {r : Request} {next : Placement r IoFuture → Turn P α}
    (hreturned : ∀ buffer e, (next (.returned buffer e)).Ends ok)
    (hrefused : ∀ e, (next (.refused e)).Ends ok)
    (htaken : ∀ f : IoFuture, f.Awaits d → (next (.taken f)).Ends ok) :
    (start d r next).Ends ok := by
  intro placement
  cases placement with
  | taken polls => exact htaken _ ⟨rfl, rfl⟩
  | returned buffer e => exact hreturned buffer e
  | refused e => exact hrefused e

end Turn

/-- A future is polled with its own device: it is pending and stays the device's, or answered. -/
theorem IoFuture.Awaits.ends_poll {f : IoFuture} {d : OpenedDevice} (h : f.Awaits d) (r : Request)
    {next : IoFuture × Option (Completion r) → Turn P α} {ok : α → Prop}
    (hpending : ∀ f' : IoFuture, f'.Awaits d → (next (f', none)).Ends ok)
    (hanswered : ∀ f' x, (next (f', some x)).Ends ok) : ((f.poll d r).bind next).Ends ok := by
  obtain ⟨kind, polls⟩ := f
  obtain ⟨rfl, hpolls⟩ := h
  unfold poll
  rw [if_pos rfl]
  cases polls with
  | none => cases hpolls
  | some n =>
    cases n with
    | zero => exact fun x => hanswered _ x
    | succ n => exact hpending _ ⟨rfl, rfl⟩

end SlotVerify.Machine
