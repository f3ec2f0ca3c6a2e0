import SlotVerify.Device.Request
/-
  Suspendable computations.

  A verification reads devices, asks a controller, reports progress, and gives way to others in
  between.  `Routine` is such a computation as a tree: it is finished, or it makes a call and goes
  on with the answer, or it has a device carry out a request and goes on with the outcome, or it
  gives way once.  `Interface` says which calls and devices there are.

  Nothing happens in a tree.  A `Host` answers calls and carries out requests, changing a world of
  its own; `drive` lets a routine run in a host.  A request may be pending for a number of polls
  before it is carried out.  A device may hand a failed request back or not; a routine is told what
  has come of the request and nothing else (`Host.submit`, `Host.complete`).  Between two polls the
  `between` function has its say: it may change the world, and it may end the run there.  One poll
  is a run that is ended at the first opportunity.

  The tree branches over every answer, so what is proved by induction on it holds for every host,
  every fault and every pattern of short reads.
-/

namespace SlotVerify

open Device

/-- The calls and the devices that a routine may use. -/
structure Interface where
  Call : Type
  /-- What a call is answered with. -/
  Answer : Call → Type
  Device : Type

/-- A suspendable computation of an `α`. -/
inductive Routine (I : Interface) (α : Type) where
  | done (result : α)
  /-- A call, answered at once. -/
  | call (c : I.Call) (next : I.Answer c → Routine I α)
  /-- A request to a device; the routine waits for the outcome. -/
  | request (device : I.Device) (r : Request) (next : Except IoError r.Reply → Routine I α)
  /-- Gives way once: the current poll ends here. -/
  | pause (next : Routine I α)
  /-- The computation breaks down and never gives a result. -/
  | broken

namespace Routine

variable {I J : Interface} {α β : Type}

/-- Continues with the result. -/
def bind : Routine I α → (α → Routine I β) → Routine I β
  | .done a, f => f a
  | .call c next, f => .call c fun x => (next x).bind f
  | .request d r next, f => .request d r fun x => (next x).bind f
  | .pause next, f => .pause (next.bind f)
  | .broken, _ => .broken

instance : Monad (Routine I) where
  pure := .done
  bind := bind

/-- The same computation over an interface without calls, on a device of a richer interface. -/
def onDevice (noCalls : I.Call → Empty) (device : I.Device → J.Device) :
    Routine I α → Routine J α
  | .done a => .done a
  | .call c _ => nomatch noCalls c
  | .request d r next => .request (device d) r fun x => (next x).onDevice noCalls device
  | .pause next => .pause (next.onDevice noCalls device)
  | .broken => .broken

/-- The same computation over another interface.  There `call` carries out a call, as a computation
    of its own that may keep a state. -/
def interpret {σ : Type} (call : σ → (c : I.Call) → Routine J (I.Answer c × σ))
    (device : I.Device → J.Device) : Routine I α → σ → Routine J (α × σ)
  | .done a, s => .done (a, s)
  | .call c next, s => (call s c).bind fun (x, s) => (next x).interpret call device s
  | .request d r next, s => .request (device d) r fun x => (next x).interpret call device s
  | .pause next, s => .pause (next.interpret call device s)
  | .broken, _ => .broken

@[simp] theorem bind_done (a : α) (f : α → Routine I β) : (Routine.done a).bind f = f a := rfl

theorem bind_assoc {γ : Type} (t : Routine I α) (f : α → Routine I β) (g : β → Routine I γ) :
    (t.bind f).bind g = t.bind fun a => (f a).bind g := by
  induction t with
  | done a => rfl
  | call c next ih => simp only [bind]; congr 1; funext x; exact ih x
  | request d r next ih => simp only [bind]; congr 1; funext x; exact ih x
  | pause next ih => simp only [bind, ih]
  | broken => rfl

@[simp] theorem bind_pure (t : Routine I α) : t.bind .done = t := by
  induction t with
  | done a => rfl
  | call c next ih => simp only [bind]; congr 1; funext x; exact ih x
  | request d r next ih => simp only [bind]; congr 1; funext x; exact ih x
  | pause next ih => simp only [bind, ih]
  | broken => rfl

end Routine

/-- The surroundings of a routine, with a world of type `W`. -/
structure Host (I : Interface) (W : Type) where
  answer : W → (c : I.Call) → W × I.Answer c
  /-- Submits a request; once it is taken, it will be pending for this many polls. -/
  place : W → I.Device → (r : Request) → W × Placement r Nat
  /-- Carries out a request that is no longer pending. -/
  finish : W → I.Device → (r : Request) → W × Completion r

/-- Takes a request: refuses it, or says for how many polls it will be pending. -/
def Host.submit {I : Interface} {W : Type} (host : Host I W) (w : W) (d : I.Device) (r : Request) :
    W × Except IoError Nat :=
  ((host.place w d r).1, (host.place w d r).2.outcome)

/-- Carries out a request, successfully or not. -/
def Host.complete {I : Interface} {W : Type} (host : Host I W) (w : W) (d : I.Device)
    (r : Request) : W × Except IoError r.Reply :=
  ((host.finish w d r).1, (host.finish w d r).2.outcome)

/-- A routine between two polls. -/
inductive Suspended (I : Interface) (α : Type) where
  | ready (next : Routine I α)
  /-- A submitted request with the number of further polls for which it is pending. -/
  | waiting (device : I.Device) (r : Request) (polls : Nat)
      (next : Except IoError r.Reply → Routine I α)

/-- How a run ends. -/
inductive Ending (I : Interface) (ρ α : Type) where
  | finished (result : α)
  | interrupted (why : ρ) (rest : Suspended I α)
  | broken

namespace Routine

variable {I : Interface} {ρ α W : Type}

/-- Lets a pending request run out its polls; `resume` is entered when it is due. -/
def waitOut (between : W → W × Option ρ) (device : I.Device) (r : Request)
    (next : Except IoError r.Reply → Routine I α) (resume : W → W × Ending I ρ α) :
    (polls : Nat) → W → W × Ending I ρ α
  | 0, w => resume w
  | polls + 1, w =>
    match between w with
    | (w, some why) => (w, .interrupted why (.waiting device r polls next))
    | (w, none) => waitOut between device r next resume polls w

/-- Runs a routine in a host until it ends or is ended. -/
def drive (host : Host I W) (between : W → W × Option ρ) : Routine I α → W → W × Ending I ρ α
  | .done a, w => (w, .finished a)
  | .call c next, w =>
    let (w, x) := host.answer w c
    (next x).drive host between w
  | .request d r next, w =>
    match host.submit w d r with
    | (w, .error e) => (next (.error e)).drive host between w
    | (w, .ok polls) =>
      waitOut between d r next
        (fun w =>
          let (w, x) := host.complete w d r
          (next x).drive host between w)
        polls w
  | .pause next, w =>
    match between w with
    | (w, some why) => (w, .interrupted why (.ready next))
    | (w, none) => next.drive host between w
  | .broken, w => (w, .broken)

/-- Runs a routine to its end; `none` if it breaks down. -/
def run (host : Host I W) (t : Routine I α) (w : W) : W × Option α :=
  match t.drive host (ρ := Empty) (fun w => (w, none)) w with
  | (w, .finished a) => (w, some a)
  | (w, .broken) => (w, none)
  | (_, .interrupted why _) => nomatch why

/-- Lets a routine run to its end in a monad, where requests are never pending. -/
def runIn {m : Type → Type} [Monad m] (answer : (c : I.Call) → m (I.Answer c))
    (serve : I.Device → (r : Request) → m (Except IoError r.Reply)) :
    Routine I α → m (Option α)
  | .done a => return some a
  | .call c next => do (next (← answer c)).runIn answer serve
  | .request d r next => do (next (← serve d r)).runIn answer serve
  | .pause next => next.runIn answer serve
  | .broken => return none

end Routine

/-- Goes on with a suspended routine. -/
def Suspended.drive {I : Interface} {ρ α W : Type} (host : Host I W)
    (between : W → W × Option ρ) : Suspended I α → W → W × Ending I ρ α
  | .ready next, w => next.drive host between w
  | .waiting d r polls next, w =>
    Routine.waitOut between d r next
      (fun w =>
        let (w, x) := host.complete w d r
        (next x).drive host between w)
      polls w

/-- One poll: the run is ended where it would first give way. -/
def Suspended.poll {I : Interface} {α W : Type} (host : Host I W) (s : Suspended I α) (w : W) :
    W × Ending I Unit α :=
  s.drive host (fun w => (w, some ())) w

end SlotVerify
