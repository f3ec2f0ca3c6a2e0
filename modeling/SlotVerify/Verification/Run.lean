import SlotVerify.Verification.Program
/-
  The life of a verification.

  Every poll begins with a look at the abort signal; once an abort has been requested, the next poll
  ends the verification as cancelled.  A verification that does not end by itself, because it is
  cancelled or given up between two polls, unmaps the snapshots that it has left mapped, and reports
  nothing.
-/

namespace SlotVerify.Verification

variable {P W ρ : Type}

/-- A verification that has not ended. -/
structure Running (P : Type) where
  /-- Whether it has been polled. -/
  started : Bool
  /-- Whether there are snapshots to unmap once it has been polled. -/
  unmaps : Bool
  rest : Suspended (interface P) (Except Error InstallPlan)

/-- A verification before its first poll. -/
def Running.new (scale : Scale P) (dynamic : DynamicPartitions) (plan : Option InstallPlan) :
    Running P :=
  ⟨false, unmapsAtEnd dynamic plan, .ready (whole scale dynamic plan)⟩

/-- How a stretch of a verification ends. -/
inductive Outcome (P ρ : Type) where
  | completed (result : Except Error InstallPlan)
  | left (why : ρ) (rest : Running P)
  /-- The verification broke down. -/
  | broken

/-- Releases what a verification holds that will not go on. -/
def Running.cleanup (host : Host (interface P) W) (v : Running P) (started : Bool) (w : W) : W :=
  if started && v.unmaps then (host.answer w .unmapAll).1 else w

/-- Polls a verification until it ends or `between` gives a reason to leave it. -/
def Running.drive (host : Host (interface P) W) (aborted : W → Bool)
    (between : W → W × Option ρ) (v : Running P) (w : W) : W × Outcome P ρ :=
  if aborted w then (v.cleanup host v.started w, .completed (.error .cancelled))
  else
    let boundary (w : W) : W × Option (Option ρ) :=
      match between w with
      | (w, some why) => (w, some (some why))
      | (w, none) => (w, if aborted w then some none else none)
    match v.rest.drive host boundary w with
    | (w, .finished result) => (w, .completed result)
    | (w, .interrupted (some why) rest) => (w, .left why { v with started := true, rest })
    | (w, .interrupted none _) => (v.cleanup host true w, .completed (.error .cancelled))
    | (w, .broken) => (w, .broken)

/-- One poll. -/
def Running.poll (host : Host (interface P) W) (aborted : W → Bool) (v : Running P) (w : W) :
    W × Outcome P Unit :=
  v.drive host aborted (fun w => (w, some ())) w

/-- Gives a verification up. -/
def Running.drop (host : Host (interface P) W) (v : Running P) (w : W) : W :=
  v.cleanup host v.started w

end SlotVerify.Verification
