import SlotVerify.Proofs.Routine.Record
/-
  Hosts that a routine cannot tell apart.

  A routine that runs to its end sees the answers to its calls and the outcomes of its requests, not
  when a request has failed or for how long it has been pending (`Host.serve`).  So if two worlds
  answer alike, and stay so, every routine runs alike in both (`Routine.run_alike`).

  A run that is polled comes to the same end as one that is not interrupted: a poll leaves just what
  is still to be run (`Suspended.drive_giveWay`).
-/

namespace SlotVerify

open Device

variable {I : Interface} {W W' ρ α : Type}

/-- A request from its submission to its outcome. -/
def Host.serve (host : Host I W) (w : W) (d : I.Device) (r : Request) :
    W × Except IoError r.Reply :=
  match host.submit w d r with
  | (w, .error e) => (w, .error e)
  | (w, .ok _) => host.complete w d r

theorem Host.serve_refused {host : Host I W} {w w' : W} {d : I.Device} {r : Request} {e : IoError}
    (h : host.submit w d r = (w', .error e)) : host.serve w d r = (w', .error e) := by
  unfold serve
  rw [h]

theorem Host.serve_taken {host : Host I W} {w w' : W} {d : I.Device} {r : Request} {polls : Nat}
    (h : host.submit w d r = (w', .ok polls)) : host.serve w d r = host.complete w' d r := by
  unfold serve
  rw [h]

/-- Two hosts answer alike in worlds that are related, and the worlds stay related. -/
structure Host.Alike (host : Host I W) (host' : Host I W') (related : W → W' → Prop) : Prop where
  answer : ∀ w w' c, related w w' → related (host.answer w c).1 (host'.answer w' c).1 ∧
    (host'.answer w' c).2 = (host.answer w c).2
  serve : ∀ w w' d r, related w w' → related (host.serve w d r).1 (host'.serve w' d r).1 ∧
    (host'.serve w' d r).2 = (host.serve w d r).2

namespace Routine

theorem run_call (host : Host I W) (c : I.Call) (next : I.Answer c → Routine I α) (w : W) :
    (call c next).run host w = (next (host.answer w c).2).run host (host.answer w c).1 := rfl

theorem run_serve (host : Host I W) (d : I.Device) (r : Request)
    (next : Except IoError r.Reply → Routine I α) (w : W) :
    (request d r next).run host w = (next (host.serve w d r).2).run host (host.serve w d r).1 := by
  rw [run_request]
  unfold Host.serve
  obtain ⟨w', outcome⟩ := host.submit w d r
  cases outcome <;> rfl

/-- By induction on the routine. -/
theorem run_alike {host : Host I W} {host' : Host I W'} {related : W → W' → Prop}
    (halike : host.Alike host' related) (t : Routine I α) :
    ∀ {w w'}, related w w' → related (t.run host w).1 (t.run host' w').1 ∧
      (t.run host' w').2 = (t.run host w).2 := by
  induction t with
  | done a => exact fun h => ⟨h, rfl⟩
  | call c next ih =>
    intro w w' h
    obtain ⟨hrelated, hsame⟩ := halike.answer w w' c h
    rw [run_call, run_call, hsame]
    exact ih _ hrelated
  | request d r next ih =>
    intro w w' h
    obtain ⟨hrelated, hsame⟩ := halike.serve w w' d r h
    rw [run_serve, run_serve, hsame]
    exact ih _ hrelated
  | pause next ih => exact fun h => ih h
  | broken => exact fun h => ⟨h, rfl⟩

end Routine

/-! ## Trails -/

namespace Routine

/-- What happens in a run. -/
def trail (host : Host I W) : Routine I α → W → List (Happening I)
  | .done _, _ => []
  | .call c next, w =>
    let (w, x) := host.answer w c
    .called c x :: (next x).trail host w
  | .request d r next, w =>
    let (w, x) := host.serve w d r
    .served d r x :: (next x).trail host w
  | .pause next, w => .paused :: next.trail host w
  | .broken, _ => []

theorem reaches_trail (host : Host I W) (t : Routine I α) :
    ∀ w, ∃ u, t.Reaches (t.trail host w) u := by
  induction t with
  | done a => exact fun _ => ⟨_, .refl _⟩
  | call c next ih =>
    intro w
    obtain ⟨u, h⟩ := ih (host.answer w c).2 (host.answer w c).1
    exact ⟨u, .call _ h⟩
  | request d r next ih =>
    intro w
    obtain ⟨u, h⟩ := ih (host.serve w d r).2 (host.serve w d r).1
    exact ⟨u, .request _ h⟩
  | pause next ih =>
    intro w
    obtain ⟨u, h⟩ := ih w
    exact ⟨u, .pause h⟩
  | broken => exact fun _ => ⟨_, .refl _⟩

/-- What the host carries is carried along the run. -/
theorem carried_trail {S : Type} {host : Host I W}
    {use : S → (c : I.Call) → I.Answer c → S → Prop} {part : W → S}
    (hcarries : host.Carries use part) (t : Routine I α) :
    ∀ w, ∃ s, Carried use (part w) (t.trail host w) s := by
  have hserve : ∀ w d r, part (host.serve w d r).1 = part w := by
    intro w d r
    have hsubmit := hcarries.submit w d r
    unfold Host.serve
    split
    · rename_i heq
      rwa [heq] at hsubmit
    · rename_i heq
      rw [heq] at hsubmit
      exact (hcarries.complete _ d r).trans hsubmit
  induction t with
  | done a => exact fun _ => ⟨_, .nil _⟩
  | call c next ih =>
    intro w
    obtain ⟨s, h⟩ := ih (host.answer w c).2 (host.answer w c).1
    exact ⟨s, .called (hcarries.answer w c) h⟩
  | request d r next ih =>
    intro w
    obtain ⟨s, h⟩ := ih (host.serve w d r).2 (host.serve w d r).1
    rw [hserve] at h
    exact ⟨s, .served h⟩
  | pause next ih =>
    intro w
    obtain ⟨s, h⟩ := ih w
    exact ⟨s, .paused h⟩
  | broken => exact fun _ => ⟨_, .nil _⟩

end Routine

/-! ## Polls -/

/-- Runs a suspended routine to its end. -/
def Suspended.run (host : Host I W) : Suspended I α → W → W × Option α
  | .ready next, w => next.run host w
  | .waiting d r _ next, w => (next (host.complete w d r).2).run host (host.complete w d r).1

/-- A stretch of a run ends where the whole run goes on. -/
def Ending.Leads (host : Host I W) (whole : W × Option α) : W × Ending I ρ α → Prop
  | (w, .finished a) => whole = (w, some a)
  | (w, .interrupted _ rest) => whole = rest.run host w
  | (w, .broken) => whole = (w, none)

/-- By induction on the routine. -/
theorem Routine.drive_giveWay (host : Host I W) (why : ρ) (t : Routine I α) :
    ∀ w, Ending.Leads host (t.run host w) (t.drive host (giveWay why) w) := by
  induction t with
  | done a => exact fun w => rfl
  | call c next ih => exact fun w => ih _ _
  | request d r next ih =>
    intro w
    rw [run_request, drive]
    obtain ⟨w', outcome⟩ := host.submit w d r
    cases outcome with
    | error e => exact ih _ _
    | ok polls =>
      cases polls with
      | zero => exact ih _ _
      | succ polls => rfl
  | pause next ih => exact fun w => rfl
  | broken => exact fun w => rfl

/-- What is run behind a poll is what would have been run without it. -/
theorem Suspended.drive_giveWay (host : Host I W) (why : ρ) (rest : Suspended I α) (w : W) :
    Ending.Leads host (rest.run host w) (rest.drive host (giveWay why) w) := by
  cases rest with
  | ready next => exact next.drive_giveWay host why w
  | waiting d r polls next =>
    cases polls with
    | zero => exact (next _).drive_giveWay host why _
    | succ polls => rfl

end SlotVerify
