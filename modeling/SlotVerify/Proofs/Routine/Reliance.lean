import SlotVerify.Proofs.Routine.Alike
/-
  Routines that rely on their requests.

  A request is fruitless if it fails, or if it is a read that brings nothing.  A routine `Relies` on
  its requests if a fruitless one makes sure that it will be lost in the end.  So a run that is not
  lost has had no fruitless request, and another host that carries out the fruitful ones alike
  brings it to the same end, whatever it would have done with the others
  (`Routine.Relies.run_interpret`).  The host may be one of another interface, into which the calls
  are translated.
-/

namespace SlotVerify

open Device

variable {I J : Interface} {σ W W' α β : Type}

/-- Nothing has come of the request. -/
def Device.Request.Fruitless : (q : Request) → Except IoError q.Reply → Prop
  | .read .., .ok bytes => bytes.size = 0
  | .write .., .ok _ | .sync, .ok _ => False
  | _, .error _ => True

/-- What a routine uses: its calls, the answers that it is prepared for, and its devices. -/
structure Usage (I : Interface) where
  call : I.Call → Prop
  answer : (c : I.Call) → I.Answer c → Prop
  device : I.Device → Prop

/-- Everything may be used. -/
def Usage.any (I : Interface) : Usage I := ⟨fun _ => True, fun _ _ => True, fun _ => True⟩

/-- It has failed for a reason of this kind. -/
def Failed {ε : Type} (kind : ε → Prop) : Except ε α → Prop
  | .error e => kind e
  | .ok _ => False

namespace Routine

/-- Whatever it is answered, the routine has a result of this kind, should it have one at all. -/
abbrev EndsIn (ok : α → Prop) (t : Routine I α) : Prop :=
  t.Only (fun _ => True) (fun _ _ => True) ok

theorem EndsIn.run {ok : α → Prop} {t : Routine I α} (h : t.EndsIn ok) {host : Host I W} {w v : W}
    {a : α} (hrun : t.run host w = (v, some a)) : ok a := by
  have hmeets : t.Meets host (.still W) (fun _ => True)
      (fun a _ => True ∧ ∀ x, a = some x → ok x) w :=
    h.meets (fun _ => True) (fun _ _ _ _ => trivial) (fun _ _ _ _ _ => trivial)
      (fun _ _ _ _ _ => trivial) (fun _ _ _ _ => trivial) trivial
  have hend := run_meets hmeets
  rw [hrun] at hend
  exact hend.2 a rfl

/-- Behind a fruitless request the routine will be lost. -/
def Relies (usage : Usage I) (lost : α → Prop) : Routine I α → Prop
  | .done _ => True
  | .call c next => usage.call c ∧ ∀ x, usage.answer c x → (next x).Relies usage lost
  | .request d q next => usage.device d ∧ (∀ x, q.Fruitless x → (next x).EndsIn lost) ∧
      ∀ x, (next x).Relies usage lost
  | .pause next => next.Relies usage lost
  | .broken => True

variable {usage : Usage I} {lost : α → Prop}

/-- A sequence relies on its requests if both parts do, and if it is lost where the first part
    is. -/
theorem relies_bind {lost' : β → Prop} {t : Routine I α} {f : α → Routine I β}
    (ht : t.Relies usage lost) (hlost : ∀ a, lost a → (f a).EndsIn lost')
    (hf : ∀ a, (f a).Relies usage lost') : (t.bind f).Relies usage lost' := by
  induction t with
  | done a => exact hf a
  | call c next ih => exact ⟨ht.1, fun x hx => ih x (ht.2 x hx)⟩
  | request d q next ih =>
    obtain ⟨hdevice, hfruitless, hnext⟩ := ht
    exact ⟨hdevice, fun x hx => only_bind (hfruitless x hx) hlost, fun x => ih x (hnext x)⟩
  | pause next ih => exact ih ht
  | broken => trivial

theorem Relies.onDevice {usage' : Usage J} {noCalls : I.Call → Empty}
    {device : I.Device → J.Device} (hdevice : ∀ d, usage'.device (device d)) {t : Routine I α}
    (h : t.Relies usage lost) : (t.onDevice noCalls device).Relies usage' lost := by
  induction t with
  | done a => trivial
  | call c next ih => exact nomatch noCalls c
  | request d q next ih =>
    obtain ⟨-, hfruitless, hnext⟩ := h
    exact ⟨hdevice d, fun x hx => only_onDevice (fun _ _ _ => trivial) (hfruitless x hx),
      fun x => ih x (hnext x)⟩
  | pause next ih => exact ih h
  | broken => trivial

end Routine

/-- What a host answers and carries out for a usage, another one does as well, as far as it bears
    fruit; calls are translated, with a value that is kept. -/
structure Host.Mirrored (usage : Usage I) (host : Host I W) (host' : Host J W')
    (call : σ → (c : I.Call) → Routine J (I.Answer c × σ)) (device : I.Device → J.Device)
    (related : W → W' → σ → Prop) : Prop where
  answer : ∀ {w w' s} c, related w w' s → usage.call c →
    usage.answer c (host.answer w c).2 ∧ ∃ w₁ s₁,
      (call s c).run host' w' = (w₁, some ((host.answer w c).2, s₁)) ∧
      related (host.answer w c).1 w₁ s₁
  serve : ∀ {w w' s d} q, related w w' s → usage.device d →
    q.Fruitless (host.serve w d q).2 ∨
      (host'.serve w' (device d) q).2 = (host.serve w d q).2 ∧
      related (host.serve w d q).1 (host'.serve w' (device d) q).1 s

namespace Routine

/-- A sequence over another interface; the second part goes on with the value that is kept. -/
theorem interpret_bind (call : σ → (c : I.Call) → Routine J (I.Answer c × σ))
    (device : I.Device → J.Device) (t : Routine I α) (f : α → Routine I β) :
    ∀ s, (t.bind f).interpret call device s =
      (t.interpret call device s).bind fun (a, s) => (f a).interpret call device s := by
  induction t with
  | done a => exact fun s => rfl
  | call c next ih =>
    intro s
    show ((call s c).bind fun p => ((next p.1).bind f).interpret call device p.2) =
      ((call s c).bind fun p => (next p.1).interpret call device p.2).bind _
    rw [bind_assoc]
    exact congrArg _ (funext fun p => ih p.1 p.2)
  | request d q next ih => exact fun s => congrArg _ (funext fun x => ih x s)
  | pause next ih => exact fun s => congrArg _ (ih s)
  | broken => exact fun s => rfl

variable {usage : Usage I} {lost : α → Prop}

/-- By induction on the routine: a run that is not lost is the same on the other host. -/
theorem Relies.run_interpret {host : Host I W} {host' : Host J W'}
    {call : σ → (c : I.Call) → Routine J (I.Answer c × σ)} {device : I.Device → J.Device}
    {related : W → W' → σ → Prop} (hmirrored : host.Mirrored usage host' call device related)
    {t : Routine I α} (h : t.Relies usage lost) :
    ∀ {w w' s v a}, related w w' s → t.run host w = (v, some a) → ¬ lost a →
      ∃ v' s', (t.interpret call device s).run host' w' = (v', some (a, s')) ∧
        related v v' s' := by
  induction t with
  | done a =>
    rintro w w' s _ _ hrelated ⟨⟩ -
    exact ⟨w', s, rfl, hrelated⟩
  | call c next ih =>
    intro w w' s v a hrelated hrun hkept
    obtain ⟨hanswer, w₁, s₁, hcall, hrelated₁⟩ := hmirrored.answer c hrelated h.1
    change (next (host.answer w c).2).run host (host.answer w c).1 = _ at hrun
    obtain ⟨v', s', hnext, hend⟩ := ih _ (h.2 _ hanswer) hrelated₁ hrun hkept
    refine ⟨v', s', ?_, hend⟩
    show ((call s c).bind fun p => (next p.1).interpret call device p.2).run host' w' = _
    rw [run_bind, hcall]
    exact hnext
  | request d q next ih =>
    intro w w' s v a hrelated hrun hkept
    obtain ⟨hdevice, hfruitless, hnext⟩ := h
    rw [run_serve] at hrun
    rcases hmirrored.serve q hrelated hdevice with hnone | ⟨hsame, hrelated₁⟩
    · -- then the run would be lost
      exact absurd ((hfruitless _ hnone).run hrun) hkept
    · obtain ⟨v', s', hrest, hend⟩ := ih _ (hnext _) hrelated₁ hrun hkept
      refine ⟨v', s', ?_, hend⟩
      show (Routine.request (device d) q fun x => (next x).interpret call device s).run host' w' = _
      rw [run_serve, hsame]
      exact hrest
  | pause next ih =>
    intro w w' s v a hrelated hrun hkept
    exact ih h hrelated hrun hkept
  | broken =>
    rintro w w' s v a - ⟨⟩

end Routine

end SlotVerify
