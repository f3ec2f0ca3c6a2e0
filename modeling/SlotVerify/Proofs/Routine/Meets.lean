import SlotVerify.Routine
/-
  What the runs of a routine come to.

  `Routine.Meets` says of a routine and a world what holds of every run from there: an invariant
  wherever the run may be left, and a postcondition at its end.  It is defined by recursion on the
  tree, so a run of the routine is followed call by call and request by request; between two polls
  the world may change as far as the `Surroundings` permit.

  A sequence meets what its parts meet (`Routine.meets_bind`).  `Routine.Only` says which steps a
  routine may take at all, whatever it is answered; what these keep, every run keeps
  (`Routine.Only.meets`).  `Suspended.drive_meets` is the bridge to the runs
  themselves: whatever a routine meets holds of where `drive` arrives, and if it was left before
  its end, the rest goes on meeting it.
-/

namespace SlotVerify

/-- What may happen to the world between two polls. -/
structure Surroundings (W : Type) where
  change : W → W → Prop
  refl : ∀ w, change w w
  trans : ∀ {a b c}, change a b → change b c → change a c

/-- Surroundings that leave the world alone. -/
def Surroundings.still (W : Type) : Surroundings W := ⟨Eq, fun _ => rfl, Eq.trans⟩

variable {I : Interface} {W ρ α β : Type}

namespace Routine

/-- Every run from this world keeps `inv` wherever it may be left, and ends with `post`; a routine
    that breaks down ends without a result. -/
def Meets (host : Host I W) (env : Surroundings W) (inv : W → Prop) (post : Option α → W → Prop) :
    Routine I α → W → Prop
  | .done a, w => post (some a) w
  | .call c next, w => (next (host.answer w c).2).Meets host env inv post (host.answer w c).1
  | .request d r next, w =>
    match host.submit w d r with
    | (w, .error e) => (next (.error e)).Meets host env inv post w
    | (w, .ok _) =>
      ∀ w', env.change w w' →
        inv w' ∧ (next (host.complete w' d r).2).Meets host env inv post (host.complete w' d r).1
  | .pause next, w => ∀ w', env.change w w' → inv w' ∧ next.Meets host env inv post w'
  | .broken, w => post none w

variable {host : Host I W} {env : Surroundings W} {inv inv' : W → Prop}

/-- A weaker invariant and a weaker postcondition are met as well. -/
theorem Meets.mono {post post' : Option α → W → Prop} (hinv : ∀ w, inv w → inv' w)
    (hpost : ∀ a w, post a w → post' a w) {t : Routine I α} :
    ∀ {w : W}, t.Meets host env inv post w → t.Meets host env inv' post' w := by
  induction t with
  | done a =>
    intro w h
    exact hpost _ _ h
  | call c next ih =>
    intro w h
    exact ih _ h
  | request d r next ih =>
    intro w h
    unfold Meets at h ⊢
    split at h
    · exact ih _ h
    · intro w' hw'
      exact ⟨hinv _ (h w' hw').1, ih _ (h w' hw').2⟩
  | pause next ih =>
    intro w h w' hw'
    exact ⟨hinv _ (h w' hw').1, ih (h w' hw').2⟩
  | broken =>
    intro w h
    exact hpost _ _ h

/-- What is met in all surroundings is met where nothing happens. -/
theorem Meets.still {post : Option α → W → Prop} {t : Routine I α} :
    ∀ {w : W}, t.Meets host env inv post w → t.Meets host (.still W) inv post w := by
  induction t with
  | done a =>
    intro w h
    exact h
  | call c next ih =>
    intro w h
    exact ih _ h
  | request d r next ih =>
    intro w h
    unfold Meets at h ⊢
    split at h
    · exact ih _ h
    · rintro w' rfl
      exact ⟨(h _ (env.refl _)).1, ih _ (h _ (env.refl _)).2⟩
  | pause next ih =>
    rintro w h w' rfl
    exact ⟨(h _ (env.refl _)).1, ih (h _ (env.refl _)).2⟩
  | broken =>
    intro w h
    exact h

/-- What two arguments show separately holds together. -/
theorem Meets.and {post post' : Option α → W → Prop} {t : Routine I α} :
    ∀ {w : W}, t.Meets host env inv post w → t.Meets host env inv' post' w →
      t.Meets host env (fun w => inv w ∧ inv' w) (fun a w => post a w ∧ post' a w) w := by
  induction t with
  | done a =>
    intro w h h'
    exact ⟨h, h'⟩
  | call c next ih =>
    intro w h h'
    exact ih _ h h'
  | request d r next ih =>
    intro w h h'
    unfold Meets at h h' ⊢
    split at h
    · rename_i hsubmit
      rw [hsubmit] at h'
      exact ih _ h h'
    · rename_i hsubmit
      rw [hsubmit] at h'
      intro w' hw'
      exact ⟨⟨(h w' hw').1, (h' w' hw').1⟩, ih _ (h w' hw').2 (h' w' hw').2⟩
  | pause next ih =>
    intro w h h' w' hw'
    exact ⟨⟨(h w' hw').1, (h' w' hw').1⟩, ih (h w' hw').2 (h' w' hw').2⟩
  | broken =>
    intro w h h'
    exact ⟨h, h'⟩

/-- A sequence: the second part begins where the first one ends. -/
theorem meets_bind {post : Option β → W → Prop} {f : α → Routine I β} {t : Routine I α} :
    ∀ {w : W}, t.Meets host env inv
        (fun a w => match a with
          | some a => (f a).Meets host env inv post w
          | none => post none w) w →
      (t.bind f).Meets host env inv post w := by
  induction t with
  | done a =>
    intro w h
    exact h
  | call c next ih =>
    intro w h
    exact ih _ h
  | request d r next ih =>
    intro w h
    show (Routine.request d r fun x => (next x).bind f).Meets host env inv post w
    unfold Meets at h ⊢
    split at h
    · exact ih _ h
    · intro w' hw'
      exact ⟨(h w' hw').1, ih _ (h w' hw').2⟩
  | pause next ih =>
    intro w h w' hw'
    exact ⟨(h w' hw').1, ih (h w' hw').2⟩
  | broken =>
    intro w h
    exact h

/-- On another interface a sequence stays a sequence. -/
theorem onDevice_bind {J : Interface} {noCalls : I.Call → Empty} {device : I.Device → J.Device}
    (t : Routine I α) (f : α → Routine I β) :
    (t.bind f).onDevice noCalls device =
      (t.onDevice noCalls device).bind fun a => (f a).onDevice noCalls device := by
  induction t with
  | done a => rfl
  | call c next ih => exact nomatch noCalls c
  | request d r next ih => exact congrArg _ (funext ih)
  | pause next ih => exact congrArg _ ih
  | broken => rfl

/-! ## Routines of permitted steps -/

/-- Whatever is answered, every call and every request is a permitted one, and so is the result. -/
def Only (okCall : I.Call → Prop) (okRequest : I.Device → Device.Request → Prop)
    (okResult : α → Prop) : Routine I α → Prop
  | .done a => okResult a
  | .call c next => okCall c ∧ ∀ x, (next x).Only okCall okRequest okResult
  | .request d r next => okRequest d r ∧ ∀ x, (next x).Only okCall okRequest okResult
  | .pause next => next.Only okCall okRequest okResult
  | .broken => True

variable {okCall okCall' : I.Call → Prop} {okRequest okRequest' : I.Device → Device.Request → Prop}
  {okResult okResult' : α → Prop}

/-- What is permitted may be more. -/
theorem Only.mono (hcall : ∀ c, okCall c → okCall' c)
    (hrequest : ∀ d r, okRequest d r → okRequest' d r)
    (hresult : ∀ a, okResult a → okResult' a) {t : Routine I α}
    (h : t.Only okCall okRequest okResult) : t.Only okCall' okRequest' okResult' := by
  induction t with
  | done a => exact hresult a h
  | call c next ih => exact ⟨hcall c h.1, fun x => ih x (h.2 x)⟩
  | request d r next ih => exact ⟨hrequest d r h.1, fun x => ih x (h.2 x)⟩
  | pause next ih => exact ih h
  | broken => trivial

/-- A sequence: the second part need only behave after the results that the first one permits. -/
theorem only_bind {okMiddle : β → Prop} {t : Routine I β} {f : β → Routine I α}
    (ht : t.Only okCall okRequest okMiddle)
    (hf : ∀ b, okMiddle b → (f b).Only okCall okRequest okResult) :
    (t.bind f).Only okCall okRequest okResult := by
  induction t with
  | done b => exact hf b ht
  | call c next ih => exact ⟨ht.1, fun x => ih x (ht.2 x)⟩
  | request d r next ih => exact ⟨ht.1, fun x => ih x (ht.2 x)⟩
  | pause next ih => exact ih ht
  | broken => trivial

theorem only_onDevice {J : Interface} {noCalls : I.Call → Empty} {device : I.Device → J.Device}
    {okCall' : J.Call → Prop} {okRequest' : J.Device → Device.Request → Prop}
    (hrequest : ∀ d r, okRequest d r → okRequest' (device d) r) {t : Routine I α}
    (h : t.Only okCall okRequest okResult) :
    (t.onDevice noCalls device).Only okCall' okRequest' okResult := by
  induction t with
  | done a => exact h
  | call c next ih => exact nomatch noCalls c
  | request d r next ih => exact ⟨hrequest _ _ h.1, fun x => ih x (h.2 x)⟩
  | pause next ih => exact ih h
  | broken => trivial

/-- What makes no calls makes none over another interface either. -/
theorem only_interpret {J : Interface} {σ : Type}
    {call : σ → (c : I.Call) → Routine J (I.Answer c × σ)} {device : I.Device → J.Device}
    {okRequest' : J.Device → Device.Request → Prop}
    (hrequest : ∀ d r, okRequest d r → okRequest' (device d) r) {t : Routine I α}
    (h : t.Only (fun _ => False) okRequest okResult) (s : σ) :
    (t.interpret call device s).Only (fun _ => False) okRequest' fun a => okResult a.1 := by
  induction t with
  | done a => exact h
  | call c next ih => exact h.1.elim
  | request d r next ih => exact ⟨hrequest _ _ h.1, fun x => ih x (h.2 x)⟩
  | pause next ih => exact ih h
  | broken => trivial

theorem only_true (t : Routine I α) :
    t.Only (fun _ => True) (fun _ _ => True) (fun _ => True) := by
  induction t with
  | done a => trivial
  | call c next ih => exact ⟨trivial, ih⟩
  | request d r next ih => exact ⟨trivial, ih⟩
  | pause next ih => exact ih
  | broken => trivial

/-- What every permitted step and the surroundings keep, every run of a routine of such steps
    keeps. -/
theorem Only.meets (inv : W → Prop) (hanswer : ∀ w c, okCall c → inv w → inv (host.answer w c).1)
    (hsubmit : ∀ w d r, okRequest d r → inv w → inv (host.submit w d r).1)
    (hcomplete : ∀ w d r, okRequest d r → inv w → inv (host.complete w d r).1)
    (henv : ∀ w w', inv w → env.change w w' → inv w') {t : Routine I α} :
    t.Only okCall okRequest okResult → ∀ {w : W}, inv w →
      t.Meets host env inv (fun a w => inv w ∧ ∀ x, a = some x → okResult x) w := by
  induction t with
  | done a =>
    intro ht w h
    refine ⟨h, ?_⟩
    intro x hx
    cases hx
    exact ht
  | call c next ih =>
    intro ht w h
    exact ih _ (ht.2 _) (hanswer w c ht.1 h)
  | request d r next ih =>
    intro ht w h
    have hsubmitted := hsubmit w d r ht.1 h
    unfold Meets
    split
    · rename_i heq
      rw [heq] at hsubmitted
      exact ih _ (ht.2 _) hsubmitted
    · rename_i heq
      rw [heq] at hsubmitted
      intro w' hw'
      have hw := henv _ _ hsubmitted hw'
      exact ⟨hw, ih _ (ht.2 _) (hcomplete _ _ _ ht.1 hw)⟩
  | pause next ih =>
    intro ht w h w' hw'
    have hw := henv _ _ h hw'
    exact ⟨hw, ih ht hw⟩
  | broken =>
    intro _ w h
    exact ⟨h, fun x hx => nomatch hx⟩

end Routine

/-! ## Runs -/

/-- The rest of a run, whatever happens to the world before it goes on. -/
def Suspended.Meets (host : Host I W) (env : Surroundings W) (inv : W → Prop)
    (post : Option α → W → Prop) : Suspended I α → W → Prop
  | .ready next, w => ∀ w', env.change w w' → next.Meets host env inv post w'
  | .waiting d r _ next, w => ∀ w', env.change w w' →
    inv w' ∧ (next (host.complete w' d r).2).Meets host env inv post (host.complete w' d r).1

/-- Where a stretch of a run arrives; if it is left before its end, `between` has said why. -/
def Ending.Meets (host : Host I W) (env : Surroundings W) (between : W → W × Option ρ)
    (inv : W → Prop) (post : Option α → W → Prop) : W × Ending I ρ α → Prop
  | (w, .finished a) => post (some a) w
  | (w, .interrupted why rest) =>
    (∃ w₀, between w₀ = (w, some why)) ∧ inv w ∧ rest.Meets host env inv post w
  | (w, .broken) => post none w

section

variable {host : Host I W} {env : Surroundings W} {inv : W → Prop}
  {post : Option α → W → Prop} {between : W → W × Option ρ}

theorem Routine.waitOut_meets (hbetween : ∀ w, env.change w (between w).1) {d : I.Device}
    {r : Device.Request} {next : Except Device.IoError r.Reply → Routine I α}
    {resume : W → W × Ending I ρ α}
    (hresume : ∀ w, (next (host.complete w d r).2).Meets host env inv post
      (host.complete w d r).1 → Ending.Meets host env between inv post (resume w)) :
    ∀ (polls : Nat) {w : W},
      (∀ w', env.change w w' → inv w' ∧
        (next (host.complete w' d r).2).Meets host env inv post (host.complete w' d r).1) →
      Ending.Meets host env between inv post (waitOut between d r next resume polls w) := by
  intro polls
  induction polls with
  | zero =>
    intro w h
    exact hresume w (h w (env.refl w)).2
  | succ polls ih =>
    intro w h
    have hchange := hbetween w
    unfold waitOut
    split
    · -- the run is left here, and the rest of it still waits for the request
      rename_i w₁ why heq
      rw [heq] at hchange
      refine ⟨⟨_, heq⟩, (h w₁ hchange).1, ?_⟩
      intro w' hw'
      exact h w' (env.trans hchange hw')
    · rename_i w₁ heq
      rw [heq] at hchange
      apply ih
      intro w' hw'
      exact h w' (env.trans hchange hw')

theorem Routine.drive_meets (between : W → W × Option ρ)
    (hbetween : ∀ w, env.change w (between w).1) (t : Routine I α) :
    ∀ {w : W}, t.Meets host env inv post w →
      Ending.Meets host env between inv post (t.drive host between w) := by
  induction t with
  | done a =>
    intro w h
    exact h
  | call c next ih =>
    intro w h
    exact ih _ h
  | request d r next ih =>
    intro w h
    unfold Routine.Meets at h
    unfold Routine.drive
    split
    · rename_i heq
      rw [heq] at h
      exact ih _ h
    · rename_i heq
      rw [heq] at h
      apply Routine.waitOut_meets hbetween
      · intro w' hw'
        exact ih _ hw'
      · exact h
  | pause next ih =>
    intro w h
    have hchange := hbetween w
    unfold Routine.drive
    split
    · rename_i w₁ why heq
      rw [heq] at hchange
      refine ⟨⟨_, heq⟩, (h w₁ hchange).1, ?_⟩
      intro w' hw'
      exact (h w' (env.trans hchange hw')).2
    · rename_i w₁ heq
      rw [heq] at hchange
      exact ih (h w₁ hchange).2
  | broken =>
    intro w h
    exact h

/-- Going on with a run arrives where the rest of it is bound to. -/
theorem Suspended.drive_meets (between : W → W × Option ρ)
    (hbetween : ∀ w, env.change w (between w).1) {s : Suspended I α} {w : W}
    (h : s.Meets host env inv post w) :
    Ending.Meets host env between inv post (s.drive host between w) := by
  cases s with
  | ready next => exact next.drive_meets between hbetween (h w (env.refl w))
  | waiting d r polls next =>
    apply Routine.waitOut_meets hbetween
    · intro w' hw'
      exact (next _).drive_meets between hbetween hw'
    · exact h

/-- A run to the end. -/
theorem Routine.run_meets {t : Routine I α} {w : W}
    (h : t.Meets host (.still W) inv post w) :
    post (t.run host w).2 (t.run host w).1 := by
  have hend := t.drive_meets (ρ := Empty) (fun w => (w, none)) (fun _ => rfl) h
  unfold Routine.run
  split
  · rename_i heq
    rw [heq] at hend
    exact hend
  · rename_i heq
    rw [heq] at hend
    exact hend
  · rename_i why _ _
    exact nomatch why

end

end SlotVerify
