import SlotVerify.Proofs.Routine.Meets
/-
  What happens on the way through a routine.

  A `Happening` is one thing that a routine does, together with what it is answered: a call, a
  request to a device, or giving way.  `t.Reaches es u` says that these happenings lead from `t`
  to `u`.  The answers are arbitrary, so the passages from a routine cover every run of it in every
  host, and every run that is left on the way (`Routine.drive_reaches`).

  A passage through a sequence either stays inside the first part or has come through it
  (`Routine.reaches_bind`).  A whole run of a sequence is a run of the first part and then one of
  the second (`Routine.run_bind`).
-/

namespace SlotVerify

open Device

/-- One thing that a routine does, and its outcome. -/
inductive Happening (I : Interface) where
  | called (c : I.Call) (answer : I.Answer c)
  | served (device : I.Device) (r : Request) (outcome : Except IoError r.Reply)
  | paused

variable {I J : Interface} {α β ρ W : Type}

/-- A step that is permitted. -/
def Happening.Permitted (okCall : I.Call → Prop)
    (okRequest : I.Device → Request → Prop) : Happening I → Prop
  | .called c _ => okCall c
  | .served d r _ => okRequest d r
  | .paused => True

theorem Happening.Permitted.mono {okCall okCall' : I.Call → Prop}
    {okRequest okRequest' : I.Device → Request → Prop} {e : Happening I}
    (h : e.Permitted okCall okRequest) (hcall : ∀ c, okCall c → okCall' c)
    (hrequest : ∀ d r, okRequest d r → okRequest' d r) : e.Permitted okCall' okRequest' := by
  cases e with
  | called c answer => exact hcall c h
  | served d r outcome => exact hrequest d r h
  | paused => trivial

theorem Happening.permitted_true (e : Happening I) :
    e.Permitted (fun _ => True) fun _ _ => True := by
  cases e <;> trivial

/-- The same thing done on a device of another interface. -/
def Happening.onDevice (noCalls : I.Call → Empty) (device : I.Device → J.Device) :
    Happening I → Happening J
  | .called c _ => nomatch noCalls c
  | .served d r outcome => .served (device d) r outcome
  | .paused => .paused

namespace Routine

/-- The happenings lead from a routine to what is left of it. -/
inductive Reaches : Routine I α → List (Happening I) → Routine I α → Prop where
  | refl (t : Routine I α) : Reaches t [] t
  | call {c : I.Call} {next : I.Answer c → Routine I α} {u : Routine I α}
      {es : List (Happening I)} (answer : I.Answer c) (h : Reaches (next answer) es u) :
      Reaches (.call c next) (.called c answer :: es) u
  | request {d : I.Device} {r : Request} {next : Except IoError r.Reply → Routine I α}
      {u : Routine I α} {es : List (Happening I)} (outcome : Except IoError r.Reply)
      (h : Reaches (next outcome) es u) :
      Reaches (.request d r next) (.served d r outcome :: es) u
  | pause {next u : Routine I α} {es : List (Happening I)} (h : Reaches next es u) :
      Reaches (.pause next) (.paused :: es) u

/-- One passage after another. -/
theorem Reaches.trans {t u v : Routine I α} {es es' : List (Happening I)} (h : t.Reaches es u)
    (h' : u.Reaches es' v) : t.Reaches (es ++ es') v := by
  induction h with
  | refl t => exact h'
  | call answer _ ih => exact .call answer (ih h')
  | request outcome _ ih => exact .request outcome (ih h')
  | pause _ ih => exact .pause (ih h')

/-- A passage has come through every place on its way. -/
theorem Reaches.append_cases {v : Routine I α} {es es' : List (Happening I)} :
    ∀ {t : Routine I α}, t.Reaches (es ++ es') v → ∃ u, t.Reaches es u ∧ u.Reaches es' v := by
  induction es with
  | nil => exact fun h => ⟨_, .refl _, h⟩
  | cons e es ih =>
    intro t h
    cases h with
    | call answer h =>
      obtain ⟨u, hfirst, hsecond⟩ := ih h
      exact ⟨u, .call answer hfirst, hsecond⟩
    | request outcome h =>
      obtain ⟨u, hfirst, hsecond⟩ := ih h
      exact ⟨u, .request outcome hfirst, hsecond⟩
    | pause h =>
      obtain ⟨u, hfirst, hsecond⟩ := ih h
      exact ⟨u, .pause hfirst, hsecond⟩

/-- Where a passage leads is determined by what has happened. -/
theorem Reaches.unique {t u v : Routine I α} {es : List (Happening I)} (h : t.Reaches es u)
    (h' : t.Reaches es v) : u = v := by
  induction h with
  | refl t =>
    cases h'
    rfl
  | call answer _ ih =>
    cases h' with
    | call _ h' => exact ih h'
  | request outcome _ ih =>
    cases h' with
    | request _ h' => exact ih h'
  | pause _ ih =>
    cases h' with
    | pause h' => exact ih h'

/-- A longer passage goes on from where a shorter one leads. -/
theorem Reaches.behind {t u v : Routine I α} {es es' : List (Happening I)} (h : t.Reaches es u)
    (h' : t.Reaches (es ++ es') v) : u.Reaches es' v := by
  obtain ⟨u', hfirst, hsecond⟩ := h'.append_cases
  rwa [h.unique hfirst]

/-- Something is left to do. -/
def Unfinished (t : Routine I α) : Prop := ∀ a, t ≠ .done a

theorem unfinished_call (c : I.Call) (next : I.Answer c → Routine I α) :
    (call c next).Unfinished := nofun

theorem unfinished_request (d : I.Device) (r : Request)
    (next : Except IoError r.Reply → Routine I α) : (request d r next).Unfinished := nofun

theorem unfinished_pause (next : Routine I α) : (pause next).Unfinished := nofun

theorem unfinished_broken : (broken : Routine I α).Unfinished := nofun

theorem Unfinished.bind {t : Routine I α} (h : t.Unfinished) (f : α → Routine I β) :
    (t.bind f).Unfinished := by
  cases t with
  | done a => exact absurd rfl (h a)
  | call c next => exact unfinished_call _ _
  | request d r next => exact unfinished_request _ _ _
  | pause next => exact unfinished_pause _
  | broken => exact unfinished_broken

/-- Nothing happens in a finished routine. -/
theorem reaches_done {a : α} {es : List (Happening I)} {u : Routine I α}
    (h : (done a).Reaches es u) : es = [] ∧ u = .done a := by
  cases h
  exact ⟨rfl, rfl⟩

/-- A passage through the first part of a sequence. -/
theorem Reaches.bind {t u : Routine I α} {es : List (Happening I)} (h : t.Reaches es u)
    (f : α → Routine I β) : (t.bind f).Reaches es (u.bind f) := by
  induction h with
  | refl t => exact .refl _
  | call answer _ ih => exact .call answer ih
  | request outcome _ ih => exact .request outcome ih
  | pause _ ih => exact .pause ih

/-- A passage through a sequence ends inside the first part, or it has come through it. -/
theorem reaches_bind {f : α → Routine I β} {u : Routine I β} (t : Routine I α) :
    ∀ {es : List (Happening I)}, (t.bind f).Reaches es u →
      (∃ t', t.Reaches es t' ∧ t'.Unfinished ∧ u = t'.bind f) ∨
      ∃ es₁ a es₂, es = es₁ ++ es₂ ∧ t.Reaches es₁ (.done a) ∧ (f a).Reaches es₂ u := by
  induction t with
  | done a =>
    intro es h
    exact .inr ⟨[], a, es, rfl, .refl _, h⟩
  | call c next ih =>
    intro es h
    cases h with
    | refl => exact .inl ⟨.call c next, .refl _, unfinished_call _ _, rfl⟩
    | call answer h =>
      rcases ih answer h with ⟨t', ht', hleft, rfl⟩ | ⟨es₁, a, es₂, rfl, ht, hf⟩
      · exact .inl ⟨t', .call answer ht', hleft, rfl⟩
      · exact .inr ⟨_ :: es₁, a, es₂, rfl, .call answer ht, hf⟩
  | request d r next ih =>
    intro es h
    cases h with
    | refl => exact .inl ⟨.request d r next, .refl _, unfinished_request _ _ _, rfl⟩
    | request outcome h =>
      rcases ih outcome h with ⟨t', ht', hleft, rfl⟩ | ⟨es₁, a, es₂, rfl, ht, hf⟩
      · exact .inl ⟨t', .request outcome ht', hleft, rfl⟩
      · exact .inr ⟨_ :: es₁, a, es₂, rfl, .request outcome ht, hf⟩
  | pause next ih =>
    intro es h
    cases h with
    | refl => exact .inl ⟨.pause next, .refl _, unfinished_pause _, rfl⟩
    | pause h =>
      rcases ih h with ⟨t', ht', hleft, rfl⟩ | ⟨es₁, a, es₂, rfl, ht, hf⟩
      · exact .inl ⟨t', .pause ht', hleft, rfl⟩
      · exact .inr ⟨_ :: es₁, a, es₂, rfl, .pause ht, hf⟩
  | broken =>
    intro es h
    cases h
    exact .inl ⟨.broken, .refl _, unfinished_broken, rfl⟩

/-- A routine of permitted steps goes through permitted steps only. -/
theorem Only.reaches {okCall : I.Call → Prop} {okRequest : I.Device → Request → Prop}
    {okResult : α → Prop} {t u : Routine I α} {es : List (Happening I)} (h : t.Reaches es u)
    (ht : t.Only okCall okRequest okResult) :
    (∀ e ∈ es, e.Permitted okCall okRequest) ∧ u.Only okCall okRequest okResult := by
  induction h with
  | refl t => exact ⟨nofun, ht⟩
  | call answer h ih =>
    obtain ⟨hes, hu⟩ := ih (ht.2 answer)
    exact ⟨List.forall_mem_cons.mpr ⟨ht.1, hes⟩, hu⟩
  | request outcome h ih =>
    obtain ⟨hes, hu⟩ := ih (ht.2 outcome)
    exact ⟨List.forall_mem_cons.mpr ⟨ht.1, hes⟩, hu⟩
  | pause h ih =>
    obtain ⟨hes, hu⟩ := ih ht
    exact ⟨List.forall_mem_cons.mpr ⟨trivial, hes⟩, hu⟩

/-! ## On another interface -/

/-- A passage on a device of another interface is one of the original routine. -/
theorem exists_reaches_of_onDevice {noCalls : I.Call → Empty}
    {device : I.Device → J.Device} (t : Routine I α) :
    ∀ {es : List (Happening J)} {u : Routine J α}, (t.onDevice noCalls device).Reaches es u →
      ∃ es' u', t.Reaches es' u' ∧ es = es'.map (·.onDevice noCalls device) ∧
        u = u'.onDevice noCalls device := by
  induction t with
  | done a =>
    intro es u h
    obtain ⟨rfl, rfl⟩ := reaches_done h
    exact ⟨[], .done a, .refl _, rfl, rfl⟩
  | call c next ih => exact nomatch noCalls c
  | request d r next ih =>
    intro es u h
    cases h with
    | refl => exact ⟨[], _, .refl _, rfl, rfl⟩
    | request outcome h =>
      obtain ⟨es', u', ht, rfl, rfl⟩ := ih outcome h
      exact ⟨_, u', .request outcome ht, rfl, rfl⟩
  | pause next ih =>
    intro es u h
    cases h with
    | refl => exact ⟨[], _, .refl _, rfl, rfl⟩
    | pause h =>
      obtain ⟨es', u', ht, rfl, rfl⟩ := ih h
      exact ⟨_, u', .pause ht, rfl, rfl⟩
  | broken =>
    intro es u h
    cases h
    exact ⟨[], .broken, .refl _, rfl, rfl⟩

/-- It comes to its end where the original routine does. -/
theorem exists_reaches_done_of_onDevice {noCalls : I.Call → Empty} {device : I.Device → J.Device}
    (t : Routine I α) {es : List (Happening J)} {a : α}
    (h : (t.onDevice noCalls device).Reaches es (.done a)) :
    ∃ es', t.Reaches es' (.done a) ∧ es = es'.map (·.onDevice noCalls device) := by
  obtain ⟨es', u, ht, rfl, hu⟩ := t.exists_reaches_of_onDevice h
  cases u with
  | done b =>
    cases hu
    exact ⟨es', ht, rfl⟩
  | call c _ => exact nomatch noCalls c
  | _ => cases hu

/-! ## Carrying a value -/

/-- A value that is handed from call to call: `use` says what a call makes of it and how it is
    answered. -/
inductive Carried {σ : Type} (use : σ → (c : I.Call) → I.Answer c → σ → Prop) :
    σ → List (Happening I) → σ → Prop where
  | nil (s : σ) : Carried use s [] s
  | called {s s' s'' : σ} {c : I.Call} {answer : I.Answer c} {es : List (Happening I)}
      (huse : use s c answer s') (h : Carried use s' es s'') :
      Carried use s (.called c answer :: es) s''
  | served {s s' : σ} {d : I.Device} {r : Request} {outcome : Except IoError r.Reply}
      {es : List (Happening I)} (h : Carried use s es s') :
      Carried use s (.served d r outcome :: es) s'
  | paused {s s' : σ} {es : List (Happening I)} (h : Carried use s es s') :
      Carried use s (.paused :: es) s'

/-- The value is carried on. -/
theorem Carried.append {σ : Type} {use : σ → (c : I.Call) → I.Answer c → σ → Prop} {s s' s'' : σ}
    {es es' : List (Happening I)} (h : Carried use s es s') (h' : Carried use s' es' s'') :
    Carried use s (es ++ es') s'' := by
  induction h with
  | nil s => exact h'
  | called huse _ ih => exact .called huse (ih h')
  | served _ ih => exact .served (ih h')
  | paused _ ih => exact .paused (ih h')

/-- Along a sequence of happenings the value is carried through the first ones first. -/
theorem Carried.append_cases {σ : Type} {use : σ → (c : I.Call) → I.Answer c → σ → Prop}
    {es es' : List (Happening I)} : ∀ {s s' : σ}, Carried use s (es ++ es') s' →
      ∃ middle, Carried use s es middle ∧ Carried use middle es' s' := by
  induction es with
  | nil => exact fun h => ⟨_, .nil _, h⟩
  | cons e es ih =>
    intro s s' h
    cases h with
    | called huse h =>
      obtain ⟨middle, hfirst, hsecond⟩ := ih h
      exact ⟨middle, .called huse hfirst, hsecond⟩
    | served h =>
      obtain ⟨middle, hfirst, hsecond⟩ := ih h
      exact ⟨middle, .served hfirst, hsecond⟩
    | paused h =>
      obtain ⟨middle, hfirst, hsecond⟩ := ih h
      exact ⟨middle, .paused hfirst, hsecond⟩

/-- A computation over another interface that comes to its end has come through the original one,
    and its state has been carried along. -/
theorem reaches_interpret {σ : Type} {use : σ → (c : I.Call) → I.Answer c → σ → Prop}
    {call : σ → (c : I.Call) → Routine J (I.Answer c × σ)} {device : I.Device → J.Device}
    (hcall : ∀ {s c es x s'}, (call s c).Reaches es (.done (x, s')) → use s c x s')
    (t : Routine I α) : ∀ {s s' : σ} {es : List (Happening J)} {a : α},
      (t.interpret call device s).Reaches es (.done (a, s')) →
      ∃ es', t.Reaches es' (.done a) ∧ Carried use s es' s' := by
  induction t with
  | done a =>
    intro s s' es a' h
    obtain ⟨-, hdone⟩ := reaches_done h
    cases hdone
    exact ⟨[], .refl _, .nil _⟩
  | call c next ih =>
    intro s s' es a h
    rcases reaches_bind _ h with ⟨t', -, hleft, hdone⟩ | ⟨es₁, ⟨x, s₁⟩, es₂, -, hx, hnext⟩
    · exact absurd hdone.symm (hleft.bind _ _)
    · obtain ⟨es', ht, hcarried⟩ := ih x hnext
      exact ⟨_, .call x ht, .called (hcall hx) hcarried⟩
  | request d r next ih =>
    intro s s' es a h
    cases h with
    | request outcome h =>
      obtain ⟨es', ht, hcarried⟩ := ih outcome h
      exact ⟨_, .request outcome ht, .served hcarried⟩
  | pause next ih =>
    intro s s' es a h
    cases h with
    | pause h =>
      obtain ⟨es', ht, hcarried⟩ := ih h
      exact ⟨_, .pause ht, .paused hcarried⟩
  | broken =>
    intro s s' es a h
    cases h

/-! ## Runs -/

/-- Where a run has arrived is reached by some happenings, also if the run was left on the way. -/
def Passes (t : Routine I α) : Ending I ρ α → Prop
  | .finished a => ∃ es, t.Reaches es (.done a)
  | .interrupted _ (.ready next) => ∃ es, t.Reaches es (.pause next)
  | .interrupted _ (.waiting d r _ next) => ∃ es, t.Reaches es (.request d r next)
  | .broken => ∃ es, t.Reaches es .broken

theorem Passes.cons {t t' : Routine I α} {e : Happening I}
    (hcons : ∀ {es u}, t.Reaches es u → t'.Reaches (e :: es) u) {ending : Ending I ρ α}
    (h : t.Passes ending) : t'.Passes ending := by
  match ending, h with
  | .finished _, ⟨es, h⟩ => exact ⟨_, hcons h⟩
  | .interrupted _ (.ready _), ⟨es, h⟩ => exact ⟨_, hcons h⟩
  | .interrupted _ (.waiting ..), ⟨es, h⟩ => exact ⟨_, hcons h⟩
  | .broken, ⟨es, h⟩ => exact ⟨_, hcons h⟩

/-- A pending request is waited for until it is due or the run is left. -/
theorem waitOut_cases (between : W → W × Option ρ) (d : I.Device) (r : Request)
    (next : Except IoError r.Reply → Routine I α) (resume : W → W × Ending I ρ α) (polls : Nat) :
    ∀ w, (∃ w', waitOut between d r next resume polls w = resume w') ∨
      ∃ why left, (waitOut between d r next resume polls w).2 =
        .interrupted why (.waiting d r left next) := by
  induction polls with
  | zero => exact fun w => .inl ⟨w, rfl⟩
  | succ polls ih =>
    intro w
    unfold waitOut
    split
    · exact .inr ⟨_, _, rfl⟩
    · exact ih _

/-- A run is a passage, in whatever host. -/
theorem drive_passes (host : Host I W) (between : W → W × Option ρ) (t : Routine I α) :
    ∀ w, t.Passes (t.drive host between w).2 := by
  induction t with
  | done a => exact fun _ => ⟨[], .refl _⟩
  | call c next ih =>
    intro w
    exact (ih _ _).cons (.call _)
  | request d r next ih =>
    intro w
    unfold drive
    split
    · exact (ih _ _).cons (.request _)
    · rename_i w' polls _
      dsimp only
      rcases waitOut_cases between d r next _ polls w' with ⟨w'', hdue⟩ | ⟨why, left, hwaiting⟩
      · rw [hdue]
        exact (ih _ _).cons (.request _)
      · rw [hwaiting]
        exact ⟨[], .refl _⟩
  | pause next ih =>
    intro w
    unfold drive
    split
    · exact ⟨[], .refl _⟩
    · exact (ih _).cons .pause
  | broken => exact fun _ => ⟨[], .refl _⟩

/-! ### To the end -/

theorem run_request (host : Host I W) (d : I.Device) (r : Request)
    (next : Except IoError r.Reply → Routine I α) (w : W) :
    (request d r next).run host w =
      match host.submit w d r with
      | (w, .error e) => (next (.error e)).run host w
      | (w, .ok _) => (next (host.complete w d r).2).run host (host.complete w d r).1 := by
  have hwait : ∀ (polls : Nat) (w : W) (resume : W → W × Ending I Empty α),
      waitOut (fun w => (w, none)) d r next resume polls w = resume w := by
    intro polls
    induction polls with
    | zero => exact fun _ _ => rfl
    | succ polls ih => exact fun w resume => ih w resume
  unfold run
  rw [drive]
  obtain ⟨w', outcome⟩ := host.submit w d r
  cases outcome with
  | error e => rfl
  | ok polls =>
    dsimp only
    rw [hwait]

/-- A run of a sequence is a run of its first part, and one of the second from where that ends. -/
theorem run_bind (host : Host I W) (f : α → Routine I β) (t : Routine I α) :
    ∀ w, (t.bind f).run host w =
      match t.run host w with
      | (w, some a) => (f a).run host w
      | (w, none) => (w, none) := by
  induction t with
  | done a => exact fun w => rfl
  | call c next ih => exact fun w => ih _ _
  | request d r next ih =>
    intro w
    rw [bind, run_request, run_request]
    split
    · exact ih _ _
    · exact ih _ _
  | pause next ih => exact fun w => ih w
  | broken => exact fun w => rfl

/-- A run to the end is a passage to the end. -/
theorem exists_reaches_of_run {host : Host I W} {t : Routine I α} {w : W} {a : α}
    (h : (t.run host w).2 = some a) : ∃ es, t.Reaches es (.done a) := by
  have hpasses := t.drive_passes (ρ := Empty) host (fun w => (w, none)) w
  unfold run at h
  split at h
  · rename_i hdrive
    cases h
    rwa [hdrive] at hpasses
  · cases h
  · rename_i why _ _
    exact nomatch why

end Routine

end SlotVerify
