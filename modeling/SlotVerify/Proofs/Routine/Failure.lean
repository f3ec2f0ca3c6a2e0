import SlotVerify.Proofs.Routine.Record
/-
  Requests that fail.

  A routine is `Strict` if a request that fails is the last thing it does, and the error of the
  request is what it ends with.  This is shown part by part (`Routine.strict_bind`), and it holds
  wherever a passage has come to (`Routine.Strict.ends`).

  In a record a request that fails has been refused, or it has been taken and has failed when it was
  carried out.  Either way it has one place in the passage (`Recorded.cut_failed`).
-/

namespace SlotVerify

open Device

variable {I J : Interface} {ε α β : Type}

namespace Routine

/-- Whichever request fails, the routine ends with its error. -/
def Strict (fails : IoError → ε) : Routine I (Except ε α) → Prop
  | .done _ => True
  | .call _ next => ∀ x, (next x).Strict fails
  | .request _ _ next =>
    (∀ e, next (.error e) = .done (.error (fails e))) ∧ ∀ x, (next x).Strict fails
  | .pause next => next.Strict fails
  | .broken => True

variable {fails : IoError → ε}

/-- A sequence is strict if its parts are, and it passes an error on. -/
theorem strict_bind {t : Routine I (Except ε α)} {f : Except ε α → Routine I (Except ε β)}
    (ht : t.Strict fails) (hf : ∀ a, (f (.ok a)).Strict fails)
    (herror : ∀ e, f (.error e) = .done (.error e)) : (t.bind f).Strict fails := by
  induction t with
  | done outcome =>
    cases outcome with
    | ok a => exact hf a
    | error e =>
      show (f (.error e)).Strict fails
      rw [herror]
      trivial
  | call c next ih => exact fun x => ih x (ht x)
  | request d r next ih =>
    refine ⟨fun e => ?_, fun x => ih x (ht.2 x)⟩
    show (next (.error e)).bind f = _
    rw [ht.1 e]
    exact herror _
  | pause next ih => exact ih ht
  | broken => trivial

theorem Strict.onDevice {noCalls : I.Call → Empty} {device : I.Device → J.Device}
    {t : Routine I (Except ε α)} (h : t.Strict fails) :
    (t.onDevice noCalls device).Strict fails := by
  induction t with
  | done outcome => trivial
  | call c next ih => exact nomatch noCalls c
  | request d r next ih =>
    refine ⟨fun e => ?_, fun x => ih x (h.2 x)⟩
    show (next (.error e)).onDevice noCalls device = _
    rw [h.1 e]
    rfl
  | pause next ih => exact ih h
  | broken => trivial

/-- What is left of a strict routine is strict. -/
theorem Strict.reaches {t u : Routine I (Except ε α)} {es : List (Happening I)}
    (h : t.Reaches es u) (ht : t.Strict fails) : u.Strict fails := by
  induction h with
  | refl t => exact ht
  | call answer h ih => exact ih (ht answer)
  | request outcome h ih => exact ih (ht.2 outcome)
  | pause h ih => exact ih ht

/-- A request that fails is the end of a strict routine. -/
theorem Strict.ends {t : Routine I (Except ε α)} {es : List (Happening I)} {d : I.Device}
    {r : Request} {next : Except IoError r.Reply → Routine I (Except ε α)} (ht : t.Strict fails)
    (h : t.Reaches es (.request d r next)) (e : IoError) :
    next (.error e) = .done (.error (fails e)) :=
  (ht.reaches h).1 e

end Routine

/-! ## In a record -/

/-- The request has failed here: it has been refused, or it could not be carried out. -/
def Dealing.FailsWith (d : I.Device) (r : Request) (e : IoError) (x : Dealing I) : Prop :=
  x = .submitted d r (.error e) ∨ x = .completed d r (.error e)

/-- A dealing that is permitted. -/
def Dealing.Permitted (okCall : I.Call → Prop) (okRequest : I.Device → Request → Prop) :
    Dealing I → Prop
  | .called c _ => okCall c
  | .submitted d r _ | .completed d r _ => okRequest d r

/-- The record of permitted steps has permitted dealings. -/
theorem Recorded.permitted {okCall : I.Call → Prop} {okRequest : I.Device → Request → Prop}
    {es : List (Happening I)} {ds : List (Dealing I)} (h : Recorded es ds)
    (hes : ∀ e ∈ es, e.Permitted okCall okRequest) : ∀ x ∈ ds, x.Permitted okCall okRequest := by
  induction h with
  | nil => exact nofun
  | called _ ih =>
    obtain ⟨hfirst, hrest⟩ := List.forall_mem_cons.mp hes
    exact List.forall_mem_cons.mpr ⟨hfirst, ih hrest⟩
  | refused _ ih =>
    obtain ⟨hfirst, hrest⟩ := List.forall_mem_cons.mp hes
    exact List.forall_mem_cons.mpr ⟨hfirst, ih hrest⟩
  | served _ ih =>
    obtain ⟨hfirst, hrest⟩ := List.forall_mem_cons.mp hes
    exact List.forall_mem_cons.mpr ⟨hfirst, List.forall_mem_cons.mpr ⟨hfirst, ih hrest⟩⟩
  | paused _ ih => exact ih (List.forall_mem_cons.mp hes).2

/-- What has been carried out has been taken directly before. -/
theorem Recorded.submitted_before {es : List (Happening I)} {ds : List (Dealing I)}
    (h : Recorded es ds) {d : I.Device} {r : Request} {outcome : Except IoError r.Reply}
    {after : List (Dealing I)} :
    ∀ {before}, ds = before ++ .completed d r outcome :: after →
      ∃ first polls, before = first ++ [.submitted d r (.ok polls)] := by
  induction h with
  | nil =>
    intro before heq
    cases before <;> cases heq
  | called _ ih =>
    intro before heq
    cases before with
    | nil => cases heq
    | cons x before =>
      obtain ⟨first, polls, rfl⟩ := ih (List.cons.inj heq).2
      exact ⟨x :: first, polls, rfl⟩
  | refused _ ih =>
    intro before heq
    cases before with
    | nil => cases heq
    | cons x before =>
      obtain ⟨first, polls, rfl⟩ := ih (List.cons.inj heq).2
      exact ⟨x :: first, polls, rfl⟩
  | served _ ih =>
    intro before heq
    match before with
    | [] => cases heq
    | [x] =>
      obtain ⟨rfl, hcompleted⟩ := List.cons.inj heq
      cases hcompleted
      exact ⟨[], _, rfl⟩
    | x :: y :: before =>
      obtain ⟨first, polls, rfl⟩ := ih (List.cons.inj (List.cons.inj heq).2).2
      exact ⟨x :: y :: first, polls, rfl⟩
  | paused _ ih => exact fun heq => ih heq

/-- A request in a record has its place in the passage, and so has what comes behind it. -/
theorem Recorded.cut_request {es : List (Happening I)} {before after : List (Dealing I)}
    {d : I.Device} {r : Request} {taken : Except IoError Nat}
    (h : Recorded es (before ++ .submitted d r taken :: after)) :
    ∃ es₁ outcome es₂, es = es₁ ++ .served d r outcome :: es₂ ∧ Recorded es₁ before ∧
      Recorded (.served d r outcome :: es₂) (.submitted d r taken :: after) := by
  obtain ⟨es₁, es₂, rfl, hfirst, hsecond, hpause⟩ := h.cut (by simp) rfl
  cases hsecond with
  | refused hafter => exact ⟨es₁, _, _, rfl, hfirst, .refused hafter⟩
  | served hafter => exact ⟨es₁, _, _, rfl, hfirst, .served hafter⟩
  | paused _ => exact absurd rfl (hpause _)

/-- What comes behind the request can be cut wherever the passage can. -/
theorem Recorded.behind_request {es es' : List (Happening I)} {x : Dealing I}
    {after : List (Dealing I)} {d : I.Device} {r : Request} {outcome : Except IoError r.Reply}
    (h : Recorded (.served d r outcome :: (es ++ es')) (x :: after)) :
    ∃ first last, after = first ++ last ∧ Recorded (.served d r outcome :: es) (x :: first) ∧
      Recorded es' last := by
  rw [← List.cons_append] at h
  obtain ⟨first, last, heq, hfirst, hlast⟩ := h.append_cases
  cases first with
  | nil => cases hfirst
  | cons y first =>
    obtain ⟨rfl, rfl⟩ := List.cons.inj heq
    exact ⟨first, last, rfl, hfirst, hlast⟩

/-- So has one that has failed, at whichever stage. -/
theorem Recorded.cut_failed {es : List (Happening I)} {before after : List (Dealing I)}
    {x : Dealing I} {d : I.Device} {r : Request} {e : IoError} (hx : x.FailsWith d r e)
    (h : Recorded es (before ++ x :: after)) :
    ∃ es₁ es₂ earlier, es = es₁ ++ .served d r (.error e) :: es₂ ∧ Recorded es₁ earlier ∧
      Recorded es₂ after ∧
      (before = earlier ∨ ∃ polls, before = earlier ++ [.submitted d r (.ok polls)]) := by
  rcases hx with rfl | rfl
  · obtain ⟨es₁, outcome, es₂, rfl, hfirst, hrest⟩ := h.cut_request
    cases hrest with
    | refused hafter => exact ⟨es₁, es₂, before, rfl, hfirst, hafter, .inl rfl⟩
  · obtain ⟨first, polls, rfl⟩ := h.submitted_before rfl
    rw [List.append_assoc] at h
    obtain ⟨es₁, outcome, es₂, rfl, hfirst, hrest⟩ := h.cut_request
    cases hrest with
    | served hafter => exact ⟨es₁, es₂, first, rfl, hfirst, hafter, .inr ⟨polls, rfl⟩⟩

end SlotVerify
