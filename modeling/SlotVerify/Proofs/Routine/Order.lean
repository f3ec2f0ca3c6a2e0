import SlotVerify.Proofs.Routine.Record
/-
  What follows a call.

  `Routine.Orderly` says of a routine which calls it may make and what it does directly after each
  of them.  It is defined by recursion on the tree, so it is shown part by part
  (`Routine.orderly_bind`), and it holds of every passage, whatever is answered.

  A record of a passage keeps the order.  A run never stops between a call and what comes after it,
  so a call whose rule wants another call behind it has that call directly behind it
  (`Routine.Arrives.followed`), and one that has to be followed by giving way ends its poll
  (`Routine.Arrives.ends_poll`).
-/

namespace SlotVerify

open Device

variable {I J : Interface} {α β ρ : Type}

namespace Routine

/-- What a routine does first. -/
inductive Head (I : Interface) where
  | calls (c : I.Call)
  | requests
  | pauses
  | ends
  | breaks

/-- What this routine does first. -/
def head : Routine I α → Head I
  | .call c _ => .calls c
  | .request .. => .requests
  | .pause _ => .pauses
  | .done _ => .ends
  | .broken => .breaks

/-- The rule holds for every call and for what comes directly after it, whatever is answered, and
    the result is a permitted one. -/
def Orderly (rule : I.Call → Head I → Prop) (okResult : α → Prop) : Routine I α → Prop
  | .done a => okResult a
  | .call c next => ∀ x, rule c (next x).head ∧ (next x).Orderly rule okResult
  | .request _ _ next => ∀ x, (next x).Orderly rule okResult
  | .pause next => next.Orderly rule okResult
  | .broken => True

variable {rule : I.Call → Head I → Prop} {okMiddle okMiddle' : α → Prop} {okResult : β → Prop}

/-- A rule that lets a routine end after a call has to let anything come after that call. -/
def Lenient (rule : I.Call → Head I → Prop) : Prop := ∀ c, rule c .ends → ∀ h, rule c h

/-- A sequence: the second part need only behave after the results that the first one permits. -/
theorem orderly_bind (hends : Lenient rule) {t : Routine I α} {f : α → Routine I β}
    (ht : t.Orderly rule okMiddle) (hf : ∀ a, okMiddle a → (f a).Orderly rule okResult) :
    (t.bind f).Orderly rule okResult := by
  induction t with
  | done a => exact hf a ht
  | call c next ih =>
    intro x
    obtain ⟨hrule, hnext⟩ := ht x
    refine ⟨?_, ih x hnext⟩
    show rule c ((next x).bind f).head
    generalize next x = t at hrule
    cases t with
    | done a => exact hends c hrule _
    | _ => exact hrule
  | request d r next ih => exact fun x => ih x (ht x)
  | pause next ih => exact ih ht
  | broken => trivial

/-- Where no calls are made there is nothing to follow. -/
theorem orderly_onDevice {noCalls : J.Call → Empty} {device : J.Device → I.Device}
    (t : Routine J α) : (t.onDevice noCalls device).Orderly rule fun _ => True := by
  induction t with
  | done a => trivial
  | call c next ih => exact nomatch noCalls c
  | request d r next ih => exact ih
  | pause next ih => exact ih
  | broken => trivial

/-! ## Passages -/

/-- What comes first: the first happening, or else what the routine does where they end. -/
def headOf : List (Happening I) → Head I → Head I
  | [], h => h
  | .called c _ :: _, _ => .calls c
  | .served .. :: _, _ => .requests
  | .paused :: _, _ => .pauses

theorem Reaches.head_eq {t u : Routine I α} {es : List (Happening I)} (h : t.Reaches es u) :
    headOf es u.head = t.head := by
  cases h with
  | refl => rfl
  | call answer h => rfl
  | request outcome h => rfl
  | pause h => rfl

/-- What is left of an orderly routine is orderly. -/
theorem Orderly.reaches {okResult : α → Prop} {t u : Routine I α} {es : List (Happening I)}
    (h : t.Reaches es u) (ht : t.Orderly rule okResult) : u.Orderly rule okResult := by
  induction h with
  | refl => exact ht
  | call answer _ ih => exact ih (ht answer).2
  | request outcome _ ih => exact ih (ht outcome)
  | pause _ ih => exact ih ht

/-- On its way the rule holds. -/
theorem Orderly.rule_of_reaches {okResult : α → Prop} {t u : Routine I α}
    {es es' : List (Happening I)} {c : I.Call} {answer : I.Answer c}
    (ht : t.Orderly rule okResult) (h : t.Reaches (es ++ .called c answer :: es') u) :
    rule c (headOf es' u.head) := by
  obtain ⟨v, hfirst, hsecond⟩ := h.append_cases
  cases hsecond with
  | call answer hnext =>
    rw [hnext.head_eq]
    exact (ht.reaches hfirst answer).1

/-! ## Records -/

/-- No run is left at a call. -/
theorem head_node_ne_calls (ending : Ending I ρ α) (c : I.Call) :
    ending.node.head ≠ .calls c := by
  match ending with
  | .finished _ => exact nofun
  | .interrupted _ (.ready _) => exact nofun
  | .interrupted _ (.waiting ..) => exact nofun
  | .broken => exact nofun

section

variable {okResult : α → Prop} {t : Routine I α} {es : List (Happening I)}
  {ending : Ending I ρ α} {c c' : I.Call} {answer : I.Answer c}

/-- A call that has to be followed by another call is directly followed by it in every record. -/
theorem Arrives.followed {before after : List (Dealing I)} (ht : t.Orderly rule okResult)
    (hrule : ∀ h, rule c h → h = .calls c')
    (h : t.Arrives es (before ++ .called c answer :: after) ending) :
    ∃ answer' after', after = .called c' answer' :: after' := by
  obtain ⟨es₁, es₂, rfl, -, ds, last, rfl, hds, -⟩ := h.cut_called
  have hnext := hrule _ (ht.rule_of_reaches h.reaches)
  cases hds with
  | nil => exact absurd hnext (head_node_ne_calls ending c')
  | called _ =>
    cases hnext
    exact ⟨_, _, rfl⟩
  | refused _ => cases hnext
  | served _ => cases hnext
  | paused _ => cases hnext

/-- A call after which a routine has to give way ends the poll in which it is made. -/
theorem Arrives.ends_poll {new : List (Happening I)} {record : List (Dealing I)}
    (ht : t.Orderly rule okResult) (hrule : ∀ h, rule c h → h = .pauses)
    (h : t.Arrives (es ++ new) record ending) (hsteady : .paused ∉ new.tail)
    (hmem : .called c answer ∈ new) :
    (∃ why next, ending = .interrupted why (.ready next)) ∧
      ∃ before, record = before ++ [.called c answer] := by
  obtain ⟨first, later, rfl⟩ := List.append_of_mem hmem
  have hreaches := h.reaches
  rw [← List.append_assoc] at hreaches
  have hnext := hrule _ (ht.rule_of_reaches hreaches)
  cases later with
  | cons e later =>
    -- the pause would be part of the same poll
    cases e with
    | paused => cases first <;> simp at hsteady
    | _ => cases hnext
  | nil =>
    obtain ⟨-, ds, last, rfl, hds, hlast⟩ := h
    match ending, hnext, hlast with
    | .interrupted why (.ready next), _, hlast =>
      cases hlast
      rw [← List.append_assoc] at hds
      obtain ⟨before, last, rfl, -, hcall⟩ := hds.append_cases
      cases hcall with
      | called hnil =>
        cases hnil
        exact ⟨⟨why, next, rfl⟩, before, List.append_nil _⟩

end

end Routine

end SlotVerify
