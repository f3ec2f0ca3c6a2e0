import SlotVerify.Proofs.Routine.Record
/-
  Calls that depend on the calls before them.

  A `Guide` follows the calls of a routine and keeps a state of its own: which calls it allows
  depends on the state, and so does what a call makes of it.  `Routine.Follows` says that a routine
  makes only calls that are allowed, whatever it is answered, and in which state it may end.

  It is defined by recursion on the tree, so it is shown part by part (`Routine.follows_bind`).  It
  holds of every passage (`Routine.Follows.reaches`), and thereby of every record, which has just
  the calls of its passage (`Routine.Arrives.calls_eq`).
-/

namespace SlotVerify

open Device

variable {I : Interface} {α β ρ σ : Type}

/-- Which calls are allowed in a state, and to which state they lead. -/
structure Guide (I : Interface) (σ : Type) where
  Allows : σ → I.Call → Prop
  after : σ → I.Call → σ

/-- The calls are allowed, each in the state that the ones before it lead to. -/
def Guide.AllowsAll (g : Guide I σ) : σ → List I.Call → Prop
  | _, [] => True
  | s, c :: cs => g.Allows s c ∧ g.AllowsAll (g.after s c) cs

/-- The call that has happened, if it was one. -/
def Happening.call? : Happening I → Option I.Call
  | .called c _ => some c
  | .served .. | .paused => none

/-- The call that was dealt with, if it was one. -/
def Dealing.call? : Dealing I → Option I.Call
  | .called c _ => some c
  | .submitted .. | .completed .. => none

namespace Routine

/-- Every call is allowed where it is made, and the result is a permitted one in the state that the
    calls have led to. -/
def Follows (g : Guide I σ) (okResult : α → σ → Prop) : Routine I α → σ → Prop
  | .done a, s => okResult a s
  | .call c next, s => g.Allows s c ∧ ∀ x, (next x).Follows g okResult (g.after s c)
  | .request _ _ next, s => ∀ x, (next x).Follows g okResult s
  | .pause next, s => next.Follows g okResult s
  | .broken, _ => True

variable {g : Guide I σ} {okMiddle : α → σ → Prop} {okResult : β → σ → Prop}

/-- A sequence: the second part goes on in the state that the first one has led to. -/
theorem follows_bind {t : Routine I α} {f : α → Routine I β}
    (hf : ∀ a s, okMiddle a s → (f a).Follows g okResult s) :
    ∀ {s}, t.Follows g okMiddle s → (t.bind f).Follows g okResult s := by
  induction t with
  | done a => exact fun h => hf _ _ h
  | call c next ih => exact fun h => ⟨h.1, fun x => ih x (h.2 x)⟩
  | request d r next ih => exact fun h x => ih x (h x)
  | pause next ih => exact fun h => ih h
  | broken => exact fun _ => trivial

/-- Calls that are allowed in a state and do not change it. -/
theorem Only.follows {okCall : I.Call → Prop} {okRequest : I.Device → Request → Prop}
    {ok : α → Prop} {s : σ} (hsteady : ∀ c, okCall c → g.Allows s c ∧ g.after s c = s)
    {t : Routine I α} (h : t.Only okCall okRequest ok) :
    t.Follows g (fun a s' => ok a ∧ s' = s) s := by
  induction t with
  | done a => exact ⟨h, rfl⟩
  | call c next ih =>
    obtain ⟨hallows, hafter⟩ := hsteady c h.1
    refine ⟨hallows, ?_⟩
    intro x
    rw [hafter]
    exact ih x (h.2 x)
  | request d r next ih => exact fun x => ih x (h.2 x)
  | pause next ih => exact ih h
  | broken => trivial

/-- So it holds of the calls of every passage, and of what is left behind them. -/
theorem Follows.reaches {t u : Routine I α} {es : List (Happening I)} (h : t.Reaches es u) :
    ∀ {s}, t.Follows g okMiddle s → g.AllowsAll s (es.filterMap Happening.call?) ∧
      u.Follows g okMiddle ((es.filterMap Happening.call?).foldl g.after s) := by
  induction h with
  | refl t => exact fun h => ⟨trivial, h⟩
  | @call c next u es answer _ ih =>
    intro s h
    obtain ⟨hall, hu⟩ := ih (h.2 answer)
    exact ⟨⟨h.1, hall⟩, hu⟩
  | request outcome _ ih => exact fun h => ih (h outcome)
  | pause _ ih => exact fun h => ih h

end Routine

/-! ## Records -/

/-- The record has the calls of the passage, in their order. -/
theorem Recorded.calls_eq {es : List (Happening I)} {ds : List (Dealing I)} (h : Recorded es ds) :
    ds.filterMap Dealing.call? = es.filterMap Happening.call? := by
  induction h with
  | nil => rfl
  | called _ ih => exact congrArg (_ :: ·) ih
  | refused _ ih => exact ih
  | served _ ih => exact ih
  | paused _ ih => exact ih

theorem Routine.Arrives.calls_eq {t : Routine I α} {es : List (Happening I)}
    {record : List (Dealing I)} {ending : Ending I ρ α} (h : t.Arrives es record ending) :
    record.filterMap Dealing.call? = es.filterMap Happening.call? := by
  obtain ⟨-, ds, last, rfl, hds, hlast⟩ := h
  rw [List.filterMap_append, hds.calls_eq]
  rcases Ending.notes_cases hlast with rfl | ⟨_, _, _, _, _, _, -, rfl⟩ <;> exact List.append_nil _

end SlotVerify
