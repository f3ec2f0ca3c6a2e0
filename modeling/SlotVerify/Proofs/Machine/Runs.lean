import SlotVerify.Proofs.Machine.Enacting
import SlotVerify.Proofs.Routine.Alike
import SlotVerify.Proofs.Verification.Chronicle
/-
  Machines that are polled again and again.

  1. **Ends** — `RunsTo` polls a machine until it is ready, with nothing happening in between.
     There is one end at most (`RunsTo.unique`); and a machine that enacts a routine comes to the
     end that the routine's run has (`Enacts.settles`), so there is one.

  2. **Dealings** — `Passes` is the way from one turn to another, with the dealings on it.  What a
     turn leads to is told together with the dealings so far (`Turn.Leads`), and goes from turn to
     turn up to the end of the poll (`Passes.leads`).

  3. **Polls** — `Polled` is a machine after some polls, between which anything may happen to the
     world; and `Resolves` says that it has a result after finitely many (`Enacts.resolves`).  The
     result of a machine that enacts a routine is one that the routine comes to
     (`Enacts.ready_of_polled`).
-/

namespace SlotVerify

open Device

/-- A run from a request on, by what becomes of its submission. -/
theorem Routine.run_submit {I : Interface} {W α : Type} (host : Host I W) {d : I.Device}
    {r : Request} (next : Except IoError r.Reply → Routine I α) {w w' : W}
    {placement : Placement r Nat} (h : host.place w d r = (w', placement)) :
    (request d r next).run host w = match placement.outcome with
      | .ok polls => (Suspended.waiting d r polls next).run host w'
      | .error e => (next (.error e)).run host w' := by
  have hsubmit : host.submit w d r = (w', placement.outcome) := by
    unfold Host.submit
    rw [h]
  rw [run_serve]
  cases houtcome : placement.outcome with
  | ok polls =>
    rw [Host.serve_taken (hsubmit.trans (by rw [houtcome]))]
    rfl
  | error e => rw [Host.serve_refused (hsubmit.trans (by rw [houtcome]))]

namespace Machine

open Verification

variable {P σ α β W : Type} {turn : σ → Turn P (σ × After α)} {host : Host (interface P) W}

/-! ## Ends -/

/-- Polled again and again in this host, with nothing happening in between, the machine comes from
    this turn to this end: a result, or a breakdown. -/
inductive RunsTo (turn : σ → Turn P (σ × After α)) (host : Host (interface P) W) :
    Turn P (σ × After α) → W → W × Option α → Prop
  | again {s : σ} {w : W} {last : W × Option α} (h : RunsTo turn host (turn s) w last) :
      RunsTo turn host (.ret (s, .again)) w last
  | pending {s : σ} {w : W} {last : W × Option α} (h : RunsTo turn host (turn s) w last) :
      RunsTo turn host (.ret (s, .pending)) w last
  | ready (s : σ) (a : α) (w : W) : RunsTo turn host (.ret (s, .ready a)) w (w, some a)
  | call {c : Call P} {next : c.Answer → Turn P (σ × After α)} {w : W} {last : W × Option α}
      (h : RunsTo turn host (next (host.answer w c).2) (host.answer w c).1 last) :
      RunsTo turn host (.call c next) w last
  | submit {d : OpenedDevice} {r : Request} {next : Placement r Nat → Turn P (σ × After α)} {w : W}
      {last : W × Option α}
      (h : RunsTo turn host (next (host.place w d r).2) (host.place w d r).1 last) :
      RunsTo turn host (.submit d r next) w last
  | complete {d : OpenedDevice} {r : Request} {next : Completion r → Turn P (σ × After α)} {w : W}
      {last : W × Option α}
      (h : RunsTo turn host (next (host.finish w d r).2) (host.finish w d r).1 last) :
      RunsTo turn host (.complete d r next) w last
  | broken (w : W) : RunsTo turn host .broken w (w, none)

/-- The machine comes to this end, and to no other. -/
def Settles (turn : σ → Turn P (σ × After α)) (host : Host (interface P) W)
    (t : Turn P (σ × After α)) (w : W) (last : W × Option α) : Prop :=
  ∀ last', RunsTo turn host t w last' ↔ last' = last

theorem RunsTo.unique {t : Turn P (σ × After α)} {w : W} {last last' : W × Option α}
    (h : RunsTo turn host t w last) (h' : RunsTo turn host t w last') : last' = last := by
  induction h with
  | again _ ih => cases h' with | again h' => exact ih h'
  | pending _ ih => cases h' with | pending h' => exact ih h'
  | ready s a w => cases h' with | ready => rfl
  | call _ ih => cases h' with | call h' => exact ih h'
  | submit _ ih => cases h' with | submit h' => exact ih h'
  | complete _ ih => cases h' with | complete h' => exact ih h'
  | broken w => cases h' with | broken => rfl

/-- What is left of a routine. -/
def Suspended.left : Suspended (interface P) α → Routine (interface P) α
  | .ready next => next
  | .waiting d r _ next => .request d r next

/-- A machine that enacts a routine comes to the end of the routine's run. -/
theorem Enacts.runsTo (host : Host (interface P) W) {t : Turn P (σ × After α)}
    {rest : Suspended (interface P) α} (h : Enacts turn t rest) :
    ∀ w, RunsTo turn host t w (rest.run host w) := by
  induction h with
  | again _ ih => exact fun w => .again (ih w)
  | ready s a => exact fun w => .ready s a w
  | call _ ih => exact fun w => .call (ih _ _)
  | @submit d r next next' _ _ _ ihreturned ihrefused ihtaken =>
    intro w
    refine .submit ?_
    cases hplace : host.place w d r with
    | mk w' placement =>
      have hrun := Routine.run_submit host next' hplace
      show RunsTo turn host (next placement) w' ((Routine.request (I := interface P) d r next').run
        host w)
      rw [hrun]
      cases placement with
      | taken polls => exact ihtaken polls w'
      | returned buffer e => exact ihreturned buffer e w'
      | refused e => exact ihrefused e w'
  | complete _ ih => exact fun w => .complete (ih _ _)
  | wait _ ih => exact fun w => .pending (ih w)
  | pause _ ih => exact fun w => .pending (ih w)
  | broken => exact fun w => .broken w

theorem RunsTo.settles {t : Turn P (σ × After α)} {w : W} {last : W × Option α}
    (h : RunsTo turn host t w last) : Settles turn host t w last := by
  intro last'
  constructor
  · exact fun h' => h.unique h'
  · rintro rfl
    exact h

theorem Enacts.settles (host : Host (interface P) W) {t : Turn P (σ × After α)}
    {rest : Suspended (interface P) α} (h : Enacts turn t rest) (w : W) :
    Settles turn host t w (rest.run host w) :=
  (h.runsTo host w).settles

/-! ## Dealings -/

/-- From one turn the machine comes to another, through those that follow at once, with these
    dealings. -/
inductive Passes (turn : σ → Turn P (σ × After α)) :
    Turn P (σ × After α) → Record P → Turn P (σ × After α) → Prop
  | here (t : Turn P (σ × After α)) : Passes turn t [] t
  | again {s : σ} {ds : Record P} {t : Turn P (σ × After α)} (h : Passes turn (turn s) ds t) :
      Passes turn (.ret (s, .again)) ds t
  | call {c : Call P} {next : c.Answer → Turn P (σ × After α)} {ds : Record P}
      {t : Turn P (σ × After α)} (x : c.Answer) (h : Passes turn (next x) ds t) :
      Passes turn (.call c next) (.called (I := interface P) c x :: ds) t
  | submit {d : OpenedDevice} {r : Request} {next : Placement r Nat → Turn P (σ × After α)}
      {ds : Record P} {t : Turn P (σ × After α)} (x : Placement r Nat)
      (h : Passes turn (next x) ds t) :
      Passes turn (.submit d r next) (.submitted (I := interface P) d r x.outcome :: ds) t
  | complete {d : OpenedDevice} {r : Request} {next : Completion r → Turn P (σ × After α)}
      {ds : Record P} {t : Turn P (σ × After α)} (x : Completion r)
      (h : Passes turn (next x) ds t) :
      Passes turn (.complete d r next) (.completed (I := interface P) d r x.outcome :: ds) t

theorem Passes.trans {t t' t'' : Turn P (σ × After α)} {ds ds' : Record P}
    (h : Passes turn t ds t') (h' : Passes turn t' ds' t'') : Passes turn t (ds ++ ds') t'' := by
  induction h with
  | here t => exact h'
  | again _ ih => exact .again (ih h')
  | call x _ ih => exact .call x (ih h')
  | submit x _ ih => exact .submit x (ih h')
  | complete x _ ih => exact .complete x (ih h')

/-- What a host with a record comes to, it comes to with the dealings that it records. -/
theorem Comes.passes {t t' : Turn P (σ × After α)} {world world' : W × Record P}
    (h : Comes turn host.recorded t world t' world') :
    ∃ ds, world'.2 = world.2 ++ ds ∧ Passes turn t ds t' := by
  have hbehind : ∀ {record record' : Record P} {x : Dealing (interface P)} {u u' : Turn P _},
      (∀ {ds}, Passes turn u' ds t' → Passes turn u (x :: ds) t') →
      (∃ ds, record' = (record ++ [x]) ++ ds ∧ Passes turn u' ds t') →
        ∃ ds, record' = record ++ ds ∧ Passes turn u ds t' := by
    rintro record _ x u u' hpass ⟨ds, rfl, h⟩
    exact ⟨x :: ds, List.append_assoc _ _ _, hpass h⟩
  induction h with
  | here t world => exact ⟨[], (List.append_nil _).symm, .here t⟩
  | again _ ih =>
    obtain ⟨ds, hrecord, h⟩ := ih hbehind
    exact ⟨ds, hrecord, .again h⟩
  | call _ ih => exact hbehind (.call _) (ih hbehind)
  | submit _ ih => exact hbehind (.submit _) (ih hbehind)
  | complete _ ih => exact hbehind (.complete _) (ih hbehind)

/-- A turn that makes no calls and does not break down. -/
def Turn.Quiet : Turn P β → Prop
  | .ret _ | .astray _ => True
  | .call _ _ | .broken => False
  | .submit _ _ next => ∀ x, (next x).Quiet
  | .complete _ _ next => ∀ x, (next x).Quiet

theorem Turn.Quiet.bind {γ : Type} {t : Turn P β} {f : β → Turn P γ} (h : t.Quiet)
    (hf : ∀ b, (f b).Quiet) : (t.bind f).Quiet := by
  induction t with
  | ret b => exact hf b
  | call c next ih => exact h.elim
  | submit d r next ih => exact fun x => ih x (h x)
  | complete d r next ih => exact fun x => ih x (h x)
  | broken => exact h.elim
  | astray b => trivial

theorem IoFuture.quiet_poll (f : IoFuture) (d : OpenedDevice) (r : Request) :
    (f.poll d r : Turn P _).Quiet := by
  unfold poll
  split
  · split
    · trivial
    · exact fun _ => trivial
    · trivial
  · trivial

/-- Who makes no calls signals nothing. -/
theorem Passes.signals_of_quiet (hturn : ∀ s, (turn s).Quiet) {t t' : Turn P (σ × After α)}
    {ds : Record P} (h : Passes turn t ds t') : t.Quiet → signals ds = [] ∧ t'.Quiet := by
  induction h with
  | here t => exact fun h => ⟨rfl, h⟩
  | again _ ih => exact fun _ => ih (hturn _)
  | call x _ ih => exact fun h => h.elim
  | submit x _ ih => exact fun h => ih (h x)
  | complete x _ ih => exact fun h => ih (h x)

/-- Whatever is answered, the turn does not break down, and what it comes to fits the dealings so
    far and its own. -/
def Turn.Leads (ok : β → Record P → Prop) : Turn P β → Record P → Prop
  | .ret b, ds => ok b ds
  | .call c next, ds => ∀ x, (next x).Leads ok (ds ++ [.called (I := interface P) c x])
  | .submit d r next, ds =>
    ∀ x, (next x).Leads ok (ds ++ [.submitted (I := interface P) d r x.outcome])
  | .complete d r next, ds =>
    ∀ x, (next x).Leads ok (ds ++ [.completed (I := interface P) d r x.outcome])
  | .broken, _ => False
  | .astray _, _ => True

/-- Where the one record of dealings is known, the turn leads on from what it comes to. -/
theorem Passes.leads_bind {ok : β → Record P → Prop} {f : σ × After α → Turn P β}
    {t₀ : Turn P (σ × After α)} (hf : ∀ x ds, Passes turn t₀ ds (.ret x) → (f x).Leads ok ds)
    {t : Turn P (σ × After α)} (hquiet : t.Quiet) :
    ∀ {ds}, Passes turn t₀ ds t → (t.bind f).Leads ok ds := by
  induction t with
  | ret x => exact fun h => hf x _ h
  | call c next ih => exact hquiet.elim
  | submit d r next ih => exact fun h x => ih x (hquiet x) (h.trans (.submit x (.here _)))
  | complete d r next ih => exact fun h x => ih x (hquiet x) (h.trans (.complete x (.here _)))
  | broken => exact hquiet.elim
  | astray b => exact fun _ => trivial

/-- A future is pending, or answered. -/
theorem IoFuture.leads_poll (fut : IoFuture) (d : OpenedDevice) (r : Request)
    {f : IoFuture × Option (Completion r) → Turn P β} {ok : β → Record P → Prop} {ds : Record P}
    (hpending : ∀ fut, (f (fut, none)).Leads ok ds)
    (hanswered : ∀ fut x, (f (fut, some x)).Leads ok
      (ds ++ [.completed (I := interface P) d r x.outcome])) :
    ((fut.poll d r).bind f).Leads ok ds := by
  unfold poll
  split
  · split
    · trivial
    · exact fun x => hanswered _ x
    · exact hpending _
  · trivial

theorem Turn.Leads.mono {ok ok' : β → Record P → Prop} (hok : ∀ b ds, ok b ds → ok' b ds)
    {t : Turn P β} : ∀ {ds}, t.Leads ok ds → t.Leads ok' ds := by
  induction t with
  | ret b => exact fun h => hok b _ h
  | call c next ih => exact fun h x => ih x (h x)
  | submit d r next ih => exact fun h x => ih x (h x)
  | complete d r next ih => exact fun h x => ih x (h x)
  | broken => exact id
  | astray b => exact id

/-- What each turn leads to, the turns that follow at once lead to. -/
theorem Passes.leads {ok : σ × After α → Record P → Prop}
    (hturn : ∀ s ds, ok (s, .again) ds → (turn s).Leads ok ds) {t t' : Turn P (σ × After α)}
    {ds' : Record P} (h : Passes turn t ds' t') :
    ∀ {ds}, t.Leads ok ds → t'.Leads ok (ds ++ ds') := by
  induction h with
  | here t =>
    intro ds h
    rwa [List.append_nil]
  | again _ ih => exact fun h => ih (hturn _ _ h)
  | call x _ ih =>
    intro ds h
    rw [List.append_cons]
    exact ih (h x)
  | submit x _ ih =>
    intro ds h
    rw [List.append_cons]
    exact ih (h x)
  | complete x _ ih =>
    intro ds h
    rw [List.append_cons]
    exact ih (h x)

/-- Where a machine comes to that enacts a routine, it enacts what is left of the routine after a
    passage. -/
theorem Enacts.passes {t t' : Turn P (σ × After α)} {ds : Record P}
    (hpasses : Passes turn t ds t') :
    ∀ {rest : Suspended (interface P) α}, Enacts turn t rest → ∃ es rest',
      Enacts turn t' rest' ∧ (Suspended.left rest).Reaches es (Suspended.left rest') := by
  induction hpasses with
  | here t => exact fun h => ⟨[], _, h, .refl _⟩
  | again _ ih =>
    intro rest h
    cases h with
    | again h => exact ih h
  | @call c next ds t x _ ih =>
    intro rest h
    cases h with
    | @call _ _ next' h =>
      obtain ⟨es, rest', hrest, hreaches⟩ := ih (h x)
      have hanswered : (next' x).Reaches es (Suspended.left rest') := hreaches
      exact ⟨_, rest', hrest, Routine.Reaches.call (I := interface P) x hanswered⟩
  | submit x _ ih =>
    intro rest h
    cases h with
    | submit hreturned hrefused htaken =>
      cases x with
      | taken polls =>
        obtain ⟨es, rest', hrest, hreaches⟩ := ih (htaken polls)
        exact ⟨es, rest', hrest, hreaches⟩
      | returned buffer e =>
        obtain ⟨es, rest', hrest, hreaches⟩ := ih (hreturned buffer e)
        exact ⟨_, rest', hrest, .request (.error e) hreaches⟩
      | refused e =>
        obtain ⟨es, rest', hrest, hreaches⟩ := ih (hrefused e)
        exact ⟨_, rest', hrest, .request (.error e) hreaches⟩
  | complete x _ ih =>
    intro rest h
    cases h with
    | complete h =>
      obtain ⟨es, rest', hrest, hreaches⟩ := ih (h x)
      exact ⟨_, rest', hrest, .request x.outcome hreaches⟩

/-! ## Polls -/

/-- The machine after some polls, with the record of its dealings; before each poll the world may
    have changed. -/
inductive Polled (turn : σ → Turn P (σ × After α)) (host : Host (interface P) W) (s : σ) (w : W) :
    σ → W → Record P → Prop
  | start : Polled turn host s w s w []
  | poll {s₁ s₂ : σ} {w₁ w₂ : W} {record record' : Record P} (change : W → W)
      (h : Polled turn host s w s₁ w₁ record)
      (hpoll : Comes turn host.recorded (turn s₁) (change w₁, record) (.ret (s₂, .pending))
        (w₂, record')) : Polled turn host s w s₂ w₂ record'

/-- After any polls, too, it enacts what is left of the routine after a passage. -/
theorem Enacts.polled {s s' : σ} {w w' : W} {record : Record P} {t : Routine (interface P) α}
    (h : Enacts turn (turn s) (.ready t)) (hpolled : Polled turn host s w s' w' record) :
    ∃ es rest, Enacts turn (turn s') rest ∧ t.Reaches es (Suspended.left rest) := by
  induction hpolled with
  | start => exact ⟨[], _, h, .refl t⟩
  | poll change _ hpoll ih =>
    obtain ⟨es, rest, hrest, hreaches⟩ := ih
    obtain ⟨ds, -, hpasses⟩ := hpoll.passes
    obtain ⟨es', rest', hrest', hreaches'⟩ := hrest.passes hpasses
    have hbehind := hreaches.trans hreaches'
    cases hrest' with
    | wait h => exact ⟨_, _, h, hbehind⟩
    | pause h => exact ⟨_, _, h, hbehind.trans (.pause (.refl _))⟩

/-- So it is ready with a result that the routine comes to. -/
theorem Enacts.ready_of_polled {s s' s'' : σ} {w w' : W} {record : Record P}
    {t : Routine (interface P) α} {world world' : W × Record P} {a : α}
    (h : Enacts turn (turn s) (.ready t)) (hpolled : Polled turn host s w s' w' record)
    (hpoll : Comes turn host.recorded (turn s') world (.ret (s'', .ready a)) world') :
    ∃ es, t.Reaches es (.done a) := by
  obtain ⟨es, rest, hrest, hreaches⟩ := h.polled hpolled
  obtain ⟨ds, -, hpasses⟩ := hpoll.passes
  obtain ⟨es', rest', hrest', hreaches'⟩ := hrest.passes hpasses
  cases hrest' with
  | ready => exact ⟨_, hreaches.trans hreaches'⟩

/-- Polled again and again, and in each poll turn by turn, the machine comes to a result.  Behind
    each poll the world is changed as its number says. -/
inductive Resolves (turn : σ → Turn P (σ × After α)) (host : Host (interface P) W)
    (changes : Nat → W → W) : Nat → Turn P (σ × After α) → W → Prop
  | again {n : Nat} {s : σ} {w : W} (h : Resolves turn host changes n (turn s) w) :
      Resolves turn host changes n (.ret (s, .again)) w
  | pending {n : Nat} {s : σ} {w : W}
      (h : Resolves turn host changes (n + 1) (turn s) (changes n w)) :
      Resolves turn host changes n (.ret (s, .pending)) w
  | ready (n : Nat) (s : σ) (a : α) (w : W) : Resolves turn host changes n (.ret (s, .ready a)) w
  | call {n : Nat} {c : Call P} {next : c.Answer → Turn P (σ × After α)} {w : W}
      (h : Resolves turn host changes n (next (host.answer w c).2) (host.answer w c).1) :
      Resolves turn host changes n (.call c next) w
  | submit {n : Nat} {d : OpenedDevice} {r : Request}
      {next : Placement r Nat → Turn P (σ × After α)} {w : W}
      (h : Resolves turn host changes n (next (host.place w d r).2) (host.place w d r).1) :
      Resolves turn host changes n (.submit d r next) w
  | complete {n : Nat} {d : OpenedDevice} {r : Request}
      {next : Completion r → Turn P (σ × After α)} {w : W}
      (h : Resolves turn host changes n (next (host.finish w d r).2) (host.finish w d r).1) :
      Resolves turn host changes n (.complete d r next) w

/-- A machine that enacts a routine, and never breaks down, comes to a result. -/
theorem Enacts.resolves (host : Host (interface P) W) (changes : Nat → W → W)
    (ok : σ × After α → Record P → Prop)
    (hagain : ∀ s ds, ok (s, .again) ds → (turn s).Leads ok ds)
    (hpending : ∀ s ds, ok (s, .pending) ds → (turn s).Leads ok []) {t : Turn P (σ × After α)}
    {rest : Suspended (interface P) α} (h : Enacts turn t rest) :
    ∀ n w ds, t.Leads ok ds → Resolves turn host changes n t w := by
  induction h with
  | again _ ih => exact fun n w ds hleads => .again (ih n w ds (hagain _ ds hleads))
  | ready s a => exact fun n w ds _ => .ready n s a w
  | call _ ih => exact fun n w ds hleads => .call (ih _ n _ _ (hleads _))
  | @submit d r next next' _ _ _ ihreturned ihrefused ihtaken =>
    intro n w ds hleads
    refine .submit ?_
    cases host.place w d r with
    | mk w' placement =>
      cases placement with
      | taken polls => exact ihtaken polls n w' _ (hleads _)
      | returned buffer e => exact ihreturned buffer e n w' _ (hleads _)
      | refused e => exact ihrefused e n w' _ (hleads _)
  | complete _ ih => exact fun n w ds hleads => .complete (ih _ n _ _ (hleads _))
  | wait _ ih => exact fun n w ds hleads => .pending (ih (n + 1) _ [] (hpending _ ds hleads))
  | pause _ ih => exact fun n w ds hleads => .pending (ih (n + 1) _ [] (hpending _ ds hleads))
  | broken => exact fun n w ds hleads => hleads.elim

end Machine

end SlotVerify
