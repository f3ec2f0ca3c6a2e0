import SlotVerify.Proofs.Routine.Passage
/-
  A record of what a routine and its host have had to do with each other.

  `Host.recorded` is a host that notes every dealing down: each call with its answer, each request
  when it is submitted and again when it has been carried out.  `Recorded` says which dealings a
  passage leaves behind, and `Routine.Arrives` where it stands with them: a request that is still
  pending has been submitted, and is not yet part of the passage.

  The main result follows a suspended routine through one poll (`Suspended.drive_arrives`): what
  the poll adds to the record is what it adds to the passage, and it gives way at most where it
  begins.  A part of the host's world that only the calls concern is carried along.
-/

namespace SlotVerify

open Device

/-- One dealing of a routine with its host, and what came of it. -/
inductive Dealing (I : Interface) where
  | called (c : I.Call) (answer : I.Answer c)
  /-- The request was refused, or taken for so many polls. -/
  | submitted (device : I.Device) (r : Request) (outcome : Except IoError Nat)
  | completed (device : I.Device) (r : Request) (outcome : Except IoError r.Reply)

variable {I : Interface} {α β ρ S W : Type}

/-- The same host with a record of every dealing. -/
def Host.recorded (host : Host I W) : Host I (W × List (Dealing I)) where
  answer world c :=
    let (w, x) := host.answer world.1 c
    ((w, world.2 ++ [.called c x]), x)
  place world d r :=
    let (w, placement) := host.place world.1 d r
    ((w, world.2 ++ [.submitted d r placement.outcome]), placement)
  finish world d r :=
    let (w, completion) := host.finish world.1 d r
    ((w, world.2 ++ [.completed d r completion.outcome]), completion)

theorem Host.finish_recorded {host : Host I W} {w w' : W} {d : I.Device} {r : Request}
    {x : Completion r} (h : host.finish w d r = (w', x)) (record : List (Dealing I)) :
    host.recorded.finish (w, record) d r = ((w', record ++ [.completed d r x.outcome]), x) := by
  simp only [recorded, h]

/-- A part of the world that no request concerns; `use` says what a call makes of it. -/
structure Host.Carries (host : Host I W) (use : S → (c : I.Call) → I.Answer c → S → Prop)
    (part : W → S) : Prop where
  answer : ∀ w c, use (part w) c (host.answer w c).2 (part (host.answer w c).1)
  submit : ∀ w d r, part (host.submit w d r).1 = part w
  complete : ∀ w d r, part (host.complete w d r).1 = part w

/-- Nothing need be carried. -/
theorem Host.carries_nothing (host : Host I W) :
    host.Carries (fun (_ : Unit) _ _ _ => True) fun _ => () :=
  ⟨fun _ _ => trivial, fun _ _ _ => rfl, fun _ _ _ => rfl⟩

/-- Where a list is cut at a place that is not in its last part. -/
theorem cut_of_not_mem {γ : Type} {x : γ} {before after first last : List γ}
    (h : first ++ last = before ++ x :: after) (hx : x ∉ last) :
    ∃ rest, first = before ++ x :: rest ∧ after = rest ++ last := by
  rcases List.append_eq_append_iff.mp h with ⟨rest, -, rfl⟩ | ⟨rest, rfl, hrest⟩
  · exact absurd (List.mem_append_right rest List.mem_cons_self) hx
  · cases rest with
    | nil =>
      obtain rfl : _ = last := hrest
      exact absurd List.mem_cons_self hx
    | cons e rest =>
      obtain ⟨rfl, rfl⟩ := List.cons.inj hrest
      exact ⟨rest, rfl, rfl⟩

/-! ## Passages and their records -/

/-- The dealings that a passage leaves behind.  A request may fail before it is taken. -/
inductive Recorded : List (Happening I) → List (Dealing I) → Prop where
  | nil : Recorded [] []
  | called {c : I.Call} {answer : I.Answer c} {es : List (Happening I)} {ds : List (Dealing I)}
      (h : Recorded es ds) : Recorded (.called c answer :: es) (.called c answer :: ds)
  | refused {d : I.Device} {r : Request} {e : IoError} {es : List (Happening I)}
      {ds : List (Dealing I)} (h : Recorded es ds) :
      Recorded (.served d r (.error e) :: es) (.submitted d r (.error e) :: ds)
  | served {d : I.Device} {r : Request} {polls : Nat} {outcome : Except IoError r.Reply}
      {es : List (Happening I)} {ds : List (Dealing I)} (h : Recorded es ds) :
      Recorded (.served d r outcome :: es)
        (.submitted d r (.ok polls) :: .completed d r outcome :: ds)
  | paused {es : List (Happening I)} {ds : List (Dealing I)} (h : Recorded es ds) :
      Recorded (.paused :: es) ds

namespace Recorded

variable {es es' : List (Happening I)} {ds ds' : List (Dealing I)}

theorem append (h : Recorded es ds) (h' : Recorded es' ds') : Recorded (es ++ es') (ds ++ ds') := by
  induction h with
  | nil => exact h'
  | called _ ih => exact .called ih
  | refused _ ih => exact .refused ih
  | served _ ih => exact .served ih
  | paused _ ih => exact .paused ih

/-- The record of a passage that goes on is the record of its beginning, and it goes on. -/
theorem append_cases : ∀ {es : List (Happening I)} {ds : List (Dealing I)},
    Recorded (es ++ es') ds → ∃ first last, ds = first ++ last ∧
      Recorded es first ∧ Recorded es' last := by
  intro es
  induction es with
  | nil => exact fun h => ⟨[], _, rfl, .nil, h⟩
  | cons e es ih =>
    intro ds h
    cases h with
    | called h =>
      obtain ⟨first, last, rfl, hfirst, hlast⟩ := ih h
      exact ⟨_ :: first, last, rfl, .called hfirst, hlast⟩
    | refused h =>
      obtain ⟨first, last, rfl, hfirst, hlast⟩ := ih h
      exact ⟨_ :: first, last, rfl, .refused hfirst, hlast⟩
    | served h =>
      obtain ⟨first, last, rfl, hfirst, hlast⟩ := ih h
      exact ⟨_ :: _ :: first, last, rfl, .served hfirst, hlast⟩
    | paused h =>
      obtain ⟨first, last, rfl, hfirst, hlast⟩ := ih h
      exact ⟨first, last, rfl, .paused hfirst, hlast⟩

/-- Wherever the record is cut, except between a request and its outcome, the passage can be cut as
    well, behind the pauses. -/
theorem cut {later : List (Dealing I)} (h : Recorded es ds)
    (hlater : ∀ d r outcome rest, later ≠ .completed d r outcome :: rest) :
    ∀ {before}, ds = before ++ later → ∃ es₁ es₂, es = es₁ ++ es₂ ∧ Recorded es₁ before ∧
      Recorded es₂ later ∧ ∀ rest, es₂ ≠ .paused :: rest := by
  induction h with
  | nil =>
    intro before heq
    obtain ⟨rfl, rfl⟩ := List.append_eq_nil_iff.mp heq.symm
    exact ⟨[], [], rfl, .nil, .nil, nofun⟩
  | @called c answer es ds h ih =>
    intro before heq
    cases before with
    | nil =>
      obtain rfl : _ = later := heq
      exact ⟨[], _, rfl, .nil, .called h, nofun⟩
    | cons _ before =>
      obtain ⟨rfl, hrest⟩ := List.cons.inj heq
      obtain ⟨es₁, es₂, rfl, hfirst, hsecond⟩ := ih hrest
      exact ⟨_ :: es₁, es₂, rfl, .called hfirst, hsecond⟩
  | @refused d r e es ds h ih =>
    intro before heq
    cases before with
    | nil =>
      obtain rfl : _ = later := heq
      exact ⟨[], _, rfl, .nil, .refused h, nofun⟩
    | cons _ before =>
      obtain ⟨rfl, hrest⟩ := List.cons.inj heq
      obtain ⟨es₁, es₂, rfl, hfirst, hsecond⟩ := ih hrest
      exact ⟨_ :: es₁, es₂, rfl, .refused hfirst, hsecond⟩
  | @served d r polls outcome es ds h ih =>
    intro before heq
    match before with
    | [] =>
      obtain rfl : _ = later := heq
      exact ⟨[], _, rfl, .nil, .served h, nofun⟩
    | [_] =>
      obtain ⟨-, hrest⟩ := List.cons.inj heq
      exact absurd hrest.symm (hlater d r outcome ds)
    | _ :: _ :: before =>
      obtain ⟨rfl, rfl, hrest⟩ : _ = _ ∧ _ = _ ∧ _ = before ++ later := by simpa using heq
      obtain ⟨es₁, es₂, rfl, hfirst, hsecond⟩ := ih hrest
      exact ⟨_ :: es₁, es₂, rfl, .served hfirst, hsecond⟩
  | @paused es ds h ih =>
    intro before heq
    obtain ⟨es₁, es₂, rfl, hfirst, hsecond⟩ := ih heq
    exact ⟨.paused :: es₁, es₂, rfl, .paused hfirst, hsecond⟩

/-- A recorded call is part of the passage. -/
theorem cut_called {before after : List (Dealing I)} {c : I.Call} {answer : I.Answer c}
    (h : Recorded es (before ++ .called c answer :: after)) :
    ∃ es₁ es₂, es = es₁ ++ .called c answer :: es₂ ∧ Recorded es₁ before ∧
      Recorded es₂ after := by
  obtain ⟨es₁, es₂, rfl, hfirst, hsecond, hpause⟩ := h.cut (by simp) rfl
  cases hsecond with
  | called hafter => exact ⟨es₁, _, rfl, hfirst, hafter⟩
  | paused _ => exact absurd rfl (hpause _)

/-- A recorded request is part of the passage, or it is refused there. -/
theorem cut_submitted {before after : List (Dealing I)} {d : I.Device} {r : Request}
    {taken : Except IoError Nat}
    (h : Recorded es (before ++ .submitted d r taken :: after)) :
    ∃ es₁ outcome es₂, es = es₁ ++ .served d r outcome :: es₂ ∧ Recorded es₁ before := by
  obtain ⟨es₁, es₂, rfl, hfirst, hsecond, hpause⟩ := h.cut (by simp) rfl
  cases hsecond with
  | refused _ => exact ⟨es₁, _, _, rfl, hfirst⟩
  | served _ => exact ⟨es₁, _, _, rfl, hfirst⟩
  | paused _ => exact absurd rfl (hpause _)

/-- Whatever has been carried out or has failed has been submitted. -/
theorem submitted_of_served (h : Recorded es ds) {d : I.Device} {r : Request}
    {outcome : Except IoError r.Reply} (hmem : .served d r outcome ∈ es) :
    ∃ taken, .submitted d r taken ∈ ds := by
  induction h with
  | nil => cases hmem
  | called _ ih =>
    cases hmem with
    | tail _ hmem =>
      obtain ⟨taken, htaken⟩ := ih hmem
      exact ⟨taken, .tail _ htaken⟩
  | refused _ ih =>
    cases hmem with
    | head => exact ⟨_, .head _⟩
    | tail _ hmem =>
      obtain ⟨taken, htaken⟩ := ih hmem
      exact ⟨taken, .tail _ htaken⟩
  | served _ ih =>
    cases hmem with
    | head => exact ⟨_, .head _⟩
    | tail _ hmem =>
      obtain ⟨taken, htaken⟩ := ih hmem
      exact ⟨taken, .tail _ (.tail _ htaken)⟩
  | paused _ ih =>
    cases hmem with
    | tail _ hmem => exact ih hmem

/-- The record has the calls of the passage. -/
theorem called_mem_iff (h : Recorded es ds) {c : I.Call} {answer : I.Answer c} :
    .called c answer ∈ ds ↔ .called c answer ∈ es := by
  induction h with
  | nil => exact iff_of_false nofun nofun
  | called _ ih => simp [ih]
  | refused _ ih => simp [ih]
  | served _ ih => simp [ih]
  | paused _ ih => simp [ih]

end Recorded

namespace Suspended

/-- The routine that is left, from the place where it has stopped. -/
def node : Suspended I α → Routine I α
  | .ready next => .pause next
  | .waiting d r _ next => .request d r next

/-- What the place where it has stopped adds to the record. -/
def Notes : Suspended I α → List (Dealing I) → Prop
  | .ready _, ds => ds = []
  | .waiting d r _ _, ds => ∃ polls, ds = [.submitted d r (.ok polls)]

/-- Goes on with something else afterwards. -/
def bind : Suspended I α → (α → Routine I β) → Suspended I β
  | .ready next, f => .ready (next.bind f)
  | .waiting d r polls next, f => .waiting d r polls fun x => (next x).bind f

end Suspended

namespace Ending

/-- The routine that is left, from the place where the run has ended. -/
def node : Ending I ρ α → Routine I α
  | .finished a => .done a
  | .interrupted _ rest => rest.node
  | .broken => .broken

/-- What the place where it has ended adds to the record. -/
def Notes : Ending I ρ α → List (Dealing I) → Prop
  | .interrupted _ rest, ds => rest.Notes ds
  | .finished _, ds | .broken, ds => ds = []

/-- Only a request that is pending has been recorded before it is part of the passage. -/
theorem notes_cases {ending : Ending I ρ α} {last : List (Dealing I)} (h : ending.Notes last) :
    last = [] ∨ ∃ why d r polls next taken, ending = .interrupted why (.waiting d r polls next) ∧
      last = [.submitted d r (.ok taken)] := by
  cases ending with
  | finished a => exact .inl h
  | broken => exact .inl h
  | interrupted why rest =>
    cases rest with
    | ready next => exact .inl h
    | waiting d r polls next =>
      obtain ⟨taken, rfl⟩ := h
      exact .inr ⟨why, d, r, polls, next, taken, rfl, rfl⟩

theorem called_not_mem_of_notes {ending : Ending I ρ α} {last : List (Dealing I)}
    (h : ending.Notes last) (c : I.Call) (answer : I.Answer c) : .called c answer ∉ last := by
  rcases notes_cases h with rfl | ⟨_, _, _, _, _, _, -, rfl⟩ <;> simp

end Ending

namespace Routine

/-- A passage to where a run has ended, and the record of it. -/
def Arrives (t : Routine I α) (es : List (Happening I)) (record : List (Dealing I))
    (ending : Ending I ρ α) : Prop :=
  t.Reaches es ending.node ∧ ∃ ds last, record = ds ++ last ∧ Recorded es ds ∧ ending.Notes last

theorem Arrives.reaches {t : Routine I α} {es : List (Happening I)} {record : List (Dealing I)}
    {ending : Ending I ρ α} (h : t.Arrives es record ending) : t.Reaches es ending.node := h.1

theorem Arrives.recorded {t : Routine I α} {es : List (Happening I)} {record : List (Dealing I)}
    {a : α} (h : t.Arrives es record (.finished a : Ending I ρ α)) : Recorded es record := by
  obtain ⟨-, ds, last, rfl, hds, rfl⟩ := h
  rwa [List.append_nil]

/-- The record has the calls of the passage. -/
theorem Arrives.called_mem_iff {t : Routine I α} {es : List (Happening I)}
    {record : List (Dealing I)} {ending : Ending I ρ α} (h : t.Arrives es record ending)
    {c : I.Call} {answer : I.Answer c} :
    .called c answer ∈ record ↔ .called c answer ∈ es := by
  obtain ⟨-, ds, last, rfl, hds, hlast⟩ := h
  rw [List.mem_append, hds.called_mem_iff,
    or_iff_left (Ending.called_not_mem_of_notes hlast c answer)]

/-- A recorded call, and what comes behind it. -/
theorem Arrives.cut_called {t : Routine I α} {es : List (Happening I)}
    {before after : List (Dealing I)} {ending : Ending I ρ α} {c : I.Call} {answer : I.Answer c}
    (h : t.Arrives es (before ++ .called c answer :: after) ending) :
    ∃ es₁ es₂, es = es₁ ++ .called c answer :: es₂ ∧ Recorded es₁ before ∧
      ∃ ds last, after = ds ++ last ∧ Recorded es₂ ds ∧ ending.Notes last := by
  obtain ⟨-, ds, last, hrecord, hds, hlast⟩ := h
  obtain ⟨middle, rfl, hafter⟩ :=
    cut_of_not_mem hrecord.symm (Ending.called_not_mem_of_notes hlast c answer)
  obtain ⟨es₁, es₂, rfl, hfirst, hsecond⟩ := hds.cut_called
  exact ⟨es₁, es₂, rfl, hfirst, middle, last, hafter, hsecond, hlast⟩

/-- A recorded request, and the passage to it. -/
theorem Arrives.cut_submitted {t : Routine I α} {es : List (Happening I)}
    {before after : List (Dealing I)} {ending : Ending I ρ α} {d : I.Device} {r : Request}
    {taken : Except IoError Nat}
    (h : t.Arrives es (before ++ .submitted d r taken :: after) ending) :
    ∃ es₁ es₂ next, es = es₁ ++ es₂ ∧ t.Reaches es₁ (.request d r next) ∧
      Recorded es₁ before := by
  obtain ⟨hreaches, ds, last, hrecord, hds, hlast⟩ := h
  have hinside : ∀ {rest}, ds = before ++ .submitted d r taken :: rest →
      ∃ es₁ es₂ next, es = es₁ ++ es₂ ∧ t.Reaches es₁ (.request d r next) ∧
        Recorded es₁ before := by
    rintro rest rfl
    obtain ⟨es₁, outcome, es₂, rfl, hfirst⟩ := hds.cut_submitted
    obtain ⟨u, hu, hserved⟩ := hreaches.append_cases
    cases hserved with
    | request _ _ => exact ⟨es₁, _, _, rfl, hu, hfirst⟩
  rcases Ending.notes_cases hlast with rfl | ⟨why, d', r', polls, next, _, rfl, rfl⟩
  · exact hinside (by rw [hrecord, List.append_nil])
  · rcases List.eq_nil_or_concat after with rfl | ⟨middle, e, rfl⟩
    · -- the request is still pending
      obtain ⟨rfl, hpending⟩ := List.append_inj' hrecord rfl
      cases hpending
      exact ⟨es, [], next, (List.append_nil _).symm, hreaches, hds⟩
    · rw [List.concat_eq_append, ← List.cons_append, ← List.append_assoc] at hrecord
      obtain ⟨rfl, -⟩ := List.append_inj' hrecord rfl
      exact hinside rfl

/-- Before the first step nothing has been recorded. -/
theorem arrives_refl {t : Routine I α} (ending : Ending I ρ α) (hnode : ending.node = t)
    {last : List (Dealing I)} (hlast : ending.Notes last) : t.Arrives [] last ending :=
  ⟨hnode ▸ .refl _, [], last, rfl, .nil, hlast⟩

/-- A passage that comes before. -/
theorem Arrives.after {t u : Routine I α} {es es' : List (Happening I)}
    {first record : List (Dealing I)} {ending : Ending I ρ α} (h : u.Arrives es record ending)
    (hreaches : ∀ {v}, u.Reaches es v → t.Reaches (es' ++ es) v) (hfirst : Recorded es' first) :
    t.Arrives (es' ++ es) (first ++ record) ending := by
  obtain ⟨hu, ds, last, rfl, hds, hlast⟩ := h
  exact ⟨hreaches hu, first ++ ds, last, (List.append_assoc ..).symm, hfirst.append hds, hlast⟩

/-! ## Runs of a sequence -/

theorem waitOut_bind (host : Host I W) (between : W → W × Option ρ) (d : I.Device) (r : Request)
    (next : Except IoError r.Reply → Routine I α) (f : α → Routine I β)
    {resume : W → W × Ending I ρ α} {resume' : W → W × Ending I ρ β}
    (hresume : ∀ w, resume' w = match resume w with
      | (w, .finished a) => (f a).drive host between w
      | (w, .interrupted why rest) => (w, .interrupted why (rest.bind f))
      | (w, .broken) => (w, .broken)) (polls : Nat) :
    ∀ w, waitOut between d r (fun x => (next x).bind f) resume' polls w =
      match waitOut between d r next resume polls w with
      | (w, .finished a) => (f a).drive host between w
      | (w, .interrupted why rest) => (w, .interrupted why (rest.bind f))
      | (w, .broken) => (w, .broken) := by
  induction polls with
  | zero => exact hresume
  | succ polls ih =>
    intro w
    rw [waitOut, waitOut]
    obtain ⟨w', why⟩ := between w
    cases why with
    | none => exact ih w'
    | some why => rfl

/-- A run of a sequence is a run of its first part, and goes on with the second if that comes to its
    end. -/
theorem drive_bind (host : Host I W) (between : W → W × Option ρ) (t : Routine I α)
    (f : α → Routine I β) :
    ∀ w, (t.bind f).drive host between w =
      match t.drive host between w with
      | (w, .finished a) => (f a).drive host between w
      | (w, .interrupted why rest) => (w, .interrupted why (rest.bind f))
      | (w, .broken) => (w, .broken) := by
  induction t with
  | done a => exact fun _ => rfl
  | call c next ih => exact fun _ => ih _ _
  | request d r next ih =>
    intro w
    rw [bind, drive, drive]
    obtain ⟨w', outcome⟩ := host.submit w d r
    cases outcome with
    | error e => exact ih _ w'
    | ok polls => exact waitOut_bind host between d r next f (fun w => ih _ _) polls w'
  | pause next ih =>
    intro w
    rw [bind, drive, drive]
    obtain ⟨w', why⟩ := between w
    cases why with
    | none => exact ih w'
    | some why => rfl
  | broken => exact fun _ => rfl

end Routine

theorem Suspended.drive_bind (host : Host I W) (between : W → W × Option ρ) (rest : Suspended I α)
    (f : α → Routine I β) (w : W) :
    (rest.bind f).drive host between w =
      match rest.drive host between w with
      | (w, .finished a) => (f a).drive host between w
      | (w, .interrupted why rest) => (w, .interrupted why (rest.bind f))
      | (w, .broken) => (w, .broken) := by
  cases rest with
  | ready next => exact next.drive_bind host between f w
  | waiting d r polls next =>
    exact Routine.waitOut_bind host between d r next f
      (fun w => (next _).drive_bind host between f _) polls w

/-! ## One poll -/

/-- A run that ends where it would first give way. -/
abbrev giveWay (why : ρ) (w : W) : W × Option ρ := (w, some why)

namespace Routine

/-- What a stretch of a run has come to: its passage, what it has added to the record, and what it
    has made of the part of the world that is carried along. -/
structure Stretch (use : S → (c : I.Call) → I.Answer c → S → Prop) (part : W → S)
    (t : Routine I α) (es : List (Happening I)) (w : W) (record : List (Dealing I))
    (last : (W × List (Dealing I)) × Ending I ρ α) : Prop where
  arrives : ∃ ds, last.1.2 = record ++ ds ∧ t.Arrives es ds last.2
  steady : .paused ∉ es
  carried : Carried use (part w) es (part last.1.1)

namespace Stretch

variable {use : S → (c : I.Call) → I.Answer c → S → Prop} {part : W → S} {t u : Routine I α}
  {es : List (Happening I)} {w w' : W} {record : List (Dealing I)}
  {last : (W × List (Dealing I)) × Ending I ρ α}

/-- Nothing has happened. -/
theorem nil (ending : Ending I ρ α) (hnode : ending.node = t) (hnotes : ending.Notes []) :
    Stretch use part t [] w record ((w, record), ending) :=
  ⟨⟨[], (List.append_nil _).symm, arrives_refl ending hnode hnotes⟩, List.not_mem_nil, .nil _⟩

/-- Something happens first. -/
theorem cons {e : Happening I} {ds : List (Dealing I)}
    (h : Stretch use part u es w' (record ++ ds) last) (he : e ≠ .paused)
    (hreaches : ∀ {es v}, u.Reaches es v → t.Reaches (e :: es) v) (hrecorded : Recorded [e] ds)
    (hcarried : ∀ {es s'}, Carried use (part w') es s' → Carried use (part w) (e :: es) s') :
    Stretch use part t (e :: es) w record last := by
  obtain ⟨⟨ds', hlast, harrives⟩, hsteady, hcarries⟩ := h
  refine ⟨⟨ds ++ ds', ?_, harrives.after hreaches hrecorded⟩, ?_, hcarried hcarries⟩
  · rw [hlast, List.append_assoc]
  · exact List.not_mem_cons_of_ne_of_not_mem he.symm hsteady

end Stretch

variable {use : S → (c : I.Call) → I.Answer c → S → Prop} {part : W → S} {host : Host I W}

/-- A request is carried out that has been pending. -/
theorem stretch_complete (hcarries : host.Carries use part) (why : ρ) {d : I.Device} {r : Request}
    {next : Except IoError r.Reply → Routine I α}
    (hnext : ∀ x w record, ∃ es, Stretch use part (next x) es w record
      ((next x).drive host.recorded (giveWay why) (w, record))) (w : W)
    (record : List (Dealing I)) :
    ∃ x es, Stretch use part (next x) es w (record ++ [.completed d r x])
      ((next (host.recorded.complete (w, record) d r).2).drive host.recorded (giveWay why)
        (host.recorded.complete (w, record) d r).1) := by
  obtain ⟨es, h⟩ := hnext (host.complete w d r).2 (host.complete w d r).1
    (record ++ [.completed d r (host.complete w d r).2])
  refine ⟨_, es, h.arrives, h.steady, ?_⟩
  rw [← hcarries.complete w d r]
  exact h.carried

/-- A poll of a routine that begins with it. -/
theorem drive_stretch (hcarries : host.Carries use part) (why : ρ) (t : Routine I α) :
    ∀ w record, ∃ es, Stretch use part t es w record
      (t.drive host.recorded (giveWay why) (w, record)) := by
  induction t with
  | done a => exact fun w record => ⟨[], .nil _ rfl rfl⟩
  | call c next ih =>
    intro w record
    obtain ⟨es, h⟩ := ih (host.answer w c).2 (host.answer w c).1
      (record ++ [.called c (host.answer w c).2])
    exact ⟨.called c _ :: es,
      h.cons (by simp) (.call _) (.called .nil) (.called (hcarries.answer w c))⟩
  | request d r next ih =>
    intro w record
    have hsubmit := hcarries.submit w d r
    have hrecorded : host.recorded.submit (w, record) d r =
      (((host.submit w d r).1, record ++ [.submitted d r (host.submit w d r).2]),
        (host.submit w d r).2) := rfl
    rw [drive, hrecorded]
    generalize host.submit w d r = submitted at hsubmit
    obtain ⟨w', outcome⟩ := submitted
    have hserved : ∀ {x es s'}, Carried use (part w') es s' →
        Carried use (part w) (.served d r x :: es) s' := by
      intro x es s' hrest
      rw [← hsubmit]
      exact .served hrest
    cases outcome with
    | error e =>
      obtain ⟨es, h⟩ := ih (.error e) w' (record ++ [.submitted d r (.error e)])
      exact ⟨.served d r (.error e) :: es, h.cons (by simp) (.request _) (.refused .nil) hserved⟩
    | ok polls =>
      cases polls with
      | zero =>
        obtain ⟨x, es, h⟩ :=
          stretch_complete hcarries why ih w' (record ++ [.submitted d r (.ok 0)])
        rw [List.append_assoc] at h
        exact ⟨.served d r x :: es, h.cons (by simp) (.request x) (.served .nil) hserved⟩
      | succ polls =>
        refine ⟨[], ⟨[.submitted d r (.ok (polls + 1))], rfl, ?_⟩, List.not_mem_nil, ?_⟩
        · exact arrives_refl (.interrupted why (.waiting d r polls next)) rfl ⟨_, rfl⟩
        · show Carried use (part w) [] (part w')
          rw [hsubmit]
          exact .nil _
  | pause next ih => exact fun w record => ⟨[], .nil _ rfl rfl⟩
  | broken => exact fun w record => ⟨[], .nil _ rfl rfl⟩

end Routine

/-- A poll of a suspended routine takes its passage further; it gives way at most where it begins.
    What it adds to the record has the same calls as what it adds to the passage, whatever the
    record has begun with. -/
theorem Suspended.drive_arrives_behind {use : S → (c : I.Call) → I.Answer c → S → Prop}
    {part : W → S} {host : Host I W} (hcarries : host.Carries use part) (why : ρ) {why' : ρ}
    {t : Routine I α} {rest : Suspended I α} {es : List (Happening I)}
    (earlier : List (Dealing I)) {record : List (Dealing I)}
    (h : t.Arrives es record (.interrupted why' rest)) (w : W) :
    let last := rest.drive host.recorded (giveWay why) (w, earlier ++ record)
    ∃ new ds, last.1.2 = earlier ++ (record ++ ds) ∧ t.Arrives (es ++ new) (record ++ ds) last.2 ∧
      .paused ∉ new.tail ∧
      (∀ c answer, .called c answer ∈ ds ↔ .called c answer ∈ new) ∧
      Routine.Carried use (part w) new (part last.1.1) := by
  obtain ⟨hreaches, first, notes, rfl, hfirst, hnotes⟩ := h
  cases rest with
  | ready next =>
    cases hnotes
    rw [List.append_nil]
    obtain ⟨es', ⟨ds, hlast, harrives⟩, hsteady, hcarried⟩ :=
      next.drive_stretch hcarries why w (earlier ++ first)
    refine ⟨.paused :: es', ds, hlast.trans (List.append_assoc ..), ?_, hsteady, ?_,
      .paused hcarried⟩
    · have hthrough : ∀ {v}, next.Reaches es' v → t.Reaches ((es ++ [.paused]) ++ es') v := by
        intro v hv
        rw [← List.append_cons]
        exact hreaches.trans (.pause hv)
      rw [List.append_cons]
      refine harrives.after hthrough ?_
      simpa using hfirst.append (.paused .nil)
    · intro c answer
      simp [harrives.called_mem_iff]
  | waiting d r polls next =>
    obtain ⟨taken, rfl⟩ := hnotes
    cases polls with
    | zero =>
      obtain ⟨x, es', ⟨ds, hlast, harrives⟩, hsteady, hcarried⟩ :=
        Routine.stretch_complete hcarries why
          (fun x => (next x).drive_stretch hcarries why) w
          (earlier ++ (first ++ [.submitted d r (.ok taken)]))
      refine ⟨.served d r x :: es', .completed d r x :: ds, ?_, ?_, hsteady, ?_, .served hcarried⟩
      · rw [List.append_assoc, List.append_assoc] at hlast
        exact hlast
      · have hthrough : ∀ {v}, (next x).Reaches es' v →
            t.Reaches ((es ++ [.served d r x]) ++ es') v := by
          intro v hv
          rw [← List.append_cons]
          exact hreaches.trans (.request x hv)
        rw [List.append_cons es, List.append_cons (first ++ _), List.append_assoc first]
        exact harrives.after hthrough (hfirst.append (.served .nil))
      · intro c answer
        simp [harrives.called_mem_iff]
    | succ polls =>
      refine ⟨[], [], ?_, ?_, List.not_mem_nil, ?_, .nil _⟩
      · rw [List.append_nil]
        rfl
      · rw [List.append_nil, List.append_nil]
        exact ⟨hreaches, first, _, rfl, hfirst, taken, rfl⟩
      · simp

/-- The same for the record of the whole run. -/
theorem Suspended.drive_arrives {use : S → (c : I.Call) → I.Answer c → S → Prop} {part : W → S}
    {host : Host I W} (hcarries : host.Carries use part) (why : ρ) {why' : ρ} {t : Routine I α}
    {rest : Suspended I α} {es : List (Happening I)} {record : List (Dealing I)}
    (h : t.Arrives es record (.interrupted why' rest)) (w : W) :
    let last := rest.drive host.recorded (giveWay why) (w, record)
    ∃ new ds, last.1.2 = record ++ ds ∧ t.Arrives (es ++ new) (record ++ ds) last.2 ∧
      .paused ∉ new.tail ∧
      (∀ c answer, .called c answer ∈ ds ↔ .called c answer ∈ new) ∧
      Routine.Carried use (part w) new (part last.1.1) :=
  Suspended.drive_arrives_behind hcarries why [] h w

/-- What every step keeps, a poll keeps; and if it is left, then because it has given way. -/
theorem Suspended.drive_keeps (host : Host I W) (inv : W → Prop)
    (hanswer : ∀ w c, inv w → inv (host.answer w c).1)
    (hsubmit : ∀ w d r, inv w → inv (host.submit w d r).1)
    (hcomplete : ∀ w d r, inv w → inv (host.complete w d r).1) (why : ρ) (rest : Suspended I α)
    {w : W} (h : inv w) :
    inv (rest.drive host (giveWay why) w).1 ∧
      ∀ why' left, (rest.drive host (giveWay why) w).2 = .interrupted why' left → why' = why := by
  have hall : ∀ (t : Routine I α) {w : W}, inv w →
      t.Meets host (.still W) inv (fun _ => inv) w := by
    intro t w h
    refine (t.only_true.meets inv (fun w c _ => hanswer w c) (fun w d r _ => hsubmit w d r)
      (fun w d r _ => hcomplete w d r) ?_ h).mono (fun _ => id) fun _ _ h => h.1
    rintro w _ h rfl
    exact h
  have hrest : rest.Meets host (.still W) inv (fun _ => inv) w := by
    cases rest with
    | ready next =>
      rintro _ rfl
      exact hall next h
    | waiting d r polls next =>
      rintro _ rfl
      exact ⟨h, hall _ (hcomplete w d r h)⟩
  have hdrive := Suspended.drive_meets (giveWay why) (fun _ => rfl) hrest
  generalize rest.drive host (giveWay why) w = last at hdrive
  obtain ⟨w', ending⟩ := last
  cases ending with
  | finished a => exact ⟨hdrive, nofun⟩
  | interrupted why' left =>
    obtain ⟨⟨w₀, hw₀⟩, hinv, -⟩ := hdrive
    refine ⟨hinv, ?_⟩
    rintro _ _ ⟨⟩
    cases hw₀
    rfl
  | broken => exact ⟨hdrive, nofun⟩

/-- If the last dealing of a poll is a call, the world is as the call has left it. -/
theorem Suspended.drive_last_called (host : Host I W) (why : ρ) (rest : Suspended I α) (w : W)
    (record : List (Dealing I)) {before : List (Dealing I)} {c : I.Call} {answer : I.Answer c}
    (hlast : (rest.drive host.recorded (giveWay why) (w, record)).1.2 =
      record ++ (before ++ [.called c answer])) :
    ∃ w₀, host.answer w₀ c =
      ((rest.drive host.recorded (giveWay why) (w, record)).1.1, answer) := by
  refine (Suspended.drive_keeps host.recorded (fun world => ∀ before (c : I.Call) answer,
      world.2 = record ++ (before ++ [.called c answer]) →
        ∃ w₀, host.answer w₀ c = (world.1, answer))
    ?_ ?_ ?_ why rest ?_).1 before c answer hlast
  · intro world c' _ before c answer hlast
    have hlast : world.2 ++ [.called c' (host.answer world.1 c').2] = _ := hlast
    rw [← List.append_assoc] at hlast
    obtain ⟨-, hcall⟩ := List.append_inj' hlast rfl
    cases hcall
    exact ⟨world.1, rfl⟩
  · intro world d r _ before c answer hlast
    have hlast : world.2 ++ [.submitted d r _] = _ := hlast
    rw [← List.append_assoc] at hlast
    cases (List.append_inj' hlast rfl).2
  · intro world d r _ before c answer hlast
    have hlast : world.2 ++ [.completed d r _] = _ := hlast
    rw [← List.append_assoc] at hlast
    cases (List.append_inj' hlast rfl).2
  · intro before c answer hnone
    simp at hnone

end SlotVerify
