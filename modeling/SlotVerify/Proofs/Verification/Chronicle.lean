import SlotVerify.Proofs.Verification.Calls
import SlotVerify.Proofs.Verification.Schedule
/-
  Lives of a verification in an arbitrary host, with a record of everything.

  An `Assignment` is a verification and the host for it.  From outside, the verification is polled
  or given up, and in between its surroundings may change, an abort being one such change; `run`
  follows it through a list of such occasions and keeps the record of its dealings.

  `polled` says what one poll comes to.  From it, by induction on the occasions: a verification
  whose first poll finds an abort never deals with its host at all (`run_of_not_begins`); any other
  one is somewhere on its course, or it has ended, and then the record is that of its course and
  what the end adds to it (`run_of_begins`), as for any with something in its record
  (`begun_of_recorded`).
-/

namespace SlotVerify.Verification

open Routine

variable {P W S : Type}

/-- The dealings of a verification with its host. -/
abbrev Record (P : Type) := List (Dealing (interface P))

/-- Progress has been reported. -/
abbrev reported (progress : P) : Dealing (interface P) :=
  .called (I := interface P) (Call.report progress) ()

/-- The task has been woken. -/
abbrev woken : Dealing (interface P) := .called (I := interface P) Call.wake ()

/-- The snapshots have been mapped, or not if the controller has failed to. -/
abbrev mapped (success : Bool) : Dealing (interface P) :=
  .called (I := interface P) Call.mapAll success

/-- The snapshots have been unmapped, or not if the controller has failed to. -/
abbrev unmapped (success : Bool) : Dealing (interface P) :=
  .called (I := interface P) Call.unmapAll success

/-- The writer has handed out a finalization. -/
abbrev handedOut (t : Verity.DeviceRoutine Unit) : Dealing (interface P) :=
  .called (I := interface P) Call.finalizeWriter (.ok t)

/-- What a dealing signals: progress, or that the task is to be polled again. -/
def signalOf : Dealing (interface P) → Option (Call P)
  | .called (.report progress) _ => some (.report progress)
  | .called .wake _ => some .wake
  | _ => none

/-- All that has been signalled, in order. -/
def signals (record : Record P) : List (Call P) := record.filterMap signalOf

theorem signals_append (first second : Record P) :
    signals (first ++ second) = signals first ++ signals second :=
  List.filterMap_append

/-- The request that has been submitted, if one has. -/
def submissionOf : Dealing (interface P) → Option (OpenedDevice × Device.Request)
  | .submitted d q _ => some (d, q)
  | _ => none

/-- All requests that have been submitted, in order. -/
def submissions (ds : Record P) : List (OpenedDevice × Device.Request) := ds.filterMap submissionOf

theorem submissions_append (first second : Record P) :
    submissions (first ++ second) = submissions first ++ submissions second :=
  List.filterMap_append

/-- A verification, and the host that it runs in. -/
structure Assignment (P W : Type) where
  host : Host (interface P) W
  /-- Whether an abort has been asked for. -/
  aborted : W → Bool
  scale : Scale P
  dynamic : DynamicPartitions
  plan : Option InstallPlan

/-- What may happen to a verification. -/
inductive Occasion (W : Type) where
  | poll
  | drop
  /-- Something happens in its surroundings. -/
  | change (f : W → W)

/-- An occasion that leaves a part of the world alone. -/
def Occasion.Keeps (part : W → S) : Occasion W → Prop
  | .poll | .drop => True
  | .change f => ∀ w, part (f w) = part w

theorem Occasion.keeps_nothing (o : Occasion W) : o.Keeps fun _ => () := by
  cases o with
  | change f => exact fun _ => rfl
  | _ => trivial

/-- Where a verification stands after a poll. -/
def Life.ofOutcome : Outcome P Unit → Life P
  | .completed result => .completed result
  | .left _ rest => .running rest
  | .broken => .broken

namespace Assignment

/-- A poll of a verification that has not ended. -/
def poll (a : Assignment P W) (world : W × Record P) (v : Running P) :
    (W × Record P) × Life P :=
  let (world, outcome) := v.poll a.host.recorded (fun world => a.aborted world.1) world
  (world, .ofOutcome outcome)

/-- What an occasion makes of the world and of the verification.  One that has ended is neither
    polled nor given up any more. -/
def step (a : Assignment P W) : (W × Record P) × Life P → Occasion W → (W × Record P) × Life P
  | (world, .running v), .poll => a.poll world v
  | (world, .running v), .drop => (v.drop a.host.recorded world, .dropped)
  | ((w, record), life), .change f => ((f w, record), life)
  | state, _ => state

/-- Before the first poll. -/
def start (a : Assignment P W) (w : W) : (W × Record P) × Life P :=
  ((w, []), .running (Running.new a.scale a.dynamic a.plan))

/-- A life from its beginning through a list of occasions. -/
def run (a : Assignment P W) (w : W) (occasions : List (Occasion W)) :
    (W × Record P) × Life P :=
  occasions.foldl a.step (a.start w)

/-- Whether the verification begins its work: the first poll comes before it is given up, and it
    does not find an abort. -/
def begins (a : Assignment P W) : W → List (Occasion W) → Bool
  | _, [] => false
  | w, .poll :: _ => !a.aborted w
  | _, .drop :: _ => false
  | w, .change f :: rest => a.begins (f w) rest

variable (a : Assignment P W)

/-! ## The course of a verification -/

/-- Whether it unmaps the snapshots in the end. -/
abbrev unmaps : Bool := unmapsAtEnd a.dynamic a.plan

/-- What is left to do with an outcome. -/
def conclude (outcome : Except Error InstallPlan) :
    Routine (interface P) (Except Error InstallPlan) :=
  let finish := ask (.report a.scale.one) fun _ => .done outcome
  if a.unmaps then ask .unmapAll fun _ => finish else finish

/-- The verification up to its conclusion, from before its first poll. -/
def course : Attempt P Error InstallPlan := .pause (program a.scale a.dynamic a.plan)

theorem orderly_course : a.course.Orderly (HasViews a.scale a.dynamic a.plan) Found :=
  orderly_program a.scale a.dynamic a.plan

/-- What the release of the snapshots adds to the record. -/
def Released (ds : Record P) : Prop :=
  (a.unmaps = true ∧ ∃ success, ds = [unmapped success]) ∨ (a.unmaps = false ∧ ds = [])

/-- How far the course has come, and what it has made of a part of the world. -/
def Along (use : S → (c : Call P) → c.Answer → S → Prop) (part : W → S) (s : S) (w : W)
    (record : Record P)
    (ending : Ending (interface P) (Option Unit) (Except Error InstallPlan)) : Prop :=
  ∃ es, a.course.Arrives es record ending ∧ Carried (I := interface P) use s es (part w)

/-- Nothing in the world is followed. -/
abbrev Anyhow (w : W) (record : Record P)
    (ending : Ending (interface P) (Option Unit) (Except Error InstallPlan)) : Prop :=
  a.Along (fun _ _ _ _ => True) (fun _ => ()) () w record ending

/-- Where it is left on its way. -/
abbrev leaves (rest : Suspended (interface P) (Except Error InstallPlan)) :
    Ending (interface P) (Option Unit) (Except Error InstallPlan) := .interrupted (some ()) rest

variable {a} {use : S → (c : Call P) → c.Answer → S → Prop} {part : W → S} {s : S} {w : W}
  {record : Record P}

/-- A release is nothing else. -/
theorem Released.eq_unmapped {release : Record P} (h : a.Released release)
    {d : Dealing (interface P)} (hd : d ∈ release) : ∃ success, d = unmapped success := by
  rcases h with ⟨-, success, rfl⟩ | ⟨-, rfl⟩
  · exact ⟨success, List.mem_singleton.mp hd⟩
  · cases hd

theorem along_start (w : W) :
    a.Along use part (part w) w [] (leaves (.ready (program a.scale a.dynamic a.plan))) :=
  ⟨[], arrives_refl (leaves (.ready _)) rfl rfl, .nil _⟩

/-- The conclusion releases the snapshots and then reports. -/
theorem drive_conclude (outcome : Except Error InstallPlan) (w : W) (record : Record P) :
    ∃ w' release, a.Released release ∧
      (a.conclude outcome).drive a.host.recorded (giveWay (some ())) (w, record) =
        ((w', record ++ release ++ [reported a.scale.one]), .finished outcome) := by
  unfold conclude
  cases hunmaps : a.unmaps with
  | true => exact ⟨_, _, .inl ⟨hunmaps, _, rfl⟩, rfl⟩
  | false => exact ⟨_, [], .inr ⟨hunmaps, rfl⟩, by rw [List.append_nil]; rfl⟩

/-- A verification that will not go on releases the snapshots. -/
theorem cleanup_eq (rest : Suspended (interface P) (Except Error InstallPlan)) (w : W)
    (record : Record P) :
    ∃ w' release, a.Released release ∧
      (⟨true, a.unmaps, rest⟩ : Running P).cleanup a.host.recorded true (w, record) =
        (w', record ++ release) := by
  unfold Running.cleanup
  cases hunmaps : a.unmaps with
  | true => exact ⟨_, _, .inl ⟨hunmaps, _, rfl⟩, rfl⟩
  | false => exact ⟨_, [], .inr ⟨hunmaps, rfl⟩, by rw [List.append_nil]; rfl⟩

/-! ## One poll -/

/-- What a poll comes to that finds no abort. -/
inductive Polled (a : Assignment P W) (use : S → (c : Call P) → c.Answer → S → Prop)
    (part : W → S) (s : S) (record : Record P) : (W × Record P) × Life P → Prop where
  /-- It is left on its way.  If it has reported progress, then that was the last thing it did. -/
  | left {w : W} {ds : Record P} {rest : Suspended (interface P) (Except Error InstallPlan)}
      (h : a.Along use part s w (record ++ ds) (leaves rest))
      (hprompt : ∀ progress, reported progress ∈ ds →
        (∃ before, ds = before ++ [reported progress]) ∧
          ∃ w₀, (a.host.answer w₀ (Call.report progress)).1 = w) :
      Polled a use part s record
        ((w, record ++ ds), .running ⟨true, a.unmaps, rest.bind a.conclude⟩)
  /-- It comes to its end, and has reported nothing before that. -/
  | completed {w w' : W} {ds release : Record P} {result : Except Error InstallPlan}
      (h : a.Along use part s w (record ++ ds) (.finished result))
      (hquiet : ∀ progress, reported progress ∉ ds) (hrelease : a.Released release) :
      Polled a use part s record
        ((w', record ++ ds ++ release ++ [reported a.scale.one]), .completed result)
  | broken {w : W} {ds : Record P} (h : a.Along use part s w (record ++ ds) .broken)
      (hquiet : ∀ progress, reported progress ∉ ds) :
      Polled a use part s record ((w, record ++ ds), .broken)

/-- A poll that finds an abort releases the snapshots, if the verification has been polled before,
    and does nothing else. -/
theorem poll_aborted (haborted : a.aborted w = true) (v : Running P) :
    a.poll (w, record) v =
      (v.cleanup a.host.recorded v.started (w, record), .completed (.error .cancelled)) := by
  unfold poll Running.poll Running.drive
  rw [if_pos haborted]
  rfl

/-- What a poll comes to that finds no abort, by where it takes the course. -/
inductive GoesOn (a : Assignment P W) :
    (W × Record P) × Ending (interface P) (Option Unit) (Except Error InstallPlan) →
      (W × Record P) × Life P → Prop where
  | left {world : W × Record P} {rest : Suspended (interface P) (Except Error InstallPlan)} :
      GoesOn a (world, leaves rest) (world, .running ⟨true, a.unmaps, rest.bind a.conclude⟩)
  /-- At the end of the course the verification is concluded. -/
  | completed {w w' : W} {record release : Record P} {result : Except Error InstallPlan}
      (hrelease : a.Released release) :
      GoesOn a ((w, record), .finished result)
        ((w', record ++ release ++ [reported a.scale.one]), .completed result)
  | broken {world : W × Record P} : GoesOn a (world, .broken) (world, .broken)

theorem poll_goesOn (haborted : a.aborted w = false) (started : Bool)
    (rest : Suspended (interface P) (Except Error InstallPlan)) (record : Record P) :
    a.GoesOn (rest.drive a.host.recorded (giveWay (some ())) (w, record))
      (a.poll (w, record) ⟨started, a.unmaps, rest.bind a.conclude⟩) := by
  have hbind := rest.drive_bind a.host.recorded (giveWay (some ())) a.conclude (w, record)
  have hwhy := (rest.drive_keeps a.host.recorded (fun _ => True) (fun _ _ _ => trivial)
    (fun _ _ _ _ => trivial) (fun _ _ _ _ => trivial) (some ()) (w := (w, record)) trivial).2
  generalize rest.drive a.host.recorded (giveWay (some ())) (w, record) = last at *
  obtain ⟨⟨w', record'⟩, ending⟩ := last
  unfold poll Running.poll Running.drive
  rw [if_neg (by simp [haborted])]
  dsimp only
  rw [hbind]
  cases ending with
  | finished result =>
    obtain ⟨w'', release, hrelease, hdrive⟩ := drive_conclude (a := a) result w' record'
    dsimp only
    rw [hdrive]
    exact .completed hrelease
  | interrupted why rest' =>
    obtain rfl := hwhy why rest' rfl
    exact .left
  | broken => exact .broken

/-- A poll goes on with the course; where it reports progress it ends. -/
theorem polled (hcarries : a.host.Carries use part) (started : Bool)
    {rest : Suspended (interface P) (Except Error InstallPlan)}
    (h : a.Along use part s w record (leaves rest)) (haborted : a.aborted w = false) :
    a.Polled use part s record
      (a.poll (w, record) ⟨started, a.unmaps, rest.bind a.conclude⟩) := by
  obtain ⟨es, harrives, hcarried⟩ := h
  obtain ⟨new, ds, hrecord, harrives', hsteady, hcalls, hcarried'⟩ :=
    rest.drive_arrives hcarries (some ()) harrives w
  have hgoes := poll_goesOn haborted started rest record
  have hworld : ∀ before progress,
      (rest.drive a.host.recorded (giveWay (some ())) (w, record)).1.2 =
        record ++ (before ++ [reported progress]) →
      ∃ w₀, (a.host.answer w₀ (Call.report progress)).1 =
        (rest.drive a.host.recorded (giveWay (some ())) (w, record)).1.1 := by
    intro before progress h
    obtain ⟨w₀, hw₀⟩ := rest.drive_last_called a.host (some ()) w record h
    exact ⟨w₀, by rw [hw₀]⟩
  generalize rest.drive a.host.recorded (giveWay (some ())) (w, record) = last at *
  generalize a.poll (w, record) ⟨started, a.unmaps, rest.bind a.conclude⟩ = state at *
  obtain ⟨⟨w', record'⟩, ending⟩ := last
  obtain rfl : record' = record ++ ds := hrecord
  have halong : a.Along use part s w' (record ++ ds) ending :=
    ⟨es ++ new, harrives', hcarried.append hcarried'⟩
  have hends : ∀ progress, reported progress ∈ ds →
      (∃ why next, ending = .interrupted why (.ready next)) ∧
        ∃ before, record ++ ds = before ++ [reported progress] := by
    intro progress hmem
    exact harrives'.ends_poll a.orderly_course (fun _ => id) hsteady ((hcalls _ _).mp hmem)
  cases hgoes with
  | completed hrelease =>
    refine .completed halong ?_ hrelease
    intro progress hmem
    obtain ⟨⟨why, next, hending⟩, -⟩ := hends progress hmem
    cases hending
  | left =>
    refine .left halong ?_
    intro progress hmem
    obtain ⟨-, before, hbefore⟩ := hends progress hmem
    -- the report is the last dealing of this poll, so it is the last one of all
    rcases List.eq_nil_or_concat ds with rfl | ⟨before', e, rfl⟩
    · cases hmem
    · rw [List.concat_eq_append] at hbefore ⊢
      rw [← List.append_assoc] at hbefore
      obtain ⟨-, hlast⟩ := List.append_inj' hbefore rfl
      cases hlast
      exact ⟨⟨before', rfl⟩, hworld before' progress (by rw [List.concat_eq_append])⟩
  | broken =>
    refine .broken halong ?_
    intro progress hmem
    obtain ⟨⟨why, next, hending⟩, -⟩ := hends progress hmem
    cases hending

/-! ## Whole lives -/

/-- Where a verification stands that has begun its work. -/
inductive Begun (a : Assignment P W) (use : S → (c : Call P) → c.Answer → S → Prop)
    (part : W → S) (s : S) : (W × Record P) × Life P → Prop where
  | running {w : W} {ds : Record P} {rest : Suspended (interface P) (Except Error InstallPlan)}
      (h : a.Along use part s w ds (leaves rest)) :
      Begun a use part s ((w, ds), .running ⟨true, a.unmaps, rest.bind a.conclude⟩)
  /-- It has come to its end by itself. -/
  | completed {w w' : W} {ds release : Record P} {result : Except Error InstallPlan}
      (h : a.Along use part s w ds (.finished result)) (hrelease : a.Released release) :
      Begun a use part s ((w', ds ++ release ++ [reported a.scale.one]), .completed result)
  | cancelled {w w' : W} {ds release : Record P}
      {rest : Suspended (interface P) (Except Error InstallPlan)}
      (h : a.Along use part s w ds (leaves rest)) (hrelease : a.Released release) :
      Begun a use part s ((w', ds ++ release), .completed (.error .cancelled))
  | dropped {w w' : W} {ds release : Record P}
      {rest : Suspended (interface P) (Except Error InstallPlan)}
      (h : a.Along use part s w ds (leaves rest)) (hrelease : a.Released release) :
      Begun a use part s ((w', ds ++ release), .dropped)
  | broken {w w' : W} {ds : Record P} (h : a.Along use part s w ds .broken) :
      Begun a use part s ((w', ds), .broken)

/-- The poll of a verification that has come some way. -/
theorem Polled.begun {state : (W × Record P) × Life P} (h : a.Polled use part s record state) :
    a.Begun use part s state := by
  cases h with
  | left h _ => exact .running h
  | completed h _ hrelease => exact .completed h hrelease
  | broken h _ => exact .broken h

theorem Begun.step (hcarries : a.host.Carries use part) {state : (W × Record P) × Life P}
    (h : a.Begun use part s state) {o : Occasion W} (hkeeps : o.Keeps part) :
    a.Begun use part s (a.step state o) := by
  cases h with
  | @running w ds rest h =>
    cases o with
    | poll =>
      show a.Begun use part s (a.poll _ _)
      cases haborted : a.aborted w with
      | true =>
        obtain ⟨w', release, hrelease, hcleanup⟩ := cleanup_eq (a := a) (rest.bind a.conclude) w ds
        rw [poll_aborted haborted, hcleanup]
        exact .cancelled h hrelease
      | false => exact (polled hcarries true h haborted).begun
    | drop =>
      show a.Begun use part s (Running.cleanup _ _ _ _, .dropped)
      obtain ⟨w', release, hrelease, hcleanup⟩ := cleanup_eq (a := a) (rest.bind a.conclude) w ds
      rw [hcleanup]
      exact .dropped h hrelease
    | change f =>
      obtain ⟨es, harrives, hcarried⟩ := h
      exact .running ⟨es, harrives, hkeeps w ▸ hcarried⟩
  | completed h hrelease => cases o <;> exact .completed h hrelease
  | cancelled h hrelease => cases o <;> exact .cancelled h hrelease
  | dropped h hrelease => cases o <;> exact .dropped h hrelease
  | broken h => cases o <;> exact .broken h

theorem Begun.foldl (hcarries : a.host.Carries use part) (occasions : List (Occasion W))
    (hkeeps : ∀ o ∈ occasions, o.Keeps part) :
    ∀ {state : (W × Record P) × Life P}, a.Begun use part s state →
      a.Begun use part s (occasions.foldl a.step state) := by
  induction occasions with
  | nil => exact fun h => h
  | cons o rest ih =>
    obtain ⟨ho, hrest⟩ := List.forall_mem_cons.mp hkeeps
    exact fun h => ih hrest (h.step hcarries ho)

/-- A verification that has begun its work is on its course, or has come to an end from there. -/
theorem run_of_begins (hcarries : a.host.Carries use part) (occasions : List (Occasion W)) :
    ∀ {w : W}, (∀ o ∈ occasions, o.Keeps part) → a.begins w occasions = true →
      a.Begun use part (part w) (a.run w occasions) := by
  induction occasions with
  | nil => exact fun _ h => nomatch h
  | cons o rest ih =>
    intro w hkeeps hbegins
    obtain ⟨ho, hrest⟩ := List.forall_mem_cons.mp hkeeps
    cases o with
    | poll =>
      have haborted : a.aborted w = false := by simpa [begins] using hbegins
      exact Begun.foldl hcarries rest hrest
        (polled hcarries false (along_start w) haborted).begun
    | drop => cases hbegins
    | change f =>
      rw [← ho w]
      exact ih hrest hbegins

/-- Ended, or not yet begun. -/
def Idle (a : Assignment P W) (life : Life P) : Prop :=
  life = .running (Running.new a.scale a.dynamic a.plan) ∨
    life = .completed (.error .cancelled) ∨ life = .dropped

/-- A verification that has not begun its work has no dealings with its host, and if it has ended,
    it has been cancelled or given up. -/
theorem run_of_not_begins (occasions : List (Occasion W)) :
    ∀ {w : W}, a.begins w occasions = false →
      (a.run w occasions).1.2 = [] ∧ a.Idle (a.run w occasions).2 := by
  have hended : ∀ (rest : List (Occasion W)) (w : W) (life : Life P),
      life = .completed (.error .cancelled) ∨ life = .dropped →
      (rest.foldl a.step ((w, []), life)).1.2 = [] ∧
        a.Idle (rest.foldl a.step ((w, []), life)).2 := by
    intro rest
    induction rest with
    | nil => exact fun w life h => ⟨rfl, .inr h⟩
    | cons o rest ih =>
      rintro w _ (rfl | rfl)
      · cases o with
        | change f => exact ih (f w) _ (.inl rfl)
        | _ => exact ih w _ (.inl rfl)
      · cases o with
        | change f => exact ih (f w) _ (.inr rfl)
        | _ => exact ih w _ (.inr rfl)
  induction occasions with
  | nil => exact fun _ => ⟨rfl, .inl rfl⟩
  | cons o rest ih =>
    intro w hbegins
    cases o with
    | poll =>
      have haborted : a.aborted w = true := by simpa [begins] using hbegins
      have hpoll : a.step (a.start w) .poll = ((w, []), .completed (.error .cancelled)) :=
        poll_aborted haborted _
      show (rest.foldl a.step (a.step (a.start w) .poll)).1.2 = [] ∧
        a.Idle (rest.foldl a.step (a.step (a.start w) .poll)).2
      rw [hpoll]
      exact hended rest w _ (.inl rfl)
    | drop => exact hended rest w _ (.inr rfl)
    | change f => exact ih hbegins

/-- A verification that has had any dealings with its host has begun its work. -/
theorem begun_of_recorded (hcarries : a.host.Carries use part) {occasions : List (Occasion W)}
    (hkeeps : ∀ o ∈ occasions, o.Keeps part) {before after : Record P}
    {x : Dealing (interface P)} (hrecord : (a.run w occasions).1.2 = before ++ x :: after) :
    a.Begun use part (part w) (a.run w occasions) := by
  cases hbegins : a.begins w occasions with
  | false =>
    rw [(run_of_not_begins occasions hbegins).1] at hrecord
    cases before <;> cases hrecord
  | true => exact run_of_begins hcarries occasions hkeeps hbegins

/-- A verification that has not ended is somewhere on its course. -/
theorem anyhow_of_running {occasions : List (Occasion W)} {v : Running P} {w' : W}
    (h : a.run w occasions = ((w', record), .running v)) :
    ∃ started rest, v = ⟨started, a.unmaps, rest.bind a.conclude⟩ ∧
      a.Anyhow w' record (leaves rest) := by
  cases hbegins : a.begins w occasions with
  | false =>
    obtain ⟨hrecord, hidle⟩ := run_of_not_begins occasions hbegins
    rw [h] at hrecord hidle
    obtain rfl : record = [] := hrecord
    rcases hidle with hnew | hended | hended
    · cases hnew
      exact ⟨false, _, rfl, along_start w'⟩
    · cases hended
    · cases hended
  | true =>
    have hbegun := run_of_begins a.host.carries_nothing occasions (fun o _ => o.keeps_nothing)
      hbegins
    rw [h] at hbegun
    cases hbegun with
    | running hanyhow => exact ⟨true, _, rfl, hanyhow⟩

end Assignment

/-- A verification of a plan on a rig. -/
def onRig (scale : Scale P) (dynamic : DynamicPartitions) (plan : InstallPlan) :
    Assignment P (Rig P) where
  host := Rig.host
  aborted := (·.aborted)
  scale
  dynamic
  plan := some plan

/-- What an event is on a rig. -/
def Event.occasion : Event → Occasion (Rig P)
  | .poll => .poll
  | .abort => .change fun r => { r with aborted := true }
  | .drop => .drop

end SlotVerify.Verification
