import SlotVerify.Proofs.Verification.Diagnosis
import SlotVerify.Proofs.Verity.Failure
/-
  Failures of devices, over whole lives.

  Wherever the course of a verification has come to a request, the step under way asks for it
  (`Setting.Asks`): it is a read of its partition, from the offset that the step has come to, or it
  belongs to the finalization of the writer.  Either way its failure is the end, and the error says
  which partition it was and what the device has said (`Setting.Asks.fails`).

  So a failure in the record of a life is the last thing that the verification asks of a device, and
  the life has ended with it; and if a plan is accepted, whatever was written belongs to a
  finalization that has made its device durable at the end (`failures_reported`).
-/

namespace SlotVerify.Verification

open Device Routine
open Verity (Writer)

variable {P W α β : Type}

/-- The writer hands out the routine of a finalization. -/
theorem handed_out {w w' : Writer} {first rest : Trace P} {t : Verity.DeviceRoutine Unit}
    (h : Carries w (first ++ finalized (.ok t) :: rest) w') :
    ∃ f : Verity.Finalization, t = f.routine := by
  obtain ⟨w₁, -, hrest⟩ := h.append_cases
  cases hrest with
  | called huse _ =>
    obtain ⟨f, -, rfl⟩ := Writer.finalize_of_routine (Prod.mk.inj huse).2
    exact ⟨f, rfl⟩

/-- What a writer has handed out in a step is being written: this has been done of it. -/
def FinalizingInStep (s : Setting P) (p : Partition) (step : Step) (es : Trace P)
    (device : OpenedDevice) (t : Verity.DeviceRoutine Unit) (written : Trace P) : Prop :=
  ∃ opened begun first contents, es = opened ++ (begun ++ (first ++ finalized (.ok t) :: written)) ∧
    (openSource s p step).Reaches opened (.done (.ok device)) ∧
    begun = (if s.writes p step then [began p] else []) ∧
    Collects device .empty first contents

/-- A step that has come to a request, and how the verification goes on with the outcome. -/
inductive Setting.Asks (s : Setting P) (p : Partition) (step : Step) (es : Trace P)
    (d : OpenedDevice) :
    (q : Request) → (Except IoError q.Reply → Attempt P Error α) → Prop where
  /-- The partition is read, from the offset that has been come to. -/
  | reading {contents : ByteArray} {length : Nat}
      {next : Except IoError ByteArray → Attempt P Error α}
      (h : ReadInStep s p step es d contents)
      (hnext : ∀ e, next (.error e) = .done (.error (.read p.name contents.size e))) :
      Setting.Asks s p step es d (.read contents.size length) next
  /-- The request belongs to a finalization, and `k` is what follows that. -/
  | finalizing {q : Request} {t : Verity.DeviceRoutine Unit} {written : Trace P}
      {n : Except IoError q.Reply → Attempt P Verity.Error Unit}
      {next : Except IoError q.Reply → Attempt P Error α}
      {k : Except Verity.Error Unit → Attempt P Error α}
      (h : FinalizingInStep s p step es d t written)
      (hwriting : (t.on P d).Reaches written (.request d q n)) (hnext : ∀ x, next x = (n x).bind k)
      (hk : ∀ e, k (.error e) = .done (.error (.verityComputation p.name e))) :
      Setting.Asks s p step es d q next

/-- How a step fails with a request: the error names the partition and carries the cause. -/
inductive Setting.Fails (s : Setting P) (p : Partition) (step : Step) (es : Trace P)
    (d : OpenedDevice) : Request → IoError → Error → Prop where
  | reading {contents : ByteArray} {length : Nat} {e : IoError}
      (h : ReadInStep s p step es d contents) :
      Setting.Fails s p step es d (.read contents.size length) e (.read p.name contents.size e)
  | finalizing {q : Request} {e : IoError} {t : Verity.DeviceRoutine Unit} {written : Trace P}
      {n : Except IoError q.Reply → Attempt P Verity.Error Unit}
      (h : FinalizingInStep s p step es d t written)
      (hwriting : (t.on P d).Reaches written (.request d q n)) :
      Setting.Fails s p step es d q e (.verityComputation p.name (.io e))

section

variable {s : Setting P} {p : Partition} {step : Step} {es : Trace P} {d : OpenedDevice}
  {q : Request}

/-- Whatever comes behind a step does not matter for its failures. -/
theorem Setting.Asks.andThen {next : Except IoError q.Reply → Attempt P Error α}
    (h : s.Asks p step es d q next) (f : α → Attempt P Error β) :
    s.Asks p step es d q fun x => Attempt.andThen (next x) f := by
  cases h with
  | reading h hnext =>
    refine .reading h fun e => ?_
    rw [hnext]
    rfl
  | @finalizing _ t written n _ k h hwriting hnext hk =>
    refine .finalizing (k := fun outcome => Attempt.andThen (k outcome) f) h hwriting
      (fun x => ?_) fun e => ?_
    · rw [hnext]
      exact bind_assoc (n x) k _
    · show Attempt.andThen (k (.error e)) f = _
      rw [hk]
      rfl

/-- If the writer is the one that the step has, its failure is the end. -/
theorem Setting.Asks.fails {next : Except IoError q.Reply → Attempt P Error α}
    (h : s.Asks p step es d q next) {w w' : Writer} (hcarries : Carries w es w') (e : IoError) :
    ∃ err, s.Fails p step es d q e err ∧ next (.error e) = .done (.error err) := by
  cases h with
  | reading h hnext => exact ⟨_, .reading h, hnext e⟩
  | @finalizing _ t written n _ k h hwriting hnext hk =>
    have hfinalizing := h
    obtain ⟨opened, begun, first, contents, rfl, -⟩ := h
    rw [← List.append_assoc, ← List.append_assoc] at hcarries
    obtain ⟨f, rfl⟩ := handed_out hcarries
    refine ⟨_, .finalizing hfinalizing hwriting, ?_⟩
    rw [hnext, (Strict.onDevice f.strict_routine).ends hwriting e]
    exact hk _

/-- What is asked for on a device is asked of that device. -/
theorem device_of_reaches_on {t : Verity.DeviceRoutine Unit} {device : OpenedDevice}
    {next : Except IoError q.Reply → Attempt P Verity.Error Unit}
    (h : (t.on P device).Reaches es (.request d q next)) : d = device := by
  have honly : (t.on P device).Only (fun _ => True) (fun d _ => d = device) fun _ => True :=
    only_onDevice (fun _ _ _ => rfl) t.only_true
  exact ((honly.reaches h).2).1

/-- Where a step has come to a request, it asks for it. -/
theorem asks_hashStep {index : Nat} {told : P}
    {next : Except IoError q.Reply → Attempt P Error (ByteArray × P)}
    (h : (hashStep s p step index told).Reaches es (.request d q next)) :
    s.Asks p step es d q next := by
  generalize hu : Routine.request d q next = u at h
  cases stepped_hashStep h with
  | opening _ _ hasks => exact absurd hu.symm (hasks d q next)
  | @hashing opened begun es device dataEnd v _ _ hdevice hbegun hhash =>
    have hstage := hashStage_hashPartition _ _ _ _ _ hhash
    cases v with
    | request d' q' next' =>
      cases hu
      generalize hv : Routine.request d q next' = v at hstage
      cases hstage with
      | @reading contents _ _ hread _ hnext =>
        obtain ⟨rfl, ⟨length, rfl⟩, hfail⟩ := hnext d q next' hv.symm
        refine .reading ⟨opened, begun, es, rfl, hdevice, hbegun, hread⟩ fun e => ?_
        show Attempt.mapError (next' (.error e)) _ = _
        rw [hfail]
        rfl
      | @finalizing contents first written t v f hfirst hwriting hleft =>
        cases v with
        | done outcome => exact absurd rfl (hleft outcome)
        | request d' q' n =>
          cases hv
          obtain rfl := device_of_reaches_on hwriting
          refine .finalizing (k := fun outcome => Attempt.mapError (Attempt.andThen
            (.done (outcome.mapError .verity)) f) (hashFailure p))
            ⟨opened, begun, first, contents, rfl, hdevice, hbegun, hfirst⟩ hwriting
            (fun x => ?_) fun e => rfl
          exact (congrArg (Attempt.mapError · _) (bind_assoc (n x) _ _)).trans
            (bind_assoc (n x) _ _)
        | _ => cases hv
      | failed => cases hv
      | hashed => cases hv
    | _ => cases hu

end

/-! ## Lives -/

theorem calls_afterwards (s : Setting P) : Calls (s.afterwards ()) := by
  refine only_bind (calls_verifyUntouched s.plan) ?_
  rintro (e | ⟨⟩) - <;> trivial

/-- Where a whole verification has come to a request, its last step asks for it. -/
theorem Setting.Covers.asks {s : Setting P} {visits : List (Visit P)} {c : Cursor} {es : Trace P}
    {d : OpenedDevice} {q : Request} {next : Except IoError q.Reply → Attempt P Error InstallPlan}
    (h : s.Covers visits c es (.request d q next)) :
    ∃ earlier v before, visits = earlier ++ [v] ∧ es = before ++ v.events ∧ v.Genuine s ∧
      s.Asks v.partition v.cursor.step v.events d q next := by
  have hgenuine := h.diagnosed.genuine
  generalize hu : Routine.request d q next = u at h
  cases h with
  | unbegun => cases hu
  | @verifying _ _ es v h hnot =>
    cases h with
    | ended => exact absurd rfl (hnot ())
    | failed => cases hu
    | @visiting visits c₀ _ told p es left h hfound hhash hlast =>
      cases left with
      | done outcome =>
        cases outcome with
        | error e => cases hu
        | ok result =>
          obtain ⟨e, hadvance⟩ := hlast _ _ rfl
          have hend : Attempt.andThen (.done (.ok result)) (s.proceed p c) = .done (.error e) :=
            proceed_of_error hadvance
          rw [hend] at hu
          cases hu
      | request d' q' next' =>
        cases hu
        exact ⟨visits, _, .paused :: eventsOf visits, rfl, rfl,
          hgenuine _ (List.mem_append_right _ (List.mem_singleton_self _)),
          ((asks_hashStep hhash).andThen _).andThen _⟩
      | _ => cases hu
  | behind _ hlater =>
    rw [← hu] at hlater
    exact (((calls_afterwards s).reaches hlater).2).1.elim

/-- A request of a life has failed in a step of the verification: until then this was done, the step
    asked for it, and the error is the one that belongs to it. -/
def FailedIn (a : Assignment P W) (s : Setting P) (before : Record P) (d : OpenedDevice)
    (q : Request) (e : IoError) (err : Error) : Prop :=
  ∃ (v : Visit P) (first : Trace P) (earlier : Record P)
      (next : Except IoError q.Reply → Attempt P Error InstallPlan),
    v.Genuine s ∧ a.course.Reaches (first ++ v.events) (.request d q next) ∧
    Recorded (first ++ v.events) earlier ∧
    (before = earlier ∨ ∃ polls, before = earlier ++ [.submitted d q (.ok polls)]) ∧
    s.Fails v.partition v.cursor.step v.events d q e err

namespace Assignment

/-- A release is nothing that fails. -/
theorem Released.not_failsWith {a : Assignment P W} {release : Record P} (h : a.Released release)
    {x : Dealing (interface P)} (hx : x ∈ release) {d : OpenedDevice} {q : Request} {e : IoError} :
    ¬ x.FailsWith d q e := by
  obtain ⟨success, rfl⟩ := h.eq_unmapped hx
  rintro (h | h) <;> cases h

/-- Nor is a request that is pending. -/
theorem not_failsWith_of_notes {ρ : Type} {ending : Ending (interface P) ρ α} {last : Record P}
    (h : ending.Notes last) {x : Dealing (interface P)} (hx : x ∈ last) {d : OpenedDevice}
    {q : Request} {e : IoError} : ¬ x.FailsWith d q e := by
  rcases Ending.notes_cases h with rfl | ⟨_, _, _, _, _, _, -, rfl⟩
  · cases hx
  · obtain rfl := List.mem_singleton.mp hx
    rintro (h | h) <;> cases h

variable {host : Host (interface P) W} {writer : W → Writer} {aborted : W → Bool} {scale : Scale P}
  {dynamic : DynamicPartitions} {plan : InstallPlan} {w : W} {occasions : List (Occasion W)}

/-- Behind a failure there is nothing left of the course. -/
theorem Along.ends_of_failsWith
    {ending : Ending (interface P) (Option Unit) (Except Error InstallPlan)} {w' : W}
    {ds later before after : Record P} {v : Writer}
    (h : Along (⟨host, aborted, scale, dynamic, some plan⟩ : Assignment P W) Answers writer v w' ds
      ending)
    {x : Dealing (interface P)} {d : OpenedDevice} {q : Request} {e : IoError}
    (hx : x.FailsWith d q e) (hrecord : ds ++ later = before ++ x :: after) (hlater : x ∉ later) :
    ∃ err, FailedIn (⟨host, aborted, scale, dynamic, some plan⟩ : Assignment P W)
        ⟨scale, dynamic, plan⟩ before d q e err ∧
      ending = .finished (.error err) ∧ after = later := by
  obtain ⟨es, ⟨hreaches, recorded, last, rfl, hrecorded, hlast⟩, hcarried⟩ := h
  have hnot : x ∉ last ++ later := by
    intro hmem
    rcases List.mem_append.mp hmem with hmem | hmem
    · exact not_failsWith_of_notes hlast hmem hx
    · exact hlater hmem
  rw [List.append_assoc] at hrecord
  obtain ⟨rest, rfl, rfl⟩ := cut_of_not_mem hrecord hnot
  obtain ⟨es₁, es₂, earlier, rfl, hearlier, hrest, hbefore⟩ := hrecorded.cut_failed hx
  obtain ⟨u, hfirst, hserved⟩ := hreaches.append_cases
  obtain ⟨v₁, hcarried, -⟩ := hcarried.append_cases
  cases hserved with
  | @request _ _ next _ _ _ hnext =>
    obtain ⟨visits, c, hcovers, -⟩ :=
      (Setting.Covers.unbegun (s := ⟨scale, dynamic, plan⟩)).further hfirst
    obtain ⟨_, visit, first, -, hevents, hgenuine, hasks⟩ := hcovers.asks
    obtain rfl : es₁ = first ++ visit.events := hevents
    obtain ⟨v₂, -, hcarried⟩ := hcarried.append_cases
    obtain ⟨err, hfails, hend⟩ := hasks.fails hcarried e
    rw [hend] at hnext
    obtain ⟨rfl, hnode⟩ := reaches_done hnext
    cases hrest
    refine ⟨err, ⟨visit, first, earlier, next, hgenuine, hfirst, hearlier, hbefore, hfails⟩, ?_⟩
    cases ending with
    | finished result =>
      cases hnode
      obtain rfl : last = [] := hlast
      exact ⟨rfl, rfl⟩
    | interrupted why rest => cases rest <;> cases hnode
    | broken => cases hnode

/-- A failure in the record of a life is its end. -/
theorem completed_of_failsWith (hcarries : host.Carries Answers writer)
    (hkeeps : ∀ o ∈ occasions, o.Keeps writer) {before after : Record P}
    {x : Dealing (interface P)} {d : OpenedDevice} {q : Request} {e : IoError}
    (hx : x.FailsWith d q e) :
    let a : Assignment P W := ⟨host, aborted, scale, dynamic, some plan⟩
    (a.run w occasions).1.2 = before ++ x :: after →
    ∃ err release, FailedIn a ⟨scale, dynamic, plan⟩ before d q e err ∧
      (a.run w occasions).2 = .completed (.error err) ∧ a.Released release ∧
      after = release ++ [reported scale.one] := by
  intro a hrecord
  have hbegun := begun_of_recorded hcarries hkeeps hrecord
  generalize a.run w occasions = state at hrecord hbegun
  cases hbegun with
  | running h =>
    obtain ⟨_, -, hending, -⟩ :=
      h.ends_of_failsWith hx ((List.append_nil _).trans hrecord) List.not_mem_nil
    cases hending
  | broken h =>
    obtain ⟨_, -, hending, -⟩ :=
      h.ends_of_failsWith hx ((List.append_nil _).trans hrecord) List.not_mem_nil
    cases hending
  | cancelled h hrelease =>
    obtain ⟨_, -, hending, -⟩ :=
      h.ends_of_failsWith hx hrecord fun hmem => hrelease.not_failsWith hmem hx
    cases hending
  | dropped h hrelease =>
    obtain ⟨_, -, hending, -⟩ :=
      h.ends_of_failsWith hx hrecord fun hmem => hrelease.not_failsWith hmem hx
    cases hending
  | @completed _ _ _ release _ h hrelease =>
    have hlater : x ∉ release ++ [reported scale.one] := by
      intro hmem
      rcases List.mem_append.mp hmem with hmem | hmem
      · exact hrelease.not_failsWith hmem hx
      · obtain rfl := List.mem_singleton.mp hmem
        rcases hx with hx | hx <;> cases hx
    obtain ⟨err, hfailed, hending, rfl⟩ :=
      h.ends_of_failsWith hx ((List.append_assoc ..).symm.trans hrecord) hlater
    cases hending
    exact ⟨err, _, hfailed, rfl, hrelease, rfl⟩

end Assignment

/-! ## Durability -/

/-- A place in a record that belongs to a finalization of the device: all of that is in the record,
    it works on this device only, and the one sync is its end. -/
def MadeDurable (before : Record P) (x : Dealing (interface P)) (after : Record P)
    (d : OpenedDevice) : Prop :=
  ∃ (t : Verity.DeviceRoutine Unit) (written : Trace P) (first block block' last : Record P)
      (polls : Nat),
    before = first ++ handedOut t :: block ∧
    after = block' ++ .submitted d .sync (.ok polls) :: .completed d .sync (.ok ()) :: last ∧
    (t.on P d).Reaches written (.done (.ok ())) ∧
    Recorded written (block ++ x :: (block' ++
      [.submitted d .sync (.ok polls), .completed d .sync (.ok ())])) ∧
    ∀ y ∈ block ++ x :: block', y.Permitted (fun _ => False) fun d' q => d' = d ∧ q ≠ .sync

/-- Something may happen later. -/
theorem MadeDurable.append {before after : Record P} {x : Dealing (interface P)} {d : OpenedDevice}
    (h : MadeDurable before x after d) (later : Record P) :
    MadeDurable before x (after ++ later) d := by
  obtain ⟨t, written, first, block, block', last, polls, hbefore, rfl, hrest⟩ := h
  exact ⟨t, written, first, block, block', last ++ later, polls, hbefore, by simp, hrest⟩

/-- A finalization that succeeds on a device ends with the one sync. -/
theorem synced_on {f : Verity.Finalization} {d : OpenedDevice} {es : Trace P}
    (h : (f.routine.on P d).Reaches es (.done (.ok ()))) :
    ∃ first, es = first ++ [.served d .sync (.ok ())] ∧
      ∀ e ∈ first, e.Permitted (fun _ => False) fun d' q => d' = d ∧ q ≠ .sync := by
  obtain ⟨es', hroutine, rfl⟩ := f.routine.exists_reaches_done_of_onDevice h
  obtain ⟨first, rfl, hfirst⟩ := Verity.Finalization.synced hroutine
  refine ⟨_, List.map_append, ?_⟩
  intro e he
  obtain ⟨e', he', rfl⟩ := List.mem_map.mp he
  have hpermitted := hfirst e' he'
  cases e' with
  | called c _ => exact nomatch c
  | served d' q outcome => exact ⟨rfl, hpermitted⟩
  | paused => trivial

/-- A write that the verification goes on behind belongs to a finalization that succeeds. -/
theorem Setting.Asks.written_through {s : Setting P} {p : Partition} {step : Step}
    {es later : Trace P} {d : OpenedDevice} {offset : Nat} {data : ByteArray}
    {next : Except IoError (Request.write offset data).Reply → Attempt P Error α}
    {outcome : Except IoError (Request.write offset data).Reply} {a : α}
    (h : s.Asks p step es d (.write offset data) next)
    (hnext : (next outcome).Reaches later (.done (.ok a))) :
    ∃ t written rest last, FinalizingInStep s p step es d t written ∧ later = rest ++ last ∧
      (t.on P d).Reaches (written ++ .served d (.write offset data) outcome :: rest)
        (.done (.ok ())) := by
  cases h with
  | @finalizing _ t written n _ k h hwriting hthrough hk =>
    rw [hthrough] at hnext
    rcases reaches_bind _ hnext with ⟨t', -, hleft, hdone⟩ | ⟨rest, result, last, rfl, hn, hlast⟩
    · exact absurd hdone.symm (hleft.bind k _)
    · cases result with
      | error e =>
        rw [hk] at hlast
        cases (reaches_done hlast).2
      | ok _ => exact ⟨t, written, rest, last, h, rfl, hwriting.trans (.request outcome hn)⟩

/-- Whatever a course has written that accepts its plan is durable. -/
theorem madeDurable {host : Host (interface P) W} {aborted : W → Bool} {scale : Scale P}
    {dynamic : DynamicPartitions} {plan accepted : InstallPlan} {es : Trace P} {w w' : Writer}
    (hreaches : (⟨host, aborted, scale, dynamic, some plan⟩ : Assignment P W).course.Reaches es
      (.done (.ok accepted)))
    (hcarries : Carries w es w') {before after : Record P} {d : OpenedDevice} {offset : Nat}
    {data : ByteArray} {taken : Except IoError Nat}
    (hrecorded : Recorded es (before ++ .submitted d (.write offset data) taken :: after)) :
    MadeDurable before (.submitted d (.write offset data) taken) after d := by
  obtain ⟨es₁, outcome, es₂, rfl, hbefore, hafter⟩ := hrecorded.cut_request
  obtain ⟨u, hfirst, hserved⟩ := hreaches.append_cases
  obtain ⟨w₁, hcarried, -⟩ := hcarries.append_cases
  cases hserved with
  | @request _ _ next _ _ _ hnext =>
    obtain ⟨visits, c, hcovers, -⟩ :=
      (Setting.Covers.unbegun (s := ⟨scale, dynamic, plan⟩)).further hfirst
    obtain ⟨_, visit, earlier, -, hevents, -, hasks⟩ := hcovers.asks
    obtain rfl : es₁ = earlier ++ visit.events := hevents
    obtain ⟨t, written, rest, last, ⟨opened, begun, first, _, hvisit, -⟩, rfl, hwriting⟩ :=
      hasks.written_through hnext
    rw [hvisit, ← List.append_assoc, ← List.append_assoc, ← List.append_assoc] at hcarried hbefore
    obtain ⟨f, rfl⟩ := handed_out hcarried
    -- the sync is the last of what the finalization does, and the write is not it
    obtain ⟨work, hwork, hpermitted⟩ := synced_on hwriting
    obtain ⟨rest, rfl, rfl⟩ := cut_of_not_mem hwork.symm fun hmem => by
      cases List.mem_singleton.mp hmem
    obtain ⟨outset, _, rfl, -, hhanded⟩ := hbefore.append_cases
    rw [List.append_assoc] at hafter
    obtain ⟨block', _, rfl, hblock', hending⟩ := hafter.behind_request
    cases hhanded with
    | @called _ _ _ block hblock =>
      cases hending with
      | @served _ _ polls _ _ final hfinal =>
        have hwork := hblock.append hblock'
        have hsync : Recorded (I := interface P) [.served d .sync (.ok ())]
            [.submitted d .sync (.ok polls), .completed d .sync (.ok ())] := .served .nil
        refine ⟨f.routine, _, outset, block, block', final, polls, rfl, rfl, hwriting, ?_,
          hwork.permitted hpermitted⟩
        simpa using hwork.append hsync

/-- Whatever has been written in the life of an accepted plan is durable. -/
theorem Assignment.madeDurable_of_accepted {host : Host (interface P) W} {writer : W → Writer}
    (hcarries : host.Carries Answers writer) {aborted : W → Bool} {scale : Scale P}
    {dynamic : DynamicPartitions} {plan accepted : InstallPlan} {w : W}
    {occasions : List (Occasion W)} (hkeeps : ∀ o ∈ occasions, o.Keeps writer) :
    let a : Assignment P W := ⟨host, aborted, scale, dynamic, some plan⟩
    (a.run w occasions).2.accepted? = some accepted →
    ∀ {before after : Record P} {d : OpenedDevice} {offset : Nat} {data : ByteArray}
      {taken : Except IoError Nat},
    (a.run w occasions).1.2 = before ++ .submitted d (.write offset data) taken :: after →
    MadeDurable before (.submitted d (.write offset data) taken) after d := by
  intro a haccepted before after d offset data taken hrecord
  have hbegun := begun_of_recorded hcarries hkeeps hrecord
  generalize a.run w occasions = state at haccepted hrecord hbegun
  cases hbegun with
  | @completed w' w'' ds release result h hrelease =>
    obtain ⟨es, harrives, hcarried⟩ := h
    have hlater : .submitted d (.write offset data) taken ∉ release ++ [reported scale.one] := by
      intro hmem
      rcases List.mem_append.mp hmem with hmem | hmem
      · exact hrelease.submitted_not_mem hmem
      · cases List.mem_singleton.mp hmem
    obtain ⟨rest, rfl, rfl⟩ := cut_of_not_mem ((List.append_assoc ..).symm.trans hrecord) hlater
    cases result with
    | error e => cases haccepted
    | ok result =>
      have hdurable := madeDurable harrives.reaches hcarried harrives.recorded
      exact hdurable.append _
  | _ => cases haccepted

/-! ## The whole of it -/

/-- No failure of a device is lost, whatever else the host answers and whenever the life is aborted
    or given up.  If the plan is accepted, no request has failed, neither when it was submitted nor
    when it was carried out, and each write belongs to a finalization that has ended with a sync of
    its device, the only one, behind all its writes.  If a request fails, then in a step that has
    come to it, and the life ends with the error of this step: it names the partition that is hashed
    and carries what the device has said, as a failed read at the offset that the step has come to,
    or as a failed computation for what the finalization asks for.  Nothing is requested any more;
    only the snapshots are released, if there are any, and the end is reported. -/
theorem failures_reported {host : Host (interface P) W} {writer : W → Writer}
    (hcarries : host.Carries Answers writer) (aborted : W → Bool) (scale : Scale P)
    (dynamic : DynamicPartitions) (plan : InstallPlan) (w : W) {occasions : List (Occasion W)}
    (hkeeps : ∀ o ∈ occasions, o.Keeps writer) :
    let a : Assignment P W := ⟨host, aborted, scale, dynamic, some plan⟩
    let last := a.run w occasions
    (∀ accepted, last.2.accepted? = some accepted →
      (∀ x ∈ last.1.2, ∀ d q e, ¬ x.FailsWith d q e) ∧
      ∀ before d offset data taken after,
        last.1.2 = before ++ .submitted d (.write offset data) taken :: after →
        MadeDurable before (.submitted d (.write offset data) taken) after d) ∧
    ∀ before x after d q e, x.FailsWith d q e → last.1.2 = before ++ x :: after →
      ∃ err release, FailedIn a ⟨scale, dynamic, plan⟩ before d q e err ∧
        last.2 = .completed (.error err) ∧ a.Released release ∧
        after = release ++ [reported scale.one] := by
  intro a last
  have hfailed : ∀ before x after d q e, x.FailsWith d q e → last.1.2 = before ++ x :: after →
      ∃ err release, FailedIn a ⟨scale, dynamic, plan⟩ before d q e err ∧
        last.2 = .completed (.error err) ∧ a.Released release ∧
        after = release ++ [reported scale.one] :=
    fun _ _ _ _ _ _ hx hrecord => Assignment.completed_of_failsWith hcarries hkeeps hx hrecord
  refine ⟨fun accepted haccepted => ⟨fun x hx d q e hfails => ?_, ?_⟩, hfailed⟩
  · obtain ⟨before, after, hrecord⟩ := List.append_of_mem hx
    obtain ⟨err, -, -, hlast, -⟩ := hfailed before x after d q e hfails hrecord
    rw [hlast] at haccepted
    cases haccepted
  · exact fun before d offset data taken after hrecord =>
      Assignment.madeDurable_of_accepted hcarries hkeeps haccepted hrecord

/-- A request that has failed. -/
def hasFailed : Dealing (interface P) → Bool
  | .submitted _ _ (.error _) | .completed _ _ (.error _) => true
  | _ => false

theorem failsWith_of_hasFailed {x : Dealing (interface P)} (h : hasFailed x = true) :
    ∃ d q e, x.FailsWith d q e :=
  match x, h with
  | .submitted d q (.error e), _ => ⟨d, q, e, .inl rfl⟩
  | .completed d q (.error e), _ => ⟨d, q, e, .inr rfl⟩

/-- The device without parity bytes, and it cannot be made durable. -/
def syncFailing : Rig Nat :=
  { parityMissing with faults := [⟨.sync, 0, .complete, .ioFailure⟩] }

/-- The parity bytes are made durable; where that is not possible, the verification has failed. -/
theorem failures_reported_parityBehind :
    let a := parityOnRig parityBehind
    let polls := (List.replicate 8 Event.poll).map Event.occasion
    (∃ before d offset data taken after,
      (a.run parityMissing polls).1.2 = before ++ .submitted d (.write offset data) taken :: after ∧
      MadeDurable before (.submitted d (.write offset data) taken) after d) ∧
    ∃ before d q e err,
      FailedIn a ⟨.bytes, parityMissing.dynamicPartitions, { partitions := [parityBehind] }⟩ before
        d q e err ∧
      (a.run syncFailing polls).2 = .completed (.error err) := by
  intro a polls
  -- eight polls are enough for both lives, and few enough to be computed
  have haccepted : (a.run parityMissing polls).2.accepted? =
        some { partitions := [parityBehind] } ∧
      (a.run parityMissing polls).1.2.any isWriting := by decide +kernel
  have hfailed : (a.run syncFailing polls).1.2.any hasFailed := by decide +kernel
  constructor
  · have hreported := failures_reported carries_onRig (·.aborted) .bytes
      parityMissing.dynamicPartitions { partitions := [parityBehind] } parityMissing
      (keeps_writer (List.replicate 8 .poll))
    dsimp only at hreported
    -- a variable from here on, or each comparison of its parts computes the run again
    generalize hlast : Assignment.run _ parityMissing _ = last at hreported
    rw [show a.run parityMissing polls = last from hlast] at haccepted ⊢
    obtain ⟨x, hmem, hx⟩ := List.any_eq_true.mp haccepted.2
    match x, hx with
    | .submitted d (.write offset data) taken, _ =>
      obtain ⟨before, after, hrecord⟩ := List.append_of_mem hmem
      exact ⟨before, d, offset, data, taken, after, hrecord,
        (hreported.1 _ haccepted.1).2 before d offset data taken after hrecord⟩
  · have hreported := failures_reported carries_onRig (·.aborted) .bytes
      parityMissing.dynamicPartitions { partitions := [parityBehind] } syncFailing
      (keeps_writer (List.replicate 8 .poll))
    dsimp only at hreported
    generalize hlast : Assignment.run _ syncFailing _ = last at hreported
    rw [show a.run syncFailing polls = last from hlast] at hfailed ⊢
    obtain ⟨x, hmem, hx⟩ := List.any_eq_true.mp hfailed
    obtain ⟨d, q, e, hfails⟩ := failsWith_of_hasFailed hx
    obtain ⟨before, after, hrecord⟩ := List.append_of_mem hmem
    obtain ⟨err, release, hin, hended, -⟩ := hreported.2 before x after d q e hfails hrecord
    exact ⟨before, d, q, e, err, hin, hended⟩

end SlotVerify.Verification
