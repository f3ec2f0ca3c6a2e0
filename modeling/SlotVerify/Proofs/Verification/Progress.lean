import Mathlib.Algebra.Order.Field.Basic
import Mathlib.Algebra.Order.Field.Rat
import Mathlib.Data.List.Chain
import Mathlib.Tactic.Positivity
import SlotVerify.Proofs.Routine.Guided
import SlotVerify.Proofs.Verification.Cancellation
import SlotVerify.Proofs.Verification.Reading
/-
  What a verification tells about its progress.

  1. **Climbing** — a verification hands on the highest progress it has told, from chunk to chunk,
     from a target to its source and from partition to partition, and it reports only what is more.
     `climbing` says so of its calls, and every part of a verification follows it
     (`climbs_program`).
  2. **Values** — a report is of a `ChunkShare`: some, but not more than all, of the bytes of a step
     of one of the plan's partitions.  On the scale of exact fractions this lies between nothing and
     everything (`ChunkShare.pos`, `ChunkShare.le_one`).
  3. **Ends** — the crux is that a poll which ends a verification reports no chunk, so what was
     reported while it was running is all there is of the chunks.  By induction on the occasions,
     nothing comes behind that, but for the report of a verification that has ended by itself
     (`reports_of_run`).

  The main result is `progress_climbs`.
-/

namespace SlotVerify.Verification

open Routine

variable {P W ε ε' α β : Type}

/-! ## Reports -/

/-- The progress that a call reports, if it reports any. -/
def Call.progress? : Call P → Option P
  | .report progress => some progress
  | _ => none

/-- The progress that has been reported, if any has. -/
def progressOf : Dealing (interface P) → Option P
  | .called (.report progress) _ => some progress
  | _ => none

/-- All that has been reported, in order. -/
def reports (record : Record P) : List P := record.filterMap progressOf

theorem reports_append (first second : Record P) :
    reports (first ++ second) = reports first ++ reports second :=
  List.filterMap_append

theorem mem_reports {record : Record P} {progress : P} :
    progress ∈ reports record ↔ reported progress ∈ record := by
  unfold reports
  rw [List.mem_filterMap]
  constructor
  · rintro ⟨d, hd, hprogress⟩
    match d, hprogress with
    | .called (.report _) _, rfl => exact hd
  · exact fun h => ⟨_, h, rfl⟩

/-- The reports are among the calls. -/
theorem reports_eq (record : Record P) :
    reports record =
      List.filterMap Call.progress? (record.filterMap Dealing.call? : List (Call P)) := by
  induction record with
  | nil => rfl
  | cons d record ih =>
    match d with
    | .called (.report progress) _ => exact congrArg (progress :: ·) ih
    | .called (.setReadOnly ..) _ | .called (.openPath ..) _ | .called (.openSnapshot ..) _
    | .called .mapAll _ | .called .unmapAll _ | .called (.verifyExtents ..) _
    | .called (.initWriter ..) _ | .called (.updateWriter ..) _ | .called .finalizeWriter _
    | .called .wake _ | .submitted .. | .completed .. => exact ih

/-- Nothing has been reported if no report is recorded. -/
theorem reports_of_quiet {record : Record P} (h : ∀ progress, reported progress ∉ record) :
    reports record = [] :=
  List.eq_nil_iff_forall_not_mem.mpr fun progress hmem => h progress (mem_reports.mp hmem)

/-! ## Climbing -/

/-- Each report is of more than what was told before, and of a permitted progress. -/
def climbing (scale : Scale P) (ok : P → Prop) : Guide (interface P) P where
  Allows told c := ∀ progress, c = Call.report progress →
    scale.less told progress = true ∧ ok progress
  after told c := (Call.progress? c).getD told

variable {scale : Scale P} {ok : P → Prop} {told : P}

/-- Reports that climb form a chain. -/
theorem isChain_of_climbing (cs : List (Call P)) :
    ∀ {told}, (climbing scale ok).AllowsAll told cs →
      (told :: cs.filterMap Call.progress?).IsChain (fun p q => scale.less p q = true) ∧
        ∀ q ∈ cs.filterMap Call.progress?, ok q := by
  induction cs with
  | nil => exact fun _ => ⟨.singleton _, nofun⟩
  | cons c cs ih =>
    rintro told ⟨hallows, hall⟩
    obtain ⟨hchain, hok⟩ := ih hall
    cases c with
    | report progress =>
      obtain ⟨hless, hprogress⟩ := hallows progress rfl
      exact ⟨.cons_cons hless hchain, List.forall_mem_cons.mpr ⟨hprogress, hok⟩⟩
    | _ => exact ⟨hchain, hok⟩

/-- An attempt climbs from what was told before, and a success fits what it has told. -/
def Attempt.Climbs (scale : Scale P) (ok : P → Prop) (told : P) (okResult : α → P → Prop)
    (t : Attempt P ε α) : Prop :=
  Routine.Follows (climbing scale ok) (fun outcome told => ∀ a, outcome = .ok a → okResult a told)
    t told

/-- Nothing is told. -/
abbrev Unchanged (told : P) (_ : α) (told' : P) : Prop := told' = told

section

variable {okMiddle : α → P → Prop} {okResult : β → P → Prop}

theorem climbs_succeed {a : α} (h : okMiddle a told) :
    (Attempt.succeed a : Attempt P ε α).Climbs scale ok told okMiddle := by
  rintro _ ⟨⟩
  exact h

theorem climbs_fail {e : ε} : (Attempt.fail e : Attempt P ε α).Climbs scale ok told okMiddle :=
  nofun

/-- A sequence: the second part goes on with what the first one has told. -/
theorem climbs_andThen {t : Attempt P ε α} {f : α → Attempt P ε β}
    (ht : t.Climbs scale ok told okMiddle)
    (hf : ∀ a told', okMiddle a told' → (f a).Climbs scale ok told' okResult) :
    (t.andThen f).Climbs scale ok told okResult := by
  refine follows_bind ?_ ht
  intro outcome told' houtcome
  cases outcome with
  | ok a => exact hf a told' (houtcome a rfl)
  | error e => exact climbs_fail

theorem climbs_mapError {t : Attempt P ε α} {f : ε → ε'} (ht : t.Climbs scale ok told okMiddle) :
    (t.mapError f).Climbs scale ok told okMiddle := by
  refine follows_bind ?_ ht
  intro outcome told' houtcome a ha
  cases outcome with
  | ok a =>
    cases ha
    exact houtcome a rfl
  | error e => cases ha

/-- A call that reports nothing. -/
theorem climbs_ask {c : Call P} {next : c.Answer → Attempt P ε α} (hquiet : c.progress? = none)
    (hnext : ∀ x, (next x).Climbs scale ok told okMiddle) :
    Attempt.Climbs scale ok told okMiddle (ask c next) := by
  refine ⟨?_, ?_⟩
  · rintro progress rfl
    cases hquiet
  · show ∀ x, (next x).Climbs scale ok ((Call.progress? c).getD told) okMiddle
    rw [hquiet]
    exact hnext

end

/-! ## Hashing a partition -/

section

variable {subject : Subject}

/-- Some of the bytes of a partition, but not more than all of them. -/
def Subject.Share (subject : Subject) (scale : Scale P) (progress : P) : Prop :=
  ∃ bytes, 0 < bytes ∧ bytes ≤ subject.size ∧
    progress = scale.fraction subject.index bytes subject.size subject.partitions

/-- What is told is more than before, or nothing is. -/
theorem climbs_tell {progress : P} {next : P → Attempt P ε α} {okMiddle : α → P → Prop}
    (hprogress : ok progress) (hnext : ∀ told', (next told').Climbs scale ok told' okMiddle) :
    Attempt.Climbs scale ok told okMiddle (tell scale told progress next) := by
  unfold tell
  split
  · rename_i hless
    refine ⟨?_, fun _ => hnext progress⟩
    rintro _ ⟨⟩
    exact ⟨hless, hprogress⟩
  · exact hnext told

theorem climbs_feed (feeding : Bool) (offset : Nat) (bytes : ByteArray) :
    (feed feeding offset bytes).Climbs scale ok told (Unchanged told) := by
  unfold feed
  split
  · exact climbs_ask rfl fun _ _ _ => rfl
  · exact climbs_succeed rfl

/-- The position knows what has been told. -/
theorem climbs_hashUpTo (hok : ∀ q, subject.Share scale q → ok q) (feeding : Bool) {stop : Nat}
    (hstop : stop ≤ subject.size) (pos : Position P) :
    (hashUpTo scale subject feeding stop pos).Climbs scale ok pos.reported
      fun pos' told' => pos'.reported = told' := by
  induction pos using hashUpTo_induction stop with
  | ended pos hend =>
    rw [hashUpTo_of_le hend]
    exact climbs_succeed rfl
  | chunk pos hmore ih =>
    rw [hashUpTo_of_lt hmore]
    intro outcome
    obtain ⟨e, -, hfail⟩ | ⟨chunk, hsome, hlength, hchunk⟩ :=
      afterRead_cases scale subject feeding stop pos outcome
    · rw [hfail]
      exact climbs_fail
    · rw [hchunk]
      have hinside := behind_le (Nat.le_of_lt hmore) hlength
      refine climbs_andThen (climbs_feed feeding _ chunk) ?_
      rintro _ _ rfl
      refine climbs_ask rfl fun _ => ?_
      refine climbs_tell (hok _ ⟨_, ?_, ?_, rfl⟩) fun told' => ih chunk told' hsome hlength
      · exact Nat.add_pos_right _ hsome
      · exact Nat.le_trans hinside hstop

theorem climbs_finalizeOn (device : OpenedDevice) :
    (finalizeOn (P := P) device).Climbs scale ok told (Unchanged told) := by
  refine climbs_ask rfl ?_
  intro answer
  cases answer with
  | error e => exact climbs_fail
  | ok t =>
    have hquiet : (t.on P device).Follows (climbing scale ok)
        (fun _ told' => True ∧ told' = told) told :=
      Only.follows (fun _ => False.elim) (only_on t device)
    refine follows_bind ?_ hquiet
    rintro outcome _ ⟨-, rfl⟩ _ _
    rfl

theorem climbs_hashPartition (hok : ∀ q, subject.Share scale q → ok q) (dataEnd : Nat)
    (writing : Bool) :
    (hashPartition scale subject dataEnd writing told).Climbs scale ok told
      fun result told' => result.2 = told' := by
  refine climbs_andThen (climbs_hashUpTo hok writing (Nat.min_le_right _ _) _) ?_
  rintro pos _ rfl
  have hfinalize : ((if writing then finalizeOn subject.device else Attempt.succeed ()) :
      Attempt P HashError Unit).Climbs scale ok pos.reported (Unchanged pos.reported) := by
    split
    · exact climbs_finalizeOn subject.device
    · exact climbs_succeed rfl
  refine climbs_andThen hfinalize ?_
  rintro _ _ rfl
  refine climbs_andThen (climbs_hashUpTo hok false (Nat.le_refl _) pos) ?_
  rintro pos' _ rfl
  exact climbs_succeed rfl

end

/-! ## A plan -/

/-- Progress that a chunk of a plan comes to: some of the bytes of a step of a partition, but not
    more than all of them. -/
def ChunkShare (scale : Scale P) (plan : InstallPlan) (progress : P) : Prop :=
  ∃ index p step bytes, plan.partitions[index]? = some p ∧ 0 < bytes ∧ bytes ≤ p.size step ∧
    progress = scale.fraction index bytes (p.size step) plan.partitions.length

section

variable {s : Setting P} {p : Partition} {step : Step}

theorem climbs_openDirect (p : Partition) (path : String) (writable : Bool) :
    (openDirect p path writable).Climbs scale ok told (Unchanged told) := by
  refine climbs_ask rfl fun _ => climbs_ask rfl fun outcome => ?_
  cases outcome with
  | ok _ => exact climbs_succeed rfl
  | error e => exact climbs_fail

theorem climbs_openSnapshot (p : Partition) :
    (openSnapshot p).Climbs scale ok told (Unchanged told) := by
  refine climbs_ask rfl fun outcome => ?_
  cases outcome with
  | ok _ => exact climbs_succeed rfl
  | error e => exact climbs_fail

theorem climbs_openMapped (p : Partition) :
    (openMapped p).Climbs scale ok told (Unchanged told) := by
  refine climbs_ask rfl fun _ => climbs_ask rfl fun _ => climbs_ask rfl fun outcome => ?_
  cases outcome with
  | ok _ => exact climbs_succeed rfl
  | error e => exact climbs_fail

theorem climbs_openSource (s : Setting P) (p : Partition) (step : Step) :
    (openSource s p step).Climbs scale ok told (Unchanged told) := by
  unfold openSource
  dsimp only
  split
  · split
    · exact climbs_openSnapshot p
    · exact climbs_openMapped p
  · exact climbs_openDirect p _ _

theorem climbs_initWriter (p : Partition) :
    (initWriter p).Climbs scale ok told (Unchanged told) := by
  refine climbs_ask rfl ?_
  intro outcome
  match outcome with
  | .ok _ => exact climbs_succeed rfl
  | .error (.rejected e) => exact climbs_fail
  | .error (.breakdown _) => exact trivial

/-- A step goes on from what was told before it, also if it reads a partition again. -/
theorem climbs_hashStep {index : Nat} (hp : s.plan.partitions[index]? = some p)
    (hok : ∀ q, ChunkShare s.scale s.plan q → ok q) (step : Step) :
    (hashStep s p step index told).Climbs s.scale ok told fun result told' => result.2 = told' := by
  unfold hashStep
  dsimp only
  split
  · exact climbs_fail
  · refine climbs_andThen (climbs_openSource s p step) ?_
    rintro device told rfl
    have hinit : ((if s.writes p step then initWriter p else Attempt.succeed ()) :
        Attempt P Error Unit).Climbs s.scale ok told (Unchanged told) := by
      split
      · exact climbs_initWriter p
      · exact climbs_succeed rfl
    refine climbs_andThen hinit ?_
    rintro _ _ rfl
    refine climbs_mapError (climbs_hashPartition ?_ _ _)
    rintro q ⟨bytes, hsome, hle, rfl⟩
    exact hok _ ⟨index, p, step, bytes, hp, hsome, hle, rfl⟩

theorem climbs_diagnose {index : Nat} (hp : s.plan.partitions[index]? = some p)
    (hok : ∀ q, ChunkShare s.scale s.plan q → ok q) (targetDigest : ByteArray) :
    (diagnose s p index targetDigest told).Climbs s.scale ok told fun _ _ => True := by
  unfold diagnose
  split
  · split
    · exact climbs_fail
    · exact climbs_fail
  · exact climbs_andThen (climbs_hashStep hp hok .source) fun _ _ _ => climbs_fail

/-- By induction on the partitions that are left. -/
theorem climbs_verifyFrom (hok : ∀ q, ChunkShare s.scale s.plan q → ok q) (rest : List Partition) :
    ∀ {index told}, s.plan.partitions.drop index = rest →
      (verifyFrom s index rest told).Climbs s.scale ok told fun _ _ => True := by
  induction rest with
  | nil => exact fun _ => climbs_succeed trivial
  | cons p rest ih =>
    intro index told hrest
    have hp : s.plan.partitions[index]? = some p := by
      rw [← List.head?_drop, hrest]
      rfl
    have hnext : s.plan.partitions.drop (index + 1) = rest := by
      rw [← List.tail_drop, hrest]
      rfl
    unfold verifyFrom
    split
    · split
      · exact climbs_fail
      · exact ih hnext
    · refine climbs_andThen (climbs_hashStep hp hok .target) ?_
      rintro ⟨digest, told'⟩ _ rfl
      dsimp only
      split
      · exact ih hnext
      · split
        · exact climbs_fail
        · exact climbs_diagnose hp hok digest

end

theorem climbs_verifyUntouched (plan : InstallPlan) :
    (verifyUntouched plan).Climbs scale ok told fun _ _ => True := by
  unfold verifyUntouched
  split
  · exact climbs_succeed trivial
  · refine climbs_ask rfl fun same => ?_
    split
    · exact climbs_succeed trivial
    · exact climbs_fail

/-- Up to its conclusion a verification climbs, from nothing on. -/
theorem climbs_program (scale : Scale P) (dynamic : DynamicPartitions)
    (plan? : Option InstallPlan) : (program scale dynamic plan?).Climbs scale
      (fun q => ∃ plan, plan? = some plan ∧ ChunkShare scale plan q) scale.zero
      fun _ _ => True := by
  cases plan? with
  | none => exact climbs_fail
  | some plan =>
    refine climbs_andThen (climbs_verifyFrom (s := ⟨scale, dynamic, plan⟩) ?_ plan.partitions rfl)
      fun _ _ _ => climbs_andThen (climbs_verifyUntouched plan) fun _ _ _ => climbs_succeed trivial
    exact fun q hq => ⟨plan, rfl, hq⟩

/-! ## Runs -/

/-- It has completed, and not because it was cancelled. -/
def Life.concludes : Life P → Bool
  | .completed (.error .cancelled) => false
  | .completed _ => true
  | .running _ | .dropped | .broken => false

theorem Life.concludes_completed {result : Except Error InstallPlan}
    (h : result ≠ .error .cancelled) : (Life.completed result : Life P).concludes = true := by
  unfold concludes
  split
  · rename_i heq
    cases heq
    exact absurd rfl h
  · rfl
  all_goals contradiction

namespace Assignment

variable {a : Assignment P W} {w : W} {record : Record P}

/-- While a verification is running, what it has reported climbs. -/
theorem climbs_of_running {occasions : List (Occasion W)} {v : Running P} {w' : W}
    (h : a.run w occasions = ((w', record), .running v)) :
    (a.scale.zero :: reports record).IsChain (fun p q => a.scale.less p q = true) ∧
      ∀ q ∈ reports record, ∃ plan, a.plan = some plan ∧ ChunkShare a.scale plan q := by
  obtain ⟨_, rest, rfl, es, harrives, -⟩ := anyhow_of_running h
  have hcourse : a.course.Climbs a.scale _ a.scale.zero fun _ _ => True :=
    climbs_program a.scale a.dynamic a.plan
  obtain ⟨hall, -⟩ := Follows.reaches harrives.reaches hcourse
  rw [← harrives.calls_eq] at hall
  rw [reports_eq]
  exact isChain_of_climbing _ hall

/-- What a verification has reported that has reported this of its chunks: no more, unless it has
    ended by itself. -/
def Closes (a : Assignment P W) (chunks : List P) (state : (W × Record P) × Life P) : Prop :=
  if state.2.concludes then
    ∃ before, state.1.2 = before ++ [reported a.scale.one] ∧ reports before = chunks
  else reports state.1.2 = chunks

theorem Released.reports_eq_nil {release : Record P} (h : a.Released release) :
    reports release = [] := by
  refine reports_of_quiet fun progress hmem => ?_
  obtain ⟨success, hunmapped⟩ := h.eq_unmapped hmem
  cases hunmapped

theorem AtMostReleased.reports_eq_nil {release : Record P} (h : AtMostReleased release) :
    reports release = [] := by
  rcases h with rfl | ⟨success, rfl⟩ <;> rfl

/-- Nothing is recorded any more of a verification that is over. -/
theorem step_of_over {state : (W × Record P) × Life P} (h : state.2.Over) (o : Occasion W) :
    (a.step state o).1.2 = state.1.2 ∧ (a.step state o).2 = state.2 := by
  obtain ⟨⟨w, record⟩, life⟩ := state
  cases life with
  | running v => exact h.elim
  | _ => cases o <;> exact ⟨rfl, rfl⟩

/-- One more occasion for a verification that is running: it goes on running, or it is over, with
    at most the last report. -/
theorem step_running {occasions : List (Occasion W)} {v : Running P} {w' : W}
    (hrun : a.run w occasions = ((w', record), .running v)) (o : Occasion W) :
    ¬ (a.step ((w', record), .running v) o).2.Over ∨
      a.Closes (reports record) (a.step ((w', record), .running v) o) := by
  have hcleanup : ∀ (started : Bool) (life : Life P), life.concludes = false →
      a.Closes (reports record) (v.cleanup a.host.recorded started (w', record), life) := by
    intro started life hlife
    obtain ⟨w'', release, hrelease, hcleanup⟩ := a.cleanup_atMostReleased v started w' record
    unfold Closes
    rw [hcleanup, if_neg (by simp [hlife]), reports_append, hrelease.reports_eq_nil,
      List.append_nil]
  cases o with
  | change f => exact .inl id
  | drop => exact .inr (hcleanup v.started .dropped rfl)
  | poll =>
    show ¬ (a.poll (w', record) v).2.Over ∨ a.Closes (reports record) (a.poll (w', record) v)
    cases haborted : a.aborted w' with
    | true =>
      rw [poll_aborted haborted]
      exact .inr (hcleanup v.started _ rfl)
    | false =>
      obtain ⟨started, rest, rfl, hanyhow⟩ := anyhow_of_running hrun
      have hpolled := polled a.host.carries_nothing started hanyhow haborted
      generalize a.poll (w', record) ⟨started, a.unmaps, rest.bind a.conclude⟩ = state at hpolled
      cases hpolled with
      | left _ _ => exact .inl id
      | completed h hquiet hrelease =>
        refine .inr ?_
        unfold Closes
        rw [if_pos (Life.concludes_completed (result_ne_cancelled h))]
        refine ⟨_, rfl, ?_⟩
        rw [reports_append, reports_append, reports_of_quiet hquiet, hrelease.reports_eq_nil,
          List.append_nil, List.append_nil]
      | broken _ hquiet =>
        refine .inr ?_
        show reports (record ++ _) = reports record
        rw [reports_append, reports_of_quiet hquiet, List.append_nil]

/-- All reports of chunks were made while the verification was running. -/
theorem reports_of_run (a : Assignment P W) (w : W) (occasions : List (Occasion W)) :
    ∃ earlier later, occasions = earlier ++ later ∧ ¬ (a.run w earlier).2.Over ∧
      a.Closes (reports (a.run w earlier).1.2) (a.run w occasions) := by
  -- by induction from the last occasion on
  induction occasions using List.reverseRecOn with
  | nil => exact ⟨[], [], rfl, id, rfl⟩
  | append_singleton occasions o ih =>
    have hstep : a.run w (occasions ++ [o]) = a.step (a.run w occasions) o := run_append a w _ _
    by_cases hover : (a.run w occasions).2.Over
    · obtain ⟨earlier, later, rfl, hearlier, hcloses⟩ := ih
      refine ⟨earlier, later ++ [o], (List.append_assoc ..), hearlier, ?_⟩
      obtain ⟨hrecord, hlife⟩ := step_of_over (a := a) hover o
      unfold Closes at hcloses ⊢
      rwa [hstep, hrecord, hlife]
    · obtain ⟨v, hv⟩ := Life.exists_of_not_over hover
      have hrun : a.run w occasions = (((a.run w occasions).1.1, (a.run w occasions).1.2),
          .running v) := by
        rw [← hv]
      have hnext := step_running hrun o
      rw [← hrun, ← hstep] at hnext
      rcases hnext with hrunning | hcloses
      · refine ⟨occasions ++ [o], [], (List.append_nil _).symm, hrunning, ?_⟩
        obtain ⟨v', hv'⟩ := Life.exists_of_not_over hrunning
        unfold Closes
        rw [hv']
        rfl
      · exact ⟨occasions, [o], rfl, hover, hcloses⟩

end Assignment

/-! ## Exact fractions -/

/-- The exact fraction `(index + bytes / size) / partitions`. -/
def Scale.exact : Scale ℚ where
  zero := 0
  one := 1
  fraction index bytes size partitions :=
    if partitions = 0 then 1
    else
      let part : ℚ := if size = 0 then 0 else bytes / size
      (index + part) / partitions
  less p q := p < q

namespace ChunkShare

variable {plan : InstallPlan} {q : ℚ}

/-- Neither the plan nor the partition is empty. -/
theorem exists_eq (h : ChunkShare .exact plan q) :
    ∃ index bytes size : ℕ, index < plan.partitions.length ∧ 0 < bytes ∧ bytes ≤ size ∧
      q = (index + (bytes : ℚ) / size) / plan.partitions.length := by
  obtain ⟨index, p, step, bytes, hp, hsome, hle, rfl⟩ := h
  have hindex : index < plan.partitions.length := (List.getElem?_eq_some_iff.mp hp).1
  refine ⟨index, bytes, p.size step, hindex, hsome, hle, ?_⟩
  dsimp only [Scale.exact]
  rw [if_neg (by omega), if_neg (by omega)]

theorem pos (h : ChunkShare .exact plan q) : 0 < q := by
  obtain ⟨index, bytes, size, hindex, hsome, hle, rfl⟩ := h.exists_eq
  have hlength : (0 : ℚ) < plan.partitions.length := by exact_mod_cast Nat.zero_lt_of_lt hindex
  have hsize : (0 : ℚ) < size := by exact_mod_cast Nat.lt_of_lt_of_le hsome hle
  have hbytes : (0 : ℚ) < bytes := by exact_mod_cast hsome
  positivity

theorem le_one (h : ChunkShare .exact plan q) : q ≤ 1 := by
  obtain ⟨index, bytes, size, hindex, hsome, hle, rfl⟩ := h.exists_eq
  have hlength : (0 : ℚ) < plan.partitions.length := by exact_mod_cast Nat.zero_lt_of_lt hindex
  have hsize : (0 : ℚ) < size := by exact_mod_cast Nat.lt_of_lt_of_le hsome hle
  have hpart : (bytes : ℚ) / size ≤ 1 := (div_le_one hsize).mpr (by exact_mod_cast hle)
  rw [div_le_one hlength]
  calc (index : ℚ) + bytes / size ≤ index + 1 := by gcongr
    _ ≤ plan.partitions.length := by exact_mod_cast hindex

end ChunkShare

/-- Whatever happens to a verification, its reports of progress climb.  What it has reported while
    it was running is of chunks: exact fractions above zero and up to one, each above all before it,
    also where a source is read after its target.  A verification that ends by itself reports the
    one behind that as the last thing it does; one that is cancelled, given up or broken reports
    nothing more. -/
theorem progress_climbs (host : Host (interface ℚ) W) (aborted : W → Bool)
    (dynamic : DynamicPartitions) (plan? : Option InstallPlan) (w : W)
    (occasions : List (Occasion W)) :
    let a : Assignment ℚ W := ⟨host, aborted, .exact, dynamic, plan?⟩
    (∀ q ∈ reports (a.run w occasions).1.2, 0 ≤ q ∧ q ≤ 1) ∧
    ∃ earlier later chunks, occasions = earlier ++ later ∧ ¬ (a.run w earlier).2.Over ∧
      reports (a.run w earlier).1.2 = chunks ∧ chunks.Pairwise (· < ·) ∧
      (∀ q ∈ chunks, ∃ plan, plan? = some plan ∧ ChunkShare .exact plan q) ∧
      if (a.run w occasions).2.concludes then
        ∃ before, (a.run w occasions).1.2 = before ++ [reported 1] ∧ reports before = chunks
      else reports (a.run w occasions).1.2 = chunks := by
  intro a
  obtain ⟨earlier, later, hoccasions, hrunning, hcloses⟩ := a.reports_of_run w occasions
  obtain ⟨v, hv⟩ := Life.exists_of_not_over hrunning
  have hrun : a.run w earlier = (((a.run w earlier).1.1, (a.run w earlier).1.2), .running v) := by
    rw [← hv]
  obtain ⟨hchain, hshares⟩ := Assignment.climbs_of_running hrun
  have hless : (0 :: reports (a.run w earlier).1.2).Pairwise (· < ·) := by
    refine List.isChain_iff_pairwise.mp (hchain.imp ?_)
    exact fun p q h => of_decide_eq_true h
  have hchunk : ∀ q ∈ reports (a.run w earlier).1.2, 0 ≤ q ∧ q ≤ 1 := by
    intro q hq
    obtain ⟨plan, -, hshare⟩ := hshares q hq
    exact ⟨hshare.pos.le, hshare.le_one⟩
  refine ⟨?_, earlier, later, _, hoccasions, hrunning, rfl, hless.of_cons, hshares, hcloses⟩
  intro q hq
  unfold Assignment.Closes at hcloses
  split at hcloses
  · obtain ⟨before, hrecord, hbefore⟩ := hcloses
    rw [hrecord, reports_append, hbefore, List.mem_append] at hq
    rcases hq with hq | hq
    · exact hchunk q hq
    · obtain rfl : q = 1 := List.mem_singleton.mp hq
      exact ⟨zero_le_one, le_refl _⟩
  · rw [hcloses] at hq
    exact hchunk q hq

/-- A target of two bytes and a source of three, read byte by byte. -/
def bytewiseRig : Rig ℚ where
  images := [("/dev/boot_b", [1, 2].toByteArray), ("/dev/boot_a", [1, 2, 3].toByteArray)]
  readLimit := some 1

/-- The target is not what this plan expects. -/
def fallbackPlan : InstallPlan where
  partitions := [{ name := "boot", targetPath := "/dev/boot_b", targetSize := 2,
                   sourcePath := "/dev/boot_a", sourceSize := 3, sourceHash := [0].toByteArray }]

/-- Going on to the source does not set the progress back. -/
example :
    let state := (onRig .exact bytewiseRig.dynamicPartitions fallbackPlan).run bytewiseRig
      (List.replicate 12 .poll)
    reports state.1.2 = [1 / 2, 1, 1] ∧ state.2.concludes = true := by
  decide +kernel

end SlotVerify.Verification
