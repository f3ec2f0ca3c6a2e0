import SlotVerify.Proofs.Routine.Order
import SlotVerify.Proofs.Verification.Protocol
/-
  What a verification does after its calls.

  `CallRule` says it of three calls.  After a progress report the verification gives way; after it
  has unmapped the snapshots it maps them afresh; and it maps them only to read the target of a
  partition that it need not write to (`Setting.Views`).  Every part of a verification keeps the
  rule, and so does a verification from its beginning up to its conclusion (`orderly_program`),
  which is the one place where it reports and releases without going on.
-/

namespace SlotVerify.Verification

open Routine

variable {P : Type}

/-- Reading the target of this partition goes through a mapped view. -/
def Setting.Views (s : Setting P) (p : Partition) : Prop :=
  p.targetPath ≠ "" ∧ s.dynamic.compressed ∧ s.dynamic.isDynamic p.name s.plan.targetSlot ∧
    s.writes p .target = false

/-- What comes after a call; `views` says whether there is anything to map. -/
def CallRule (views : Prop) : Call P → Head (interface P) → Prop
  | .report _, next => next = .pauses
  | .unmapAll, next => next = .calls (I := interface P) Call.mapAll
  | .mapAll, _ => views
  | _, _ => True

theorem lenient_callRule (views : Prop) : Lenient (I := interface P) (CallRule views) := by
  intro c hends
  cases c with
  | report progress => cases hends
  | unmapAll => cases hends
  | mapAll => exact fun _ => hends
  | _ => exact fun _ => trivial

/-- The calls keep the rule, and an error is a permitted one. -/
def Attempt.Orderly {ε α : Type} (views : Prop) (okError : ε → Prop) (t : Attempt P ε α) : Prop :=
  Routine.Orderly (CallRule views) (fun outcome => ∀ e, outcome = .error e → okError e) t

section

variable {ε ε' α β : Type} {views : Prop} {okError : ε → Prop} {okError' : ε' → Prop}

theorem orderly_succeed (a : α) : (Attempt.succeed a : Attempt P ε α).Orderly views okError :=
  nofun

theorem orderly_fail {e : ε} (h : okError e) :
    (Attempt.fail e : Attempt P ε α).Orderly views okError := by
  rintro _ ⟨⟩
  exact h

theorem orderly_andThen {t : Attempt P ε α} {f : α → Attempt P ε β}
    (ht : t.Orderly views okError) (hf : ∀ a, (f a).Orderly views okError) :
    (t.andThen f).Orderly views okError := by
  refine orderly_bind (lenient_callRule views) ht ?_
  intro outcome houtcome
  cases outcome with
  | ok a => exact hf a
  | error e => exact orderly_fail (houtcome e rfl)

theorem orderly_mapError {t : Attempt P ε α} {f : ε → ε'} (ht : t.Orderly views okError)
    (hf : ∀ e, okError' (f e)) : (t.mapError f).Orderly views okError' := by
  refine orderly_bind (lenient_callRule views) ht ?_
  intro outcome _ e he
  cases outcome with
  | ok a => cases he
  | error e => cases he; exact hf _

/-- A call that nothing in particular has to follow. -/
theorem orderly_ask {c : Call P} {next : c.Answer → Attempt P ε α}
    (hfree : ∀ h, CallRule views c h) (hnext : ∀ x, (next x).Orderly views okError) :
    Attempt.Orderly views okError (ask c next) :=
  fun x => ⟨hfree _, hnext x⟩

end

/-! ## Hashing a partition -/

section

variable {views : Prop}

theorem orderly_feed (feeding : Bool) (offset : Nat) (bytes : ByteArray) :
    (feed feeding offset bytes : Attempt P HashError Unit).Orderly views fun _ => True := by
  unfold feed
  split
  · exact orderly_ask (fun _ => trivial) fun _ _ _ => trivial
  · exact orderly_succeed ()

/-- Behind a report the verification gives way. -/
theorem orderly_tell {α : Type} {scale : Scale P} {reported progress : P}
    {next : P → Attempt P HashError α}
    (hnext : ∀ told, Attempt.Orderly views (fun _ => True) (Routine.pause (next told))) :
    Attempt.Orderly views (fun _ => True)
      (tell scale reported progress fun told => .pause (next told)) := by
  unfold tell
  split
  · exact fun _ => ⟨rfl, hnext _⟩
  · exact hnext _

theorem orderly_hashUpTo (scale : Scale P) (subject : Subject) (feeding : Bool) (stop : Nat)
    (pos : Position P) :
    (hashUpTo scale subject feeding stop pos).Orderly views fun _ => True := by
  induction pos using hashUpTo_induction stop with
  | ended pos hend =>
    rw [hashUpTo_of_le hend]
    exact orderly_succeed pos
  | chunk pos hmore ih =>
    rw [hashUpTo_of_lt hmore]
    intro outcome
    obtain ⟨e, -, hfail⟩ | ⟨chunk, hsome, hlength, hchunk⟩ :=
      afterRead_cases scale subject feeding stop pos outcome
    · rw [hfail]
      exact orderly_fail trivial
    · rw [hchunk]
      refine orderly_andThen (orderly_feed feeding pos.offset chunk) fun _ => ?_
      exact orderly_ask (fun _ => trivial) fun _ =>
        orderly_tell fun told => ih chunk told hsome hlength

theorem orderly_finalizeOn (d : OpenedDevice) :
    (finalizeOn (P := P) d).Orderly views fun _ => True := by
  refine orderly_ask (fun _ => trivial) ?_
  intro answer
  cases answer with
  | error e => exact orderly_fail trivial
  | ok t =>
    refine orderly_bind (lenient_callRule views) (orderly_onDevice t) ?_
    exact fun _ _ _ _ => trivial

theorem orderly_hashPartition (scale : Scale P) (subject : Subject) (dataEnd : Nat)
    (writing : Bool) (reported : P) :
    (hashPartition scale subject dataEnd writing reported).Orderly views fun _ => True := by
  refine orderly_andThen (orderly_hashUpTo ..) fun pos => orderly_andThen ?_ fun _ =>
    orderly_andThen (orderly_hashUpTo ..) fun _ => orderly_succeed _
  cases writing with
  | true => exact orderly_finalizeOn _
  | false => exact orderly_succeed ()

end

/-! ## A plan -/

/-- A failure that is found by verifying. -/
abbrev Found (e : Error) : Prop := e ≠ .cancelled

section

variable {views : Prop}

theorem orderly_openDirect (p : Partition) (path : String) (writable : Bool) :
    (openDirect (P := P) p path writable).Orderly views Found := by
  refine orderly_ask (fun _ => trivial) fun _ => orderly_ask (fun _ => trivial) fun outcome => ?_
  cases outcome with
  | ok _ => exact orderly_succeed _
  | error e => exact orderly_fail nofun

theorem orderly_openSnapshot (p : Partition) :
    (openSnapshot (P := P) p).Orderly views Found := by
  refine orderly_ask (fun _ => trivial) fun outcome => ?_
  cases outcome with
  | ok _ => exact orderly_succeed _
  | error e => exact orderly_fail nofun

theorem orderly_openMapped (hviews : views) (p : Partition) :
    (openMapped (P := P) p).Orderly views Found := by
  refine fun _ => ⟨rfl, fun _ => ⟨hviews, orderly_ask (fun _ => trivial) fun outcome => ?_⟩⟩
  cases outcome with
  | ok _ => exact orderly_succeed _
  | error e => exact orderly_fail nofun

theorem orderly_initWriter (p : Partition) : (initWriter (P := P) p).Orderly views Found := by
  refine orderly_ask (fun _ => trivial) fun outcome => ?_
  match outcome with
  | .ok _ => exact orderly_succeed _
  | .error (.rejected e) => exact orderly_fail nofun
  | .error (.breakdown _) => exact trivial

/-- Only the target of a partition that is not written to is read through a mapped view. -/
theorem orderly_openSource (s : Setting P) {p : Partition} {step : Step}
    (hviews : s.Views p → views) (hpath : step = .target → p.targetPath ≠ "") :
    (openSource s p step).Orderly views Found := by
  unfold openSource
  dsimp only
  split
  · rename_i h
    obtain ⟨rfl, hcompressed, hdynamic⟩ := h
    split
    · exact orderly_openSnapshot p
    · rename_i hwrites
      refine orderly_openMapped (hviews ⟨hpath rfl, hcompressed, hdynamic, ?_⟩) p
      simpa using hwrites
  · exact orderly_openDirect p _ _

theorem hashFailure_found (p : Partition) (e : HashError) : Found (hashFailure p e) := by
  cases e <;> exact nofun

theorem orderly_hashStep (s : Setting P) {p : Partition} {step : Step} (index : Nat) (reported : P)
    (hviews : s.Views p → views) (hpath : step = .target → p.targetPath ≠ "") :
    (hashStep s p step index reported).Orderly views Found := by
  unfold hashStep
  dsimp only
  split
  · exact orderly_fail nofun
  · refine orderly_andThen (orderly_openSource s hviews hpath) fun _ => orderly_andThen ?_ fun _ =>
      orderly_mapError (orderly_hashPartition ..) (hashFailure_found p)
    split
    · exact orderly_initWriter p
    · exact orderly_succeed ()

theorem judge_found (p : Partition) (targetDigest sourceDigest : ByteArray) :
    Found (judge p targetDigest sourceDigest) := by
  unfold judge
  split <;> exact nofun

theorem orderly_diagnose (s : Setting P) {p : Partition} (index : Nat) (targetDigest : ByteArray)
    (reported : P) (hviews : s.Views p → views) :
    (diagnose s p index targetDigest reported).Orderly views Found := by
  unfold diagnose
  split
  · split
    · exact orderly_fail nofun
    · exact orderly_fail (judge_found p _ _)
  · exact orderly_andThen (orderly_hashStep s index reported hviews nofun)
      fun _ => orderly_fail (judge_found p _ _)

/-- By induction on the partitions that are left. -/
theorem orderly_verifyFrom (s : Setting P) (parts : List Partition)
    (hviews : ∀ p ∈ parts, s.Views p → views) :
    ∀ (index : Nat) (reported : P), (verifyFrom s index parts reported).Orderly views Found := by
  induction parts with
  | nil => exact fun _ _ => orderly_succeed ()
  | cons p rest ih =>
    obtain ⟨hp, hrest⟩ := List.forall_mem_cons.mp hviews
    intro index reported
    unfold verifyFrom
    split
    · split
      · exact orderly_fail nofun
      · exact ih hrest _ _
    · rename_i hpath
      refine orderly_andThen (orderly_hashStep s index reported hp fun _ => hpath) ?_
      intro (digest, told)
      dsimp only
      split
      · exact ih hrest _ _
      · split
        · exact orderly_fail nofun
        · exact orderly_diagnose s index digest told hp

theorem orderly_verifyUntouched (plan : InstallPlan) :
    (verifyUntouched (P := P) plan).Orderly views Found := by
  unfold verifyUntouched
  split
  · exact orderly_succeed ()
  · refine orderly_ask (fun _ => trivial) fun same => ?_
    split
    · exact orderly_succeed ()
    · exact orderly_fail nofun

end

/-- Some partition of the plan is read through a mapped view. -/
def HasViews (scale : Scale P) (dynamic : DynamicPartitions) (plan? : Option InstallPlan) : Prop :=
  ∃ plan, plan? = some plan ∧ ∃ p ∈ plan.partitions, Setting.Views ⟨scale, dynamic, plan⟩ p

/-- Up to its conclusion a verification keeps the rule, and it does not cancel itself. -/
theorem orderly_program (scale : Scale P) (dynamic : DynamicPartitions)
    (plan? : Option InstallPlan) :
    (program scale dynamic plan?).Orderly (HasViews scale dynamic plan?) Found := by
  cases plan? with
  | none => exact orderly_fail nofun
  | some plan =>
    refine orderly_andThen (orderly_verifyFrom _ plan.partitions ?_ 0 scale.zero) fun _ =>
      orderly_andThen (orderly_verifyUntouched plan) fun _ => orderly_succeed plan
    intro p hp hviews
    exact ⟨plan, rfl, p, hp, hviews⟩

end SlotVerify.Verification
