import SlotVerify.Proofs.Verification.Verdict
/-
  Lives of a verification on a rig.

  From outside, a verification is polled, an abort of it is asked for, and it may be dropped, in any
  order and at any time.  `Life.run` follows it through a list of such events.

  What a verification meets holds along each of its lives (`Life.run_keeps`): an invariant as long
  as it lives, and a postcondition if it completes, unless it completes as cancelled.  A
  verification that is polled again and again ends (`Life.exists_polls`): a routine is a finite
  tree, and every request is pending for finitely many polls.
-/

namespace SlotVerify.Verification

variable {P : Type}

/-- What may happen to a verification. -/
inductive Event where
  | poll
  | abort
  | drop
deriving DecidableEq, Repr

/-- Where a verification stands. -/
inductive Life (P : Type) where
  | running (v : Running P)
  | completed (result : Except Error InstallPlan)
  | dropped
  | broken

namespace Life

/-- The plan that a verification has accepted, if it has accepted one. -/
def accepted? : Life P → Option InstallPlan
  | .completed (.ok plan) => some plan
  | _ => none

/-- A verification before its first poll. -/
def new (scale : Scale P) (dynamic : DynamicPartitions) (plan : InstallPlan) : Life P :=
  .running (Running.new scale dynamic (some plan))

/-- A poll of a verification that has not ended. -/
def poll (r : Rig P) (v : Running P) : Rig P × Life P :=
  match v.poll Rig.host (·.aborted) r with
  | (r, .completed result) => (r, .completed result)
  | (r, .left _ rest) => (r, .running rest)
  | (r, .broken) => (r, .broken)

/-- What an event does; a verification that has ended is not polled or dropped any more. -/
def step : Rig P × Life P → Event → Rig P × Life P
  | (r, .running v), .poll => poll r v
  | (r, .running v), .drop => (v.drop Rig.host r, .dropped)
  | (r, life), .abort => ({ r with aborted := true }, life)
  | (r, life), _ => (r, life)

/-- A life through a list of events. -/
def run (r : Rig P) (life : Life P) (events : List Event) : Rig P × Life P :=
  events.foldl step (r, life)

theorem run_cons (r : Rig P) (life : Life P) (e : Event) (events : List Event) :
    run r life (e :: events) = run (step (r, life) e).1 (step (r, life) e).2 events := rfl

theorem run_append (r : Rig P) (life : Life P) (first second : List Event) :
    run r life (first ++ second) = run (run r life first).1 (run r life first).2 second :=
  List.foldl_append

end Life

/-! ## What holds along a life -/

section

variable {env : Surroundings (Rig P)} {inv : Rig P → Prop}
  {post : Option (Except Error InstallPlan) → Rig P → Prop}

/-- What the surroundings and the release of snapshots leave alone. -/
structure Closed (env : Surroundings (Rig P)) (inv : Rig P → Prop)
    (post : Option (Except Error InstallPlan) → Rig P → Prop) : Prop where
  inv_change : ∀ r r', inv r → env.change r r' → inv r'
  post_change : ∀ a r r', post a r → env.change r r' → post a r'
  inv_unmap : ∀ r, inv r → inv (r.answer .unmapAll).1

/-- A verification has ended as cancelled, because an abort was asked for. -/
def Cancelled (inv : Rig P → Prop) (result : Except Error InstallPlan) (r' : Rig P) : Prop :=
  result = .error .cancelled ∧ inv r' ∧ ∃ r, inv r ∧ r.aborted = true

/-- What holds where a verification stands. -/
def Life.Keeps (env : Surroundings (Rig P)) (inv : Rig P → Prop)
    (post : Option (Except Error InstallPlan) → Rig P → Prop) : Rig P × Life P → Prop
  | (r, .running v) => inv r ∧ v.rest.Meets Rig.host env inv post r
  | (r, .completed result) => post (some result) r ∨ Cancelled inv result r
  | (r, .dropped) => inv r
  | (r, .broken) => post none r

theorem cleanup_keeps (hclosed : Closed env inv post) (v : Running P) (started : Bool) {r : Rig P}
    (h : inv r) : inv (v.cleanup Rig.host started r) := by
  unfold Running.cleanup
  split
  · exact hclosed.inv_unmap r h
  · exact h

/-- A poll keeps what a verification meets. -/
theorem Life.poll_keeps (hclosed : Closed env inv post) {r : Rig P} {v : Running P}
    (h : Life.Keeps env inv post (r, .running v)) : Life.Keeps env inv post (Life.poll r v) := by
  obtain ⟨hinv, hmeets⟩ := h
  unfold Life.poll Running.poll Running.drive
  by_cases haborted : r.aborted = true
  · -- the abort is noticed before anything else happens
    rw [if_pos haborted]
    exact Or.inr ⟨rfl, cleanup_keeps hclosed v v.started hinv, r, hinv, haborted⟩
  · rw [if_neg haborted]
    have hdrive := Suspended.drive_meets (ρ := Option Unit) (fun r => (r, some (some ())))
      (fun r => env.refl r) hmeets
    dsimp only
    generalize v.rest.drive Rig.host (fun r => (r, some (some ()))) r = ending at hdrive
    obtain ⟨r', ending⟩ := ending
    cases ending with
    | finished result => exact Or.inl hdrive
    | interrupted why rest =>
      obtain ⟨⟨r₀, hwhy⟩, hrest⟩ := hdrive
      cases why with
      | some why => exact hrest
      | none => cases hwhy
    | broken => exact hdrive

/-- An abort that is asked for keeps it. -/
theorem Life.abort_keeps (hclosed : Closed env inv post) {r : Rig P}
    (habort : env.change r { r with aborted := true }) {life : Life P}
    (h : Life.Keeps env inv post (r, life)) :
    Life.Keeps env inv post ({ r with aborted := true }, life) := by
  cases life with
  | running v =>
    refine ⟨hclosed.inv_change _ _ h.1 habort, ?_⟩
    obtain ⟨-, hrest⟩ := h
    generalize v.rest = rest at hrest
    cases rest with
    | ready next => exact fun r' hr' => hrest r' (env.trans habort hr')
    | waiting d q polls next => exact fun r' hr' => hrest r' (env.trans habort hr')
  | completed result =>
    rcases h with hpost | ⟨hresult, hinv, hcause⟩
    · exact Or.inl (hclosed.post_change _ _ _ hpost habort)
    · exact Or.inr ⟨hresult, hclosed.inv_change _ _ hinv habort, hcause⟩
  | dropped => exact hclosed.inv_change _ _ h habort
  | broken => exact hclosed.post_change _ _ _ h habort

theorem Life.step_keeps (hclosed : Closed env inv post) {state : Rig P × Life P}
    (h : Life.Keeps env inv post state) (e : Event)
    (habort : e = .abort → ∀ r : Rig P, env.change r { r with aborted := true }) :
    Life.Keeps env inv post (Life.step state e) := by
  obtain ⟨r, life⟩ := state
  cases e with
  | abort =>
    have hstep := Life.abort_keeps hclosed (habort rfl r) h
    cases life <;> exact hstep
  | poll =>
    cases life with
    | running v => exact Life.poll_keeps hclosed h
    | completed result => exact h
    | dropped => exact h
    | broken => exact h
  | drop =>
    cases life with
    | running v => exact cleanup_keeps hclosed v v.started h.1
    | completed result => exact h
    | dropped => exact h
    | broken => exact h

/-- Whatever happens to a verification, it keeps what its routine meets. -/
theorem Life.run_keeps (hclosed : Closed env inv post) (events : List Event)
    (habort : .abort ∈ events → ∀ r : Rig P, env.change r { r with aborted := true }) :
    ∀ {r : Rig P} {life : Life P}, Life.Keeps env inv post (r, life) →
      Life.Keeps env inv post (Life.run r life events) := by
  induction events with
  | nil =>
    intro r life h
    exact h
  | cons e rest ih =>
    intro r life h
    rw [Life.run_cons]
    apply ih
    · intro hmem
      exact habort (List.mem_cons_of_mem e hmem)
    · refine Life.step_keeps hclosed h e ?_
      rintro rfl
      exact habort List.mem_cons_self

/-- A whole life, from what the whole routine meets. -/
theorem Life.run_new_keeps (hclosed : Closed env inv post) (events : List Event)
    (habort : .abort ∈ events → ∀ r : Rig P, env.change r { r with aborted := true })
    (scale : Scale P) (dynamic : DynamicPartitions) (plan : InstallPlan) {r : Rig P} (hinv : inv r)
    (hmeets : ∀ r', env.change r r' →
      (whole scale dynamic (some plan)).Meets Rig.host env inv post r') :
    Life.Keeps env inv post (Life.run r (Life.new scale dynamic plan) events) :=
  Life.run_keeps hclosed events habort ⟨hinv, hmeets⟩

/-- Whatever happens to a verification, it changes metadata of targets only, and if it completes,
    it has concluded or been cancelled. -/
theorem Life.concluded (s : Setting P) (r : Rig P) (events : List Event) :
    Rig.Frame (s.writtenBy s.plan.partitions) r
        (Life.run r (Life.new s.scale s.dynamic s.plan) events).1 ∧
      ∀ result, (Life.run r (Life.new s.scale s.dynamic s.plan) events).2 = .completed result →
        Concluded s r (some result) (Life.run r (Life.new s.scale s.dynamic s.plan) events).1 ∨
          result = .error .cancelled := by
  have hclosed : Closed (Rig.surroundings P) (Rig.Frame (s.writtenBy s.plan.partitions) r)
      (Concluded s r) := by
    refine ⟨?_, ?_, ?_⟩
    · intro r₁ r₂ h hchange
      exact h.trans (Rig.still_of_change hchange).frame
    · intro a r₁ r₂ h hchange
      exact h.still (Rig.still_of_change hchange)
    · intro r₁ h
      exact h.trans (Rig.frame_answer r₁ .unmapAll)
  have hkeeps := Life.run_new_keeps hclosed events (fun _ r₁ => ⟨true, rfl⟩) s.scale s.dynamic
    s.plan (Rig.Still.refl r).frame (by
      intro r₁ hchange
      have hstill := Rig.still_of_change hchange
      refine (meets_whole s fun r₂ h => hstill.frame.trans h).mono (fun _ => id) ?_
      intro a r₂ h
      exact h.before hstill)
  generalize Life.run r (Life.new s.scale s.dynamic s.plan) events = state at hkeeps
  obtain ⟨r', life⟩ := state
  cases life with
  | running v => exact ⟨hkeeps.1, fun _ h => nomatch h⟩
  | completed result =>
    rcases hkeeps with hconcluded | ⟨hresult, hframe, -⟩
    · refine ⟨hconcluded.frame, ?_⟩
      intro result' h
      cases h
      exact Or.inl hconcluded
    · refine ⟨hframe, ?_⟩
      intro result' h
      cases h
      exact Or.inr hresult
  | dropped => exact ⟨hkeeps, fun _ h => nomatch h⟩
  | broken => exact ⟨hkeeps.frame, fun _ h => nomatch h⟩

end

/-! ## Ends -/

/-- A verification has ended. -/
def Life.Over : Life P → Prop
  | .running _ => False
  | _ => True

theorem Life.over_of_accepted {life : Life P} {plan : InstallPlan}
    (h : life.accepted? = some plan) : life.Over := by
  cases life with
  | running v => cases h
  | _ => trivial

/-- A life of `n` polls. -/
def Life.polls (r : Rig P) (life : Life P) (n : Nat) : Rig P × Life P :=
  Life.run r life (List.replicate n .poll)

theorem Life.polls_succ (r : Rig P) (life : Life P) (n : Nat) :
    Life.polls r life (n + 1) =
      Life.polls (Life.step (r, life) .poll).1 (Life.step (r, life) .poll).2 n := by
  unfold Life.polls
  rw [List.replicate_succ, Life.run_cons]

theorem Life.polls_of_over {life : Life P} (h : life.Over) (r : Rig P) (n : Nat) :
    Life.polls r life n = (r, life) := by
  induction n with
  | zero => rfl
  | succ n ih =>
    rw [Life.polls_succ]
    cases life with
    | running v => exact h.elim
    | completed result => exact ih
    | dropped => exact ih
    | broken => exact ih

theorem Life.polls_add (r : Rig P) (life : Life P) (m n : Nat) :
    Life.polls r life (m + n) = Life.polls (Life.polls r life m).1 (Life.polls r life m).2 n := by
  unfold Life.polls
  rw [← List.replicate_append_replicate, Life.run_append]

/-- Further polls change nothing. -/
theorem Life.polls_add_of_over {r : Rig P} {life : Life P} {m : Nat}
    (h : (Life.polls r life m).2.Over) (n : Nat) :
    Life.polls r life (m + n) = Life.polls r life m := by
  rw [Life.polls_add, Life.polls_of_over h]

/-- Polled again and again, the verification ends. -/
def Ends (rest : Suspended (interface P) (Except Error InstallPlan)) : Prop :=
  ∀ (r : Rig P) (started unmaps : Bool),
    ∃ n, (Life.polls r (.running ⟨started, unmaps, rest⟩) n).2.Over

/-- What is left at the end of a poll, if anything, ends. -/
def LeavesEnding {ρ : Type} :
    Rig P × Ending (interface P) ρ (Except Error InstallPlan) → Prop
  | (_, .interrupted _ rest) => Ends rest
  | _ => True

/-- A poll of what is left. -/
theorem ends_of_drive {rest : Suspended (interface P) (Except Error InstallPlan)}
    (h : ∀ r : Rig P, LeavesEnding
      (rest.drive Rig.host (fun r => (r, some (some ()))) r : _ × Ending _ (Option Unit) _)) :
    Ends rest := by
  intro r started unmaps
  have hstep : (Life.poll r ⟨started, unmaps, rest⟩).2.Over ∨
      ∃ r' started' unmaps' rest', Life.poll r ⟨started, unmaps, rest⟩ =
        (r', .running ⟨started', unmaps', rest'⟩) ∧ Ends rest' := by
    have hdrive := h r
    unfold Life.poll Running.poll Running.drive
    by_cases haborted : r.aborted = true
    · rw [if_pos haborted]
      exact Or.inl trivial
    · rw [if_neg haborted]
      dsimp only
      generalize rest.drive Rig.host (fun r => (r, some (some ()))) r = ending at hdrive
      obtain ⟨r', ending⟩ := ending
      cases ending with
      | finished result => exact Or.inl trivial
      | interrupted why rest' =>
        cases why with
        | none => exact Or.inl trivial
        | some why => exact Or.inr ⟨_, _, _, _, rfl, hdrive⟩
      | broken => exact Or.inl trivial
  rcases hstep with hover | ⟨r', started', unmaps', rest', hpoll, hends⟩
  · exact ⟨1, hover⟩
  · obtain ⟨n, hn⟩ := hends r' started' unmaps'
    refine ⟨n + 1, ?_⟩
    rw [Life.polls_succ]
    show (Life.polls (Life.poll r ⟨started, unmaps, rest⟩).1 (Life.poll r _).2 n).2.Over
    rw [hpoll]
    exact hn

/-- A pending request becomes due. -/
theorem leavesEnding_waitOut {d : OpenedDevice} {q : Device.Request}
    {next : Except Device.IoError q.Reply → Routine (interface P) (Except Error InstallPlan)}
    {resume : Rig P → Rig P × Ending (interface P) (Option Unit) (Except Error InstallPlan)}
    (hresume : ∀ r, LeavesEnding (resume r))
    (hends : ∀ polls, Ends (.waiting d q polls next)) (polls : Nat) (r : Rig P) :
    LeavesEnding (Routine.waitOut (fun r => (r, some (some ()))) d q next resume polls r) := by
  cases polls with
  | zero => exact hresume r
  | succ polls => exact hends polls

/-- By induction on the routine, and on the polls of a pending request. -/
theorem leavesEnding_drive (t : Routine (interface P) (Except Error InstallPlan)) :
    ∀ r : Rig P, LeavesEnding
      (t.drive Rig.host (fun r => (r, some (some ()))) r : _ × Ending _ (Option Unit) _) := by
  induction t with
  | done a =>
    intro r
    trivial
  | call c next ih =>
    intro r
    exact ih _ _
  | request d q next ih =>
    have hdue : ∀ r : Rig P, LeavesEnding
        ((next (Rig.host.complete r d q).2).drive Rig.host (fun r => (r, some (some ())))
          (Rig.host.complete r d q).1 : _ × Ending _ (Option Unit) _) :=
      fun r => ih _ _
    -- every poll brings the request nearer to being due
    have hends : ∀ polls, Ends (.waiting d q polls next) := by
      intro polls
      induction polls with
      | zero => exact ends_of_drive hdue
      | succ polls ihp =>
        apply ends_of_drive
        intro r
        exact ihp
    intro r
    unfold Routine.drive
    split
    · exact ih _ _
    · exact leavesEnding_waitOut hdue hends _ _
  | pause next ih =>
    intro r
    show Ends (.ready next)
    exact ends_of_drive ih
  | broken =>
    intro r
    trivial

/-- Polled often enough, a verification has ended. -/
theorem Life.exists_polls (r : Rig P) (scale : Scale P) (dynamic : DynamicPartitions)
    (plan : InstallPlan) :
    ∃ n, ∀ m, n ≤ m → (Life.polls r (Life.new scale dynamic plan) m).2.Over := by
  have hends : Ends (.ready (whole scale dynamic (some plan))) :=
    ends_of_drive (leavesEnding_drive _)
  obtain ⟨n, hn⟩ : ∃ n, (Life.polls r (Life.new scale dynamic plan) n).2.Over :=
    hends r false (unmapsAtEnd dynamic (some plan))
  refine ⟨n, ?_⟩
  intro m hm
  obtain ⟨k, rfl⟩ := Nat.exists_eq_add_of_le hm
  rw [Life.polls_add_of_over hn]
  exact hn

end SlotVerify.Verification
