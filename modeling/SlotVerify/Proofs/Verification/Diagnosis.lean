import SlotVerify.Proofs.Verification.Cancellation
import SlotVerify.Proofs.Verification.Contents
/-
  The diagnosis of a wrong target, over whole lives.

  A life at two moments is one course that has gone on: `Assignment.Came` says through which passage
  the course has come, and an occasion makes the passage longer, never different
  (`Assignment.Came.foldl`).  With the passage the list of the steps that have been started becomes
  longer, never different (`Setting.Covers.further`).

  So the steps of a life are in order, a source is hashed only to diagnose the target of the same
  partition, and then nothing else is hashed and the plan is not accepted; and a target is called
  wrong with the digest of the bytes that were read of it (`diagnosis_in_order`).
-/

namespace SlotVerify.Verification

open Routine

variable {P W : Type}

namespace Assignment

/-! ## Two moments of a life -/

/-- The course of a life has come through a passage, to what is left of it. -/
inductive Came (a : Assignment P W) :
    Trace P → Attempt P Error InstallPlan → (W × Record P) × Life P → Prop where
  /-- The work has not begun, and will not if the life has ended. -/
  | idle {w : W} {life : Life P} (h : a.Idle life) : Came a [] a.course ((w, []), life)
  | running {es : Trace P} {w : W} {record : Record P}
      {rest : Suspended (interface P) (Except Error InstallPlan)}
      (h : a.course.Arrives es record (leaves rest)) :
      Came a es rest.node ((w, record), .running ⟨true, a.unmaps, rest.bind a.conclude⟩)
  | completed {es : Trace P} {w : W} {ds release : Record P} {result : Except Error InstallPlan}
      (h : a.course.Arrives es ds (.finished result : Ending _ (Option Unit) _))
      (hrelease : a.Released release) :
      Came a es (.done result) ((w, ds ++ release ++ [reported a.scale.one]), .completed result)
  | cancelled {es : Trace P} {w : W} {ds release : Record P}
      {rest : Suspended (interface P) (Except Error InstallPlan)}
      (h : a.course.Arrives es ds (leaves rest)) (hrelease : a.Released release) :
      Came a es rest.node ((w, ds ++ release), .completed (.error .cancelled))
  | dropped {es : Trace P} {w : W} {ds release : Record P}
      {rest : Suspended (interface P) (Except Error InstallPlan)}
      (h : a.course.Arrives es ds (leaves rest)) (hrelease : a.Released release) :
      Came a es rest.node ((w, ds ++ release), .dropped)
  | broken {es : Trace P} {w : W} {ds : Record P}
      (h : a.course.Arrives es ds (.broken : Ending _ (Option Unit) _)) :
      Came a es .broken ((w, ds), .broken)

variable {a : Assignment P W} {es : Trace P} {u : Attempt P Error InstallPlan}
  {state : (W × Record P) × Life P} {w : W} {record : Record P}

theorem Came.reaches (h : a.Came es u state) : a.course.Reaches es u := by
  cases h with
  | idle _ => exact .refl _
  | running h => exact h.reaches
  | completed h _ => exact h.reaches
  | cancelled h _ => exact h.reaches
  | dropped h _ => exact h.reaches
  | broken h => exact h.reaches

/-- A life that has completed, and not because it was aborted, has come to the end of its course. -/
theorem Came.done_of_completed {result : Except Error InstallPlan} (h : a.Came es u state)
    (hlife : state.2 = .completed result) (hresult : result ≠ .error .cancelled) :
    u = .done result := by
  cases h with
  | completed _ _ =>
    cases hlife
    rfl
  | cancelled _ _ =>
    cases hlife
    exact absurd rfl hresult
  | idle hidle =>
    rcases hidle with rfl | rfl | rfl
    · cases hlife
    · cases hlife
      exact absurd rfl hresult
    · cases hlife
  | _ => cases hlife

/-- A poll that finds no abort goes on with the course. -/
theorem came_poll {rest : Suspended (interface P) (Except Error InstallPlan)}
    (h : a.course.Arrives es record (leaves rest)) (started : Bool)
    (haborted : a.aborted w = false) :
    ∃ new u', a.Came (es ++ new) u'
      (a.poll (w, record) ⟨started, a.unmaps, rest.bind a.conclude⟩) := by
  obtain ⟨new, ds, hrecord, harrives, -⟩ :=
    rest.drive_arrives a.host.carries_nothing (some ()) h w
  have hgoes := poll_goesOn haborted started rest record
  generalize rest.drive a.host.recorded (giveWay (some ())) (w, record) = last at *
  generalize a.poll (w, record) ⟨started, a.unmaps, rest.bind a.conclude⟩ = state at *
  obtain ⟨⟨w', record'⟩, ending⟩ := last
  obtain rfl : record' = record ++ ds := hrecord
  cases hgoes with
  | completed hrelease => exact ⟨new, _, .completed harrives hrelease⟩
  | left => exact ⟨new, _, .running harrives⟩
  | broken => exact ⟨new, _, .broken harrives⟩

/-- An occasion makes the passage longer. -/
theorem Came.step (h : a.Came es u state) (o : Occasion W) :
    ∃ new u', a.Came (es ++ new) u' (a.step state o) := by
  have hstays : ∀ {state'}, a.Came es u state' → ∃ new u', a.Came (es ++ new) u' state' :=
    fun h => ⟨[], u, (List.append_nil es).symm ▸ h⟩
  cases h with
  | @idle w life hidle =>
    rcases hidle with rfl | rfl | rfl
    · cases o with
      | poll =>
        show ∃ new u', a.Came _ u' (a.poll _ _)
        cases haborted : a.aborted w with
        | true =>
          rw [poll_aborted haborted]
          exact hstays (.idle (.inr (.inl rfl)))
        | false =>
          exact came_poll
            (arrives_refl (leaves (.ready (program a.scale a.dynamic a.plan))) rfl rfl) false
            haborted
      | drop => exact hstays (.idle (.inr (.inr rfl)))
      | change f => exact hstays (.idle (.inl rfl))
    · cases o <;> exact hstays (.idle (.inr (.inl rfl)))
    · cases o <;> exact hstays (.idle (.inr (.inr rfl)))
  | @running es w record rest h =>
    cases o with
    | poll =>
      show ∃ new u', a.Came _ u' (a.poll _ _)
      cases haborted : a.aborted w with
      | true =>
        obtain ⟨w', release, hrelease, hcleanup⟩ :=
          cleanup_eq (a := a) (rest.bind a.conclude) w record
        rw [poll_aborted haborted, hcleanup]
        exact hstays (.cancelled h hrelease)
      | false => exact came_poll h true haborted
    | drop =>
      show ∃ new u', a.Came _ u' (Running.cleanup _ _ _ _, .dropped)
      obtain ⟨w', release, hrelease, hcleanup⟩ :=
        cleanup_eq (a := a) (rest.bind a.conclude) w record
      rw [hcleanup]
      exact hstays (.dropped h hrelease)
    | change f => exact hstays (.running h)
  | completed h hrelease => cases o <;> exact hstays (.completed h hrelease)
  | cancelled h hrelease => cases o <;> exact hstays (.cancelled h hrelease)
  | dropped h hrelease => cases o <;> exact hstays (.dropped h hrelease)
  | broken h => cases o <;> exact hstays (.broken h)

/-- So do all of them together. -/
theorem Came.foldl (occasions : List (Occasion W)) :
    ∀ {es : Trace P} {u : Attempt P Error InstallPlan} {state : (W × Record P) × Life P},
      a.Came es u state → ∃ new u', a.Came (es ++ new) u' (occasions.foldl a.step state) := by
  induction occasions with
  | nil =>
    intro es u state h
    exact ⟨[], u, (List.append_nil es).symm ▸ h⟩
  | cons o rest ih =>
    intro es u state h
    obtain ⟨new, u', hstep⟩ := h.step o
    obtain ⟨new', u'', hrest⟩ := ih hstep
    exact ⟨new ++ new', u'', (List.append_assoc es new new').symm ▸ hrest⟩

theorem came_run (a : Assignment P W) (w : W) (occasions : List (Occasion W)) :
    ∃ es u, a.Came es u (a.run w occasions) := by
  obtain ⟨new, u, h⟩ := Came.foldl occasions (.idle (a := a) (w := w) (.inl rfl))
  exact ⟨[] ++ new, u, h⟩

end Assignment

/-! ## The steps of a whole verification -/

/-- What is done once all partitions have passed. -/
def Setting.afterwards (s : Setting P) : Unit → Attempt P Error InstallPlan := fun _ =>
  (verifyUntouched s.plan).andThen fun _ => Attempt.succeed s.plan

/-- Which steps a passage through a whole verification has started, and where its cursor is. -/
inductive Setting.Covers (s : Setting P) :
    List (Visit P) → Cursor → Trace P → Attempt P Error InstallPlan → Prop where
  | unbegun : Setting.Covers s [] .first []
      (.pause (program s.scale s.dynamic (some s.plan)))
  | verifying {visits : List (Visit P)} {c : Cursor} {es : Trace P} {v : Attempt P Error Unit}
      (h : s.Stands visits c es v) (hnot : ∀ a, v ≠ .done (.ok a)) :
      Setting.Covers s visits c (.paused :: es) (v.andThen s.afterwards)
  | behind {visits : List (Visit P)} {c : Cursor} {es later : Trace P}
      {u : Attempt P Error InstallPlan} (h : s.Stands visits c es (.done (.ok ())))
      (hlater : (s.afterwards ()).Reaches later u) :
      Setting.Covers s visits c (.paused :: (es ++ later)) u

section

variable {s : Setting P} {visits : List (Visit P)} {c : Cursor} {es : Trace P}
  {u : Attempt P Error InstallPlan}

/-- A whole verification goes on with the steps of its partitions. -/
theorem Setting.Covers.further (h : s.Covers visits c es u) {new : Trace P}
    {u' : Attempt P Error InstallPlan} (hreaches : u.Reaches new u') :
    ∃ visits' c', s.Covers visits' c' (es ++ new) u' ∧ placesOf visits <+: placesOf visits' ∧
      (c.step = .source → placesOf visits' = placesOf visits ∧ c' = c) := by
  cases h with
  | unbegun =>
    cases hreaches with
    | refl => exact ⟨_, _, .unbegun, List.prefix_rfl, nofun⟩
    | pause hreaches =>
      rcases Attempt.reaches_parts hreaches with ⟨v, hv, hnot, rfl⟩ |
        ⟨es₁, _, es₂, rfl, hv, hlater⟩
      · obtain ⟨visits, c, hstands⟩ := stands_verifyFrom (s := s) hv
        exact ⟨visits, c, .verifying hstands hnot, List.nil_prefix, nofun⟩
      · obtain ⟨visits, c, hstands⟩ := stands_verifyFrom (s := s) hv
        exact ⟨visits, c, .behind hstands hlater, List.nil_prefix, nofun⟩
  | verifying h _ =>
    rcases Attempt.reaches_parts hreaches with ⟨v, hv, hnot, rfl⟩ |
      ⟨es₁, _, es₂, rfl, hv, hlater⟩
    · obtain ⟨visits', c', hstands, hplaces⟩ := h.further hv
      exact ⟨visits', c', .verifying hstands hnot, hplaces⟩
    · obtain ⟨visits', c', hstands, hplaces⟩ := h.further hv
      refine ⟨visits', c', ?_, hplaces⟩
      rw [List.cons_append, ← List.append_assoc]
      exact .behind hstands hlater
  | @behind _ _ es later _ h hlater =>
    refine ⟨visits, c, ?_, List.prefix_rfl, fun _ => ⟨rfl, rfl⟩⟩
    rw [List.cons_append, List.append_assoc]
    exact .behind h (hlater.trans hreaches)

theorem Setting.Covers.diagnosed (h : s.Covers visits c es u) : s.Diagnosed visits c := by
  cases h with
  | unbegun => exact (Setting.Walked.nil (s := s)).settled.diagnosed
  | verifying h _ => exact h.diagnosed
  | behind h _ => exact h.diagnosed

/-- A verification that accepts its plan is not diagnosing a target. -/
theorem Setting.Covers.target_of_accepted {accepted : InstallPlan}
    (h : s.Covers visits c es (.done (.ok accepted))) : c.step = .target := by
  generalize hu : (Routine.done (.ok accepted) : Attempt P Error InstallPlan) = u at h
  cases h with
  | unbegun => cases hu
  | @verifying _ _ es v h hnot =>
    cases v with
    | done outcome =>
      cases outcome with
      | error e => cases hu
      | ok a => exact absurd rfl (hnot a)
    | _ => cases hu
  | behind h _ => exact h.passed.1

/-- What comes behind the partitions does not judge them. -/
theorem unjudging_afterwards (s : Setting P) : Unjudging (s.afterwards ()) := by
  refine unjudging_andThen ?_ fun _ => nofun
  unfold verifyUntouched
  split
  · exact nofun
  · refine ⟨trivial, fun same => ?_⟩
    cases same with
    | true => exact nofun
    | false => exact unjudging_fail rfl

/-- A plan is refused for a wrong target only by the step that has found it. -/
theorem Setting.Covers.refuted {name : String} {expected calculated : ByteArray}
    (h : s.Covers visits c es (.done (.error (.targetVerification name expected calculated)))) :
    Refuted visits name expected calculated := by
  generalize hu : (Routine.done (.error (.targetVerification name expected calculated)) :
    Attempt P Error InstallPlan) = u at h
  cases h with
  | unbegun => cases hu
  | @verifying _ _ es v h hnot =>
    cases v with
    | done outcome =>
      cases outcome with
      | error e =>
        cases hu
        exact h.refuted
      | ok a => exact absurd rfl (hnot a)
    | _ => cases hu
  | behind _ hlater =>
    subst hu
    cases ((unjudging_afterwards s).reaches hlater).2 _ rfl

end

/-- A step of a life that has come to a digest has read its partition. -/
theorem Visit.Genuine.hashesTo {s : Setting P} {v : Visit P} {digest : ByteArray}
    (h : v.Genuine s) (hcomputed : v.Computed digest) :
    HashesTo s v.partition v.cursor.step v.events digest := by
  obtain ⟨told, hleft⟩ := hcomputed
  exact hashesTo_hashStep (hleft ▸ h.reaches)

/-! ## The whole of it -/

/-- Wherever a life stands, whatever its host answers and whenever it is aborted or given up, the
    steps that it has started are in order, each partition's target before its source.  A source is
    hashed only to diagnose the target of its partition, which was hashed last, is wrong, and whose
    digest the cursor keeps.  Later the life has started the same steps and possibly more, but none
    behind a source, and then the plan is not accepted.  If the plan is refused for a wrong target,
    the error has the digest of what was read of that target in its own step, and not a
    placeholder. -/
theorem diagnosis_in_order (host : Host (interface P) W) (aborted : W → Bool) (scale : Scale P)
    (dynamic : DynamicPartitions) (plan : InstallPlan) (w : W)
    (occasions later : List (Occasion W)) :
    let a : Assignment P W := ⟨host, aborted, scale, dynamic, some plan⟩
    let s : Setting P := ⟨scale, dynamic, plan⟩
    ∃ es u visits c, a.Came es u (a.run w occasions) ∧ s.Covers visits c es u ∧
      s.Diagnosed visits c ∧
      (∀ name expected calculated, (a.run w occasions).2 =
          .completed (.error (.targetVerification name expected calculated)) →
        ∃ v ∈ visits, v.cursor.step = .target ∧ v.partition.name = name ∧
          v.partition.targetHash = expected ∧ calculated ≠ expected ∧
          HashesTo s v.partition .target v.events calculated ∧
          calculated.size = partitionAlgorithm.digestSize) ∧
      ∃ new u' visits' c', a.Came (es ++ new) u' (a.run w (occasions ++ later)) ∧
        s.Covers visits' c' (es ++ new) u' ∧ s.Diagnosed visits' c' ∧
        placesOf visits <+: placesOf visits' ∧
        (c.step = .source → placesOf visits' = placesOf visits ∧ c' = c ∧
          ∀ accepted, (a.run w (occasions ++ later)).2 ≠ .completed (.ok accepted)) := by
  intro a s
  obtain ⟨es, u, hcame⟩ := a.came_run w occasions
  obtain ⟨visits, c, hcovers, -, -⟩ := (Setting.Covers.unbegun (s := s)).further hcame.reaches
  rw [List.nil_append] at hcovers
  have hdiagnosed := hcovers.diagnosed
  obtain ⟨new, u', hcame'⟩ := Assignment.Came.foldl later hcame
  rw [← Assignment.run_append] at hcame'
  obtain ⟨visits', c', hcovers', hplaces, hsource⟩ :=
    hcovers.further (hcame.reaches.behind hcame'.reaches)
  refine ⟨es, u, visits, c, hcame, hcovers, hdiagnosed, ?_, new, u', visits', c', hcame', hcovers',
    hcovers'.diagnosed, hplaces, fun hstep => ?_⟩
  · intro name expected calculated hlife
    obtain rfl := hcame.done_of_completed hlife nofun
    obtain ⟨v, hv, hstep, hname, hhash, hwrong, hcomputed⟩ := hcovers.refuted
    have hhashes := (hdiagnosed.genuine v hv).hashesTo hcomputed
    rw [hstep] at hhashes
    exact ⟨v, hv, hstep, hname, hhash, hwrong, hhashes, hhashes.size_eq⟩
  · obtain ⟨hsame, rfl⟩ := hsource hstep
    refine ⟨hsame, rfl, fun accepted hlife => ?_⟩
    obtain rfl := hcame'.done_of_completed hlife nofun
    rw [hcovers'.target_of_accepted] at hstep
    cases hstep

end SlotVerify.Verification
