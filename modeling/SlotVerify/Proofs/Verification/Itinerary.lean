import SlotVerify.Proofs.Verification.Cursor
/-
  The steps that a verification has started.

  A `Visit` is a step of a partition that has been started, with what has happened in it and what
  is left of it.  `Setting.Walked` says which visits have come to their end and to which cursor they
  have led; `Setting.Stands` adds the one that is under way, or says how the verification has ended.
  `Setting.Proceeds` says once what can happen from a cursor on, and every passage through the
  verification stands somewhere by induction on it (`stands_of_reaches`).

  The invariant goes with the finished visits (`Setting.Walked.settled`): they are targets, in
  order, and all of them are as expected except the one that the cursor is diagnosing.  From where
  it stands the verification goes on by further visits (`Setting.Stands.further`).  So the source of
  a partition is visited only behind its wrong target, and nothing is visited behind it
  (`Setting.Stands.diagnosed`), and a target is called wrong only with the digest that its visit has
  come to (`Setting.Stands.refuted`).
-/

namespace SlotVerify.Verification

open Device Routine

variable {P : Type}

/-- A step that has been started. -/
structure Visit (P : Type) where
  partition : Partition
  cursor : Cursor
  /-- The highest progress reported before it. -/
  told : P
  events : Trace P
  left : Attempt P Error (ByteArray × P)

/-- The step belongs to the plan, and its events are a passage through it. -/
structure Visit.Genuine (s : Setting P) (v : Visit P) : Prop where
  partition : s.plan.partitions[v.cursor.index]? = some v.partition
  path : v.partition.path v.cursor.step ≠ ""
  reaches : (hashStep s v.partition v.cursor.step v.cursor.index v.told).Reaches v.events v.left

/-- The step has come to its end, with this digest. -/
def Visit.Computed (v : Visit P) (digest : ByteArray) : Prop :=
  ∃ told, v.left = .done (.ok (digest, told))

/-- What has happened in some steps, one after another. -/
abbrev eventsOf (visits : List (Visit P)) : Trace P := visits.flatMap (·.events)

/-- The steps that have come to their end, and the cursor that they have led to. -/
inductive Setting.Walked (s : Setting P) : List (Visit P) → Cursor → P → Prop where
  | nil : Setting.Walked s [] .first s.scale.zero
  | snoc {visits : List (Visit P)} {c c' c'' : Cursor} {told told' : P} {p : Partition}
      {es : Trace P} {digest : ByteArray} (h : Setting.Walked s visits c told)
      (hfound : s.seek c = .found p c')
      (hhash : (hashStep s p c'.step c'.index told).Reaches es (.done (.ok (digest, told'))))
      (hadvance : c'.advance p digest = .ok c'') :
      Setting.Walked s (visits ++ [⟨p, c', told, es, .done (.ok (digest, told'))⟩]) c'' told'

/-- Where a passage through the verification stands: the steps that have been started, and the
    cursor. -/
inductive Setting.Stands (s : Setting P) :
    List (Visit P) → Cursor → Trace P → Attempt P Error Unit → Prop where
  | ended {visits : List (Visit P)} {c : Cursor} {told : P} (h : s.Walked visits c told)
      (hended : s.seek c = .ended) : Setting.Stands s visits c (eventsOf visits) (.done (.ok ()))
  | failed {visits : List (Visit P)} {c : Cursor} {told : P} {e : Error}
      (h : s.Walked visits c told) (hfailed : s.seek c = .failed e) :
      Setting.Stands s visits c (eventsOf visits) (.done (.error e))
  /-- The last step is under way, or it is one that nothing comes after. -/
  | visiting {visits : List (Visit P)} {c c' : Cursor} {told : P} {p : Partition} {es : Trace P}
      {left : Attempt P Error (ByteArray × P)} (h : s.Walked visits c told)
      (hfound : s.seek c = .found p c')
      (hhash : (hashStep s p c'.step c'.index told).Reaches es left)
      (hlast : ∀ digest told', left = .done (.ok (digest, told')) →
        ∃ e, c'.advance p digest = .error e) :
      Setting.Stands s (visits ++ [⟨p, c', told, es, left⟩]) c' (eventsOf visits ++ es)
        (left.andThen (s.proceed p c'))

/-! ## From step to step -/

section

variable {s : Setting P} {visits : List (Visit P)} {c : Cursor} {told : P} {es : Trace P}
  {u : Attempt P Error Unit}

/-- How the verification goes on from a cursor: to the step that is found, and maybe past it. -/
inductive Setting.Proceeds (s : Setting P) (c : Cursor) (told : P) :
    Trace P → Attempt P Error Unit → Prop where
  | ended (hended : s.seek c = .ended) : Setting.Proceeds s c told [] (.done (.ok ()))
  | failed {e : Error} (hfailed : s.seek c = .failed e) :
      Setting.Proceeds s c told [] (.done (.error e))
  | visiting {c' : Cursor} {p : Partition} {es : Trace P} {left : Attempt P Error (ByteArray × P)}
      (hfound : s.seek c = .found p c')
      (hhash : (hashStep s p c'.step c'.index told).Reaches es left)
      (hlast : ∀ digest told', left = .done (.ok (digest, told')) →
        ∃ e, c'.advance p digest = .error e) :
      Setting.Proceeds s c told es (left.andThen (s.proceed p c'))
  | passing {c' c'' : Cursor} {p : Partition} {es es' : Trace P} {digest : ByteArray} {told' : P}
      {u : Attempt P Error Unit} (hfound : s.seek c = .found p c')
      (hhash : (hashStep s p c'.step c'.index told).Reaches es (.done (.ok (digest, told'))))
      (hadvance : c'.advance p digest = .ok c'') (hnext : (s.verify c'' told').Reaches es' u) :
      Setting.Proceeds s c told (es ++ es') u

theorem proceeds_of_reaches (h : (s.verify c told).Reaches es u) : s.Proceeds c told es u := by
  cases hseek : s.seek c with
  | ended =>
    rw [verify_of_ended hseek] at h
    obtain ⟨rfl, rfl⟩ := reaches_done h
    exact .ended hseek
  | failed e =>
    rw [verify_of_failed hseek] at h
    obtain ⟨rfl, rfl⟩ := reaches_done h
    exact .failed hseek
  | found p c' =>
    rw [verify_of_found hseek] at h
    rcases Attempt.reaches_parts h with ⟨left, hhash, hleft, rfl⟩ |
      ⟨es₁, ⟨digest, told'⟩, es₂, rfl, hhash, hnext⟩
    · exact .visiting hseek hhash fun digest told' hdone => absurd hdone (hleft _)
    · cases hadvance : c'.advance p digest with
      | ok c'' =>
        rw [proceed_of_ok hadvance] at hnext
        exact .passing hseek hhash hadvance hnext
      | error e =>
        have hend : s.proceed p c' (digest, told') = .done (.error e) := proceed_of_error hadvance
        rw [hend] at hnext
        obtain ⟨rfl, rfl⟩ := reaches_done hnext
        rw [List.append_nil]
        refine hend ▸ .visiting hseek hhash fun digest' told'' hdone => ?_
        cases hdone
        exact ⟨e, hadvance⟩

/-- Whatever happens from a cursor on, the verification stands somewhere behind the steps that have
    led to the cursor; and the first one that it starts is the one that is found from there. -/
theorem stands_of_reaches (h : s.Walked visits c told) (hreaches : (s.verify c told).Reaches es u) :
    ∃ new c', s.Stands (visits ++ new) c' (eventsOf visits ++ es) u ∧
      ∀ p c₁, s.seek c = .found p c₁ → ∃ v rest, new = v :: rest ∧ v.cursor = c₁ := by
  -- by induction on the steps that there can still be
  induction hleft : c.left s.plan.partitions.length using Nat.strongRecOn
    generalizing visits c told es with
  | ind n ih =>
    have hfirst : ∀ {p : Partition} {c' : Cursor} (v : Visit P) (rest : List (Visit P)),
        s.seek c = .found p c' → v.cursor = c' → ∀ p' c₁, s.seek c = .found p' c₁ →
        ∃ v' rest', v :: rest = v' :: rest' ∧ v'.cursor = c₁ := by
      intro p c' v rest hfound hv p' c₁ hfound'
      cases hfound.symm.trans hfound'
      exact ⟨v, rest, rfl, hv⟩
    cases proceeds_of_reaches hreaches with
    | ended hended =>
      refine ⟨[], c, ?_, fun p c₁ hfound => nomatch hended.symm.trans hfound⟩
      simpa using Setting.Stands.ended h hended
    | failed hfailed =>
      refine ⟨[], c, ?_, fun p c₁ hfound => nomatch hfailed.symm.trans hfound⟩
      simpa using Setting.Stands.failed h hfailed
    | visiting hfound hhash hlast =>
      exact ⟨_, _, .visiting h hfound hhash hlast, hfirst _ _ hfound rfl⟩
    | @passing c' c'' p es₁ es₂ digest told' _ hfound hhash hadvance hnext =>
      have hfinds := finds_of_seek hfound
      have hless : c''.left s.plan.partitions.length < n := by
        rw [← hleft]
        exact Nat.lt_of_lt_of_le (Cursor.left_advance hfinds.inside hadvance) (hfinds.left_le _)
      obtain ⟨new, c₁, hstands, -⟩ :=
        ih _ hless (h.snoc hfound hhash hadvance) hnext rfl
      refine ⟨⟨p, c', told, es₁, .done (.ok (digest, told'))⟩ :: new, c₁, ?_,
        hfirst _ _ hfound rfl⟩
      simpa [eventsOf, List.append_assoc] using hstands

/-- What a passage through the verification has started. -/
theorem stands_verifyFrom
    (h : (verifyFrom s 0 s.plan.partitions s.scale.zero).Reaches es u) :
    ∃ visits c, s.Stands visits c es u := by
  have hverify := verify_eq_verifyFrom s 0 s.scale.zero
  rw [List.drop_zero] at hverify
  rw [← hverify] at h
  obtain ⟨visits, c, hstands, -⟩ := stands_of_reaches .nil h
  exact ⟨visits, c, hstands⟩

/-! ## In order -/

/-- A target is being diagnosed: it was the last one to be hashed, it is wrong, there is something
    to compare its source with, and the cursor keeps its digest. -/
def Diagnosing (visits : List (Visit P)) (c : Cursor) : Prop :=
  ∃ earlier v digest later, visits = earlier ++ v :: later ∧ v.cursor.index = c.index ∧
    v.cursor.step = .target ∧ v.Computed digest ∧ digest ≠ v.partition.targetHash ∧
    v.partition.sourceHash.size ≠ 0 ∧ c.targetDigest = some digest ∧
    ∀ v' ∈ later, v'.cursor = c

/-- What holds of the steps that have come to their end. -/
structure Setting.Settled (s : Setting P) (visits : List (Visit P)) (c : Cursor) : Prop where
  genuine : ∀ v ∈ visits, v.Genuine s
  ordered : visits.Pairwise fun v v' => v.cursor.Before v'.cursor
  before : ∀ v ∈ visits, v.cursor.Before c
  targets : ∀ v ∈ visits, v.cursor.step = .target
  passed : c.step = .target →
    c.targetDigest = none ∧ ∀ v ∈ visits, v.Computed v.partition.targetHash
  diagnosing : c.step = .source → Diagnosing visits c

/-- The cursor is where the search begins; what it finds is not earlier. -/
theorem Setting.Finds.before {c' : Cursor} {p : Partition} (h : s.Finds c p c') {c₀ : Cursor}
    (hbefore : c₀.Before c) : c₀.Before c' := by
  have hle := h.index_le
  rcases hbefore with hless | ⟨heq, htarget, hsource⟩
  · exact .inl (Nat.lt_of_lt_of_le hless hle)
  · rw [h.stays hsource]
    exact .inr ⟨heq, htarget, hsource⟩

/-- The next step is one of a partition of the plan, and behind all that have come to their end. -/
theorem Setting.Settled.start {c' : Cursor} {p : Partition} {left : Attempt P Error (ByteArray × P)}
    (h : s.Settled visits c) (hfound : s.seek c = .found p c')
    (hhash : (hashStep s p c'.step c'.index told).Reaches es left) :
    (∀ v ∈ visits ++ [⟨p, c', told, es, left⟩], v.Genuine s) ∧
      List.Pairwise (fun v v' : Visit P => v.cursor.Before v'.cursor)
        (visits ++ [⟨p, c', told, es, left⟩]) := by
  have hfinds := finds_of_seek hfound
  constructor
  · exact List.forall_mem_append.mpr ⟨h.genuine,
      List.forall_mem_singleton.mpr ⟨hfinds.partition, hfinds.path, hhash⟩⟩
  · refine List.pairwise_append.mpr ⟨h.ordered, List.pairwise_singleton _ _, ?_⟩
    intro v hv v' hv'
    obtain rfl := List.mem_singleton.mp hv'
    exact hfinds.before (h.before v hv)

/-- One step more. -/
theorem Setting.Settled.snoc {c' c'' : Cursor} {p : Partition} {digest : ByteArray} {told' : P}
    (h : s.Settled visits c) (hfound : s.seek c = .found p c')
    (hhash : (hashStep s p c'.step c'.index told).Reaches es (.done (.ok (digest, told'))))
    (hadvance : c'.advance p digest = .ok c'') :
    s.Settled (visits ++ [⟨p, c', told, es, .done (.ok (digest, told'))⟩]) c'' := by
  have hfinds := finds_of_seek hfound
  have hbefore := Cursor.before_advance hadvance
  obtain ⟨hgenuine, hordered⟩ := h.start hfound hhash
  obtain ⟨hstep, hcases⟩ := Cursor.advance_eq_ok hadvance
  obtain ⟨hnone, hpassed⟩ := h.passed (hfinds.step_eq ▸ hstep)
  refine ⟨hgenuine, hordered, ?_, ?_, ?_, ?_⟩
  · refine List.forall_mem_append.mpr ⟨?_, List.forall_mem_singleton.mpr hbefore⟩
    exact fun v hv => (hfinds.before (h.before v hv)).trans hbefore
  · exact List.forall_mem_append.mpr ⟨h.targets, List.forall_mem_singleton.mpr hstep⟩
  · rcases hcases with ⟨rfl, rfl⟩ | ⟨-, -, rfl⟩
    · refine fun _ => ⟨hfinds.targetDigest_eq.trans hnone, ?_⟩
      exact List.forall_mem_append.mpr ⟨hpassed, List.forall_mem_singleton.mpr ⟨told', rfl⟩⟩
    · exact nofun
  · rcases hcases with ⟨-, rfl⟩ | ⟨hwrong, hdelta, rfl⟩
    · intro hsource
      rw [hstep] at hsource
      cases hsource
    · exact fun _ => ⟨visits, _, digest, [], rfl, rfl, hstep, ⟨told', rfl⟩, hwrong, hdelta, rfl,
        nofun⟩

/-- By induction on the steps. -/
theorem Setting.Walked.settled (h : s.Walked visits c told) : s.Settled visits c := by
  induction h with
  | nil => exact ⟨nofun, .nil, nofun, nofun, fun _ => ⟨rfl, nofun⟩, nofun⟩
  | snoc h hfound hhash hadvance ih => exact ih.snoc hfound hhash hadvance

/-! ## The diagnosis -/

/-- What holds of the steps that have been started, the one under way included. -/
structure Setting.Diagnosed (s : Setting P) (visits : List (Visit P)) (c : Cursor) : Prop where
  genuine : ∀ v ∈ visits, v.Genuine s
  ordered : visits.Pairwise fun v v' => v.cursor.Before v'.cursor
  targets : c.step = .target →
    c.targetDigest = none ∧ ∀ v ∈ visits, v.cursor.step = .target
  diagnosing : c.step = .source → Diagnosing visits c
  /-- Nothing comes behind the source of a partition. -/
  final : ∀ before v after, visits = before ++ v :: after → v.cursor.step = .source →
    after = [] ∧ v.cursor = c

/-- A target has been wrong. -/
theorem Diagnosing.snoc (h : Diagnosing visits c) {v : Visit P} (hv : v.cursor = c) :
    Diagnosing (visits ++ [v]) c := by
  obtain ⟨earlier, v', digest, later, rfl, hindex, hstep, hcomputed, hwrong, hdelta, hdigest,
    hlater⟩ := h
  refine ⟨earlier, v', digest, later ++ [v], ?_, hindex, hstep, hcomputed, hwrong, hdelta, hdigest,
    List.forall_mem_append.mpr ⟨hlater, List.forall_mem_singleton.mpr hv⟩⟩
  rw [List.append_assoc, List.cons_append]

/-- As long as only targets have been hashed, there is no source that something could be behind. -/
theorem Setting.Settled.diagnosed (h : s.Settled visits c) : s.Diagnosed visits c := by
  refine ⟨h.genuine, h.ordered, fun htarget => ⟨(h.passed htarget).1, h.targets⟩, h.diagnosing, ?_⟩
  rintro before v after rfl hsource
  have htarget := h.targets v (List.mem_append_right before List.mem_cons_self)
  rw [htarget] at hsource
  cases hsource

/-- Wherever the verification stands, its steps are in order, and a source is the last of them. -/
theorem Setting.Stands.diagnosed (h : s.Stands visits c es u) : s.Diagnosed visits c := by
  cases h with
  | ended h _ => exact h.settled.diagnosed
  | failed h _ => exact h.settled.diagnosed
  | @visiting visits c₀ _ told p es left h hfound hhash _ =>
    have hfinds := finds_of_seek hfound
    have hsettled := h.settled
    obtain ⟨hgenuine, hordered⟩ := hsettled.start hfound hhash
    refine ⟨hgenuine, hordered, ?_, ?_, ?_⟩
    · intro htarget
      obtain ⟨hnone, -⟩ := hsettled.passed (hfinds.step_eq ▸ htarget)
      exact ⟨hfinds.targetDigest_eq.trans hnone,
        List.forall_mem_append.mpr ⟨hsettled.targets, List.forall_mem_singleton.mpr htarget⟩⟩
    · intro hsource
      obtain rfl := hfinds.stays (hfinds.step_eq ▸ hsource)
      exact (hsettled.diagnosing hsource).snoc rfl
    · intro before v after heq hsource
      rcases List.eq_nil_or_concat after with rfl | ⟨middle, last, rfl⟩
      · obtain ⟨-, hlast⟩ := List.append_inj' heq rfl
        cases hlast
        exact ⟨rfl, rfl⟩
      · -- then the source is one of the steps that have come to their end
        rw [List.concat_eq_append, ← List.cons_append, ← List.append_assoc] at heq
        obtain ⟨rfl, -⟩ := List.append_inj' heq rfl
        have htarget := hsettled.targets v (List.mem_append_right before List.mem_cons_self)
        rw [htarget] at hsource
        cases hsource

/-- The places of the steps. -/
abbrev placesOf (visits : List (Visit P)) : List Cursor := visits.map (·.cursor)

/-- From where it stands the verification goes on with the step under way, or it starts further
    ones; but not behind a source. -/
theorem Setting.Stands.further (h : s.Stands visits c es u) {es' : Trace P}
    {u' : Attempt P Error Unit} (hreaches : u.Reaches es' u') :
    ∃ visits' c', s.Stands visits' c' (es ++ es') u' ∧ placesOf visits <+: placesOf visits' ∧
      (c.step = .source → placesOf visits' = placesOf visits ∧ c' = c) := by
  cases h with
  | ended h hended =>
    obtain ⟨rfl, rfl⟩ := reaches_done hreaches
    rw [List.append_nil]
    exact ⟨_, _, .ended h hended, List.prefix_rfl, fun _ => ⟨rfl, rfl⟩⟩
  | failed h hfailed =>
    obtain ⟨rfl, rfl⟩ := reaches_done hreaches
    rw [List.append_nil]
    exact ⟨_, _, .failed h hfailed, List.prefix_rfl, fun _ => ⟨rfl, rfl⟩⟩
  | @visiting visits c₀ c told p es left h hfound hhash _ =>
    have hwhole : (s.verify c₀ told).Reaches (es ++ es') u' := by
      rw [verify_of_found hfound]
      exact (hhash.bind _).trans hreaches
    obtain ⟨new, c', hstands, hfirst⟩ := stands_of_reaches h hwhole
    obtain ⟨v, rest, rfl, rfl⟩ := hfirst p c hfound
    rw [List.append_assoc]
    refine ⟨_, c', hstands, by simp, fun hsource => ?_⟩
    obtain ⟨rfl, hcursor⟩ := hstands.diagnosed.final visits v rest rfl hsource
    exact ⟨by simp, hcursor.symm⟩

/-- Whether a partition can be diagnosed does not depend on how far the steps have come. -/
theorem Diagnosing.partition (h : Diagnosing visits c) (hgenuine : ∀ v ∈ visits, v.Genuine s) :
    ∃ v ∈ visits, s.plan.partitions[c.index]? = some v.partition ∧ v.cursor.step = .target ∧
      v.partition.sourceHash.size ≠ 0 ∧
      ∃ digest, v.Computed digest ∧ digest ≠ v.partition.targetHash ∧
        c.targetDigest = some digest := by
  obtain ⟨earlier, v, digest, later, rfl, hindex, hstep, hcomputed, hwrong, hdelta, hdigest, -⟩ := h
  have hv : v ∈ earlier ++ v :: later := List.mem_append_right earlier List.mem_cons_self
  exact ⟨v, hv, hindex ▸ (hgenuine v hv).partition, hstep, hdelta, digest, hcomputed, hwrong,
    hdigest⟩

/-- The search does not end at a source. -/
theorem Setting.Walked.target_of_ended (h : s.Walked visits c told) (hended : s.seek c = .ended) :
    c.step = .target := by
  cases hstep : c.step with
  | target => rfl
  | source =>
    have hsettled := h.settled
    obtain ⟨v, -, hp, -⟩ := (hsettled.diagnosing hstep).partition hsettled.genuine
    by_cases hpath : v.partition.path c.step = ""
    · rw [seek_of_absent hp hpath, hstep] at hended
      split at hended <;> cases hended
    · rw [seek_of_path hp hpath] at hended
      cases hended

/-- A verification that succeeds has hashed targets only, and all of them are as expected. -/
theorem Setting.Stands.passed (h : s.Stands visits c es (.done (.ok ()))) :
    c.step = .target ∧ ∀ v ∈ visits, v.Computed v.partition.targetHash := by
  generalize hu : (Routine.done (.ok ()) : Attempt P Error Unit) = u at h
  cases h with
  | ended h hended =>
    exact ⟨h.target_of_ended hended, (h.settled.passed (h.target_of_ended hended)).2⟩
  | failed => cases hu
  | @visiting visits c₀ _ told p es left _ _ _ hlast =>
    cases left with
    | done outcome =>
      cases outcome with
      | error e => cases hu
      | ok result =>
        obtain ⟨e, hadvance⟩ := hlast _ _ rfl
        have hend : Attempt.andThen (.done (.ok result)) (s.proceed p c) = .done (.error e) :=
          proceed_of_error hadvance
        rw [hend] at hu
        cases hu
    | _ => cases hu

/-! ## The digest in an error -/

/-- If this fails, then not because the contents of a partition are wrong. -/
abbrev Unjudging {α : Type} (t : Attempt P Error α) : Prop :=
  t.Only (fun _ => True) (fun _ _ => True)
    fun outcome => ∀ e, outcome = .error e → e.isVerificationFailure = false

theorem unjudging_fail {α : Type} {e : Error} (h : e.isVerificationFailure = false) :
    Unjudging (Attempt.fail e : Attempt P Error α) := by
  rintro _ ⟨⟩
  exact h

theorem unjudging_andThen {α β : Type} {t : Attempt P Error α} {f : α → Attempt P Error β}
    (ht : Unjudging t) (hf : ∀ a, Unjudging (f a)) : Unjudging (t.andThen f) := by
  refine only_bind ht ?_
  intro outcome houtcome
  cases outcome with
  | error e => exact unjudging_fail (houtcome e rfl)
  | ok a => exact hf a

theorem unjudging_openSource (s : Setting P) (p : Partition) (step : Step) :
    Unjudging (openSource s p step) := by
  unfold openSource
  dsimp only
  split
  · split
    · refine ⟨trivial, ?_⟩
      rintro (e | ⟨⟩) _ ⟨⟩
      rfl
    · refine ⟨trivial, fun _ => ⟨trivial, fun _ => ⟨trivial, ?_⟩⟩⟩
      rintro (e | ⟨⟩) _ ⟨⟩
      rfl
  · refine ⟨trivial, fun _ => ⟨trivial, ?_⟩⟩
    rintro (e | ⟨⟩) _ ⟨⟩
    rfl

theorem unjudging_initWriter (p : Partition) : Unjudging (initWriter (P := P) p) := by
  refine ⟨trivial, ?_⟩
  rintro ((e | f) | ⟨⟩)
  · exact unjudging_fail rfl
  · trivial
  · exact nofun

/-- Hashing a partition does not judge it. -/
theorem unjudging_hashStep (s : Setting P) (p : Partition) (step : Step) (index : Nat) (told : P) :
    Unjudging (hashStep s p step index told) := by
  unfold hashStep
  dsimp only
  split
  · exact unjudging_fail rfl
  · refine unjudging_andThen (unjudging_openSource s p step) fun device =>
      unjudging_andThen ?_ fun _ => only_bind (only_true _) ?_
    · split
      · exact unjudging_initWriter p
      · exact nofun
    · rintro (e | result) - _ ⟨⟩
      cases e <;> rfl

/-- Both are right if the source is. -/
theorem judge_eq_targetVerification {p : Partition} {targetDigest sourceDigest : ByteArray}
    {name : String} {expected calculated : ByteArray}
    (h : judge p targetDigest sourceDigest = .targetVerification name expected calculated) :
    name = p.name ∧ expected = p.targetHash ∧ calculated = targetDigest := by
  unfold judge at h
  split at h
  · cases h
    exact ⟨rfl, rfl, rfl⟩
  · cases h

/-- Among these steps is a target that is wrong, with this digest. -/
def Refuted (visits : List (Visit P)) (name : String) (expected calculated : ByteArray) : Prop :=
  ∃ v ∈ visits, v.cursor.step = .target ∧ v.partition.name = name ∧
    v.partition.targetHash = expected ∧ calculated ≠ expected ∧ v.Computed calculated

/-- The diagnosis of a target calls it wrong with the digest that the cursor has kept of it. -/
theorem Setting.Settled.refuted {name : String} {expected calculated sourceDigest : ByteArray}
    {p : Partition} (h : s.Settled visits c) (hsource : c.step = .source)
    (hp : s.plan.partitions[c.index]? = some p)
    (hjudge : .targetVerification name expected calculated =
      judge p (c.targetDigest.getD .empty) sourceDigest) :
    Refuted visits name expected calculated := by
  obtain ⟨v, hv, hp', hstep, -, digest, hcomputed, hwrong, hdigest⟩ :=
    (h.diagnosing hsource).partition h.genuine
  obtain rfl : v.partition = p := Option.some.inj (hp'.symm.trans hp)
  rw [hdigest] at hjudge
  obtain ⟨rfl, rfl, rfl⟩ := judge_eq_targetVerification hjudge.symm
  exact ⟨v, hv, hstep, rfl, rfl, hwrong, hcomputed⟩

/-- A target is called wrong with the digest that its own step has come to. -/
theorem Setting.Stands.refuted {name : String} {expected calculated : ByteArray}
    (h : s.Stands visits c es (.done (.error (.targetVerification name expected calculated)))) :
    Refuted visits name expected calculated := by
  generalize hu : (Routine.done (.error (.targetVerification name expected calculated)) :
    Attempt P Error Unit) = u at h
  cases h with
  | ended => cases hu
  | @failed visits c told e h hfailed =>
    cases hu
    have hseeks := seeks_seek s c
    rw [hfailed] at hseeks
    generalize hsought : Sought.failed (.targetVerification name expected calculated) = sought
      at hseeks
    cases hseeks with
    | empty hsource hp => exact h.settled.refuted hsource hp (Sought.failed.inj hsought)
    | _ => cases hsought
  | @visiting visits c₀ _ told p es left h hfound hhash hlast =>
    have hfinds := finds_of_seek hfound
    cases left with
    | done outcome =>
      cases outcome with
      | error e =>
        cases hu
        cases ((unjudging_hashStep _ _ _ _ _).reaches hhash).2 _ rfl
      | ok result =>
        obtain ⟨digest, told'⟩ := result
        obtain ⟨e, hadvance⟩ := hlast _ _ rfl
        have hend : s.proceed p c (digest, told') = .done (.error e) := proceed_of_error hadvance
        cases hu.trans hend
        rcases Cursor.advance_eq_error hadvance with ⟨hstep, hwrong, herror⟩ | ⟨hstep, hjudge⟩
        · cases herror
          exact ⟨_, List.mem_append_right _ (List.mem_singleton_self _), hstep, rfl, rfl, hwrong,
            told', rfl⟩
        · obtain rfl := hfinds.stays (hfinds.step_eq ▸ hstep)
          obtain ⟨v, hv, hrefuted⟩ := h.settled.refuted hstep hfinds.partition hjudge
          exact ⟨v, List.mem_append_left _ hv, hrefuted⟩
    | _ => cases hu

end

end SlotVerify.Verification
