import SlotVerify.Proofs.Machine.Telling
/-
  The verification machine goes on as the verification does.

  `withWriter` is a verification whose calls to the writer are answered by a writer of its own.  The
  machine enacts it (`Verifying.enacts_whole`), so what the machine does not come to, no run of the
  verification comes to.

  1. In the middle of a verification the machine is in a state `midway`.  While a partition is being
     hashed the writer is lent or kept, and it is the one that the verification uses.

  2. The hashing and the look at its progress are a machine of their own (`Telling`), which goes on
     as the hashing of a partition does; here it is at work inside (`does_hashPartition`).

  3. The plan is gone through by the cursor, so the induction is on the steps that are left
     (`does_verify`).
-/

namespace SlotVerify.Machine

open Device Verification
open Verity (Writer Finalization)

variable {P α β : Type}

/-! ## A writer for a verification -/

/-- A computation that uses this writer. -/
def withWriter (t : Routine (interface P) α) (w : Writer) : Routine (interface P) α :=
  (t.interpret serve id w).bind fun (a, _) => .done a

theorem withWriter_passed {c : Call P} {w : Writer} (h : serve w c = ask c fun x => .done (x, w))
    (next : c.Answer → Routine (interface P) α) :
    withWriter (ask c next) w = ask c fun x => withWriter (next x) w :=
  serving_passed h next

theorem withWriter_answered {c : Call P} {w w' : Writer} {x : c.Answer}
    (h : serve w c = .done (x, w')) (next : c.Answer → Routine (interface P) α) :
    withWriter (ask c next) w = withWriter (next x) w' :=
  serving_answered h next

/-- A hashing gives its writer back, and what comes behind goes on with it. -/
theorem withWriter_hashPartition (scale : Scale P) (subject : Subject) (dataEnd : Nat)
    (writing : Bool) (told : P)
    (next : Except HashError (ByteArray × P) → Routine (interface P) α) (w : Writer) :
    withWriter ((hashPartition scale subject dataEnd writing told).bind next) w =
      (Telling.handing writing (hashPartition scale subject dataEnd writing told) w).bind
        fun (writer, outcome) => withWriter (next outcome) (writer.getD w) := by
  refine (serving_bind (f := Prod.fst) _ next w).trans ?_
  unfold Telling.handing serving
  rw [Routine.bind_assoc]
  cases writing with
  | true => rfl
  | false =>
    -- without metadata to write, the writer is never called
    rw [interpret_of_reading (reads_hashPartition scale subject dataEnd told), Routine.bind_assoc,
      Routine.bind_assoc]
    rfl

namespace Verifying

/-- A turn of the machine does what a part of a verification does that uses this writer. -/
abbrev Does (t : Turn P (Result P)) (w : Writer) (u : Attempt P Error InstallPlan) : Prop :=
  Enacts turn t (.ready (withWriter u w))

/-- Calls alone, and none of them to the writer. -/
def Plain : Routine (interface P) α → Prop
  | .done _ => True
  | .call c next =>
    (∀ w, serve w c = ask c fun x => .done (x, w)) ∧ ∀ x, Plain (next x)
  | .request .. | .pause _ | .broken => False

theorem does_asking {t : Routine (interface P) α} (ht : Plain t) {w : Writer}
    {f : α → Turn P (Result P)} {g : α → Attempt P Error InstallPlan}
    (h : ∀ a, Does (f a) w (g a)) : Does ((Turn.asking t).bind f) w (t.bind g) := by
  induction t with
  | done a => exact h a
  | call c next ih =>
    show Does _ w (ask c fun x => (next x).bind g)
    unfold Does
    rw [withWriter_passed (ht.1 w)]
    exact .call fun x => ih x (ht.2 x)
  | _ => exact ht.elim

theorem does_answered {c : Call P} {x : c.Answer} {w w' : Writer} {t : Turn P (Result P)}
    {next : c.Answer → Attempt P Error InstallPlan} (h : serve w c = .done (x, w'))
    (ht : Does t w' (next x)) : Does t w (ask c next) := by
  unfold Does
  rwa [withWriter_answered h]

theorem plain_openSource (s : Setting P) (p : Partition) (step : Step) :
    Plain (openSource s p step) := by
  unfold openSource openSnapshot openMapped openDirect
  dsimp only
  split
  · split
    · refine ⟨fun _ => rfl, ?_⟩
      rintro (e | a) <;> trivial
    · refine ⟨fun _ => rfl, fun _ => ⟨fun _ => rfl, fun _ => ⟨fun _ => rfl, ?_⟩⟩⟩
      rintro (e | a) <;> trivial
  · refine ⟨fun _ => rfl, fun _ => ⟨fun _ => rfl, ?_⟩⟩
    rintro (e | a) <;> trivial

theorem plain_verifyUntouched (plan : InstallPlan) :
    Plain (verifyUntouched plan : Attempt P Error Unit) := by
  unfold verifyUntouched
  split
  · trivial
  · refine ⟨fun _ => rfl, ?_⟩
    rintro (_ | _) <;> trivial

/-! ## The end of a verification -/

/-- What a verification does when it ends. -/
def closing (scale : Scale P) (dynamic : DynamicPartitions) (plan : Option InstallPlan)
    (outcome : Except Error InstallPlan) : Attempt P Error InstallPlan :=
  let finish := ask (.report scale.one) fun _ => .done outcome
  if unmapsAtEnd dynamic plan then ask .unmapAll fun _ => finish else finish

theorem does_conclude {v : Verifying P} {plan : Option InstallPlan} (hclean : v.cleanedUp = false)
    (hunmaps : unmapsAtEnd v.dynamic plan = (!v.writeVerity && v.dynamic.compressed))
    (outcome : Except Error InstallPlan) (w : Writer) :
    Does (v.conclude outcome) w (closing v.scale v.dynamic plan outcome) := by
  unfold conclude closing
  dsimp only
  rw [hclean, hunmaps]
  cases !v.writeVerity && v.dynamic.compressed with
  | false => exact .call fun _ => .ready _ _
  | true => exact .call fun _ => .call fun _ => .ready _ _

/-- In the middle of a verification. -/
def midway (s : Setting P) (writer : Option Writer) (c : Cursor) (told : P) (state : State) :
    Verifying P :=
  ⟨s.scale, s.dynamic, writer, some s.plan, s.plan.writeVerity, c, told, false, state⟩

variable {s : Setting P} {writer : Option Writer} {c : Cursor} {told : P} {state : State}
  {w : Writer}

@[simp] theorem midway_cursor : (midway s writer c told state).cursor = c := rfl

/-- What comes behind the partitions. -/
def rest (s : Setting P) : Except Error Unit → Attempt P Error InstallPlan
  | .ok () =>
    ((verifyUntouched s.plan).andThen fun _ => Attempt.succeed s.plan).bind
      (closing s.scale s.dynamic (some s.plan))
  | .error e => closing s.scale s.dynamic (some s.plan) (.error e)

theorem unmapsAtEnd_some (dynamic : DynamicPartitions) (plan : InstallPlan) :
    unmapsAtEnd dynamic (some plan) = (!plan.writeVerity && dynamic.compressed) :=
  Bool.and_comm _ _

theorem does_fail (e : Error) :
    Does ((midway s writer c told state).conclude (.error e)) w (rest s (.error e)) :=
  does_conclude rfl (unmapsAtEnd_some _ _) _ _

theorem does_verifyUntouched :
    Does (midway s writer c told .verifyUntouched).turn w (rest s (.ok ())) := by
  have hrest : rest s (.ok ()) = (verifyUntouched s.plan).bind fun
      | .ok () => closing s.scale s.dynamic (some s.plan) (.ok s.plan)
      | .error e => closing s.scale s.dynamic (some s.plan) (.error e) := by
    refine (Routine.bind_assoc _ _ _).trans (congrArg _ (funext ?_))
    rintro (e | a) <;> rfl
  rw [hrest]
  refine does_asking (plain_verifyUntouched s.plan) ?_
  rintro (e | a)
  · exact does_conclude rfl (unmapsAtEnd_some _ _) _ _
  · exact does_conclude rfl (unmapsAtEnd_some _ _) _ _

/-! ## Hashing a partition -/

/-- What comes behind the hashing of a partition, by its outcome. -/
structure Onward (s : Setting P) (p : Partition) (c : Cursor)
    (next : Except HashError (ByteArray × P) → Attempt P Error InstallPlan) : Prop where
  partition : s.plan.partitions[c.index]? = some p
  failed : ∀ e, next (.error e) = rest s (.error (hashFailure p e))
  judged : ∀ w told digest,
    Does ((midway s (some w) c told .startHashing).judgeDigest digest) w (next (.ok (digest, told)))

section

variable {p : Partition} {next : Except HashError (ByteArray × P) → Attempt P Error InstallPlan}
  {device : OpenedDevice} {size last dataEnd : Nat} {lent kept : Option Writer} {h : Hashing}

theorem hashError_midway (hp : s.plan.partitions[c.index]? = some p) (e : HashError) :
    (midway s writer c told state).hashError e = hashFailure p e := by
  have hname : (midway s writer c told state).partitionName = p.name := by
    unfold partitionName midway
    simp only [Option.bind_some, hp, Option.map_some, Option.getD_some]
  cases e <;> simp only [hashError, hashFailure, hname]

/-- What is hashed. -/
abbrev subjectOf (s : Setting P) (c : Cursor) (device : OpenedDevice) (size : Nat) : Subject :=
  ⟨device, size, c.index, s.plan.partitions.length⟩

/-- The machine while a partition is being hashed. -/
abbrev hashingAt (s : Setting P) (c : Cursor) (device : OpenedDevice) (size : Nat)
    (kept : Option Writer) (t : Telling P) : Verifying P :=
  midway s kept c t.told (.hashing device t.hashing size t.last)

/-- What follows a turn of the hashing and the look at its progress. -/
def afterTelling (s : Setting P) (c : Cursor) (device : OpenedDevice) (size : Nat)
    (kept : Option Writer) : Telling.Result P → Turn P (Result P)
  | (t, .again) => .ret (hashingAt s c device size kept t, .again)
  | (t, .pending) => .ret (hashingAt s c device size kept t, .pending)
  | (t, .ready (writer, .error e)) =>
    (hashingAt s c device size kept t).takeBack writer (.error e)
  | (_, .ready (writer, .ok (digest, told))) =>
    (midway s kept c told .startHashing).takeBack writer (.ok digest)

/-- Telling progress is the verification's own part of a turn of the hashing. -/
theorem tell_bind_afterTelling {f : Telling P → Turn P (Telling.Result P)}
    {g : Verifying P → Turn P (Result P)}
    (h' : ∀ t : Telling P, t.hashing = h → t.last = h.offset →
      (f t).bind (afterTelling s c device size kept) = g (midway s kept c t.told state)) :
    (Telling.tell s.scale (subjectOf s c device size) last told h f).bind
        (afterTelling s c device size kept) =
      (midway s kept c told state).tell h.offset size last g := by
  unfold Telling.tell Verifying.tell
  by_cases hmore : h.offset ≠ last
  · rw [if_pos hmore, if_pos hmore]
    show Turn.bind (if s.scale.less told (s.scale.fraction c.index h.offset size
        s.plan.partitions.length) = true then _ else _) _ =
      if s.scale.less told (s.scale.fraction c.index h.offset size
        s.plan.partitions.length) = true then _ else _
    split
    · exact congrArg (Turn.call _) (funext fun _ => h' _ rfl rfl)
    · exact h' _ rfl rfl
  · rw [if_neg hmore, if_neg hmore]
    exact h' _ rfl rfl

/-- A turn of the machine is one of the hashing and the look at its progress. -/
theorem turn_hashingAt (t : Telling P) :
    (hashingAt s c device size kept t).turn =
      (Telling.turn s.scale (subjectOf s c device size) t).bind
        (afterTelling s c device size kept) := by
  show (t.hashing.turn device).bind _ = Turn.bind (Turn.bind _ _) _
  rw [Turn.bind_assoc]
  refine congrArg _ (funext ?_)
  rintro ⟨h, _ | _ | ⟨writer, result⟩⟩
  · rfl
  · unfold afterHashing Telling.after
    refine (tell_bind_afterTelling ?_).symm
    rintro ⟨h', last', told'⟩ rfl hlast
    dsimp only at hlast
    subst hlast
    rfl
  · unfold afterHashing Telling.after
    refine (tell_bind_afterTelling fun t' _ _ => ?_).symm
    cases result <;> rfl

/-- What the verification does with a whole partition. -/
theorem does_hashPartition (hnext : Onward s p c next) {writing : Bool}
    (hlends : Lends Writer.Engaged writing lent w) :
    Does (hashingAt s c device size (if writing then none else some w)
      ⟨.start size dataEnd lent, 0, told⟩).turn w
      ((hashPartition s.scale (subjectOf s c device size) dataEnd writing told).bind next) := by
  unfold Does
  rw [withWriter_hashPartition, turn_hashingAt]
  have hdoes :=
    Telling.does_hashPartition s.scale (subjectOf s c device size) dataEnd told hlends
  refine hdoes.within (fun a => a.1.isSome = writing) (hashingAt s c device size _) turn_hashingAt
    (fun _ => rfl) (fun _ => rfl) ?_ ?_
  · -- the writer is back in its place
    rintro t ⟨writer, outcome⟩ hback
    have hwriter : writer.or (if writing then none else some w) = some (writer.getD w) := by
      cases writer <;> cases writing <;> first | rfl | cases hback
    cases outcome with
    | error e =>
      show Does (Verifying.conclude _ _) _ (next (.error e))
      rw [hnext.failed, ← hashError_midway hnext.partition e]
      exact does_fail _
    | ok passed =>
      have hjudged := hnext.judged (writer.getD w) passed.2 passed.1
      rw [← hwriter] at hjudged
      exact hjudged
  · refine Routine.only_bind (Routine.only_true _) fun a _ => ?_
    cases writing <;> rfl

theorem does_beginHashing (hnext : Onward s p c next) {writing : Bool}
    (hlends : Lends Writer.Engaged writing lent w) :
    Does ((midway s (if writing then none else some w) c told state).beginHashing p dataEnd device
      lent) w ((hashPartition s.scale (subjectOf s c device (p.size c.step)) dataEnd writing
        told).bind next) := by
  unfold beginHashing
  dsimp only
  rw [Hashing.new_eq_ok]
  exact .again (does_hashPartition hnext hlends)

/-! ## The steps of a plan -/

/-- What comes behind a step. -/
def stepped (s : Setting P) (p : Partition) (c : Cursor) :
    Except Error (ByteArray × P) → Attempt P Error InstallPlan
  | .ok passed => (s.proceed p c passed).bind (rest s)
  | .error e => rest s (.error e)

theorem does_lendWriter
    (hnext : Onward s p c fun outcome => stepped s p c (outcome.mapError (hashFailure p)))
    (writing : Bool) :
    Does ((midway s (some w) c told .startHashing).lendWriter p writing dataEnd device) w
      (((if writing then initWriter p else Attempt.succeed ()).andThen fun _ =>
        (hashPartition s.scale (subjectOf s c device (p.size c.step)) dataEnd writing told).mapError
          (hashFailure p)).bind (stepped s p c)) := by
  cases writing with
  | false =>
    show Does (beginHashing _ p dataEnd device none) w
      (Routine.bind (Routine.bind (hashPartition ..) _) _)
    rw [Routine.bind_assoc]
    exact does_beginHashing hnext (.kept w)
  | true =>
    refine does_answered (c := .initWriter p.verityLayout) rfl ?_
    unfold lendWriter
    rw [if_pos rfl]
    dsimp only [midway]
    cases hinit : (w.init p.verityLayout).2 with
    | error fault =>
      cases fault with
      | rejected e => exact does_fail _
      | breakdown fault => exact .broken
    | ok a =>
      show Does (beginHashing (midway s none c told .startHashing) p dataEnd device _) _
        (Routine.bind (Routine.bind (hashPartition ..) _) _)
      rw [Routine.bind_assoc]
      exact does_beginHashing hnext (.lent ⟨_, Verity.Writer.serves_init hinit⟩)

theorem does_openPartition (hp : s.plan.partitions[c.index]? = some p)
    (hjudged : ∀ w told digest, Does ((midway s (some w) c told .startHashing).judgeDigest digest) w
      (stepped s p c (.ok (digest, told)))) :
    Does ((midway s (some w) c told .startHashing).openPartition s.plan p) w
      ((hashStep s p c.step c.index told).bind (stepped s p c)) := by
  have hnext : Onward s p c fun outcome => stepped s p c (outcome.mapError (hashFailure p)) :=
    ⟨hp, fun _ => rfl, hjudged⟩
  unfold openPartition hashStep
  dsimp only [midway_cursor]
  cases dataEnd c.step p.hashTreeOffset.toNat p.fecOffset.toNat (p.size c.step) with
  | error e => exact does_fail _
  | ok dataEnd =>
    show Does (Turn.bind (Turn.asking (openSource s p c.step)) _) w
      (Routine.bind (Routine.bind (openSource s p c.step) _) _)
    rw [Routine.bind_assoc]
    refine does_asking (plain_openSource s p c.step) ?_
    rintro (e | device)
    · exact does_fail _
    · exact does_lendWriter hnext _

theorem verify_bind (hseek : s.seek c = .found p c) :
    (s.verify c told).bind (rest s) =
      (hashStep s p c.step c.index told).bind (stepped s p c) := by
  rw [verify_of_found hseek]
  refine (Routine.bind_assoc _ _ _).trans (congrArg _ (funext ?_))
  rintro (e | passed) <;> rfl

/-- The digest of a step is judged, and leads to the next step. -/
theorem does_judgeDigest (hp : s.plan.partitions[c.index]? = some p) (digest : ByteArray)
    (hon : ∀ c', c.advance p digest = .ok c' →
      Does (midway s (some w) c' told .startHashing).startHashing w
        ((s.verify c' told).bind (rest s))) :
    Does ((midway s (some w) c told .startHashing).judgeDigest digest) w
      (stepped s p c (.ok (digest, told))) := by
  unfold judgeDigest stepped
  dsimp only [midway]
  rw [hp]
  dsimp only
  cases hadvance : c.advance p digest with
  | error e =>
    rw [proceed_of_error hadvance]
    exact does_fail e
  | ok c' =>
    rw [proceed_of_ok hadvance]
    exact .again (hon c' hadvance)

/-- From a cursor on, by induction on the steps that there can be. -/
theorem does_verify (s : Setting P) (c : Cursor) (told : P) (w : Writer) :
    Does (midway s (some w) c told .startHashing).startHashing w
      ((s.verify c told).bind (rest s)) := by
  induction hleft : c.left s.plan.partitions.length using Nat.strongRecOn
    generalizing c told w with
  | ind left ih =>
    subst hleft
    rcases Nat.lt_or_ge c.index s.plan.partitions.length with hinside | hend
    · obtain ⟨p, hp⟩ : ∃ p, s.plan.partitions[c.index]? = some p :=
        ⟨_, List.getElem?_eq_getElem hinside⟩
      by_cases hpath : p.path c.step = ""
      · have hseek := seek_of_absent hp hpath
        rw [startHashing_of_absent (c := c) rfl rfl hp hpath]
        by_cases hsome : p.size c.step ≠ 0
        · rw [if_pos hsome] at hseek ⊢
          rw [verify_of_failed hseek]
          exact does_fail _
        · rw [if_neg hsome] at hseek ⊢
          obtain ⟨index, step, d⟩ := c
          cases step with
          | source =>
            rw [verify_of_failed hseek]
            exact does_fail _
          | target =>
            rw [verify_congr hseek]
            refine .again (ih _ ?_ _ _ _ rfl)
            dsimp only [Cursor.left] at hinside ⊢
            omega
      · rw [startHashing_of_path rfl hp hpath, verify_bind (seek_of_path hp hpath)]
        refine does_openPartition hp fun w told digest => does_judgeDigest hp digest ?_
        exact fun c' hadvance => ih _ (Cursor.left_advance hinside hadvance) _ _ _ rfl
    · rw [startHashing_of_length_le rfl hend, verify_of_ended (seek_of_length_le hend)]
      exact .again does_verifyUntouched

end

/-- The machine does what the verification does that uses this writer. -/
theorem enacts_whole (scale : Scale P) (dynamic : DynamicPartitions) (plan : Option InstallPlan)
    (writer : Writer) : Enacts turn (new scale dynamic plan writer).turn
      (.ready (withWriter (whole scale dynamic plan) writer)) := by
  cases plan with
  | none =>
    have hunmaps : unmapsAtEnd dynamic none = false := Bool.and_false _
    exact does_conclude (v := new scale dynamic none writer) rfl hunmaps
      (.error .missingInputObject) writer
  | some plan =>
    have hwhole : whole scale dynamic (some plan) =
        ((⟨scale, dynamic, plan⟩ : Setting P).verify .first scale.zero).bind
          (rest ⟨scale, dynamic, plan⟩) := by
      rw [Cursor.first, verify_eq_verifyFrom, List.drop_zero]
      refine (Routine.bind_assoc _ _ _).trans (congrArg _ (funext ?_))
      rintro (e | a) <;> rfl
    rw [hwhole]
    exact .again (does_verify ⟨scale, dynamic, plan⟩ .first scale.zero writer)

end Verifying

end SlotVerify.Machine
