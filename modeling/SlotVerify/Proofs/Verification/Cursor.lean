import SlotVerify.Proofs.Verification.Confinement
/-
  The verification of a plan as a machine with a cursor.

  A `Cursor` says which partition and which of its steps are next, and keeps the digest of a target
  that is being diagnosed.  `Setting.seek` passes over what there is nothing to hash of and finds
  the next step, `Cursor.advance` says where the digest of a step leads, and `Setting.verify` is the
  loop that hashes step after step.

  The crux is that this is the verification itself (`verify_eq_verifyFrom`): the recursion over the
  partitions that are left is the loop from a cursor at a target.  What is proved about the cursor
  is therefore proved about the verification.
-/

namespace SlotVerify.Verification

variable {P : Type}

/-- Where a verification stands in its plan. -/
structure Cursor where
  index : Nat
  step : Step
  /-- The digest of the target whose source is hashed to find out what is wrong. -/
  targetDigest : Option ByteArray

namespace Cursor

/-- At the beginning of a plan. -/
def first : Cursor := ⟨0, .target, none⟩

/-- The order of the steps: by partitions, and the target before the source. -/
def Before (c c' : Cursor) : Prop :=
  c.index < c'.index ∨ c.index = c'.index ∧ c.step = .target ∧ c'.step = .source

theorem Before.trans {c c' c'' : Cursor} (h : c.Before c') (h' : c'.Before c'') :
    c.Before c'' := by
  rcases h with h | ⟨h, hstep, -⟩
  · rcases h' with h' | ⟨h', -, -⟩
    · exact .inl (Nat.lt_trans h h')
    · exact .inl (h' ▸ h)
  · rcases h' with h' | ⟨h', -, hstep'⟩
    · exact .inl (h ▸ h')
    · exact .inr ⟨h.trans h', hstep, hstep'⟩

/-- Where the digest of a step leads. -/
def advance (c : Cursor) (p : Partition) (digest : ByteArray) : Except Error Cursor :=
  match c.step with
  | .target =>
    if digest = p.targetHash then .ok { c with index := c.index + 1 }
    else if p.sourceHash.size = 0 then
      .error (.targetVerification p.name p.targetHash digest)
    else .ok { c with step := .source, targetDigest := some digest }
  | .source => .error (judge p (c.targetDigest.getD .empty) digest)

section

variable {index : Nat} {d : Option ByteArray} {p : Partition} {digest : ByteArray}

theorem advance_passed (h : digest = p.targetHash) :
    advance ⟨index, .target, d⟩ p digest = .ok ⟨index + 1, .target, d⟩ := if_pos h

theorem advance_full (h : digest ≠ p.targetHash) (hfull : p.sourceHash.size = 0) :
    advance ⟨index, .target, d⟩ p digest =
      .error (.targetVerification p.name p.targetHash digest) :=
  (if_neg h).trans (if_pos hfull)

theorem advance_delta (h : digest ≠ p.targetHash) (hdelta : p.sourceHash.size ≠ 0) :
    advance ⟨index, .target, d⟩ p digest = .ok ⟨index, .source, some digest⟩ :=
  (if_neg h).trans (if_neg hdelta)

end

/-- From a target it goes on to the next target, or to the source of the same partition. -/
theorem advance_eq_ok {c c' : Cursor} {p : Partition} {digest : ByteArray}
    (h : c.advance p digest = .ok c') :
    c.step = .target ∧
      ((digest = p.targetHash ∧ c' = { c with index := c.index + 1 }) ∨
        (digest ≠ p.targetHash ∧ p.sourceHash.size ≠ 0 ∧
          c' = { c with step := .source, targetDigest := some digest })) := by
  unfold advance at h
  cases hstep : c.step with
  | source =>
    rw [hstep] at h
    cases h
  | target =>
    rw [hstep] at h
    dsimp only at h
    refine ⟨rfl, ?_⟩
    split at h
    · rename_i hpassed
      cases h
      exact .inl ⟨hpassed, rfl⟩
    · rename_i hwrong
      split at h
      · cases h
      · rename_i hdelta
        cases h
        exact .inr ⟨hwrong, hdelta, rfl⟩

/-- It ends at a wrong target that has no source, and at every source. -/
theorem advance_eq_error {c : Cursor} {p : Partition} {digest : ByteArray} {e : Error}
    (h : c.advance p digest = .error e) :
    (c.step = .target ∧ digest ≠ p.targetHash ∧
      e = .targetVerification p.name p.targetHash digest) ∨
    (c.step = .source ∧ e = judge p (c.targetDigest.getD .empty) digest) := by
  unfold advance at h
  cases hstep : c.step with
  | source =>
    rw [hstep] at h
    cases h
    exact .inr ⟨rfl, rfl⟩
  | target =>
    rw [hstep] at h
    dsimp only at h
    split at h
    · cases h
    · rename_i hwrong
      split at h
      · cases h
        exact .inl ⟨rfl, hwrong, rfl⟩
      · cases h

theorem before_advance {c c' : Cursor} {p : Partition} {digest : ByteArray}
    (h : c.advance p digest = .ok c') : c.Before c' := by
  obtain ⟨hstep, ⟨-, rfl⟩ | ⟨-, -, rfl⟩⟩ := advance_eq_ok h
  · exact .inl (Nat.lt_succ_self _)
  · exact .inr ⟨rfl, hstep, rfl⟩

/-- How many steps there can be from here on. -/
def left (n : Nat) (c : Cursor) : Nat :=
  2 * (n - c.index) +
    match c.step with
    | .target => 1
    | .source => 0

theorem left_advance {n : Nat} {c c' : Cursor} {p : Partition} {digest : ByteArray}
    (hinside : c.index < n) (h : c.advance p digest = .ok c') : c'.left n < c.left n := by
  obtain ⟨hstep, ⟨-, rfl⟩ | ⟨-, -, rfl⟩⟩ := advance_eq_ok h
  · simp only [left, hstep]
    omega
  · simp only [left, hstep]
    omega

end Cursor

/-! ## The next step -/

/-- What is to be done next. -/
inductive Sought where
  /-- There are no more partitions. -/
  | ended
  | failed (e : Error)
  | found (p : Partition) (c : Cursor)

/-- Looks for the next step from a cursor on.  An absent target is passed over, an absent source
    counts as empty. -/
def Setting.seek (s : Setting P) (c : Cursor) : Sought :=
  if _hmore : c.index < s.plan.partitions.length then
    let p := s.plan.partitions[c.index]
    if p.path c.step ≠ "" then .found p c
    else if p.size c.step ≠ 0 then .failed (.unresolvedDevicePath p.name c.step)
    else
      match c.step with
      | .source => .failed (judge p (c.targetDigest.getD .empty) emptyDigest)
      | .target => s.seek { c with index := c.index + 1 }
  else .ended
termination_by s.plan.partitions.length - c.index

section

variable {s : Setting P} {c c' : Cursor} {p : Partition}

theorem seek_of_length_le (h : s.plan.partitions.length ≤ c.index) : s.seek c = .ended := by
  rw [Setting.seek, dif_neg (Nat.not_lt.mpr h)]

theorem seek_of_path (hp : s.plan.partitions[c.index]? = some p) (hpath : p.path c.step ≠ "") :
    s.seek c = .found p c := by
  obtain ⟨hinside, rfl⟩ := List.getElem?_eq_some_iff.mp hp
  rw [Setting.seek, dif_pos hinside]
  exact if_pos hpath

/-- Without a path there is only to be said whether the partition is empty. -/
theorem seek_of_absent (hp : s.plan.partitions[c.index]? = some p) (hpath : p.path c.step = "") :
    s.seek c =
      if p.size c.step ≠ 0 then .failed (.unresolvedDevicePath p.name c.step)
      else
        match c.step with
        | .source => .failed (judge p (c.targetDigest.getD .empty) emptyDigest)
        | .target => s.seek { c with index := c.index + 1 } := by
  obtain ⟨hinside, rfl⟩ := List.getElem?_eq_some_iff.mp hp
  rw [Setting.seek, dif_pos hinside]
  exact if_neg fun h => h hpath

/-- What is known about the step that is found. -/
structure Setting.Finds (s : Setting P) (c : Cursor) (p : Partition) (c' : Cursor) : Prop where
  partition : s.plan.partitions[c'.index]? = some p
  path : p.path c'.step ≠ ""
  index_le : c.index ≤ c'.index
  step_eq : c'.step = c.step
  targetDigest_eq : c'.targetDigest = c.targetDigest
  /-- No source is passed over. -/
  stays : c.step = .source → c' = c

/-- What a search may come to. -/
inductive Setting.Seeks (s : Setting P) (c : Cursor) : Sought → Prop where
  | ended : Setting.Seeks s c .ended
  /-- A device is missing that there has to be. -/
  | missing (partition : String) (step : Step) :
      Setting.Seeks s c (.failed (.unresolvedDevicePath partition step))
  /-- The source is absent, and counts as empty. -/
  | empty {p : Partition} (hstep : c.step = .source)
      (hp : s.plan.partitions[c.index]? = some p) :
      Setting.Seeks s c (.failed (judge p (c.targetDigest.getD .empty) emptyDigest))
  | found {p : Partition} {c' : Cursor} (h : s.Finds c p c') : Setting.Seeks s c (.found p c')

/-- A search that begins one partition later. -/
theorem Setting.Seeks.earlier (hstep : c.step = .target) {sought : Sought}
    (h : s.Seeks { c with index := c.index + 1 } sought) : s.Seeks c sought := by
  cases h with
  | ended => exact .ended
  | missing partition step => exact .missing partition step
  | empty hsource _ =>
    rw [hstep] at hsource
    cases hsource
  | found h =>
    refine .found ⟨h.partition, h.path, Nat.le_of_succ_le h.index_le, h.step_eq,
      h.targetDigest_eq, ?_⟩
    intro hsource
    rw [hstep] at hsource
    cases hsource

/-- By induction on the partitions that are left. -/
theorem seeks_seek (s : Setting P) (c : Cursor) : s.Seeks c (s.seek c) := by
  suffices hall : ∀ (n : Nat) (c : Cursor), s.plan.partitions.length - c.index = n →
      s.Seeks c (s.seek c) from hall _ c rfl
  intro n
  induction n with
  | zero =>
    intro c hn
    rw [seek_of_length_le (by omega)]
    exact .ended
  | succ n ih =>
    intro c hn
    obtain ⟨p, hp⟩ : ∃ p, s.plan.partitions[c.index]? = some p :=
      ⟨_, List.getElem?_eq_getElem (by omega)⟩
    by_cases hpath : p.path c.step = ""
    · rw [seek_of_absent hp hpath]
      split
      · exact .missing p.name c.step
      · split
        · rename_i hstep
          exact .empty hstep hp
        · rename_i hstep
          exact (ih { c with index := c.index + 1 } (by dsimp only; omega)).earlier hstep
    · rw [seek_of_path hp hpath]
      exact .found ⟨hp, hpath, Nat.le_refl _, rfl, rfl, fun _ => rfl⟩

theorem finds_of_seek (h : s.seek c = .found p c') : s.Finds c p c' := by
  have hseeks := seeks_seek s c
  rw [h] at hseeks
  cases hseeks with
  | found h => exact h

theorem Setting.Finds.inside (h : s.Finds c p c') : c'.index < s.plan.partitions.length :=
  (List.getElem?_eq_some_iff.mp h.partition).1

theorem Setting.Finds.left_le (h : s.Finds c p c') (n : Nat) : c'.left n ≤ c.left n := by
  have hle := h.index_le
  unfold Cursor.left
  rw [h.step_eq]
  omega

end

/-! ## The loop -/

/-- Verifies a plan from a cursor on. -/
def Setting.verify (s : Setting P) (c : Cursor) (told : P) : Attempt P Error Unit :=
  match _hseek : s.seek c with
  | .ended => Attempt.succeed ()
  | .failed e => Attempt.fail e
  | .found p c' =>
    (hashStep s p c'.step c'.index told).andThen fun (digest, told) =>
      match _hadvance : c'.advance p digest with
      | .error e => Attempt.fail e
      | .ok c'' => s.verify c'' told
termination_by c.left s.plan.partitions.length
decreasing_by
  have hfinds := finds_of_seek _hseek
  exact Nat.lt_of_lt_of_le (Cursor.left_advance hfinds.inside _hadvance) (hfinds.left_le _)

/-- Goes on from a step with its digest. -/
def Setting.proceed (s : Setting P) (p : Partition) (c : Cursor) :
    ByteArray × P → Attempt P Error Unit := fun (digest, told) =>
  match c.advance p digest with
  | .error e => Attempt.fail e
  | .ok c' => s.verify c' told

section

variable {s : Setting P} {c c' : Cursor} {p : Partition} {told : P}

theorem verify_of_ended (h : s.seek c = .ended) : s.verify c told = Attempt.succeed () := by
  rw [Setting.verify]
  split <;> rename_i heq
  · rfl
  all_goals
    rw [h] at heq
    cases heq

theorem verify_of_failed {e : Error} (h : s.seek c = .failed e) :
    s.verify c told = Attempt.fail e := by
  rw [Setting.verify]
  split <;> rename_i heq <;> rw [h] at heq <;> cases heq
  rfl

theorem verify_of_found (h : s.seek c = .found p c') :
    s.verify c told = (hashStep s p c'.step c'.index told).andThen (s.proceed p c') := by
  rw [Setting.verify]
  split <;> rename_i heq <;> rw [h] at heq <;> cases heq
  congr 1
  funext (digest, told')
  unfold Setting.proceed
  dsimp only
  split <;> rename_i hadvance <;> rw [hadvance]

theorem proceed_of_ok {digest : ByteArray} (h : c.advance p digest = .ok c') :
    s.proceed p c (digest, told) = s.verify c' told := by
  unfold Setting.proceed
  dsimp only
  rw [h]

theorem proceed_of_error {digest : ByteArray} {e : Error} (h : c.advance p digest = .error e) :
    s.proceed p c (digest, told) = Attempt.fail e := by
  unfold Setting.proceed
  dsimp only
  rw [h]

/-- What comes next depends on the cursor only through the search. -/
theorem verify_congr (h : s.seek c = s.seek c') (told : P) :
    s.verify c told = s.verify c' told := by
  cases hseek : s.seek c' with
  | ended => rw [verify_of_ended (h.trans hseek), verify_of_ended hseek]
  | failed e => rw [verify_of_failed (h.trans hseek), verify_of_failed hseek]
  | found p c'' => rw [verify_of_found (h.trans hseek), verify_of_found hseek]

/-- From the source of a partition on there is only the diagnosis. -/
theorem verify_source (s : Setting P) {index : Nat} (hp : s.plan.partitions[index]? = some p)
    (digest : ByteArray) (told : P) :
    s.verify ⟨index, .source, some digest⟩ told = diagnose s p index digest told := by
  unfold diagnose
  by_cases hpath : p.sourcePath = ""
  · have hseek : s.seek ⟨index, .source, some digest⟩ =
        if p.sourceSize.toNat ≠ 0 then .failed (.unresolvedDevicePath p.name .source)
        else .failed (judge p digest emptyDigest) := seek_of_absent hp hpath
    rw [if_pos hpath]
    by_cases hsome : p.sourceSize ≠ 0
    · rw [if_pos (mt toNat_eq_zero.mp hsome)] at hseek
      rw [if_pos hsome, verify_of_failed hseek]
    · rw [if_neg (mt (mt toNat_eq_zero.mpr) hsome)] at hseek
      rw [if_neg hsome, verify_of_failed hseek]
  · rw [if_neg hpath, verify_of_found (seek_of_path (c := ⟨index, .source, some digest⟩) hp hpath)]
    rfl

/-- The loop from a target on is the verification of the partitions that are left. -/
theorem verify_eq_verifyFrom (s : Setting P) (index : Nat) (told : P) :
    s.verify ⟨index, .target, none⟩ told =
      verifyFrom s index (s.plan.partitions.drop index) told := by
  suffices hall : ∀ (n index : Nat) (told : P), s.plan.partitions.length - index = n →
      s.verify ⟨index, .target, none⟩ told =
        verifyFrom s index (s.plan.partitions.drop index) told from hall _ index told rfl
  intro n
  induction n with
  | zero =>
    intro index told hn
    have hended : s.plan.partitions.length ≤ index := by omega
    rw [verify_of_ended (seek_of_length_le hended), List.drop_of_length_le hended]
    rfl
  | succ n ih =>
    intro index told hn
    have hinside : index < s.plan.partitions.length := by omega
    have hnext : ∀ told, s.verify ⟨index + 1, .target, none⟩ told =
        verifyFrom s (index + 1) (s.plan.partitions.drop (index + 1)) told :=
      fun told => ih (index + 1) told (by omega)
    have hp := List.getElem?_eq_getElem hinside
    rw [List.drop_eq_getElem_cons hinside]
    generalize s.plan.partitions[index] = p at hp
    by_cases hpath : p.targetPath = ""
    · have hseek : s.seek ⟨index, .target, none⟩ =
          if p.targetSize.toNat ≠ 0 then .failed (.unresolvedDevicePath p.name .target)
          else s.seek ⟨index + 1, .target, none⟩ := seek_of_absent hp hpath
      rw [verifyFrom, if_pos hpath]
      by_cases hsome : p.targetSize ≠ 0
      · rw [if_pos (mt toNat_eq_zero.mp hsome)] at hseek
        rw [if_pos hsome, verify_of_failed hseek]
      · rw [if_neg (mt (mt toNat_eq_zero.mpr) hsome)] at hseek
        rw [if_neg hsome, verify_congr hseek, hnext]
    · rw [verifyFrom_cons s hpath,
        verify_of_found (seek_of_path (c := ⟨index, .target, none⟩) hp hpath)]
      congr 1
      funext passed
      obtain ⟨digest, told'⟩ := passed
      unfold Setting.afterTarget
      dsimp only
      by_cases hpassed : digest = p.targetHash
      · rw [if_pos hpassed, proceed_of_ok (Cursor.advance_passed hpassed)]
        exact hnext told'
      · rw [if_neg hpassed]
        by_cases hfull : p.sourceHash.size = 0
        · rw [if_pos hfull, proceed_of_error (Cursor.advance_full hpassed hfull)]
        · rw [if_neg hfull, proceed_of_ok (Cursor.advance_delta hpassed hfull)]
          exact verify_source s hp digest told'

end

end SlotVerify.Verification
