import SlotVerify.Proofs.Rig.Device
import SlotVerify.Proofs.Rig.Stages
import SlotVerify.Proofs.Verification.Reference
/-
  Verifications that nobody aborts.

  Such a verification comes to the end of its run, however many polls it takes
  (`Life.exists_polls_run`): after each poll there is still to be run what was to be run before
  (`Life.Follows`).  Runs on rigs whose orders differ in stages only come to the same end, so the
  lives do, although the polls of one are not the polls of the other (`Life.exists_polls_restaged`).
-/

namespace SlotVerify.Verification

open Device Rig

variable {P : Type}

/-! ## Lives and runs -/

/-- A verification that has run to its end. -/
def Life.ofRun : Rig P × Option (Except Error InstallPlan) → Rig P × Life P
  | (r, some result) => (r, .completed result)
  | (r, none) => (r, .broken)

@[simp] theorem Life.ofRun_fst (whole : Rig P × Option (Except Error InstallPlan)) :
    (Life.ofRun whole).1 = whole.1 := by
  obtain ⟨r, _ | result⟩ := whole <;> rfl

theorem Life.ofRun_snd (whole : Rig P × Option (Except Error InstallPlan)) :
    (Life.ofRun whole).2 = match whole.2 with
      | some result => .completed result
      | none => .broken := by
  obtain ⟨r, _ | result⟩ := whole <;> rfl

theorem Life.ofRun_over (whole : Rig P × Option (Except Error InstallPlan)) :
    (Life.ofRun whole).2.Over := by
  obtain ⟨r, _ | result⟩ := whole <;> trivial

theorem Life.accepted?_ofRun {whole : Rig P × Option (Except Error InstallPlan)}
    {plan : InstallPlan} :
    (Life.ofRun whole).2.accepted? = some plan ↔ whole.2 = some (.ok plan) := by
  obtain ⟨r, _ | _ | accepted⟩ := whole <;> simp [Life.ofRun, Life.accepted?]

/-- A verification is on its way to the end of a run, and nobody aborts it. -/
def Life.Follows (whole : Rig P × Option (Except Error InstallPlan)) : Rig P × Life P → Prop
  | (r, .running v) => Undisturbed r ∧ v.rest.run Rig.host r = whole
  | state => Life.ofRun whole = state

theorem Life.Follows.poll {whole : Rig P × Option (Except Error InstallPlan)} {r : Rig P}
    {v : Running P} (h : Life.Follows whole (r, .running v)) :
    Life.Follows whole (Life.poll r v) := by
  obtain ⟨hundisturbed, rfl⟩ := h
  have hleads := v.rest.drive_giveWay Rig.host (some ()) r
  have hkeeps := v.rest.drive_keeps Rig.host Undisturbed (fun _ c h => h.answer c)
    (fun _ d q h => h.submit d q) (fun _ d q h => h.complete d q) (some ()) hundisturbed
  unfold Life.poll Running.poll Running.drive
  rw [if_neg (by simp [hundisturbed.1])]
  dsimp only
  generalize v.rest.drive Rig.host (giveWay (some ())) r = last at hleads hkeeps ⊢
  obtain ⟨r', ending⟩ := last
  obtain ⟨hundisturbed', hwhy⟩ := hkeeps
  cases ending with
  | finished result => exact congrArg Life.ofRun hleads
  | interrupted why rest =>
    obtain rfl := hwhy why rest rfl
    exact ⟨hundisturbed', hleads.symm⟩
  | broken => exact congrArg Life.ofRun hleads

/-- It stays so through any number of polls. -/
theorem Life.Follows.polls {whole : Rig P × Option (Except Error InstallPlan)} (n : Nat) :
    ∀ {r : Rig P} {life : Life P}, Life.Follows whole (r, life) →
      Life.Follows whole (Life.polls r life n) := by
  induction n with
  | zero => exact fun h => h
  | succ n ih =>
    intro r life h
    rw [Life.polls_succ]
    apply ih
    cases life with
    | running v => exact h.poll
    | _ => exact h

/-- Polled often enough, a verification that nobody aborts has come to the end of its run. -/
theorem Life.exists_polls_run {r : Rig P} (h : Undisturbed r) (scale : Scale P)
    (dynamic : DynamicPartitions) (plan : InstallPlan) :
    ∃ n, ∀ m, n ≤ m → Life.polls r (Life.new scale dynamic plan) m =
      Life.ofRun ((whole scale dynamic (some plan)).run Rig.host r) := by
  obtain ⟨n, hover⟩ := Life.exists_polls r scale dynamic plan
  refine ⟨n, fun m hm => ?_⟩
  have hfollows : Life.Follows ((whole scale dynamic (some plan)).run Rig.host r)
      (Life.polls r (Life.new scale dynamic plan) m) := Life.Follows.polls m ⟨h, rfl⟩
  have hend := hover m hm
  generalize Life.polls r (Life.new scale dynamic plan) m = state at hfollows hend
  obtain ⟨r', life⟩ := state
  cases life with
  | running v => exact hend.elim
  | _ => exact hfollows.symm

/-! ## Stages -/

/-- Verifications that nobody aborts end alike where the orders differ in stages only. -/
theorem Life.exists_polls_restaged {r r' : Rig P} (hrestaged : r.Restaged r') (h : Undisturbed r)
    (h' : Undisturbed r') (scale : Scale P) (dynamic : DynamicPartitions) (plan : InstallPlan) :
    ∃ n, ∀ m m', n ≤ m → n ≤ m' →
      let end₁ := Life.polls r (Life.new scale dynamic plan) m
      let end₂ := Life.polls r' (Life.new scale dynamic plan) m'
      end₁.2.Over ∧ end₂.2 = end₁.2 ∧ end₁.1.Restaged end₂.1 := by
  obtain ⟨n, hn⟩ := Life.exists_polls_run h scale dynamic plan
  obtain ⟨n', hn'⟩ := Life.exists_polls_run h' scale dynamic plan
  refine ⟨max n n', fun m m' hm hm' => ?_⟩
  obtain ⟨hlast, hresult⟩ := (whole scale dynamic (some plan)).run_alike alike_restaged hrestaged
  rw [hn m (by omega), hn' m' (by omega)]
  generalize (whole scale dynamic (some plan)).run Rig.host r = end₁ at *
  generalize (whole scale dynamic (some plan)).run Rig.host r' = end₂ at *
  obtain ⟨r₁, outcome⟩ := end₁
  obtain ⟨r₂, outcome'⟩ := end₂
  obtain rfl : outcome' = outcome := hresult
  cases outcome' <;> exact ⟨trivial, rfl, hlast⟩

end SlotVerify.Verification
