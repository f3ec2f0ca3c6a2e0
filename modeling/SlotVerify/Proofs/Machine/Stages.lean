import SlotVerify.Proofs.Machine.Program
import SlotVerify.Proofs.Machine.Runs
import SlotVerify.Proofs.Verification.Digesting
import SlotVerify.Proofs.Verification.Stages
/-
  The stage at which a request fails does not matter.

  A failure comes at one of four stages: while the request is submitted or while it is completed,
  and with the request handed back or without it.  The machines have an arm for each.  In each of
  them they do what the routine does that is told of the error alone (`Enacts`), and no routine can
  tell rigs apart whose orders differ in stages only.  So a machine ends alike on such rigs
  (`Enacts.endsAlike`), although it is polled another number of times.
-/

namespace SlotVerify.Machine

open Device Rig Verification
open Verity (Finalization Writer)

variable {P σ α : Type}

/-- On either rig the machine comes to an end, with the same result, the same images and the same
    reports. -/
def EndsAlike (turn : σ → Turn P (σ × After α)) (t : Turn P (σ × After α)) (r r' : Rig P) : Prop :=
  ∃ end₁ end₂, Settles turn Rig.host t r end₁ ∧ Settles turn Rig.host t r' end₂ ∧
    end₂.2 = end₁.2 ∧ end₂.1.images = end₁.1.images ∧
    end₂.1.journal.progress = end₁.1.journal.progress

theorem Enacts.endsAlike {turn : σ → Turn P (σ × After α)} {t : Turn P (σ × After α)}
    {rest : Routine (interface P) α} (h : Enacts turn t (.ready rest)) {r r' : Rig P}
    (hrestaged : r.Restaged r') : EndsAlike turn t r r' := by
  obtain ⟨hlast, hresult⟩ := rest.run_alike alike_restaged hrestaged
  exact ⟨_, _, h.settles Rig.host r, h.settles Rig.host r', hresult, hlast.images_progress⟩

/-- A failure is ordered for any request, among others, and it comes at one of four stages.  Nobody
    aborts.  Then on both rigs a verification ends with the same result, the same images and the
    same reports, although it may take a different number of polls: the life of one, and the machine
    with its arms for every stage.  So do the hashing of a partition and the writing of its metadata
    by themselves. -/
theorem stage_immaterial (r : Rig P) (scale : Scale P) (first last : List Fault) (kind : Rig.Kind)
    (nth : Nat) (error : IoError) (stage stage' : Stage) :
    let ordering (stage : Stage) : Rig P :=
      { r with
        faults := first ++ ⟨kind, nth, stage, error⟩ :: last
        failing := none
        aborted := false
        abortAtReport := none }
    (∀ dynamic plan, ∃ n, ∀ m m', n ≤ m → n ≤ m' →
      let end₁ := Life.polls (ordering stage) (Life.new scale dynamic plan) m
      let end₂ := Life.polls (ordering stage') (Life.new scale dynamic plan) m'
      end₁.2.Over ∧ end₂.2 = end₁.2 ∧ end₂.1.images = end₁.1.images ∧
        end₂.1.journal.progress = end₁.1.journal.progress) ∧
    (∀ dynamic plan writer,
      EndsAlike Verifying.turn (Verifying.new scale dynamic plan writer).turn
        (ordering stage) (ordering stage')) ∧
    (∀ device size dataEnd (lent : Option Writer), (∀ w ∈ lent, w.Engaged) →
      EndsAlike (Hashing.turn device) ((Hashing.start size dataEnd lent).turn device)
        (ordering stage) (ordering stage')) ∧
    ∀ device (w : Writer) (f : Finalization), w.Engaged → w.finalize.2 = .ok f →
      ∃ m, Finalizing.ofFinalization f = .ok m ∧
        EndsAlike (Finalizing.turn device) (m.turn device) (ordering stage) (ordering stage') := by
  intro ordering
  have hrestaged : (ordering stage).Restaged (ordering stage') := by
    refine ⟨?_, rfl, rfl⟩
    refine List.rel_append (List.forall₂_same.mpr fun f _ => .refl f) ?_
    exact .cons ⟨rfl, rfl, rfl⟩ (List.forall₂_same.mpr fun f _ => .refl f)
  refine ⟨?_, ?_, ?_, ?_⟩
  · intro dynamic plan
    obtain ⟨n, hn⟩ :=
      Life.exists_polls_restaged hrestaged ⟨rfl, rfl⟩ ⟨rfl, rfl⟩ scale dynamic plan
    refine ⟨n, fun m m' hm hm' => ?_⟩
    obtain ⟨hover, hlife, hlast⟩ := hn m m' hm hm'
    exact ⟨hover, hlife, hlast.images_progress⟩
  · intro dynamic plan writer
    exact (Verifying.enacts_whole scale dynamic plan writer).endsAlike hrestaged
  · intro device size dataEnd lent hengaged
    have hends : ∀ {writing w}, Lends Writer.Engaged writing lent w →
        EndsAlike (Hashing.turn device) ((Hashing.start size dataEnd lent).turn device)
          (ordering stage) (ordering stage') := fun hlends =>
      (Hashing.enacts_hashPartition scale ⟨device, size, 0, 1⟩ dataEnd scale.zero hlends).endsAlike
        hrestaged
    cases lent with
    | none => exact hends (.kept .fresh)
    | some w => exact hends (.lent (hengaged w rfl))
  · intro device w f hengaged hfinalize
    obtain ⟨l, hserves⟩ := hengaged
    obtain ⟨m, hmade, hdoes⟩ :=
      Finalizing.exists_does_routine (P := P) (d := device) (hserves.finalize_fits hfinalize)
    exact ⟨m, hmade, hdoes.endsAlike hrestaged⟩

/-- The first read of a partition fails: the hashing ends with its error, and the writer comes back,
    at whatever stage. -/
theorem stage_immaterial_firstRead :
    let device := (bootImage 4).device
    let writer := (Writer.fresh.init twoBytes).1
    let rig (stage : Stage) : Rig Nat :=
      { twoBytesRig with faults := [⟨.read, 0, stage, .ioFailure⟩] }
    let machine := (Hashing.start 4 2 (some writer)).turn device
    (∃ r, Settles (Hashing.turn device) Rig.host machine (rig .submit)
      (r, some (some writer, .error (.read 0 .ioFailure)))) ∧
    ∀ stage, EndsAlike (Hashing.turn device) machine (rig .submit) (rig stage) := by
  intro device writer rig machine
  have hengaged : ∀ w ∈ some writer, w.Engaged := by
    rintro w ⟨⟩
    exact ⟨_, Writer.serves_init rfl⟩
  constructor
  · refine ⟨((rig .submit).place device (.read 0 2)).1, RunsTo.settles ?_⟩
    exact .submit (.ready _ _ _)
  · intro stage
    obtain ⟨-, -, hhashing, -⟩ :=
      stage_immaterial (rig .submit) .bytes [] [] .read 0 .ioFailure .submit stage
    exact hhashing device 4 2 (some writer) hengaged

end SlotVerify.Machine
