import Mathlib.Data.List.Forall2
import SlotVerify.Proofs.Routine.Alike
import SlotVerify.Rig
/-
  The stage at which an ordered failure comes does not show.

  Two rigs whose orders differ in stages only (`Rig.Restaged`) answer every call alike.  They serve
  every request alike as well: where a failure is ordered, the request does not reach the device,
  and its outcome is the error of the order, whether it has been refused or been taken first
  (`Rig.serve_of_fault`).  So no routine that runs to its end can tell them apart
  (`Rig.alike_restaged`).
-/

namespace SlotVerify.Rig

open Device Verification

variable {P : Type} {r r' : Rig P}

/-- Orders of the same failure, at whatever stages. -/
structure Fault.Alike (f f' : Fault) : Prop where
  kind : f'.kind = f.kind
  nth : f'.nth = f.nth
  error : f'.error = f.error

theorem Fault.Alike.refl (f : Fault) : f.Alike f := ⟨rfl, rfl, rfl⟩

/-- The rigs are the same but for the stages of their orders, and no request is in flight. -/
structure Restaged (r r' : Rig P) : Prop where
  alike : List.Forall₂ Fault.Alike r.faults r'.faults
  same : r' = { r with faults := r'.faults }
  settled : r.failing = none

theorem Restaged.images_progress (h : Restaged r r') :
    r'.images = r.images ∧ r'.journal.progress = r.journal.progress := by
  rw [h.same]
  exact ⟨rfl, rfl⟩

/-! ## Calls -/

/-- Orders and pending failures have no part in the answer to a call, and it leaves them alone. -/
theorem answer_ordered (r : Rig P) (faults : List Fault) (failing : Option Fault)
    (c : Verification.Call P) :
    ({ r with faults, failing } : Rig P).answer c =
      ({ (r.answer c).1 with faults, failing }, (r.answer c).2) := by
  have hopen : ∀ (r : Rig P) path writable,
      ({ r with faults, failing } : Rig P).openImage path writable =
        ({ (r.openImage path writable).1 with faults, failing },
          (r.openImage path writable).2) := by
    intro r path writable
    unfold openImage image?
    dsimp only
    split
    · rfl
    · split <;> rfl
  cases c with
  | setReadOnly path readOnly =>
    unfold answer setReadOnly image?
    dsimp only
    split
    · rfl
    · split <;> rfl
  | openPath path writable => exact hopen r path writable
  | openSnapshot name sourcePath writable =>
    unfold answer
    dsimp only
    split
    · rename_i hnone
      rw [show (r.noteController _).controller = none from hnone]
      rfl
    · rename_i c hsome
      rw [show (r.noteController _).controller = some c from hsome]
      exact hopen (r.noteController _) _ _
  | report progress =>
    show (({ r with faults, failing } : Rig P).hear progress, ()) =
      ({ r.hear progress with faults, failing }, ())
    unfold hear
    dsimp only
    split <;> rfl
  | _ => rfl

theorem faults_answer (r : Rig P) (c : Verification.Call P) :
    (r.answer c).1.faults = r.faults ∧ (r.answer c).1.failing = r.failing := by
  have hsame : (r.answer c).1 =
      { (r.answer c).1 with faults := r.faults, failing := r.failing } :=
    congrArg Prod.fst (answer_ordered r r.faults r.failing c)
  have hfaults := congrArg faults hsame
  have hfailing := congrArg failing hsame
  exact ⟨hfaults, hfailing⟩

theorem Restaged.answer (h : Restaged r r') (c : Verification.Call P) :
    Restaged (r.answer c).1 (r'.answer c).1 ∧ (r'.answer c).2 = (r.answer c).2 := by
  obtain ⟨hfaults, hfailing⟩ := faults_answer r c
  have hanswer : r'.answer c = ({ (r.answer c).1 with faults := r'.faults }, (r.answer c).2) := by
    rw [h.same]
    refine (answer_ordered r r'.faults r.failing c).trans ?_
    rw [← hfailing]
  rw [hanswer]
  refine ⟨⟨?_, rfl, hfailing.trans h.settled⟩, rfl⟩
  rw [hfaults]
  exact h.alike

/-! ## Requests -/

/-- The rig that has seen one request more. -/
def counting (r : Rig P) (q : Request) : Rig P :=
  { r with submitted := r.submitted.next (Kind.of q) }

/-- A request for which a failure is ordered fails, and does not reach the device. -/
theorem serve_of_fault {d : OpenedDevice} {q : Request} {f : Fault} (hnone : r.failing = none)
    (h : r.faultFor (Kind.of q) = some f) :
    Rig.host.serve r d q = (r.counting q, .error f.error) := by
  have hrefused : ∀ placement : Placement q Nat, placement.outcome = .error f.error →
      r.place d q = (r.counting q, placement) →
        Rig.host.serve r d q = (r.counting q, .error f.error) := by
    intro placement houtcome heq
    refine Host.serve_refused ?_
    show ((r.place d q).1, (r.place d q).2.outcome) = _
    rw [heq, houtcome]
  have htaken : r.place d q = ({ r.counting q with failing := some f }, .taken 0) →
      Rig.host.serve r d q = (r.counting q, .error f.error) := by
    intro heq
    have hsubmit : Rig.host.submit r d q = ({ r.counting q with failing := some f }, .ok 0) := by
      show ((r.place d q).1, (r.place d q).2.outcome) = _
      rw [heq]
      rfl
    rw [Host.serve_taken hsubmit, complete_of_failing rfl, ← hnone]
    rfl
  have hplace := place.eq_1 r d q
  dsimp only at hplace
  rw [h] at hplace
  dsimp only at hplace
  cases hstage : f.stage with
  | submit =>
    rw [hstage] at hplace
    exact hrefused _ (Placement.outcome_handBack _) hplace
  | submitOuter =>
    rw [hstage] at hplace
    exact hrefused _ rfl hplace
  | complete =>
    rw [hstage] at hplace
    exact htaken hplace
  | completeOuter =>
    rw [hstage] at hplace
    exact htaken hplace

/-- Any other request is left to the device. -/
theorem serve_of_none {d : OpenedDevice} {q : Request} (hnone : r.failing = none)
    (h : r.faultFor (Kind.of q) = none) :
    Rig.host.serve r d q =
      match ((r.counting q).device d).accept q with
      | .error e => (r.counting q, .error e)
      | .ok () =>
        let (served, outcome) := ((r.counting q).device d).serve q
        (((r.counting q).setImage (imagePath d) served.image).note
          fun j => { j with reads := served.reads }, outcome) := by
  have hplace : r.place d q =
      match ((r.counting q).device d).accept q with
      | .error e => (r.counting q, .handBack e)
      | .ok () => (r.counting q, .taken MemoryDevice.delay) := by
    unfold place
    dsimp only
    rw [h]
    rfl
  cases haccept : ((r.counting q).device d).accept q with
  | error e =>
    rw [haccept] at hplace
    refine Host.serve_refused ?_
    show ((r.place d q).1, (r.place d q).2.outcome) = _
    rw [hplace]
    dsimp only
    rw [Placement.outcome_handBack]
  | ok _ =>
    rw [haccept] at hplace
    have hsubmit : Rig.host.submit r d q = (r.counting q, .ok MemoryDevice.delay) := by
      show ((r.place d q).1, (r.place d q).2.outcome) = _
      rw [hplace]
      rfl
    rw [Host.serve_taken hsubmit]
    exact complete_of_settled (r := r.counting q) hnone d q

theorem faultFor_restaged (h : Restaged r r') (k : Kind) :
    Option.Rel Fault.Alike (r.faultFor k) (r'.faultFor k) := by
  have hcount := congrArg submitted h.same
  have halike := h.alike
  unfold faultFor
  rw [show r'.submitted = r.submitted from hcount]
  generalize r.faults = orders at halike
  generalize r'.faults = orders' at halike
  induction halike with
  | nil => exact .none
  | @cons f f' rest rest' hfault _ ih =>
    rw [List.find?_cons, List.find?_cons, hfault.kind, hfault.nth]
    split
    · exact .some hfault
    · exact ih

theorem Restaged.serve (h : Restaged r r') (d : OpenedDevice) (q : Request) :
    Restaged (Rig.host.serve r d q).1 (Rig.host.serve r' d q).1 ∧
      (Rig.host.serve r' d q).2 = (Rig.host.serve r d q).2 := by
  have hnone' : r'.failing = none := (congrArg failing h.same).trans h.settled
  have hcounting : Restaged (r.counting q) (r'.counting q) := by
    refine ⟨h.alike, ?_, h.settled⟩
    rw [h.same]
    rfl
  have hfault := faultFor_restaged h (Kind.of q)
  cases hfor : r.faultFor (Kind.of q) with
  | some f =>
    cases hfor' : r'.faultFor (Kind.of q) with
    | none =>
      rw [hfor, hfor'] at hfault
      cases hfault
    | some f' =>
      rw [hfor, hfor'] at hfault
      cases hfault with
      | some hfault =>
        rw [serve_of_fault h.settled hfor, serve_of_fault hnone' hfor']
        exact ⟨hcounting, congrArg Except.error hfault.error⟩
  | none =>
    cases hfor' : r'.faultFor (Kind.of q) with
    | some f' =>
      rw [hfor, hfor'] at hfault
      cases hfault
    | none =>
      rw [serve_of_none h.settled hfor, serve_of_none hnone' hfor']
      have hdevice : (r'.counting q).device d = (r.counting q).device d := by
        rw [hcounting.same]
        rfl
      rw [hdevice]
      cases ((r.counting q).device d).accept q with
      | error e => exact ⟨hcounting, rfl⟩
      | ok _ =>
        refine ⟨⟨h.alike, ?_, h.settled⟩, rfl⟩
        rw [hcounting.same]
        rfl

/-- No routine that runs to its end can tell the rigs apart. -/
theorem alike_restaged : (Rig.host (P := P)).Alike Rig.host Restaged where
  answer _ _ c h := h.answer c
  serve _ _ d q h := h.serve d q

end SlotVerify.Rig
