import SlotVerify.Proofs.Verification.Reading
import SlotVerify.Proofs.Verity.Failure
/-
  What the hashing of a partition depends on.

  The hashing of a partition uses one device, and it calls for nothing but progress reports, the
  writer, and being polled again.  It cannot get over a request that fails or a read that brings
  nothing: it fails then, and not for want of memory (`depends_hashPartition`).  So it hashes alike
  on every host that serves this device alike.
-/

namespace SlotVerify.Verification

open Routine

variable {P α β : Type}

/-- A call of a hashing. -/
def Call.OfHashing : Call P → Prop
  | .updateWriter .. | .finalizeWriter | .report _ | .wake => True
  | _ => False

/-- The hashing of a partition on a device, with a writer that hands out finalizations. -/
def hashingUsage (P : Type) (device : OpenedDevice) : Usage (interface P) where
  call := Call.OfHashing
  answer
    | .finalizeWriter, outcome => ∀ t, outcome = .ok t → ∃ f : Verity.Finalization, t = f.routine
    | _, _ => True
  device d := d = device

/-- It relies on the device: it has failed, but not for want of memory, if a request is
    fruitless. -/
abbrev Attempt.Depends (device : OpenedDevice) (t : Attempt P HashError α) : Prop :=
  t.Relies (hashingUsage P device) (Failed (· ≠ .verity .memoryAllocationFailure))

variable {device : OpenedDevice}

theorem Attempt.depends_andThen {t : Attempt P HashError α} {f : α → Attempt P HashError β}
    (ht : t.Depends device) (hf : ∀ a, (f a).Depends device) : (t.andThen f).Depends device := by
  refine relies_bind ht ?_ ?_
  · rintro (e | a) h
    · exact h
    · exact h.elim
  · rintro (e | a)
    · trivial
    · exact hf a

theorem depends_feed (feeding : Bool) (offset : Nat) (bytes : ByteArray) :
    (feed feeding offset bytes : Attempt P HashError Unit).Depends device := by
  unfold feed
  split
  · exact ⟨trivial, fun _ _ => trivial⟩
  · trivial

theorem depends_tell {scale : Scale P} {reported progress : P}
    {next : P → Attempt P HashError α} (h : ∀ told, (next told).Depends device) :
    Attempt.Depends device (tell scale reported progress next) := by
  unfold tell
  split
  · exact ⟨trivial, fun _ _ => h _⟩
  · exact h _

theorem depends_hashUpTo (scale : Scale P) (subject : Subject) (feeding : Bool) (stop : Nat)
    (pos : Position P) : (hashUpTo scale subject feeding stop pos).Depends subject.device := by
  induction pos using hashUpTo_induction stop with
  | ended pos hend =>
    rw [hashUpTo_of_le hend]
    trivial
  | chunk pos hmore ih =>
    rw [hashUpTo_of_lt hmore]
    refine ⟨rfl, ?_, fun outcome => ?_⟩
    · -- neither an error nor the end of the device can be got over
      rintro (e | bytes) hfruitless
      · exact nofun
      · rw [afterRead_of_size_eq_zero hfruitless]
        exact nofun
    · obtain ⟨e, -, hfail⟩ | ⟨chunk, hsome, hlength, hchunk⟩ :=
        afterRead_cases scale subject feeding stop pos outcome
      · rw [hfail]
        trivial
      · rw [hchunk]
        refine Attempt.depends_andThen (depends_feed _ _ _) fun _ => ⟨trivial, fun _ _ => ?_⟩
        exact depends_tell fun told => ih chunk told hsome hlength

theorem depends_finalizeOn : (finalizeOn device : Attempt P HashError Unit).Depends device := by
  refine ⟨trivial, ?_⟩
  rintro (e | t) hanswer
  · trivial
  · obtain ⟨f, rfl⟩ := hanswer t rfl
    refine relies_bind (f.depends_routine.onDevice fun _ => rfl) ?_ fun _ => trivial
    rintro (e | a) h
    · rintro ⟨⟩
      exact h rfl
    · exact h.elim

/-- A hashing that meets a fruitless request fails, and not for want of memory. -/
theorem depends_hashPartition (scale : Scale P) (subject : Subject) (dataEnd : Nat)
    (writing : Bool) (reported : P) :
    (hashPartition scale subject dataEnd writing reported).Depends subject.device := by
  refine Attempt.depends_andThen (depends_hashUpTo _ _ _ _ _) fun pos =>
    Attempt.depends_andThen ?_ fun _ =>
      Attempt.depends_andThen (depends_hashUpTo _ _ _ _ _) fun _ => trivial
  split
  · exact depends_finalizeOn
  · trivial

end SlotVerify.Verification
