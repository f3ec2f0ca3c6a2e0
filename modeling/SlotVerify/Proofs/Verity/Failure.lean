import SlotVerify.Proofs.Routine.Failure
import SlotVerify.Proofs.Routine.Polls
import SlotVerify.Proofs.Routine.Reliance
import SlotVerify.Proofs.Verity.Extent
/-
  A finalization ends with its first failure, or with a sync.

  The parts of a finalization work on the device without making it durable, and pass the error of a
  request on (`DeviceRoutine.Works`).  So the whole of it is strict (`Finalization.strict_routine`),
  and one that succeeds has made the device durable last, and not before (`Finalization.synced`).
  It relies on every one of its requests, and what it fails for then is never a lack of memory
  (`Finalization.depends_routine`).  It never gives way of its own, and it does not break down
  (`Finalization.steady_routine`).
-/

namespace SlotVerify.Verity

open Device Routine Fec

namespace DeviceRoutine

variable {α β : Type}

/-- It relies on its requests: it has failed, but not for want of memory, if one is fruitless. -/
abbrev Depends (t : DeviceRoutine α) : Prop :=
  t.Relies (.any Interface.deviceOnly) (Failed (· ≠ .memoryAllocationFailure))

/-- The first request that fails is the last one, a read that brings nothing is of no use either,
    no request makes the device durable, and nothing but requests comes before the end. -/
structure Works (t : DeviceRoutine α) : Prop where
  strict : t.Strict Error.io
  depends : t.Depends
  unsynced : t.Only (fun _ => True) (fun _ q => q ≠ .sync) fun _ => True
  steady : t.Steady

theorem works_done (outcome : Except Error α) : Works (.done outcome) :=
  ⟨trivial, trivial, trivial, trivial⟩

theorem steady_andThen {t : DeviceRoutine α} {f : α → DeviceRoutine β} (ht : t.Steady)
    (hf : ∀ a, (f a).Steady) : (t.andThen f).Steady := by
  refine steady_bind ht ?_
  rintro (e | a)
  · trivial
  · exact hf a

theorem strict_andThen {t : DeviceRoutine α} {f : α → DeviceRoutine β} (ht : t.Strict Error.io)
    (hf : ∀ a, (f a).Strict Error.io) : (t.andThen f).Strict Error.io :=
  strict_bind ht hf fun _ => rfl

theorem depends_andThen {t : DeviceRoutine α} {f : α → DeviceRoutine β} (ht : t.Depends)
    (hf : ∀ a, (f a).Depends) : (t.andThen f).Depends := by
  refine relies_bind ht ?_ ?_
  · rintro (e | a) h
    · exact h
    · exact h.elim
  · rintro (e | a)
    · trivial
    · exact hf a

theorem Works.andThen {t : DeviceRoutine α} {f : α → DeviceRoutine β} (ht : t.Works)
    (hf : ∀ a, (f a).Works) : (t.andThen f).Works := by
  refine ⟨strict_andThen ht.strict fun a => (hf a).strict,
    depends_andThen ht.depends fun a => (hf a).depends, only_bind ht.unsynced ?_,
    steady_andThen ht.steady fun a => (hf a).steady⟩
  rintro (e | a) -
  · trivial
  · exact (hf a).unsynced

theorem works_write (offset : Nat) (data : ByteArray) : (write offset data).Works :=
  have hdepends : (write offset data).Depends := by
    refine ⟨trivial, ?_, fun _ => trivial⟩
    rintro (e | _) hfruitless
    · exact nofun
    · exact hfruitless.elim
  ⟨⟨fun _ => rfl, fun _ => trivial⟩, hdepends, ⟨nofun, fun _ => trivial⟩, fun _ => trivial⟩

end DeviceRoutine

open DeviceRoutine

/-- What is done with the outcome of a read. -/
theorem works_gathered {r : Round} (offset length : Nat)
    (hnext : ∀ bytes : ByteArray, bytes.size ≠ 0 → (gatherRound (r.gather bytes)).Works)
    (outcome : Except IoError ByteArray) :
    DeviceRoutine.Works
      (match outcome.map (·.extract 0 length) with
        | .error e => .done (.error (.io e))
        | .ok bytes =>
          if bytes.size = 0 then .done (.error (.unexpectedEnd offset))
          else gatherRound (r.gather bytes)) := by
  cases outcome with
  | error e => exact works_done _
  | ok bytes =>
    dsimp only [Except.map]
    split
    · exact works_done _
    · rename_i hsome
      exact hnext _ hsome

/-- By induction on what is missing of the round. -/
theorem works_gatherRound (r : Round) : (gatherRound r).Works := by
  induction r using gatherRound.induct with
  | case1 r hread =>
    rw [gatherRound_of_none hread]
    exact works_done _
  | case2 r offset length hread ih =>
    rw [gatherRound_of_some hread]
    have hnext := works_gathered offset length ih
    have hnosync : Request.read offset length ≠ .sync := Request.noConfusion
    refine ⟨⟨fun _ => rfl, fun x => (hnext x).strict⟩, ⟨trivial, ?_, fun x => (hnext x).depends⟩,
      ⟨hnosync, fun x => (hnext x).unsynced⟩, fun x => (hnext x).steady⟩
    -- a read that brings nothing means that the device has come to its end
    rintro (e | bytes) hfruitless
    · rintro ⟨⟩
    · have hnone : (bytes.extract 0 length).size = 0 := by
        rw [ByteArray.size_extract, show bytes.size = 0 from hfruitless]
        omega
      dsimp only [Except.map]
      rw [if_pos hnone]
      rintro ⟨⟩

/-- By induction on the rounds. -/
theorem works_writeRounds (g : Geometry) (code : Code) (n : Nat) :
    ∀ index, (writeRounds g code n index).Works := by
  induction n with
  | zero => exact fun _ => works_done _
  | succ n ih =>
    exact fun index => (works_gatherRound _).andThen fun _ =>
      (works_write _ _).andThen fun _ => ih _

namespace Finalization

theorem works_writeTree (f : Finalization) : f.writeTree.Works := by
  unfold writeTree
  split
  · split
    · exact works_done _
    · exact works_write _ _
  · exact works_done _

theorem works_writeFec (f : Finalization) : f.writeFec.Works := by
  unfold writeFec
  split
  · split
    · exact works_writeRounds _ _ _ _
    · exact works_done _
  · exact works_done _

/-- The first request that fails ends the finalization. -/
theorem strict_routine (f : Finalization) : f.routine.Strict Error.io :=
  strict_andThen f.works_writeTree.strict fun _ =>
    strict_andThen f.works_writeFec.strict fun _ => ⟨fun _ => rfl, fun _ => trivial⟩

/-- It relies on its requests, whatever it has to write. -/
theorem depends_routine (f : Finalization) : f.routine.Depends := by
  refine depends_andThen f.works_writeTree.depends fun _ =>
    depends_andThen f.works_writeFec.depends fun _ => ⟨trivial, ?_, fun _ => trivial⟩
  rintro (e | _) hfruitless
  · exact nofun
  · exact hfruitless.elim

/-- All it does is requests. -/
theorem steady_routine (f : Finalization) : f.routine.Steady :=
  steady_andThen f.works_writeTree.steady fun _ =>
    steady_andThen f.works_writeFec.steady fun _ _ => trivial

/-- A finalization that succeeds has made the device durable at the very end. -/
theorem synced {f : Finalization} {es : List (Happening Interface.deviceOnly)}
    (h : f.routine.Reaches es (.done (.ok ()))) :
    ∃ first, es = first ++ [.served () .sync (.ok ())] ∧
      ∀ e ∈ first, e.Permitted (fun _ => True) fun _ q => q ≠ .sync := by
  obtain ⟨tree, _, rest, rfl, htree, hrest⟩ := reaches_andThen_ok h
  obtain ⟨fec, _, last, rfl, hfec, hlast⟩ := reaches_andThen_ok hrest
  refine ⟨tree ++ fec, ?_, List.forall_mem_append.mpr
    ⟨(f.works_writeTree.unsynced.reaches htree).1, (f.works_writeFec.unsynced.reaches hfec).1⟩⟩
  cases hlast with
  | request outcome hdone =>
    cases outcome with
    | error e => cases (reaches_done hdone).2
    | ok _ =>
      obtain ⟨rfl, -⟩ := reaches_done hdone
      rw [List.append_assoc]

end Finalization

end SlotVerify.Verity
