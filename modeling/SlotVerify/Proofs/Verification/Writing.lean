import SlotVerify.Proofs.Verification.Footprint
import SlotVerify.Proofs.Verification.Handover
import SlotVerify.Proofs.Verity.Extent
/-
  What the step of a partition writes.

  A step opens its device and begins its partition in the writer without a request; from then on it
  hashes (`Stepped`).  In the stages of the hashing, only what the writer hands out asks for writes,
  and a writer that has been begun with a layout hands out what is full for that layout
  (`Feeds.hands_out`).  So a step writes nothing but metadata (`writes_hashStep`), and one that
  comes to its end has written all of it (`wrote_hashStep`).
-/

namespace SlotVerify.Verification

open Device Routine
open Verity (Writer)

variable {P : Type}

/-- A passage that changes no byte outside a region. -/
abbrev WritesIn (region : Nat → Prop) (es : Trace P) : Prop :=
  ∀ e ∈ es, e.Permitted (fun _ => True) fun _ q => q.WritesIn region

theorem writesIn_append {region : Nat → Prop} {es es' : Trace P} (h : WritesIn region es)
    (h' : WritesIn region es') : WritesIn region (es ++ es') :=
  List.forall_mem_append.mpr ⟨h, h'⟩

theorem writesIn_cons_called {region : Nat → Prop} {c : Call P} {answer : c.Answer} {es : Trace P}
    (h : WritesIn region es) :
    WritesIn region (.called (I := interface P) c answer :: es) :=
  List.forall_mem_cons.mpr ⟨trivial, h⟩

theorem writesIn_of_reads {device : OpenedDevice} {first stop : Nat} {region : Nat → Prop}
    {es : Trace P}
    (h : ∀ e ∈ es, e.Permitted Call.OfReading (ReadBetween device first stop)) :
    WritesIn region es := by
  intro e he
  cases e with
  | called c answer => trivial
  | served d q outcome =>
    obtain ⟨-, offset, length, rfl, -⟩ : ReadBetween device first stop d q := h _ he
    trivial
  | paused => trivial

/-! ## Hashing with a writer -/

section

variable {w w' : Writer} {l : Verity.Layout} {device : OpenedDevice} {stop last : Nat}

theorem Feeds.writesIn {first : Nat} {es : Trace P} (h : Feeds device stop first last es)
    (region : Nat → Prop) : WritesIn region es := by
  induction h with
  | nil => exact nofun
  | _ =>
    -- nothing that happens while the writer is fed is a write
    rename_i ih
    exact List.forall_mem_cons.mpr ⟨trivial, ih⟩

/-- What a writer hands out after it has been fed is full for the layout it was begun with. -/
theorem Feeds.hands_out {fed rest : Trace P} {t : Verity.DeviceRoutine Unit}
    (hfed : Feeds device stop 0 last fed) (hinit : (w.init l).2 = .ok ())
    (hcarries : Carries (w.init l).1 (fed ++ finalized (.ok t) :: rest) w') :
    ∃ f : Verity.Finalization, t = f.routine ∧ f.Full l := by
  obtain ⟨w₁, hfirst, hrest⟩ := hcarries.append_cases
  obtain ⟨contents, hstreams, -⟩ := hfed.streams (Writer.streams_init hinit) rfl hfirst
  obtain ⟨s, hsession, hlayout, -, hcovers⟩ := hstreams
  have hserves : w₁.Serves l := ⟨s, _, hsession, hlayout, hcovers⟩
  cases hrest with
  | called huse _ =>
    change (_, Except.ok t) = (w₁.finalize.1, w₁.finalize.2.map Verity.Finalization.routine)
      at huse
    obtain ⟨f, hfinalize, rfl⟩ := Writer.finalize_of_routine (Prod.mk.inj huse).2
    exact ⟨f, rfl, hserves.finalize_full hfinalize⟩

/-- A passage through what is handed out writes only where the layout has its metadata. -/
theorem writesIn_of_full {f : Verity.Finalization} (hfull : f.Full l) {written : Trace P}
    {v : Attempt P Verity.Error Unit} (h : (f.routine.on P device).Reaches written v) :
    WritesIn l.Metadata written := by
  have hon : (f.routine.on P device).Only (fun _ => True) (fun _ q => q.WritesIn l.Metadata)
      fun _ => True := by
    refine only_onDevice ?_ hfull.only_routine
    exact fun _ _ hq => hq
  exact (hon.reaches h).1

namespace Protocol

variable {α : Type} {dataEnd size : Nat} {es : Trace P} {u : Attempt P HashError α}

/-- A hashing writes nothing but metadata. -/
theorem writesIn (h : Protocol device dataEnd size es u) (hinit : (w.init l).2 = .ok ())
    (hcarries : Carries (w.init l).1 es w') : WritesIn l.Metadata es := by
  cases h with
  | feeding hfed _ => exact hfed.writesIn _
  | unread hfed _ _ => exact hfed.writesIn _
  | refused hfed _ _ => exact writesIn_append (hfed.writesIn _) (writesIn_cons_called nofun)
  | unfinalized hfed => exact writesIn_append (hfed.writesIn _) (writesIn_cons_called nofun)
  | writing hfed hwriting _ _ =>
    obtain ⟨f, rfl, hfull⟩ := hfed.hands_out hinit hcarries
    exact writesIn_append (hfed.writesIn _)
      (writesIn_cons_called (writesIn_of_full hfull hwriting))
  | unwritten hfed hwriting =>
    obtain ⟨f, rfl, hfull⟩ := hfed.hands_out hinit hcarries
    exact writesIn_append (hfed.writesIn _)
      (writesIn_cons_called (writesIn_of_full hfull hwriting))
  | behind hfed hwritten hlater _ =>
    obtain ⟨f, rfl, hfull⟩ := hfed.hands_out hinit hcarries
    exact writesIn_append (hfed.writesIn _) (writesIn_cons_called
      (writesIn_append (writesIn_of_full hfull hwritten) (writesIn_of_reads hlater)))

/-- One that comes to its end has written all metadata. -/
theorem wrote {a : α} (h : Protocol device dataEnd size es (.done (.ok a) : Attempt P HashError α))
    (hinit : (w.init l).2 = .ok ()) (hcarries : Carries (w.init l).1 es w') {x : Nat}
    (hx : l.Metadata x) : Wrote es x := by
  generalize hu : (Routine.done (.ok a) : Attempt P HashError α) = u at h
  cases h with
  | feeding _ hleft => exact absurd hu.symm (hleft _)
  | writing _ _ _ hleft => exact absurd hu.symm (hleft _)
  | @behind fed written later t _ hfed hwritten _ _ =>
    obtain ⟨f, rfl, hfull⟩ := hfed.hands_out hinit hcarries
    obtain ⟨es', hroutine, hsame⟩ := f.routine.exists_reaches_done_of_onDevice hwritten
    have hwrote : Wrote written x := by
      rw [hsame]
      exact (hfull.covers_routine es' _ hroutine x hx).onDevice
    refine hwrote.mono fun e he => ?_
    exact List.mem_append_right fed (.tail _ (List.mem_append_left later he))
  | _ => cases hu

end Protocol

end

/-! ## A step -/

/-- No request at all. -/
abbrev Calls {ε α : Type} (t : Attempt P ε α) : Prop :=
  t.Only (fun _ => True) (fun _ _ => False) fun _ => True

theorem calls_openSource (s : Setting P) (p : Partition) (step : Step) :
    Calls (openSource s p step) := by
  unfold openSource
  dsimp only
  split
  · split
    · refine ⟨trivial, ?_⟩
      rintro (e | ⟨⟩) <;> trivial
    · refine ⟨trivial, fun _ => ⟨trivial, fun _ => ⟨trivial, ?_⟩⟩⟩
      rintro (e | ⟨⟩) <;> trivial
  · refine ⟨trivial, fun _ => ⟨trivial, ?_⟩⟩
    rintro (e | ⟨⟩) <;> trivial

theorem calls_initWriter (p : Partition) : Calls (initWriter (P := P) p) := by
  refine ⟨trivial, ?_⟩
  rintro ((e | f) | ⟨⟩) <;> trivial

theorem calls_verifyUntouched (plan : InstallPlan) : Calls (verifyUntouched (P := P) plan) := by
  unfold verifyUntouched
  split
  · trivial
  · refine ⟨trivial, fun same => ?_⟩
    cases same <;> trivial

/-- The writer has begun a partition. -/
abbrev began (p : Partition) : Happening (interface P) :=
  .called (I := interface P) (Call.initWriter p.verityLayout) (.ok ())

/-- A partition is begun in the writer in one call. -/
theorem reaches_initWriter_ok {p : Partition} {es : Trace P} {a : Unit}
    (h : (initWriter p).Reaches es (.done (.ok a))) : es = [began p] := by
  cases h with
  | call answer h =>
    cases answer with
    | error fault => cases fault <;> cases h
    | ok _ =>
      obtain ⟨rfl, -⟩ := reaches_done h
      rfl

/-- In other words for the errors nothing else happens. -/
theorem Attempt.reaches_mapError {ε ε' α : Type} {t : Attempt P ε α} {f : ε → ε'} {es : Trace P}
    {u : Attempt P ε' α} (h : (t.mapError f).Reaches es u) :
    ∃ v : Attempt P ε α, t.Reaches es v ∧ u = v.mapError f := by
  rcases reaches_bind t h with ⟨v, hv, -, rfl⟩ | ⟨es₁, outcome, es₂, rfl, ht, hdone⟩
  · exact ⟨v, hv, rfl⟩
  · obtain ⟨rfl, rfl⟩ := reaches_done hdone
    rw [List.append_nil]
    exact ⟨_, ht, rfl⟩

/-- A part that makes calls only asks for nothing on its way. -/
theorem Calls.andThen_ne {ε α β : Type} {t : Attempt P ε α} (h : Calls t)
    (hnot : ∀ a, t ≠ .done (.ok a)) (f : α → Attempt P ε β) :
    (∀ b, t.andThen f ≠ .done (.ok b)) ∧ ∀ d q next, t.andThen f ≠ .request d q next := by
  cases t with
  | done outcome =>
    cases outcome with
    | error e => exact ⟨nofun, nofun⟩
    | ok a => exact absurd rfl (hnot a)
  | request d q next => exact h.1.elim
  | _ => exact ⟨nofun, nofun⟩

/-- What a passage through a step has come to. -/
inductive Stepped (s : Setting P) (p : Partition) (step : Step) (index : Nat) (told : P) :
    Trace P → Attempt P Error (ByteArray × P) → Prop where
  /-- Nothing has been asked of a device. -/
  | opening {es : Trace P} {u : Attempt P Error (ByteArray × P)}
      (hcalls : ∀ e ∈ es, e.Permitted (fun _ => True) fun _ _ => False)
      (hnone : ∀ a, u ≠ .done (.ok a)) (hasks : ∀ d q next, u ≠ .request d q next) :
      Stepped s p step index told es u
  /-- The device is being hashed. -/
  | hashing {opened begun es : Trace P} {device : OpenedDevice} {dataEnd : Nat}
      {v : Attempt P HashError (ByteArray × P)}
      (hend : Verification.dataEnd step p.hashTreeOffset.toNat p.fecOffset.toNat (p.size step) =
        .ok dataEnd)
      (hopened : ∀ e ∈ opened, e.Permitted (fun _ => True) fun _ _ => False)
      (hdevice : (openSource s p step).Reaches opened (.done (.ok device)))
      (hbegun : begun = if s.writes p step then [began p] else [])
      (h : (hashPartition s.scale ⟨device, p.size step, index, s.plan.partitions.length⟩ dataEnd
        (s.writes p step) told).Reaches es v) :
      Stepped s p step index told (opened ++ (begun ++ es)) (v.mapError (hashFailure p))

theorem stepped_hashStep {s : Setting P} {p : Partition} {step : Step} {index : Nat} {told : P}
    {es : Trace P} {u : Attempt P Error (ByteArray × P)}
    (h : (hashStep s p step index told).Reaches es u) : Stepped s p step index told es u := by
  have hopening := calls_openSource s p step
  unfold hashStep at h
  dsimp only at h
  split at h
  · obtain ⟨rfl, rfl⟩ := reaches_done h
    exact .opening nofun nofun nofun
  · rename_i hend
    rcases Attempt.reaches_parts h with ⟨t', ht, hnot, rfl⟩ |
      ⟨opened, device, rest, rfl, hdevice, hrest⟩
    · obtain ⟨hcalls, hleft⟩ := hopening.reaches ht
      obtain ⟨hnone, hasks⟩ := Calls.andThen_ne hleft hnot _
      exact .opening hcalls hnone hasks
    · have hopened := (hopening.reaches hdevice).1
      have hbegin : Calls (if s.writes p step then initWriter (P := P) p
          else Attempt.succeed ()) := by
        split
        · exact calls_initWriter p
        · trivial
      rcases Attempt.reaches_parts hrest with ⟨t', ht, hnot, rfl⟩ |
        ⟨begun, _, es, rfl, ht, hhash⟩
      · obtain ⟨hcalls, hleft⟩ := hbegin.reaches ht
        obtain ⟨hnone, hasks⟩ := Calls.andThen_ne hleft hnot _
        exact .opening (List.forall_mem_append.mpr ⟨hopened, hcalls⟩) hnone hasks
      · obtain ⟨v, hv, rfl⟩ := Attempt.reaches_mapError hhash
        refine .hashing hend hopened hdevice ?_ hv
        split at ht
        · rename_i hwrites
          rw [if_pos hwrites]
          exact reaches_initWriter_ok ht
        · rename_i hwrites
          rw [if_neg hwrites]
          exact (reaches_done ht).1

/-- A partition that has been begun has been begun by a writer that agreed. -/
theorem Carried.of_began {p : Partition} {opened es : Trace P} {w w' : Writer}
    (h : Carries w (opened ++ ([began p] ++ es)) w') :
    ∃ w₁ : Writer, (w₁.init p.verityLayout).2 = .ok () ∧
      Carries (w₁.init p.verityLayout).1 es w' := by
  obtain ⟨w₁, -, hbegun⟩ := h.append_cases
  cases hbegun with
  | called huse hrest =>
    change (_, .ok ()) = w₁.init p.verityLayout at huse
    refine ⟨w₁, ?_, ?_⟩
    · rw [← huse]
    · rw [← huse]
      exact hrest

section

variable {s : Setting P} {p : Partition} {step : Step} {index : Nat} {told : P} {es : Trace P}
  {w w' : Writer}

/-- Only a step that writes metadata asks for writes, and for no others. -/
theorem writes_hashStep {u : Attempt P Error (ByteArray × P)}
    (h : (hashStep s p step index told).Reaches es u) (hcarries : Carries w es w')
    {d : OpenedDevice} {offset : Nat} {data : ByteArray}
    {outcome : Except IoError (Request.write offset data).Reply}
    (hmem : .served d (.write offset data) outcome ∈ es) :
    s.writes p step = true ∧ (Request.write offset data).WritesIn p.verityLayout.Metadata := by
  cases stepped_hashStep h with
  | opening hcalls _ _ => exact (hcalls _ hmem).elim
  | @hashing opened begun es device dataEnd v _ hopened _ hbegun hhash =>
    have hin : .served d (.write offset data) outcome ∈ es := by
      rcases List.mem_append.mp hmem with hmem | hmem
      · exact (hopened _ hmem).elim
      · rcases List.mem_append.mp hmem with hmem | hmem
        · rw [hbegun] at hmem
          split at hmem
          · cases List.mem_singleton.mp hmem
          · cases hmem
        · exact hmem
    cases hwrites : s.writes p step with
    | false =>
      rw [hwrites] at hhash
      obtain ⟨-, _, _, hread, -⟩ :=
        ((reads_hashPartition _ _ _ _).reaches hhash).1 _ hin
      cases hread
    | true =>
      rw [hwrites] at hhash hbegun
      subst hbegun
      obtain ⟨w₁, hinit, hcarries⟩ := Carried.of_began hcarries
      exact ⟨rfl, (protocol_hashPartition _ _ _ _ hhash).writesIn hinit hcarries _ hin⟩

/-- A step that writes and comes to its end has written all metadata. -/
theorem wrote_hashStep {result : ByteArray × P}
    (h : (hashStep s p step index told).Reaches es (.done (.ok result)))
    (hcarries : Carries w es w') (hwrites : s.writes p step = true) {x : Nat}
    (hx : p.verityLayout.Metadata x) : Wrote es x := by
  generalize hu : (Routine.done (.ok result) : Attempt P Error (ByteArray × P)) = u at h
  cases stepped_hashStep h with
  | opening _ hnone _ => exact absurd hu.symm (hnone _)
  | @hashing opened begun es device dataEnd v _ _ _ hbegun hhash =>
    rw [hwrites] at hhash hbegun
    subst hbegun
    obtain ⟨w₁, hinit, hcarries⟩ := Carried.of_began hcarries
    obtain ⟨digest, rfl⟩ : ∃ a, v = .done (.ok a) := by
      cases v with
      | done outcome =>
        cases outcome with
        | error e => cases hu
        | ok a => exact ⟨a, rfl⟩
      | _ => cases hu
    refine ((protocol_hashPartition _ _ _ _ hhash).wrote hinit hcarries hx).mono fun e he => ?_
    exact List.mem_append_right opened (List.mem_append_right _ he)

end

end SlotVerify.Verification
