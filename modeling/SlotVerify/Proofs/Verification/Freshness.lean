import SlotVerify.Proofs.Verification.Confinement
import SlotVerify.Proofs.Verity.Fresh
/-
  A verification never writes where it has been before.

  A step feeds the data in front of the end of the file system data, writes the metadata, which lies
  behind it, and then only reads (`Protocol.fresh`).  The steps of different targets work on
  different images, and what comes behind the last of them does not write (`fresh_verifyFrom`, by
  induction on the partitions).
-/

namespace SlotVerify.Verification

open Device Routine
open Verity (Writer)

variable {P : Type}

/-- The images that a verification works on, behind its devices. -/
abbrev FreshOnRig (es : Trace P) : Prop := Fresh Rig.imagePath es

/-! ## Hashing with a writer -/

section

variable {w w' : Writer} {l : Verity.Layout} {device : OpenedDevice} {stop first last : Nat}

theorem Feeds.asksIn {es : Trace P} (h : Feeds device stop first last es) :
    ∀ e ∈ es, e.Permitted (fun _ => True) fun d q => d = device ∧ ∀ x, q.Concerns x → x < stop := by
  induction h with
  | nil => exact nofun
  | read hinside _ ih =>
    exact List.forall_mem_cons.mpr ⟨⟨rfl, fun x hx => Nat.lt_of_lt_of_le hx.2 hinside⟩, ih⟩
  | _ =>
    rename_i ih
    exact List.forall_mem_cons.mpr ⟨trivial, ih⟩

/-- What fits a layout with its regions in order is written freshly. -/
theorem fresh_of_full {f : Verity.Finalization} (hfull : f.Full l) (hordered : l.Ordered)
    {written : Trace P} {v : Attempt P Verity.Error Unit}
    (h : (f.routine.on P device).Reaches written v) : FreshOnRig written := by
  obtain ⟨es, u, hroutine, rfl, -⟩ := f.routine.exists_reaches_of_onDevice h
  exact (hfull.isFresh_routine hordered es u hroutine).onDevice fun _ _ _ => rfl

theorem Fresh.cons_called {c : Call P} {answer : c.Answer} {es : Trace P} (h : FreshOnRig es) :
    FreshOnRig (.called (I := interface P) c answer :: es) :=
  List.pairwise_cons.mpr ⟨fun _ _ => trivial, h⟩

/-- The metadata is written behind the data that has been fed. -/
theorem Feeds.fresh_append {fed written : Trace P} {t : Verity.DeviceRoutine Unit}
    {v : Attempt P Verity.Error Unit} (hfed : Feeds device stop 0 last fed)
    (hinit : (w.init l).2 = .ok ())
    (hcarries : Carries (w.init l).1 (fed ++ finalized (.ok t) :: written) w')
    (hordered : l.Ordered) (hbehind : ∀ x, l.Metadata x → stop ≤ x)
    (hwriting : (t.on P device).Reaches written v) :
    FreshOnRig (fed ++ finalized (.ok t) :: written) := by
  obtain ⟨f, rfl, hfull⟩ := hfed.hands_out hinit hcarries
  have hreads : FreshOnRig fed := fresh_of_reads (hfed.writesIn _)
  refine hreads.append (fun _ x => x < stop) (fun _ => l.Metadata)
    (Fresh.cons_called (fresh_of_full hfull hordered hwriting)) ?_
    (writesIn_cons_called (writesIn_of_full hfull hwriting)) ?_
  · exact fun e he => (hfed.asksIn e he).mono (fun _ => id) fun _ _ h => h.2
  · exact fun _ x hlow hx => Nat.not_le.mpr hlow (hbehind x hx)

namespace Protocol

variable {α : Type} {dataEnd size : Nat} {es : Trace P} {u : Attempt P HashError α}

/-- A hashing asks its own device only. -/
theorem onDevice (h : Protocol device dataEnd size es u) :
    ∀ e ∈ es, e.Permitted (fun _ => True) fun d _ => d = device := by
  have hfeeds : ∀ {last : Nat} {es : Trace P}, Feeds device dataEnd 0 last es →
      ∀ e ∈ es, e.Permitted (fun _ => True) fun d _ => d = device :=
    fun hfed e he => (hfed.asksIn e he).mono (fun _ => id) fun _ _ h => h.1
  have hwrites : ∀ {t : Verity.DeviceRoutine Unit} {written : Trace P}
      {v : Attempt P Verity.Error Unit}, (t.on P device).Reaches written v →
      ∀ e ∈ written, e.Permitted (fun _ => True) fun d _ => d = device :=
    fun hwriting e he => (permitted_on hwriting e he).mono (fun _ _ => trivial) fun _ _ => id
  cases h with
  | feeding hfed _ => exact hfeeds hfed
  | unread hfed _ _ => exact hfeeds hfed
  | refused hfed _ _ =>
    exact List.forall_mem_append.mpr ⟨hfeeds hfed, List.forall_mem_singleton.mpr trivial⟩
  | unfinalized hfed =>
    exact List.forall_mem_append.mpr ⟨hfeeds hfed, List.forall_mem_singleton.mpr trivial⟩
  | writing hfed hwriting _ _ =>
    exact List.forall_mem_append.mpr
      ⟨hfeeds hfed, List.forall_mem_cons.mpr ⟨trivial, hwrites hwriting⟩⟩
  | unwritten hfed hwriting =>
    exact List.forall_mem_append.mpr
      ⟨hfeeds hfed, List.forall_mem_cons.mpr ⟨trivial, hwrites hwriting⟩⟩
  | behind hfed hwritten hlater _ =>
    refine List.forall_mem_append.mpr ⟨hfeeds hfed, List.forall_mem_cons.mpr ⟨trivial,
      List.forall_mem_append.mpr ⟨hwrites hwritten, fun e he => ?_⟩⟩⟩
    exact (hlater e he).mono (fun _ _ => trivial) fun _ _ h => h.1

/-- A hashing never writes where it has been. -/
theorem fresh (h : Protocol device dataEnd size es u) (hinit : (w.init l).2 = .ok ())
    (hcarries : Carries (w.init l).1 es w') (hordered : l.Ordered)
    (hbehind : ∀ x, l.Metadata x → dataEnd ≤ x) : FreshOnRig es := by
  cases h with
  | feeding hfed _ => exact fresh_of_reads (hfed.writesIn _)
  | unread hfed _ _ => exact fresh_of_reads (hfed.writesIn _)
  | refused hfed _ _ =>
    exact fresh_of_reads (writesIn_append (hfed.writesIn _) (writesIn_cons_called nofun))
  | unfinalized hfed =>
    exact fresh_of_reads (writesIn_append (hfed.writesIn _) (writesIn_cons_called nofun))
  | writing hfed hwriting _ _ => exact hfed.fresh_append hinit hcarries hordered hbehind hwriting
  | unwritten hfed hwriting => exact hfed.fresh_append hinit hcarries hordered hbehind hwriting
  | @behind fed written later t _ hfed hwritten hlater _ =>
    have hcut : fed ++ finalized (.ok t) :: (written ++ later) =
        (fed ++ finalized (.ok t) :: written) ++ later := by simp
    -- what comes behind the metadata only reads, so it spares everything
    rw [hcut] at hcarries ⊢
    obtain ⟨_, hcarries, -⟩ := hcarries.append_cases
    exact (hfed.fresh_append hinit hcarries hordered hbehind hwritten).append_reads
      (writesIn_of_reads hlater)

end Protocol

end

/-! ## A step -/

/-- A step opens the device that it works on. -/
theorem imagePath_of_openSource {s : Setting P} {p : Partition} {step : Step} {es : Trace P}
    {device : OpenedDevice} (h : (openSource s p step).Reaches es (.done (.ok device))) :
    Rig.imagePath device = s.imagePath p step := by
  have honly : (openSource s p step).Only (fun _ => True) (fun _ _ => True)
      fun outcome => ∀ d, outcome = .ok d → Rig.imagePath d = s.imagePath p step := by
    unfold openSource Setting.imagePath
    dsimp only
    split
    · split
      · refine ⟨trivial, ?_⟩
        rintro (e | ⟨⟩) d ⟨⟩
        rfl
      · refine ⟨trivial, fun _ => ⟨trivial, fun _ => ⟨trivial, ?_⟩⟩⟩
        rintro (e | ⟨⟩) d ⟨⟩
        rfl
    · refine ⟨trivial, fun _ => ⟨trivial, ?_⟩⟩
      rintro (e | ⟨⟩) d ⟨⟩
      rfl
  exact (honly.reaches h).2 device rfl

section

variable {s : Setting P} {p : Partition} {step : Step} {index : Nat} {told : P} {es : Trace P}
  {w w' : Writer} {u : Attempt P Error (ByteArray × P)}

/-- A step asks for bytes of its own image only. -/
theorem image_hashStep (h : (hashStep s p step index told).Reaches es u) :
    ∀ e ∈ es, e.Permitted (fun _ => True) fun d _ => Rig.imagePath d = s.imagePath p step := by
  cases stepped_hashStep h with
  | opening hcalls _ _ => exact fun e he => (hcalls e he).mono (fun _ => id) fun _ _ => False.elim
  | @hashing opened begun es device dataEnd v _ hopened hdevice hbegun hhash =>
    have hcalls : ∀ e ∈ begun, e.Permitted (fun _ => True)
        fun d _ => Rig.imagePath d = s.imagePath p step := by
      rw [hbegun]
      split
      · exact List.forall_mem_singleton.mpr trivial
      · exact nofun
    refine List.forall_mem_append.mpr
      ⟨fun e he => (hopened e he).mono (fun _ => id) fun _ _ => False.elim,
        List.forall_mem_append.mpr ⟨hcalls, fun e he => ?_⟩⟩
    have hpath := imagePath_of_openSource hdevice
    cases hwrites : s.writes p step with
    | false =>
      rw [hwrites] at hhash
      refine (((reads_hashPartition _ _ _ _).reaches hhash).1 e he).mono (fun _ _ => trivial) ?_
      rintro d q ⟨rfl, -⟩
      exact hpath
    | true =>
      rw [hwrites] at hhash
      refine ((protocol_hashPartition _ _ _ _ hhash).onDevice e he).mono (fun _ => id) ?_
      rintro d q rfl
      exact hpath

/-- A target step never writes where it has been. -/
theorem fresh_hashStep (h : (hashStep s p .target index told).Reaches es u)
    (hcarries : Carries w es w') (hordered : p.verityLayout.Ordered) : FreshOnRig es := by
  cases stepped_hashStep h with
  | opening hcalls _ _ =>
    exact fresh_of_reads fun e he => (hcalls e he).mono (fun _ => id) fun _ _ => False.elim
  | @hashing opened begun es device dataEnd v hend hopened hdevice hbegun hhash =>
    refine Fresh.after_calls ?_ hopened
    cases hwrites : s.writes p .target with
    | false =>
      rw [hwrites] at hhash hbegun
      subst hbegun
      exact fresh_of_reads (writesIn_of_reads ((reads_hashPartition _ _ _ _).reaches hhash).1)
    | true =>
      rw [hwrites] at hhash hbegun
      subst hbegun
      obtain ⟨w₁, hinit, hcarries⟩ := Carried.of_began hcarries
      obtain ⟨htree, hfec⟩ := hordered.offset_ne_zero hinit
      have hplaced : p.Placed :=
        ⟨fun hsome hzero => htree (mt toNat_eq_zero.mp hsome) (toNat_eq_zero.mpr hzero),
          fun hsome hzero => hfec (mt toNat_eq_zero.mp hsome) (toNat_eq_zero.mpr hzero)⟩
      -- the metadata is not at offset zero, so the data ends in front of it
      have hbehind := (metadata_behind_iff hend).mpr (.inl hplaced)
      refine Fresh.cons_called ((protocol_hashPartition _ _ _ _ hhash).fresh hinit hcarries hordered
        fun x hx => Nat.le_trans (Nat.min_le_left _ _) (hbehind x hx))

theorem asksIn_hashStep (h : (hashStep s p step index told).Reaches es u) :
    AsksIn Rig.imagePath (fun path _ => path = s.imagePath p step) es :=
  fun e he => (image_hashStep h e he).mono (fun _ => id) fun _ _ hpath _ _ => hpath

theorem putsIn_hashStep (h : (hashStep s p step index told).Reaches es u) :
    PutsIn Rig.imagePath (fun path _ => path = s.imagePath p step) es :=
  fun e he => (image_hashStep h e he).mono (fun _ => id) fun _ q hpath =>
    Request.WritesIn.mono (fun _ _ => hpath) q.writesIn_true

end

/-! ## The whole verification -/

/-- The diagnosis only reads. -/
theorem reads_diagnose (s : Setting P) (p : Partition) (index : Nat) (digest : ByteArray)
    (told : P) : (diagnose s p index digest told).Only (fun _ => True)
      (fun _ q => q.WritesIn fun _ => False) fun _ => True := by
  unfold diagnose
  split
  · split <;> trivial
  · have hsource : (hashStep s p .source index told).Only (fun _ => True)
        (fun _ q => q.WritesIn fun _ => False) fun _ => True := by
      refine (only_source s p index told).mono (fun _ _ => trivial) ?_ fun _ => id
      rintro d q ⟨-, offset, length, rfl⟩
      trivial
    refine only_bind hsource ?_
    rintro (e | ⟨sourceDigest, told'⟩) - <;> trivial

/-- The images of some targets. -/
def Setting.ofTargets (s : Setting P) (partitions : List Partition) (path : String) (_ : Nat) :
    Prop :=
  ∃ p ∈ partitions, p.targetPath ≠ "" ∧ path = s.imagePath p .target

/-- Targets that are kept in different images are verified freshly. -/
theorem fresh_verifyFrom (s : Setting P) (l : List Partition) :
    ∀ {index : Nat} {told : P} {es : Trace P} {u : Attempt P Error Unit} {w w' : Writer},
      s.Apart l → (∀ p ∈ l, p.verityLayout.Ordered) → (verifyFrom s index l told).Reaches es u →
      Carries w es w' → FreshOnRig es ∧ PutsIn Rig.imagePath (s.ofTargets l) es := by
  induction l with
  | nil =>
    intro index told es u w w' _ _ h _
    obtain ⟨rfl, -⟩ := reaches_done h
    exact ⟨.nil, nofun⟩
  | cons p rest ih =>
    intro index told es u w w' hapart hordered h hcarries
    obtain ⟨hfirst, hrest⟩ := List.pairwise_cons.mp hapart
    have hordered' : ∀ q ∈ rest, q.verityLayout.Ordered :=
      fun q hq => hordered q (List.mem_cons_of_mem p hq)
    have htail : ∀ path x, s.ofTargets rest path x → s.ofTargets (p :: rest) path x := by
      rintro path x ⟨q, hq, hqpath, rfl⟩
      exact ⟨q, List.mem_cons_of_mem p hq, hqpath, rfl⟩
    have hhead : p.targetPath ≠ "" → ∀ path (x : Nat), path = s.imagePath p .target →
        s.ofTargets (p :: rest) path x :=
      fun hpath path _ hsame => ⟨p, List.mem_cons_self, hpath, hsame⟩
    have hlayout := hordered p List.mem_cons_self
    cases comesTo_verifyFrom h with
    | skipped _ _ hlater =>
      obtain ⟨hfresh, hputs⟩ := ih hrest hordered' hlater hcarries
      exact ⟨hfresh, PutsIn.mono htail hputs⟩
    | unresolved _ => exact ⟨.nil, nofun⟩
    | stepping hpath hstep _ =>
      exact ⟨fresh_hashStep hstep hcarries hlayout,
        PutsIn.mono (hhead hpath) (putsIn_hashStep hstep)⟩
    | passed hpath hstep hlater =>
      obtain ⟨w₁, hcarries, hcarries'⟩ := hcarries.append_cases
      obtain ⟨hfresh', hputs'⟩ := ih hrest hordered' hlater hcarries'
      refine ⟨(fresh_hashStep hstep hcarries hlayout).append (fun path _ => path =
        s.imagePath p .target) (s.ofTargets rest) hfresh' (asksIn_hashStep hstep) hputs' ?_,
        List.forall_mem_append.mpr ⟨PutsIn.mono (hhead hpath) (putsIn_hashStep hstep),
          PutsIn.mono htail hputs'⟩⟩
      -- later targets are in other images
      rintro path x rfl ⟨q, hq, hqpath, hsame⟩
      exact hfirst q hq hpath hqpath hsame
    | refused hpath hstep =>
      exact ⟨fresh_hashStep hstep hcarries hlayout,
        PutsIn.mono (hhead hpath) (putsIn_hashStep hstep)⟩
    | diagnosing hpath hstep hdiagnose =>
      obtain ⟨w₁, hcarries, -⟩ := hcarries.append_cases
      have hreads := ((reads_diagnose s p index _ _).reaches hdiagnose).1
      exact ⟨(fresh_hashStep hstep hcarries hlayout).append_reads hreads,
        List.forall_mem_append.mpr ⟨PutsIn.mono (hhead hpath) (putsIn_hashStep hstep),
          PutsIn.mono (fun _ _ => False.elim) hreads⟩⟩

/-- Calls behind a part that is fresh. -/
theorem Attempt.fresh_bind {α β : Type} {t : Routine (interface P) α}
    {f : α → Routine (interface P) β}
    (ht : ∀ {es u w w'}, t.Reaches es u → Carries w es w' → FreshOnRig es)
    (hf : ∀ a, (f a).Only (fun _ => True) (fun _ _ => False) fun _ => True) {es : Trace P}
    {u : Routine (interface P) β} {w w' : Writer} (h : (t.bind f).Reaches es u)
    (hcarries : Carries w es w') : FreshOnRig es := by
  rcases reaches_bind t h with ⟨t', ht', -, -⟩ | ⟨es₁, a, es₂, rfl, hfirst, hsecond⟩
  · exact ht ht' hcarries
  · obtain ⟨w₁, hcarries, -⟩ := hcarries.append_cases
    refine (ht hfirst hcarries).append_reads fun e he => ?_
    exact (((hf a).reaches hsecond).1 e he).mono (fun _ => id) fun _ _ => False.elim

/-- A verification never writes where it has been before, if its targets are kept in different
    images and the regions of their layouts come in their order. -/
theorem fresh_whole {scale : Scale P} {dynamic : DynamicPartitions} {plan : InstallPlan}
    (hapart : Setting.Apart ⟨scale, dynamic, plan⟩ plan.partitions)
    (hordered : ∀ p ∈ plan.partitions, p.verityLayout.Ordered) {es : Trace P}
    {u : Attempt P Error InstallPlan} {w w' : Writer}
    (h : (whole scale dynamic (some plan)).Reaches es u) (hcarries : Carries w es w') :
    FreshOnRig es := by
  have hprogram : ∀ {es u w w'}, (program scale dynamic (some plan)).Reaches es u →
      Carries w es w' → FreshOnRig es := by
    intro es u w w' h hcarries
    refine Attempt.fresh_bind
      (fun h hcarries => (fresh_verifyFrom _ _ hapart hordered h hcarries).1) ?_ h hcarries
    rintro (e | _)
    · trivial
    · refine only_bind (calls_verifyUntouched plan) ?_
      rintro (e | _) - <;> trivial
  refine Attempt.fresh_bind hprogram (fun outcome => ?_) h hcarries
  dsimp only
  split
  · exact ⟨trivial, fun _ => ⟨trivial, fun _ => trivial⟩⟩
  · exact ⟨trivial, fun _ => trivial⟩

end SlotVerify.Verification
