import SlotVerify.Proofs.CommandLine.Conduct
/-
  Verifying a plan with one partition, whose device is a file.

  At a desk the step of a target opens the file and begins the writer, and what it comes to then is
  what the hashing of the file comes to (`conduct_hashStep`).  If that is the digest that the plan
  expects, the session ends with success (`verifyPlan_success`).
-/

namespace SlotVerify.CommandLine

open Device Verification Routine
open Verity (Writer)

variable {P α β ε ε' : Type} {d d' : Desk} {path name printed : String} {image : ByteArray}
  {w w' : Writer} {memory : Nat} {report : P → Session Unit}

/-! ## Sequences -/

theorem conduct_bind (t : Routine (interface P) α) (f : α → Routine (interface P) β) :
    conduct report w (t.bind f) =
      (conduct report w t).bind fun (a, w) => conduct report w (f a) :=
  interpret_bind (I := interface P) (J := surface) (carryOut report) id t f w

theorem conduct_bind_of_run {t : Routine (interface P) α} {a : α}
    (h : (conduct report w t).run Desk.host d = (d', some (a, w')))
    (f : α → Routine (interface P) β) :
    (conduct report w (t.bind f)).run Desk.host d = (conduct report w' (f a)).run Desk.host d' := by
  rw [conduct_bind, run_bind, h]

theorem conduct_andThen_of_ok {t : Attempt P ε α} {a : α}
    (h : (conduct report w t).run Desk.host d = (d', some (.ok a, w'))) (f : α → Attempt P ε β) :
    (conduct report w (t.andThen f)).run Desk.host d =
      (conduct report w' (f a)).run Desk.host d' :=
  conduct_bind_of_run h _

theorem conduct_mapError_of_ok {t : Attempt P ε α} {a : α}
    (h : (conduct report w t).run Desk.host d = (d', some (.ok a, w'))) (f : ε → ε') :
    (conduct report w (t.mapError f)).run Desk.host d = (d', some (.ok a, w')) :=
  conduct_bind_of_run h _

theorem conduct_ask {c : Call P} {x : c.Answer}
    (h : (carryOut report w c).run Desk.host d = (d', some (x, w')))
    (next : c.Answer → Routine (interface P) α) :
    (conduct report w (ask c next)).run Desk.host d =
      (conduct report w' (next x)).run Desk.host d' := by
  refine (run_bind Desk.host _ (carryOut report w c) d).trans ?_
  rw [h]
  rfl

/-! ## The step of a target -/

/-- A file can be opened. -/
theorem conduct_openDirect (hd : d.Shows path name image printed) (p : Partition)
    (writable : Bool) :
    (conduct report w (openDirect p path writable)).run Desk.host d =
      (d, some (.ok ⟨.direct, path, writable⟩, w)) := by
  have hflag : (carryOut report w (.setReadOnly path (!writable))).run Desk.host d =
      (d, some (.ok (), w)) := by
    show (d, some (((d.files.lookup path).map fun _ => ()).mapError IoError.ofFileFault, w)) = _
    rw [hd.lookup]
    rfl
  have hopen : (carryOut report w (.openPath path writable)).run Desk.host d =
      (d, some (.ok (), w)) := by
    show (d, some (((((FileDevice.openPath d.files path writable d.fileLimit).map (·.size)).map
      fun _ => ()).mapError IoError.ofFileFault), w)) = _
    unfold FileDevice.openPath
    rw [hd.lookup]
    rfl
  unfold openDirect
  rw [conduct_ask hflag, conduct_ask hopen]
  rfl

variable {scale : Scale P} {plan : InstallPlan} {p : Partition}

/-- The writer with which a target is hashed. -/
def begun (s : Setting P) (p : Partition) (w : Writer) : Writer :=
  if s.writes p .target then (w.init p.verityLayout).1 else w

/-- The step of a target whose device is a file comes to what the hashing of the file comes to. -/
theorem conduct_hashStep {s : Setting P} (hdynamic : s.dynamic = noDynamicPartitions)
    (hd : d.Shows p.targetPath name image printed) {stop : Nat}
    (hstop : dataEnd .target p.hashTreeOffset.toNat p.fecOffset.toNat p.targetSize.toNat = .ok stop)
    (hinit : s.writes p .target = true → (w.init p.verityLayout).2 = .ok ()) {index : Nat}
    {reported told : P} {digest : ByteArray}
    (hhash : (conduct report (begun s p w) (hashPartition s.scale
      ⟨⟨.direct, p.targetPath, s.writes p .target⟩, p.targetSize.toNat, index,
        s.plan.partitions.length⟩ stop (s.writes p .target) reported)).run Desk.host d =
          (d', some (.ok (digest, told), w'))) :
    (conduct report w (hashStep s p .target index reported)).run Desk.host d =
      (d', some (.ok (digest, told), w')) := by
  have hsource : openSource s p .target = openDirect p p.targetPath (s.writes p .target) := by
    unfold openSource
    rw [hdynamic]
    rfl
  have hbegin : (conduct report w (if s.writes p .target then initWriter p
      else Attempt.succeed ())).run Desk.host d = (d, some (.ok (), begun s p w)) := by
    unfold begun
    cases hwrites : s.writes p .target with
    | false => rfl
    | true =>
      have hcall : (carryOut report w (.initWriter p.verityLayout)).run Desk.host d =
          (d, some (.ok (), (w.init p.verityLayout).1)) := by
        show (d, some ((w.init p.verityLayout).2, (w.init p.verityLayout).1)) = _
        rw [hinit hwrites]
      exact conduct_ask hcall _
  unfold hashStep
  dsimp only [Partition.size]
  rw [hstop]
  dsimp only
  rw [hsource, conduct_andThen_of_ok (conduct_openDirect hd p _), conduct_andThen_of_ok hbegin]
  exact conduct_mapError_of_ok hhash _

/-! ## The plan -/

/-- The empty path leads nowhere. -/
theorem Desk.Shows.path_ne (h : d.Shows path name image printed) : path ≠ "" := by
  rintro rfl
  have hlookup := h.lookup
  unfold FileStore.lookup at hlookup
  split at hlookup
  · cases hlookup
  · split at hlookup
    · cases hlookup
    · cases hlookup

/-- A plan whose only target has the digest that is expected is verified with success. -/
theorem verifyPlan_success (hplan : plan.partitions = [p]) (hpath : p.targetPath ≠ "")
    {told : Float} (hstep : (conduct showProgress (.fresh memory) (hashStep
      ⟨.double, noDynamicPartitions, plan⟩ p .target 0 Scale.double.zero)).run Desk.host d =
        (d', some (.ok (p.targetHash, told), w'))) :
    ∃ remarks, (verifyPlan plan memory).run Desk.host d =
      ({ d' with remarks }, some (.ok .success)) := by
  have hfrom : (conduct showProgress (.fresh memory) (verifyFrom
      ⟨.double, noDynamicPartitions, plan⟩ 0 plan.partitions Scale.double.zero)).run Desk.host d =
        (d', some (.ok (), w')) := by
    rw [hplan]
    unfold verifyFrom
    rw [if_neg hpath, conduct_andThen_of_ok hstep]
    dsimp only
    rw [if_pos rfl]
    rfl
  have huntouched : (conduct showProgress w' (verifyUntouched plan)).run Desk.host d' =
      (d', some (.ok (), w')) := by
    have hcall : (carryOut showProgress w' (.verifyExtents plan.sourceSlot plan.targetSlot
        plan.untouchedDynamicPartitions)).run Desk.host d' = (d', some (true, w')) := rfl
    unfold verifyUntouched
    split
    · rfl
    · exact conduct_ask hcall _
  have hprogram : (conduct showProgress (.fresh memory) (Verification.program .double
      noDynamicPartitions (some plan))).run Desk.host d = (d', some (.ok plan, w')) := by
    unfold Verification.program
    rw [conduct_andThen_of_ok hfrom, conduct_andThen_of_ok huntouched]
    rfl
  obtain ⟨remarks, hreport⟩ := discreet_showProgress Scale.double.one d'
  have hwhole : (conduct showProgress (.fresh memory) (whole .double noDynamicPartitions
      (some plan))).run Desk.host d = ({ d' with remarks }, some (.ok plan, w')) := by
    have hcall : (carryOut showProgress w' (.report Scale.double.one)).run Desk.host d' =
        ({ d' with remarks }, some ((), w')) := by
      refine (run_bind Desk.host _ (showProgress Scale.double.one) d').trans ?_
      rw [hreport]
      rfl
    unfold whole
    rw [conduct_bind_of_run hprogram]
    exact conduct_ask hcall _
  refine ⟨remarks, ?_⟩
  unfold verifyPlan
  rw [run_bind, hwhole]
  rfl

end SlotVerify.CommandLine
