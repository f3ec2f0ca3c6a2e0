import SlotVerify.Proofs.Machine.Machines
/-
  What the machines have while they need it.

  `Sound` says for each state of a machine which of its optional fields are filled: the plan from
  the first turn until it is handed on, the writer with the verification or with the hashing that it
  is lent to, the hasher until the digest, and the encoder while a read for it is pending, with room
  in its buffer.  A pending future is one of the device that the hashing is on.

  1. Each machine keeps this in a turn, and does not go astray in it, if the machine inside it does
     (`Finalizing.Sound.turn`, `Hashing.Sound.turn`, `Verifying.Sound.turn`).

  2. The crux is the writer.  It changes hands three times for a partition: it is lent, used by the
     hashing, and handed back on every way out, a failure included.  So what a turn of the hashing
     keeps is not that it has a writer, but that it has one if it had one.

  3. By induction on the turns, this holds in every turn of a whole verification, whatever is
     answered (`Verifying.Reaches.ends`).
-/

namespace SlotVerify

open Device Verification
open Verity (Writer)

/-! ## The encoder's buffer -/

namespace Fec.Encoder

/-- The buffer is as large as the blocks of a round. -/
def Whole (e : Encoder) : Prop :=
  e.blocks.size = e.geometry.messageLength * e.geometry.blockSize

/-- The buffer has room behind what is in the current block. -/
def Room (e : Encoder) (length : Nat) : Prop :=
  e.block * e.geometry.blockSize + e.filled + length ≤ e.blocks.size

variable {e : Encoder}

theorem whole_start (g : Geometry) (code : Code) : (start g code).Whole := Bytes.size_zeros _

theorem Whole.nextRead (h : e.Whole) : e.nextRead.1.Whole := by
  obtain ⟨hgeometry, -, -, hblocks⟩ := e.nextRead_keeps
  unfold Whole
  rw [hgeometry, hblocks]
  exact h

/-- A block ends inside the buffer, and a request inside its block. -/
theorem Whole.room (h : e.Whole) {offset length : Nat}
    (hasked : e.nextRead.2 = some (offset, length)) : e.nextRead.1.Room length := by
  obtain ⟨hblock, hlength, -, -⟩ := nextRead_eq_some hasked
  have hwhole : _ = _ := h.nextRead
  obtain ⟨hgeometry, -⟩ := e.nextRead_keeps
  rw [← hgeometry] at hblock
  unfold Room
  generalize e.nextRead.1 = e₁ at *
  have hwithin : e₁.blockLength ≤ e₁.geometry.blockSize := Nat.min_le_right _ _
  have hend := Nat.mul_le_mul_right e₁.geometry.blockSize (Nat.succ_le_of_lt hblock)
  rw [Nat.succ_mul] at hend
  omega

theorem Whole.completeRead (h : e.Whole) {data : ByteArray} (hroom : e.Room data.size) :
    ∃ e', e.completeRead data = some e' ∧ e'.Whole := by
  refine ⟨_, if_pos hroom, ?_⟩
  exact (Bytes.size_overwrite hroom).trans h

theorem Whole.advance (h : e.Whole) : e.advance.1.Whole := (Bytes.size_zeros _).trans h

theorem Mirrors.whole {r : Round} (h : e.Mirrors r) : e.Whole := by
  unfold Whole
  rw [h.blocks, h.geometry, Bytes.size_fit]

/-- Behind a round the next one begins. -/
theorem mirrors_advance (h : e.Whole) :
    e.advance.1.Mirrors (Round.start e.geometry (e.round + 1)) :=
  mirrors_start e.code (e.round + 1) (congrArg Bytes.zeros h)

end Fec.Encoder

namespace Machine

variable {P σ α : Type}

/-- What holds of a machine after a turn, unless it is ready. -/
def Keeps (inv : σ → Prop) : σ × After α → Prop
  | (s, .again) | (s, .pending) => inv s
  | (_, .ready _) => True

/-! ## Writing the metadata -/

/-- What the writing of metadata to a device has. -/
def Finalizing.Sound (device : OpenedDevice) (f : Finalizing) : Prop :=
  (∀ e, f.encoder = some e → e.Whole) ∧
    match f.state with
    | .init | .prepareRead | .prepareSync => True
    | .writingTree _ _ fut | .writingRound _ _ fut | .syncing fut => fut.Awaits device
    | .reading _ length fut => fut.Awaits device ∧ ∃ e, f.encoder = some e ∧ e.Room length
    | .done => False

namespace Finalizing

variable {d : OpenedDevice} {f : Finalizing}

theorem sound_ofFinalization {fin : Verity.Finalization} (h : ofFinalization fin = .ok f) :
    f.Sound d := by
  unfold ofFinalization at h
  split at h
  · cases h
    refine ⟨?_, trivial⟩
    rintro e ⟨⟩
  · split at h
    · cases h
      refine ⟨?_, trivial⟩
      rintro e ⟨⟩
      exact Fec.Encoder.whole_start _ _
    · cases h

theorem ends_prepare {e : Fec.Encoder} (he : e.Whole) :
    (f.prepare d e : Turn P Result).Ends (Keeps (Sound d)) := by
  have hwhole : ∀ e', some e.nextRead.1 = some e' → e'.Whole := by
    rintro _ ⟨⟩
    exact he.nextRead
  unfold prepare
  dsimp only
  split
  · rename_i offset length hasked
    refine Turn.ends_start (fun _ _ => trivial) (fun _ => trivial) fun fut hfut => ?_
    exact ⟨hwhole, hfut, _, rfl, he.room hasked⟩
  · exact Turn.ends_start (fun _ _ => trivial) (fun _ => trivial) fun fut hfut => ⟨hwhole, hfut⟩

theorem ends_fill {e : Fec.Encoder} (hencoder : f.encoder = some e) (he : e.Whole) {offset : Nat}
    {bytes : ByteArray} (hroom : e.Room bytes.size) :
    (f.fill offset bytes : Turn P Result).Ends (Keeps (Sound d)) := by
  unfold fill
  split
  · trivial
  · obtain ⟨e', hput, he'⟩ := he.completeRead hroom
    rw [hencoder]
    dsimp only
    rw [hput]
    refine ⟨?_, trivial⟩
    rintro _ ⟨⟩
    exact he'

theorem ends_nextRound (h : ∀ e, f.encoder = some e → e.Whole) :
    (f.nextRound : Turn P Result).Ends (Keeps (Sound d)) := by
  unfold nextRound
  split
  · rename_i e hencoder
    split
    · refine ⟨?_, trivial⟩
      rintro _ ⟨⟩
      exact (h e hencoder).advance
    · refine ⟨?_, trivial⟩
      rintro e ⟨⟩
  · exact ⟨h, trivial⟩

/-- A turn keeps what the writing has. -/
theorem Sound.turn (h : f.Sound d) : (f.turn d : Turn P Result).Ends (Keeps (Sound d)) := by
  obtain ⟨hwhole, hstate⟩ := h
  unfold Finalizing.turn
  split <;> rename_i hat <;> rw [hat] at hstate
  case h_1 =>
    dsimp only
    split
    · split
      · exact ⟨hwhole, trivial⟩
      · exact Turn.ends_start (fun _ _ => trivial) (fun _ => trivial) fun fut hfut =>
          ⟨hwhole, hfut⟩
    · exact ⟨hwhole, trivial⟩
  case h_2 =>
    refine hstate.ends_poll _ (fun fut hfut => ⟨hwhole, hfut⟩) fun _ x => ?_
    cases x with
    | answered _ => exact ⟨hwhole, trivial⟩
    | _ => trivial
  case h_3 =>
    split
    · rename_i e hencoder
      exact ends_prepare (hwhole e hencoder)
    · exact ⟨hwhole, trivial⟩
  case h_4 offset length fut =>
    obtain ⟨hfut, e, hencoder, hroom⟩ := hstate
    refine hfut.ends_poll _ (fun fut hfut => ⟨hwhole, hfut, e, hencoder, hroom⟩) fun _ x => ?_
    cases x with
    | failed _ _ | lost _ => trivial
    | answered bytes =>
      refine ends_fill hencoder (hwhole e hencoder) ?_
      have hsize : (bytes.extract 0 length).size ≤ length := by
        rw [ByteArray.size_extract]
        omega
      unfold Fec.Encoder.Room at hroom ⊢
      omega
  case h_5 =>
    refine hstate.ends_poll _ (fun fut hfut => ⟨hwhole, hfut⟩) fun _ x => ?_
    cases x with
    | answered _ => exact ends_nextRound hwhole
    | _ => trivial
  case h_6 =>
    exact Turn.ends_start (fun _ _ => trivial) (fun _ => trivial) fun fut hfut => ⟨hwhole, hfut⟩
  case h_7 =>
    refine hstate.ends_poll _ (fun fut hfut => ⟨hwhole, hfut⟩) fun _ x => ?_
    cases x <;> trivial
  case h_8 => exact hstate

end Finalizing

/-! ## Hashing a partition -/

/-- What the hashing of a partition on a device has. -/
def Hashing.Sound (device : OpenedDevice) (h : Hashing) : Prop :=
  h.hasher.isSome ∧
    match h.state with
    | .prepareRead | .yielding _ => True
    | .reading _ fut => fut.Awaits device
    | .finalizing f => f.Sound device
    | .done => False

namespace Hashing

variable {d : OpenedDevice} {h : Hashing}

/-- After a turn the hashing has what it needs, and a writer if it had one; when it is ready it has
    handed this back. -/
def Holds (device : OpenedDevice) (lent : Bool) : Result → Prop
  | (h, .again) | (h, .pending) => h.Sound device ∧ h.writer.isSome = lent
  | (_, .ready (writer, _)) => writer.isSome = lent

theorem ends_request (hhasher : h.hasher.isSome) (stop : Nat) :
    (h.request d stop : Turn P Result).Ends (Holds d h.writer.isSome) := by
  unfold request
  exact Turn.ends_start (fun _ _ => rfl) (fun _ => rfl) fun _ hfut => ⟨⟨hhasher, hfut⟩, rfl⟩

theorem ends_finalize (hhasher : h.hasher.isSome) :
    (h.finalize : Turn P Result).Ends (Holds d h.writer.isSome) := by
  unfold finalize
  split
  · rename_i hnone
    exact ⟨⟨hhasher, trivial⟩, rfl⟩
  · rename_i w hsome
    rw [hsome]
    dsimp only
    split
    · exact rfl
    · split
      · exact rfl
      · rename_i hf
        exact ⟨⟨hhasher, Finalizing.sound_ofFinalization hf⟩, rfl⟩

theorem ends_digest (hhasher : h.hasher.isSome) :
    (h.digest : Turn P Result).Ends (Holds d h.writer.isSome) := by
  unfold digest
  split
  · exact rfl
  · rename_i hnone
    rw [hnone] at hhasher
    cases hhasher

/-- The writer is fed in its place. -/
theorem fed_keeps (h : Hashing) (bytes : ByteArray) :
    (h.fed bytes).1.hasher = h.hasher ∧ (h.fed bytes).1.writer.isSome = h.writer.isSome := by
  unfold fed
  split
  · split
    · rename_i w hsome
      rw [hsome]
      exact ⟨rfl, rfl⟩
    · exact ⟨rfl, rfl⟩
  · exact ⟨rfl, rfl⟩

theorem ends_take (hhasher : h.hasher.isSome) (bytes : ByteArray) :
    (h.take bytes : Turn P Result).Ends (Holds d h.writer.isSome) := by
  unfold take
  split
  · exact rfl
  · dsimp only
    obtain ⟨hkeeps, hwriter⟩ :=
      fed_keeps { h with hasher := h.hasher.map (Digest.Hasher.update · bytes) } bytes
    generalize fed _ bytes = fed at hkeeps hwriter
    obtain ⟨h', outcome⟩ := fed
    cases outcome with
    | error e => exact hwriter
    | ok =>
      refine ⟨⟨?_, trivial⟩, hwriter⟩
      show h'.hasher.isSome
      rw [hkeeps, Option.isSome_map]
      exact hhasher

/-- A turn keeps what the hashing has. -/
theorem Sound.turn (hsound : h.Sound d) :
    (h.turn d : Turn P Result).Ends (Holds d h.writer.isSome) := by
  obtain ⟨hhasher, hstate⟩ := hsound
  unfold Hashing.turn
  split <;> rename_i hat <;> rw [hat] at hstate
  case h_1 =>
    split
    · exact ends_request hhasher _
    · split
      · exact ends_finalize hhasher
      · split
        · exact ends_request hhasher _
        · exact ends_digest hhasher
  case h_2 =>
    refine hstate.ends_poll _ (fun fut hfut => ⟨⟨hhasher, hfut⟩, rfl⟩) fun _ x => ?_
    cases x with
    | failed _ _ | lost _ => exact rfl
    | answered bytes => exact ends_take hhasher _
  case h_3 y =>
    unfold Task.YieldNow.poll
    split
    · exact ⟨⟨hhasher, trivial⟩, rfl⟩
    · exact fun _ => ⟨⟨hhasher, trivial⟩, rfl⟩
  case h_4 =>
    refine Turn.ends_bind (Finalizing.Sound.turn hstate) ?_
    rintro ⟨f', after⟩ hf'
    cases after with
    | again => exact ⟨⟨hhasher, hf'⟩, rfl⟩
    | pending => exact ⟨⟨hhasher, hf'⟩, rfl⟩
    | ready result =>
      cases result with
      | error e => exact rfl
      | ok => exact ⟨⟨hhasher, trivial⟩, rfl⟩
  case h_5 => exact hstate

end Hashing

/-! ## Verifying a plan -/

/-- What a verification of a plan has. -/
def Verifying.Sound (given : Option InstallPlan) (v : Verifying P) : Prop :=
  match v.state with
  | .init => v.plan = given ∧ v.writer.isSome
  | .startHashing | .verifyUntouched =>
    ∃ plan, given = some plan ∧ v.plan = some plan ∧ v.writer.isSome
  | .hashing device h _ _ =>
    ∃ plan, given = some plan ∧ v.plan = some plan ∧ v.cursor.index < plan.partitions.length ∧
      (h.writer.or v.writer).isSome ∧ h.Sound device
  | .done => False

namespace Verifying

variable {given : Option InstallPlan} {v : Verifying P}

/-- The conclusion comes to its end. -/
theorem ends_conclude (v : Verifying P) (result : Except Error InstallPlan) :
    (v.conclude result).Ends (Keeps (Sound given)) := by
  unfold conclude
  dsimp only
  split
  · exact fun _ _ => trivial
  · exact fun _ => trivial

variable {plan : InstallPlan}

theorem ends_beginHashing {p : Partition} {dataEnd : Nat} {device : OpenedDevice}
    {writer : Option Writer} (hplan : v.plan = some plan)
    (hindex : v.cursor.index < plan.partitions.length) (hwriter : (writer.or v.writer).isSome) :
    (v.beginHashing p dataEnd device writer).Ends (Keeps (Sound (some plan))) := by
  unfold beginHashing Hashing.new
  dsimp only
  split
  · rename_i h hnew
    split at hnew
    · cases hnew
    · cases hnew
      exact ⟨plan, rfl, hplan, hindex, hwriter, rfl, trivial⟩
  · exact ends_conclude _ _

theorem ends_lendWriter {p : Partition} {writing : Bool} {dataEnd : Nat} {device : OpenedDevice}
    (hplan : v.plan = some plan) (hindex : v.cursor.index < plan.partitions.length)
    (hwriter : v.writer.isSome) :
    (v.lendWriter p writing dataEnd device).Ends (Keeps (Sound (some plan))) := by
  unfold lendWriter
  split
  · split
    · rename_i hnone
      rw [hnone] at hwriter
      cases hwriter
    · dsimp only
      split
      · exact ends_beginHashing hplan hindex rfl
      · exact ends_conclude _ _
      · trivial
  · exact ends_beginHashing hplan hindex hwriter

theorem ends_openPartition {p : Partition} (hplan : v.plan = some plan)
    (hindex : v.cursor.index < plan.partitions.length) (hwriter : v.writer.isSome) :
    (v.openPartition plan p).Ends (Keeps (Sound (some plan))) := by
  unfold openPartition
  dsimp only
  split
  · exact ends_conclude _ _
  · refine Turn.ends_bind (Turn.ends_asking _) ?_
    rintro (e | device) -
    · exact ends_conclude _ _
    · exact ends_lendWriter hplan hindex hwriter

theorem ends_startHashing (hplan : v.plan = some plan) (hwriter : v.writer.isSome) :
    v.startHashing.Ends (Keeps (Sound (some plan))) := by
  unfold startHashing
  split
  · rename_i hnone
    cases hplan.symm.trans hnone
  · rename_i plan' hsome
    cases hplan.symm.trans hsome
    split
    · exact ⟨plan, rfl, hplan, hwriter⟩
    · rename_i p hp
      split
      · exact ends_openPartition hplan (List.getElem?_eq_some_iff.mp hp).1 hwriter
      · split
        · exact ends_conclude _ _
        · split
          · exact ends_conclude _ _
          · exact ⟨plan, rfl, hplan, hwriter⟩

theorem ends_judgeDigest (hplan : v.plan = some plan)
    (hindex : v.cursor.index < plan.partitions.length) (hwriter : v.writer.isSome)
    (digest : ByteArray) : (v.judgeDigest digest).Ends (Keeps (Sound (some plan))) := by
  unfold judgeDigest
  split
  · rename_i hnone
    cases hplan.symm.trans hnone
  · rename_i plan' hsome
    cases hplan.symm.trans hsome
    split
    · rename_i hmissing
      exact absurd hindex (Nat.not_lt.mpr (List.getElem?_eq_none_iff.mp hmissing))
    · split
      · exact ⟨plan, rfl, hplan, hwriter⟩
      · exact ends_conclude _ _

theorem ends_takeBack {writer : Option Writer} (hplan : v.plan = some plan)
    (hindex : v.cursor.index < plan.partitions.length) (hwriter : (writer.or v.writer).isSome)
    (result : Except HashError ByteArray) :
    (v.takeBack writer result).Ends (Keeps (Sound (some plan))) := by
  unfold takeBack
  cases result with
  | error e => exact ends_conclude _ _
  | ok digest =>
    exact ends_judgeDigest (v := { v with writer := writer.or v.writer, state := .startHashing })
      hplan hindex hwriter digest

/-- Whether or not progress is reported, what comes next finds everything in its place. -/
theorem ends_tell {offset size lastReported : Nat} {next : Verifying P → Turn P (Result P)}
    {ok : Result P → Prop} (hnext : ∀ progress, (next { v with maxProgress := progress }).Ends ok) :
    (v.tell offset size lastReported next).Ends ok := by
  unfold tell
  dsimp only
  split
  · split
    · exact fun _ => hnext _
    · exact hnext v.maxProgress
  · exact hnext v.maxProgress

theorem ends_afterHashing {device : OpenedDevice} {size lastReported : Nat} {lent : Bool}
    (hplan : v.plan = some plan) (hindex : v.cursor.index < plan.partitions.length)
    (hwriter : (lent || v.writer.isSome) = true) {r : Hashing.Result}
    (hr : Hashing.Holds device lent r) :
    (v.afterHashing device size lastReported r).Ends (Keeps (Sound (some plan))) := by
  have hback : ∀ {writer : Option Writer}, writer.isSome = lent →
      (writer.or v.writer).isSome := by
    rintro writer rfl
    rwa [Option.isSome_or]
  obtain ⟨h, after⟩ := r
  unfold afterHashing
  cases after with
  | again => exact ⟨plan, rfl, hplan, hindex, hback hr.2, hr.1⟩
  | pending =>
    refine ends_tell (v := v) fun _ => ?_
    exact ⟨plan, rfl, hplan, hindex, hback hr.2, hr.1⟩
  | ready handed =>
    refine ends_tell (v := v) fun progress => ?_
    exact ends_takeBack (v := { v with maxProgress := progress }) hplan hindex (hback hr) handed.2

/-- A turn keeps what the verification has. -/
theorem Sound.turn (h : v.Sound given) : v.turn.Ends (Keeps (Sound given)) := by
  unfold Sound at h
  unfold Verifying.turn
  split <;> rename_i hat <;> rw [hat] at h
  case h_1 =>
    obtain ⟨rfl, hwriter⟩ := h
    split
    · exact ends_conclude _ _
    · rename_i plan hplan
      exact ⟨plan, hplan, hplan, hwriter⟩
  case h_2 =>
    obtain ⟨plan, rfl, hplan, hwriter⟩ := h
    exact ends_startHashing hplan hwriter
  case h_3 device h' size lastReported =>
    obtain ⟨plan, rfl, hplan, hindex, hwriter, hsound⟩ := h
    rw [Option.isSome_or] at hwriter
    exact Turn.ends_bind hsound.turn fun r hr => ends_afterHashing hplan hindex hwriter hr
  case h_4 =>
    obtain ⟨plan, rfl, hplan, hwriter⟩ := h
    split
    · rename_i hnone
      cases hplan.symm.trans hnone
    · refine Turn.ends_bind (Turn.ends_asking _) ?_
      rintro (e | _) -
      · exact ends_conclude _ _
      · exact ends_conclude _ _
  case h_5 => exact h

/-- The turns of a verification, as far as they can come when anything may be answered.  A
    verification that is pending may be polled again at any time, or never. -/
inductive Reaches (start : Verifying P) : Turn P (Result P) → Prop
  | start : Reaches start start.turn
  | again {v : Verifying P} (h : Reaches start (.ret (v, .again))) : Reaches start v.turn
  | pending {v : Verifying P} (h : Reaches start (.ret (v, .pending))) : Reaches start v.turn
  | call {c : Call P} {next : c.Answer → Turn P (Result P)} (h : Reaches start (.call c next))
      (x : c.Answer) : Reaches start (next x)
  | submit {d : OpenedDevice} {r : Request} {next : Placement r Nat → Turn P (Result P)}
      (h : Reaches start (.submit d r next)) (x : Placement r Nat) : Reaches start (next x)
  | complete {d : OpenedDevice} {r : Request} {next : Completion r → Turn P (Result P)}
      (h : Reaches start (.complete d r next)) (x : Completion r) : Reaches start (next x)

/-- What holds at the end of every turn that keeps it holds at the end of all of them. -/
theorem Reaches.ends {start : Verifying P} {inv : Verifying P → Prop} (hstart : inv start)
    (hturn : ∀ v, inv v → v.turn.Ends (Keeps inv)) {t : Turn P (Result P)} (h : Reaches start t) :
    t.Ends (Keeps inv) := by
  induction h with
  | start => exact hturn _ hstart
  | again _ ih => exact hturn _ ih
  | pending _ ih => exact hturn _ ih
  | call _ x ih => exact ih x
  | submit _ x ih => exact ih x
  | complete _ x ih => exact ih x

theorem sound_new (scale : Scale P) (dynamic : DynamicPartitions) (plan : Option InstallPlan)
    (writer : Writer) : (new scale dynamic plan writer).Sound plan :=
  ⟨rfl, rfl⟩

end Verifying

end Machine

end SlotVerify
