import SlotVerify.Proofs.Rig.Stages
import SlotVerify.Proofs.Verification.Digesting
import SlotVerify.Proofs.Verity.Finalizing
/-
  Hashing a partition on devices that do what they are asked for.

  On such a device reading goes on to its end, and so does the feeding of a writer, because the
  chunks form a stream without gaps (`exists_run_hashUpTo`).  Finalizing a writer that has been fed
  the tree's data succeeds if there is memory for the blocks of a round, and fails otherwise
  (`run_finalizeOn_cases`).  So hashing a partition with a writer comes to the digest of the
  finished image, or to the lack of memory, and to nothing else (`run_hashPartition_cases`).
-/

namespace SlotVerify

open Device Verification

namespace Rig

variable {P : Type} {r : Rig P} {d : OpenedDevice} {image : ByteArray}

/-- A request of a device that does what it is asked for. -/
theorem Offers.serve (h : r.Offers d image) {q : Device.Request}
    (hwritable : ∀ offset data, q = .write offset data → d.writable = true) :
    ∃ device : MemoryDevice, device.image = image ∧ device.failReadAt = none ∧
      device.readLimit = r.readLimit ∧ (host.serve r d q).2 = (device.serve q).2 ∧
      (host.serve r d q).1.Offers d (device.serve q).1.image ∧
      (host.serve r d q).1.writer = r.writer ∧ (host.serve r d q).1.readLimit = r.readLimit := by
  have hcounting : (r.counting q).Offers d image := h.of_eq rfl
  have hserve : host.serve r d q = host.complete (r.counting q) d q :=
    Host.serve_taken (submit_reliable h.reliable d q hwritable)
  obtain ⟨houtcome, hoffers⟩ := hcounting.complete q
  have hlimit : (host.complete (r.counting q) d q).1.readLimit = r.readLimit := by
    rw [complete_of_settled hcounting.reliable.failing]
    rfl
  rw [hserve]
  exact ⟨(r.counting q).device d, device_image_of_some hcounting.image?, h.reliable.failReadAt, rfl,
    houtcome, hoffers, writer_finish _ d q, hlimit⟩

/-- A read brings the beginning of what was asked for, and not nothing where there is something. -/
theorem Offers.run_read {α : Type} (h : r.Offers d image) (offset length : Nat)
    (next : Except IoError ByteArray → Routine (interface P) α) :
    ∃ n r', (Routine.read (I := interface P) d offset length next).run host r =
        (next (.ok (image.extract offset (offset + n)))).run host r' ∧
      n ≤ length ∧ n ≤ image.size - offset ∧ (n = 0 → length = 0 ∨ image.size ≤ offset) ∧
      r'.Offers d image ∧ r'.writer = r.writer := by
  obtain ⟨device, rfl, hfail, hlimit, houtcome, hoffers, hwriter, -⟩ :=
    h.serve (q := .read offset length) nofun
  obtain ⟨n, hread, hcut, hlength, hsize, hsome⟩ := device.serve_read hfail offset length
  rw [hread] at houtcome hoffers
  refine ⟨n, _, ?_, hlength, hsize, hsome (hlimit ▸ h.reliable.readLimit), hoffers, hwriter⟩
  refine (Routine.run_serve (I := interface P) host d (.read offset length) _ r).trans ?_
  rw [houtcome]
  show (next (.ok (ByteArray.extract _ 0 length))).run host _ = _
  rw [hcut]

theorem Offers.hear (h : r.Offers d image) (progress : P) :
    (r.hear progress).Offers d image ∧ (r.hear progress).writer = r.writer := by
  unfold Rig.hear
  split
  · exact ⟨h.of_eq rfl, rfl⟩
  · exact ⟨h, rfl⟩

end Rig

namespace Verification

open Routine
open Rig (host surroundings)
open Verity (Writer Layout)

variable {P : Type} {r : Rig P} {l : Layout} {image : ByteArray}

/-! ## Steps of a run -/

theorem run_ask {α : Type} (c : Call P) (next : c.Answer → Routine (interface P) α) :
    (ask c next).run host r = (next (r.answer c).2).run host (r.answer c).1 := rfl

theorem Attempt.run_andThen_of_ok {ε α β : Type} {t : Attempt P ε α} {r' : Rig P} {a : α}
    (h : t.run host r = (r', some (.ok a))) (f : α → Attempt P ε β) :
    (t.andThen f).run host r = (f a).run host r' := by
  unfold Attempt.andThen
  rw [run_bind, h]

theorem Attempt.run_andThen_of_error {ε α β : Type} {t : Attempt P ε α} {r' : Rig P} {e : ε}
    (h : t.run host r = (r', some (.error e))) (f : α → Attempt P ε β) :
    (t.andThen f).run host r = (r', some (.error e)) := by
  unfold Attempt.andThen
  rw [run_bind, h]
  rfl

theorem run_tell {α : Type} {d : OpenedDevice} (h : r.Offers d image) (scale : Scale P)
    (reported progress : P) (next : P → Routine (interface P) α) :
    ∃ r' told, (tell scale reported progress next).run host r = (next told).run host r' ∧
      r'.Offers d image ∧ r'.writer = r.writer := by
  unfold tell
  split
  · exact ⟨r.hear progress, progress, rfl, h.hear progress⟩
  · exact ⟨r, reported, rfl, h, rfl⟩

/-- A chunk that continues the stream is taken. -/
theorem run_feed {d : OpenedDevice} (h : r.Offers d image) {feeding : Bool} {offset n : Nat}
    (hfed : feeding = true → r.writer.Streams l (image.extract 0 offset))
    (hsize : offset + n ≤ image.size) (hword : feeding = true → image.size < Verity.wordLimit) :
    ∃ r', (feed feeding offset (image.extract offset (offset + n)) :
        Attempt P HashError Unit).run host r = (r', some (.ok ())) ∧ r'.Offers d image ∧
      r'.writer.memory = r.writer.memory ∧
      (feeding = true → r'.writer.Streams l (image.extract 0 (offset + n))) := by
  unfold feed
  cases feeding with
  | false => exact ⟨r, rfl, h, rfl, nofun⟩
  | true =>
    have hstream := hfed rfl
    have hlimit := hword rfl
    have hoffset : (image.extract 0 offset).size = offset := by
      rw [ByteArray.size_extract]
      omega
    have hchunk : (image.extract offset (offset + n)).size = n :=
      Bytes.size_slice_of_le (by omega)
    have htaken := hstream.update_next (image.extract offset (offset + n)) (by omega)
    rw [hoffset] at htaken
    have hnext := hstream.update offset _ htaken
    rw [ByteArray.extract_append_extract, Nat.zero_min,
      Nat.max_eq_right (Nat.le_add_right offset n)] at hnext
    refine ⟨(r.updateWriter offset (image.extract offset (offset + n))).1, ?_, h.of_eq rfl,
      r.writer.memory_update _ _, fun _ => hnext⟩
    show (_, some (((r.writer.update offset (image.extract offset (offset + n))).2).mapError
      HashError.verity)) = _
    rw [htaken]
    rfl

/-- A chunk that continues the stream is taken and told, and the reading goes on behind it. -/
theorem exists_run_withChunk (scale : Scale P) (subject : Subject) (feeding : Bool) (stop : Nat)
    (pos : Position P) {n : Nat} (hsize : pos.offset + n ≤ image.size)
    (hword : feeding = true → image.size < Verity.wordLimit) (h : r.Offers subject.device image)
    (hfed : feeding = true → r.writer.Streams l (image.extract 0 pos.offset)) :
    ∃ r' told,
      (withChunk scale subject feeding stop pos
        (image.extract pos.offset (pos.offset + n))).run host r =
        (hashUpTo scale subject feeding stop
          (pos.behind (image.extract pos.offset (pos.offset + n)) told)).run host r' ∧
      r'.Offers subject.device image ∧ r'.writer.memory = r.writer.memory ∧
      (feeding = true → r'.writer.Streams l (image.extract 0 (pos.offset + n))) := by
  obtain ⟨r₁, hfeed, hoffers₁, hmemory₁, hfed₁⟩ := run_feed h hfed hsize hword
  unfold withChunk
  rw [Attempt.run_andThen_of_ok hfeed]
  obtain ⟨r₂, told, htell, hoffers₂, hwriter₂⟩ := run_tell hoffers₁ scale pos.reported _ fun told =>
    Routine.pause (hashUpTo scale subject feeding stop
      (pos.behind (image.extract pos.offset (pos.offset + n)) told))
  refine ⟨r₂, told, ?_, hoffers₂, (congrArg _ hwriter₂).trans hmemory₁,
    fun hfeeding => hwriter₂ ▸ hfed₁ hfeeding⟩
  -- to be woken changes nothing on a rig
  exact htell

/-- Reading comes to its end, and the writer has then been fed everything. -/
theorem exists_run_hashUpTo (scale : Scale P) (subject : Subject) (feeding : Bool) (stop : Nat)
    (pos : Position P) (hsize : stop ≤ image.size)
    (hword : feeding = true → image.size < Verity.wordLimit) (hstop : pos.offset ≤ stop)
    (h : r.Offers subject.device image)
    (hfed : feeding = true → r.writer.Streams l (image.extract 0 pos.offset)) :
    ∃ r' pos', (hashUpTo scale subject feeding stop pos).run host r = (r', some (.ok pos')) ∧
      r'.Offers subject.device image ∧ r'.writer.memory = r.writer.memory ∧
      (feeding = true → r'.writer.Streams l (image.extract 0 stop)) := by
  induction pos using hashUpTo_induction stop generalizing r with
  | ended pos hend =>
    rw [hashUpTo_of_le hend]
    exact ⟨r, pos, rfl, h, rfl, Nat.le_antisymm hstop hend ▸ hfed⟩
  | chunk pos hmore ih =>
    rw [hashUpTo_eq_read hmore]
    obtain ⟨n, r₁, hread, hlength, hrest, hsome, hoffers, hwriter⟩ :=
      h.run_read pos.offset (chunkLength stop pos) (afterRead scale subject feeding stop pos)
    have hchunk : (image.extract pos.offset (pos.offset + n)).size = n :=
      Bytes.size_slice_of_le hrest
    have hpos : 0 < n := by
      rcases Nat.eq_zero_or_pos n with hzero | hpos
      · have hasked := chunkLength_pos hmore
        have := hsome hzero
        omega
      · exact hpos
    rw [← hchunk] at hpos hlength
    have hinside := behind_le hstop hlength
    obtain ⟨r₂, told, hrun, hoffers₂, hmemory₂, hfed₂⟩ := exists_run_withChunk scale subject
      feeding stop pos (n := n) (by omega) hword hoffers fun hfeeding => hwriter ▸ hfed hfeeding
    rw [hread, afterRead_of_size_le hpos hlength, hrun, ← hwriter, ← hmemory₂]
    refine ih _ told hpos hlength hinside hoffers₂ fun hfeeding => ?_
    show r₂.writer.Streams l (image.extract 0 (pos.offset + _))
    rw [hchunk]
    exact hfed₂ hfeeding

/-! ## Metadata -/

/-- Finalizing a writer that has been fed the tree's data leaves the metadata in place, if there is
    memory for it. -/
theorem run_finalizeOn_cases {d : OpenedDevice} {contents : ByteArray} (h : r.Offers d image)
    (hwritable : d.writable = true) (hplaced : l.Placed image.size)
    (hstreams : r.writer.Streams l contents)
    (hcovers : l.hashTreeSize ≠ 0 → l.hashTreeDataOffset + l.hashTreeDataSize ≤ contents.size) :
    (l.FitsMemory r.writer.memory ∧ ∃ tree after r',
      (finalizeOn d).run host r = (r', some (.ok ())) ∧ r'.Offers d after ∧
      l.TreeFor contents tree ∧ l.Written tree image after) ∨
    (¬ l.FitsMemory r.writer.memory ∧ ∃ r', (finalizeOn d).run host r =
      (r', some (.error (.verity .memoryAllocationFailure))) ∧ r'.Offers d image) := by
  obtain ⟨tree, fec, htree, hfec, hfinalize⟩ := hstreams.finalize hcovers
  have hoffers : r.finalizeWriter.1.Offers d image := h.of_eq rfl
  rcases Verity.heldFec_cases hfec r.writer.memory with ⟨hheld, hfits⟩ | ⟨hheld, hsome, hlimit⟩
  · rw [hheld] at hfinalize
    have hyields := Verity.Finalization.yields_routine
      (f := ⟨if l.hashTreeSize = 0 then none else some (l.hashTreeOffset, tree), fec⟩) hwritable
      hplaced htree.size rfl hfec
    obtain ⟨_, after, hrun, hwritten, hafter⟩ := hyields.run hoffers
    obtain ⟨r', hrun⟩ : ∃ r', (Verity.DeviceRoutine.on P d _).run host r.finalizeWriter.1 =
        (r', some (.ok ())) := ⟨_, Prod.ext rfl hrun⟩
    rw [hrun] at hafter
    refine Or.inl ⟨hfits, tree, after, r', ?_, hafter, htree, hwritten⟩
    have hanswer : (r.answer .finalizeWriter).2 = .ok _ :=
      congrArg (Except.map Verity.Finalization.routine) hfinalize
    rw [finalizeOn, run_ask, hanswer]
    refine (run_bind host _ _ _).trans ?_
    rw [show Routine.run host (Routine.onDevice _ _ _) (r.answer .finalizeWriter).1 = _ from hrun]
    rfl
  · rw [hheld] at hfinalize
    refine Or.inr ⟨fun hfits => Nat.not_lt.mpr (hfits hsome) hlimit, r.finalizeWriter.1, ?_,
      hoffers⟩
    have hanswer : (r.answer .finalizeWriter).2 = .error .memoryAllocationFailure :=
      congrArg (Except.map Verity.Finalization.routine) hfinalize
    rw [finalizeOn, run_ask, hanswer]
    rfl

/-! ## A whole partition -/

/-- Hashing an image with a writer comes to the digest of the image with its metadata, if there is
    memory for the error correction, and otherwise fails for want of memory. -/
theorem run_hashPartition_cases (scale : Scale P) {subject : Subject} {dataEnd : Nat}
    (reported : P) (h : r.Offers subject.device image) (hsubject : subject.size = image.size)
    (hword : image.size < Verity.wordLimit) (hwritable : subject.device.writable = true)
    (hplaced : l.Placed image.size) (hstreams : r.writer.Streams l ByteArray.empty)
    (hcovers : l.hashTreeSize ≠ 0 →
      l.hashTreeDataOffset + l.hashTreeDataSize ≤ min dataEnd image.size) :
    (l.FitsMemory r.writer.memory ∧ ∃ tree after told r',
      (hashPartition scale subject dataEnd true reported).run host r =
        (r', some (.ok (partitionAlgorithm.digest (image.extract 0 (min dataEnd image.size) ++
          after.extract (min dataEnd image.size) image.size), told))) ∧
      r'.Offers subject.device after ∧ l.TreeFor (image.extract 0 (min dataEnd image.size)) tree ∧
      l.Written tree image after) ∨
    (¬ l.FitsMemory r.writer.memory ∧ ∃ r',
      (hashPartition scale subject dataEnd true reported).run host r =
        (r', some (.error (.verity .memoryAllocationFailure))) ∧
      r'.Offers subject.device image) := by
  have hmin : min dataEnd image.size ≤ image.size := Nat.min_le_right _ _
  have hfirst : (image.extract 0 (min dataEnd image.size)).size = min dataEnd image.size := by
    rw [ByteArray.size_extract]
    omega
  have hnothing : image.extract 0 0 = ByteArray.empty := ByteArray.extract_same
  -- the data in front of its end is read and fed
  obtain ⟨r₁, pos, hread, hoffers₁, hmemory, hfed⟩ := exists_run_hashUpTo (l := l) scale subject
    true _ ⟨0, .start partitionAlgorithm, reported⟩ hmin (fun _ => hword) (Nat.zero_le _) h
    fun _ => by rw [hnothing]; exact hstreams
  obtain ⟨-, hoffset, hcovered⟩ := run_hashUpTo hread
    (Position.covers_start reported _) (Nat.zero_le _)
  rw [Rig.device_image_of_some h.image?] at hcovered
  rw [← hsubject] at hread
  unfold hashPartition
  dsimp only
  rw [Attempt.run_andThen_of_ok hread, if_pos rfl, ← hmemory]
  rcases run_finalizeOn_cases hoffers₁ hwritable hplaced (hfed rfl) (by rwa [hfirst]) with
    ⟨hfits, tree, after, r₂, hfinalize, hoffers₂, htree, hwritten⟩ |
      ⟨hcrowded, r₂, hfinalize, hoffers₂⟩
  · -- then the rest is read as it is now
    have hsize := hwritten.sameBut.size
    have hresume := hcovered.resume hsize
    rw [← Rig.device_image_of_some hoffers₂.image?] at hresume
    obtain ⟨r₃, pos', hrest, hoffers₃, -⟩ := exists_run_hashUpTo (l := l) scale subject
      false subject.size pos (by omega) nofun (by omega) hoffers₂ nofun
    obtain ⟨-, hoffset', hcovered'⟩ := run_hashUpTo hrest hresume (by omega)
    refine Or.inl ⟨hfits, tree, after, pos'.reported, r₃, ?_, hoffers₃, htree, hwritten⟩
    rw [Rig.device_image_of_some hoffers₂.image?] at hcovered'
    rw [Attempt.run_andThen_of_ok hfinalize, Attempt.run_andThen_of_ok hrest, ← hoffset, ← hsubject,
      ← hoffset', ← Digest.Hasher.finish_fed, ← hcovered'.hasher]
    rfl
  · exact Or.inr ⟨hcrowded, r₂, Attempt.run_andThen_of_error hfinalize _, hoffers₂⟩

/-- Hashing the beginning of an image without a writer comes to its digest. -/
theorem run_hashPartition_of_offers (scale : Scale P) (subject : Subject) (dataEnd : Nat)
    (reported : P) (h : r.Offers subject.device image) (hsubject : subject.size ≤ image.size) :
    ∃ told r', (hashPartition scale subject dataEnd false reported).run host r =
        (r', some (.ok (partitionAlgorithm.digest (image.extract 0 subject.size), told))) ∧
      r'.Offers subject.device image := by
  -- which layout a writer would have does not matter
  obtain ⟨l⟩ : Nonempty Layout := ⟨⟨0, "", ByteArray.empty, 0, 0, 0, 0, 0, 0, 0, 0, 0⟩⟩
  obtain ⟨r₁, pos, hread, hoffers₁, -⟩ := exists_run_hashUpTo (l := l) scale subject false
    (min dataEnd subject.size) ⟨0, .start partitionAlgorithm, reported⟩ (by omega) nofun
    (Nat.zero_le _) h nofun
  obtain ⟨-, hoffset, hcovered⟩ :=
    run_hashUpTo hread (Position.covers_start reported _) (Nat.zero_le _)
  rw [Rig.device_image_of_some h.image?, ← Rig.device_image_of_some hoffers₁.image?] at hcovered
  obtain ⟨r₂, pos', hrest, hoffers₂, -⟩ := exists_run_hashUpTo (l := l) scale subject false
    subject.size pos (by omega) nofun (by omega) hoffers₁ nofun
  obtain ⟨-, hoffset', hcovered'⟩ := run_hashUpTo hrest hcovered (by omega)
  rw [Rig.device_image_of_some hoffers₁.image?] at hcovered'
  have hdigest : pos'.hasher.finish = partitionAlgorithm.digest (image.extract 0 subject.size) := by
    rw [hcovered'.hasher, hoffset', ByteArray.empty_append, Digest.Hasher.finish_fed]
  refine ⟨pos'.reported, r₂, ?_, hoffers₂⟩
  unfold hashPartition
  dsimp only
  rw [Attempt.run_andThen_of_ok hread, if_neg Bool.false_ne_true,
    Attempt.run_andThen_of_ok (show (Attempt.succeed () : Attempt P HashError Unit).run host r₁ =
      (r₁, some (.ok ())) from rfl), Attempt.run_andThen_of_ok hrest, ← hdigest]
  rfl

end Verification

end SlotVerify
