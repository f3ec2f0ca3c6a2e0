import SlotVerify.Proofs.Routine.Passage
import SlotVerify.Proofs.Verification.Hashing
/-
  The digest of a partition, run by run.

  A run that hashes a partition with a writer and comes to a digest is a run that feeds the writer,
  one that finalizes it, and one that reads the rest (`run_andThen_ok`).  The first and the last one
  leave the image alone, so the digest is that of what the finalization has found in front of the
  end of the data, and of what it has left behind it (`digest_with_writer`).

  Without a writer only the end of the image can stop the reading, if the device does what it is
  asked for (`digest_without_writer`).
-/

namespace SlotVerify.Verification

open Routine
open Rig (host surroundings Still Frame)

variable {P : Type} {r : Rig P}

/-- A run of a sequence that succeeds is a run of the first part that succeeds, and then one of the
    second part. -/
theorem Attempt.run_andThen_ok {ε α β : Type} {t : Attempt P ε α} {f : α → Attempt P ε β} {b : β}
    (h : ((t.andThen f).run host r).2 = some (.ok b)) :
    ∃ a r', t.run host r = (r', some (.ok a)) ∧
      (t.andThen f).run host r = (f a).run host r' := by
  have hrun : (t.andThen f).run host r = _ := run_bind host _ t r
  rw [hrun] at h ⊢
  cases hfirst : t.run host r with
  | mk r' outcome =>
    rw [hfirst] at h
    cases outcome with
    | none => cases h
    | some outcome =>
      cases outcome with
      | error e => cases h
      | ok a => exact ⟨a, r', rfl, rfl⟩

/-- Reading that succeeds in a run leaves everything alone and has hashed the image up to `stop`. -/
theorem run_hashUpTo {scale : Scale P} {subject : Subject} {feeding : Bool} {stop first : Nat}
    {base : ByteArray} {pos pos' : Position P} {r' : Rig P}
    (hrun : (hashUpTo scale subject feeding stop pos).run host r = (r', some (.ok pos')))
    (hpos : pos.Covers base (r.device subject.device).image first) (hstop : pos.offset ≤ stop) :
    Still r r' ∧ pos'.offset = stop ∧
      pos'.Covers base (r.device subject.device).image first := by
  have hmeets := run_meets (meets_hashUpTo scale subject feeding
    (fun _ _ => trivial) hpos hstop).still
  rw [hrun] at hmeets
  exact hmeets

/-- A finalization changes nothing but metadata. -/
theorem run_finalizeOn {d : OpenedDevice} {l : Verity.Layout} {r' : Rig P}
    {outcome : Option (Except HashError Unit)} (hrun : (finalizeOn d).run host r = (r', outcome))
    (hserves : r.writer.Serves l) : Frame (placesOn d l.Metadata) r r' := by
  have hmeets := run_meets (meets_finalizeOn (d := d) hserves
    fun _ _ => trivial).still
  rw [hrun] at hmeets
  exact hmeets

/-- A run with a writer that comes to a digest.  The file system data has been read at `r₁`, the
    metadata has been written at `r₂`; the digest is that of the partition as it was then, in front
    of the end of the data at `r₁` and behind it at `r₂`. -/
structure Digested (scale : Scale P) (subject : Subject) (dataEnd : Nat) (reported : P)
    (digest : ByteArray) (r r₁ r₂ : Rig P) : Prop where
  read : ∃ pos, (hashUpTo scale subject true (min dataEnd subject.size)
    ⟨0, .start partitionAlgorithm, reported⟩).run host r = (r₁, some (.ok pos))
  finalize : (finalizeOn subject.device).run host r₁ = (r₂, some (.ok ()))
  image_read : (r₁.device subject.device).image = (r.device subject.device).image
  image_end : (((hashPartition scale subject dataEnd true reported).run host r).1.device
    subject.device).image = (r₂.device subject.device).image
  size_le : subject.size ≤ (r₂.device subject.device).image.size
  digest_eq : digest = partitionAlgorithm.digest
    ((r₁.device subject.device).image.extract 0 (min dataEnd subject.size) ++
      (r₂.device subject.device).image.extract (min dataEnd subject.size) subject.size)

theorem digested_of_run {scale : Scale P} {subject : Subject} {dataEnd : Nat} {reported : P}
    {l : Verity.Layout} (hserves : r.writer.Serves l) {digest : ByteArray} {told : P}
    (h : ((hashPartition scale subject dataEnd true reported).run host r).2 =
      some (.ok (digest, told))) :
    ∃ r₁ r₂, Digested scale subject dataEnd reported digest r r₁ r₂ := by
  obtain ⟨pos, r₁, hread, hwhole⟩ := Attempt.run_andThen_ok h
  change (hashPartition scale subject dataEnd true reported).run host r = _ at hwhole
  rw [hwhole] at h
  obtain ⟨_, r₂, hfinalize, hrun⟩ := Attempt.run_andThen_ok h
  change (finalizeOn subject.device).run host r₁ = _ at hfinalize
  rw [hrun] at h hwhole
  obtain ⟨pos', r₃, hrest, hrun⟩ := Attempt.run_andThen_ok h
  have hend : (Attempt.succeed (pos'.hasher.finish, pos'.reported) :
      Attempt P HashError (ByteArray × P)).run host r₃ =
        (r₃, some (.ok (pos'.hasher.finish, pos'.reported))) := rfl
  rw [hrun, hend] at h hwhole
  -- the first stretch and the last one leave the image alone
  obtain ⟨hstill, hoffset, hcovers⟩ :=
    run_hashUpTo hread (Position.covers_start reported _) (Nat.zero_le _)
  have hframe := run_finalizeOn hfinalize (hstill.serves l hserves)
  have hsize := (hframe.sameBut.device_image subject.device).size
  rw [hstill.device_image] at hsize
  have hstop : pos.offset ≤ subject.size := by omega
  obtain ⟨hstill', hoffset', hcovers'⟩ := run_hashUpTo hrest (hcovers.resume hsize) hstop
  obtain ⟨hdigest, -⟩ := Prod.mk.inj (Except.ok.inj (Option.some.inj h))
  refine ⟨r₁, r₂, ⟨pos, hread⟩, hfinalize, hstill.device_image _, ?_, ?_, ?_⟩
  · rw [hwhole]
    exact hstill'.device_image _
  · rw [← hoffset']
    exact hcovers'.offset_le
  · rw [← hdigest, hstill.device_image, ← hoffset, ← hoffset', hcovers'.hasher,
      Digest.Hasher.finish_fed]

/-- What hashing a partition without a writer comes to in a run: nothing is written. -/
theorem run_hashPartition_false (scale : Scale P) (subject : Subject) (dataEnd : Nat)
    (reported : P) (r : Rig P) :
    (((hashPartition scale subject dataEnd false reported).run host r).1.device
        subject.device).image = (r.device subject.device).image ∧
      PartitionHashed r subject dataEnd false
        ((hashPartition scale subject dataEnd false reported).run host r).2
        ((hashPartition scale subject dataEnd false reported).run host r).1 := by
  -- which layout the writer would have does not matter
  obtain ⟨l⟩ : Nonempty Verity.Layout :=
    ⟨⟨0, "", ByteArray.empty, 0, 0, 0, 0, 0, 0, 0, 0, 0⟩⟩
  have hserves : false = true → r.writer.Serves l := nofun
  obtain ⟨hframe, hhashed⟩ := run_meets (meets_hashPartition scale subject dataEnd reported hserves
    fun _ _ => trivial).still
  refine ⟨(hframe.sameBut.device_image subject.device).eq ?_, hhashed⟩
  rintro x ⟨hwriting, -⟩
  cases hwriting

/-- The digest of a partition is that of its bytes, each of them hashed once and in order, whatever
    the reads are cut into: with a writer those in front of the end of the file system data before
    the metadata is written and the rest afterwards, without one all as they are.  On a device that
    does what it is asked for, a partition without a writer has a digest exactly if the image is
    long enough; otherwise the error says where the image ends. -/
theorem digest_hashPartition (scale : Scale P) (subject : Subject) (dataEnd : Nat) (reported : P)
    (r : Rig P) :
    (∀ (w : Verity.Writer) (l : Verity.Layout), (w.init l).2 = .ok () → r.writer = (w.init l).1 →
      ∀ digest told, ((hashPartition scale subject dataEnd true reported).run host r).2 =
        some (.ok (digest, told)) →
      ∃ r₁ r₂, Digested scale subject dataEnd reported digest r r₁ r₂) ∧
    (∀ digest told, ((hashPartition scale subject dataEnd false reported).run host r).2 =
        some (.ok (digest, told)) →
      digest = partitionAlgorithm.digest
        ((r.device subject.device).image.extract 0 subject.size)) ∧
    (r.Quiet →
      ((∃ digest told, ((hashPartition scale subject dataEnd false reported).run host r).2 =
          some (.ok (digest, told))) ↔
        subject.size ≤ (r.device subject.device).image.size) ∧
      ((r.device subject.device).image.size < subject.size →
        ((hashPartition scale subject dataEnd false reported).run host r).2 =
          some (.error (.unexpectedEnd (r.device subject.device).image.size)))) := by
  refine ⟨?_, ?_⟩
  · intro w l hinit hwriter digest told h
    exact digested_of_run (hwriter ▸ Verity.Writer.serves_init hinit) h
  · obtain ⟨himage, hhashed⟩ := run_hashPartition_false scale subject dataEnd reported r
    generalize (hashPartition scale subject dataEnd false reported).run host r = run at *
    obtain ⟨r', outcome⟩ := run
    match outcome, hhashed with
    | some (.ok (digest, told)), ⟨hsize, hdigest⟩ =>
      rw [himage] at hsize hdigest
      rw [ByteArray.extract_append_extract, Nat.zero_min, Nat.max_eq_right (Nat.min_le_right _ _)]
        at hdigest
      refine ⟨?_, fun _ => ⟨iff_of_true ⟨digest, told, rfl⟩ hsize, fun hshort => ?_⟩⟩
      · rintro _ _ ⟨⟩
        exact hdigest
      · omega
    | some (.error e), herror =>
      refine ⟨nofun, fun hquiet => ?_⟩
      obtain ⟨rfl, hshort⟩ := herror rfl hquiet
      exact ⟨iff_of_false nofun (Nat.not_le.mpr hshort), fun _ => rfl⟩

/-- Two bytes of data, and their parity bytes behind them. -/
def twoBytes : Verity.Layout where
  blockSize := 1
  hashTreeAlgorithm := "sha256"
  hashTreeSalt := ByteArray.empty
  hashTreeDataOffset := 0
  hashTreeDataSize := 0
  hashTreeOffset := 0
  hashTreeSize := 0
  fecDataOffset := 0
  fecDataSize := 2
  fecOffset := 2
  fecSize := 2
  fecRoots := 2

/-- The beginning of an image, as the only partition of a plan. -/
def bootImage (size : Nat) : Subject where
  device := ⟨.direct, "/dev/boot", true⟩
  size
  index := 0
  partitions := 1

/-- Four bytes that are read one by one, and a writer for their parity bytes. -/
def twoBytesRig : Rig Nat where
  images := [("/dev/boot", [5, 7, 0, 0].toByteArray)]
  readLimit := some 1
  writer := (Verity.Writer.fresh.init twoBytes).1

/-- With the writer there is a digest; and five bytes are not to be had. -/
theorem digest_hashPartition_twoBytes :
    (∃ digest told r₁ r₂,
      ((hashPartition .bytes (bootImage 4) 2 true 0).run host twoBytesRig).2 =
        some (.ok (digest, told)) ∧
      Digested .bytes (bootImage 4) 2 0 digest twoBytesRig r₁ r₂) ∧
    ((hashPartition .bytes (bootImage 5) 2 false 0).run host twoBytesRig).2 =
      some (.error (.unexpectedEnd 4)) := by
  have hrun : ((hashPartition .bytes (bootImage 4) 2 true 0).run host twoBytesRig).2.map (·.isOk) =
      some true := by
    decide +kernel
  obtain ⟨outcome, houtcome, hok⟩ := Option.map_eq_some_iff.mp hrun
  constructor
  · obtain ⟨⟨digest, told⟩, rfl⟩ : ∃ result, outcome = .ok result := by
      cases outcome with
      | ok result => exact ⟨result, rfl⟩
      | error e => cases hok
    obtain ⟨r₁, r₂, hdigested⟩ := (digest_hashPartition .bytes (bootImage 4) 2 0 twoBytesRig).1
      .fresh twoBytes rfl rfl digest told houtcome
    exact ⟨digest, told, r₁, r₂, houtcome, hdigested⟩
  · have hquiet : twoBytesRig.Quiet := ⟨⟨rfl, rfl, rfl, by decide⟩, rfl, rfl⟩
    exact ((digest_hashPartition .bytes (bootImage 5) 2 0 twoBytesRig).2.2 hquiet).2 (by decide)

end SlotVerify.Verification
