import SlotVerify.CommandLine.Desk
import SlotVerify.CommandLine.Execution
import SlotVerify.Proofs.Device.File
import SlotVerify.Proofs.Verification.Completion
import SlotVerify.Proofs.Verification.Dependence
/-
  Hashing an image that is a file.

  A session hashes a partition with files for devices, and keeps the writer to itself.  A rig that
  holds the file's contents in memory, and this writer, answers the calls of a hashing alike, and
  serves every request alike that comes to anything (`mirrored_desk`).  So what a hashing comes to
  on such a rig, it comes to at the desk, and the file then has the contents that the rig's image
  has (`exists_conduct_of_run`).
-/

namespace SlotVerify.CommandLine

open Device Verification Routine
open Verity (Writer Layout)

/-- Progress reports that leave everything alone but the texts on the side. -/
def Discreet {P : Type} (report : P → Session Unit) : Prop :=
  ∀ progress (d : Desk), ∃ remarks,
    (report progress).run Desk.host d = ({ d with remarks }, some ())

theorem discreet_silent {P : Type} : Discreet (P := P) fun _ => .done () :=
  fun _ d => ⟨d.remarks, rfl⟩

theorem discreet_showProgress : Discreet showProgress := fun _ _ => ⟨_, rfl⟩

/-- A path leads to a file with these contents; these texts have been printed so far. -/
structure Desk.Shows (d : Desk) (path name : String) (image : ByteArray) (printed : String) :
    Prop where
  lookup : d.files.lookup path = .ok (.file name image)
  size_le : image.size ≤ d.fileLimit.toNat
  printed : d.printed = printed

variable {P α β : Type} {d : Desk} {path name printed : String} {image : ByteArray} {w : Writer}
  {report : P → Session Unit}

theorem Desk.Shows.remark (h : d.Shows path name image printed) (remarks : String) :
    Desk.Shows { d with remarks } path name image printed :=
  ⟨h.lookup, h.size_le, h.printed⟩

/-- The contents of the file. -/
theorem Desk.Shows.readFile (h : d.Shows path name image printed) :
    d.files.readFile path = .ok image := by
  unfold FileStore.readFile
  rw [h.lookup]

/-- The opened image. -/
theorem Desk.device_of_lookup (h : d.files.lookup path = .ok (.file name image))
    (writable : Bool) :
    d.device ⟨.direct, path, writable⟩ = .ok ⟨some name, writable, image.size, d.fileLimit⟩ := by
  unfold Desk.device FileDevice.openPath
  rw [h]
  rfl

/-- What carrying out a request makes of the opened image. -/
theorem Desk.serve_of_lookup (h : d.files.lookup path = .ok (.file name image))
    (writable : Bool) (q : Device.Request) :
    d.serve ⟨.direct, path, writable⟩ q =
      ({ d with
          files := (FileDevice.serve d.files ⟨some name, writable, image.size, d.fileLimit⟩ q).1 },
        (FileDevice.serve d.files ⟨some name, writable, image.size, d.fileLimit⟩ q).2) := by
  unfold Desk.serve
  rw [device_of_lookup h]

/-- A request to the opened image, unless it is a write and the image was opened for reading. -/
theorem Desk.host_serve_of_lookup (h : d.files.lookup path = .ok (.file name image))
    {writable : Bool} {q : Device.Request}
    (hwritable : ∀ offset data, q = .write offset data → writable = true) :
    Desk.host.serve d ⟨.direct, path, writable⟩ q = d.serve ⟨.direct, path, writable⟩ q := by
  have haccept : FileDevice.accept ⟨some name, writable, image.size, d.fileLimit⟩ q = .ok () := by
    cases q with
    | read offset length => rfl
    | write offset data =>
      rw [hwritable offset data rfl]
      rfl
    | sync => rfl
  have hplace : Desk.host.place d ⟨.direct, path, writable⟩ q = (d, .taken 0) := by
    have hopened : (d.device ⟨.direct, path, writable⟩).bind (·.accept q) = .ok () := by
      rw [device_of_lookup h]
      exact haccept
    unfold Desk.host
    dsimp only
    rw [hopened]
  have hsubmit : Desk.host.submit d ⟨.direct, path, writable⟩ q = (d, .ok 0) := by
    unfold Host.submit
    rw [hplace]
    rfl
  rw [Host.serve_taken hsubmit]
  exact Desk.complete_eq d _ q

/-! ## A rig with the contents -/

/-- A rig with one image and a writer. -/
def imageRig (P : Type) (path : String) (image : ByteArray) (w : Writer) : Rig P where
  images := [(path, image)]
  writer := w

/-- The rig and the desk have the same image, the rig has the session's writer, and it delivers all
    that is read. -/
structure Mirrors (device : OpenedDevice) (name printed : String) (r : Rig P) (d : Desk)
    (w : Writer) : Prop where
  readLimit : r.readLimit = none
  writer : r.writer = w
  image : ∃ image, r.Offers device image ∧ d.Shows device.path name image printed

/-- A rig that mirrors a desk answers and serves as the desk does, as far as a hashing is
    concerned. -/
theorem mirrored_desk (hreport : Discreet report) (path name printed : String) (writable : Bool) :
    (Rig.host (P := P)).Mirrored (hashingUsage P ⟨.direct, path, writable⟩) Desk.host
      (carryOut report) id (Mirrors ⟨.direct, path, writable⟩ name printed) where
  answer := by
    rintro r d w c ⟨hlimit, rfl, image, hoffers, hshows⟩ hc
    cases c with
    | updateWriter offset data =>
      exact ⟨trivial, d, _, rfl, hlimit, rfl, image, hoffers.of_eq rfl, hshows⟩
    | finalizeWriter =>
      refine ⟨?_, d, _, rfl, hlimit, rfl, image, hoffers.of_eq rfl, hshows⟩
      intro t ht
      obtain ⟨f, -, rfl⟩ := Writer.finalize_of_routine (Eq.symm ht)
      exact ⟨f, rfl⟩
    | report progress =>
      obtain ⟨remarks, hrun⟩ := hreport progress d
      obtain ⟨hheard, hwriter⟩ := hoffers.hear progress
      refine ⟨trivial, { d with remarks }, r.writer, ?_, ?_, hwriter, image, hheard,
        hshows.remark remarks⟩
      · refine (run_bind Desk.host _ (report progress) d).trans ?_
        rw [hrun]
        rfl
      · show (r.hear progress).readLimit = none
        unfold Rig.hear
        split <;> exact hlimit
    | wake => exact ⟨trivial, d, _, rfl, hlimit, rfl, image, hoffers, hshows⟩
    | _ => exact hc.elim
  serve := by
    rintro r d w device q ⟨hlimit, rfl, image, hoffers, hshows⟩ rfl
    change q.Fruitless (Rig.host.serve r _ q).2 ∨
      (Desk.host.serve d ⟨.direct, path, writable⟩ q).2 = _ ∧ Mirrors _ name printed _
        (Desk.host.serve d ⟨.direct, path, writable⟩ q).1 r.writer
    by_cases hwritable : ∀ offset data, q = .write offset data → writable = true
    · obtain ⟨m, himage, hfail, hmlimit, houtcome, hoffers', hwriter, hlimit'⟩ :=
        hoffers.serve hwritable
      have hfails : ∀ offset length, m.readFails offset length = false :=
        MemoryDevice.readFails_of_failReadAt hfail
      rw [houtcome, Desk.host_serve_of_lookup hshows.lookup hwritable,
        Desk.serve_of_lookup hshows.lookup]
      refine (FileDevice.serve_memory hshows.lookup hshows.size_le himage (hmlimit.trans hlimit)
        hfails writable image.size q).imp id ?_
      rintro ⟨hsame, hlookup, hsize⟩
      exact ⟨hsame, hlimit'.trans hlimit, hwriter, _, hoffers', hlookup, hsize, hshows.printed⟩
    · -- a write to an image that was opened for reading
      refine Or.inl ?_
      cases q with
      | write offset data =>
        have hreadonly : writable = false := by
          simpa using hwritable
        have hserve := Rig.serve_of_none (d := ⟨.direct, path, writable⟩)
          (q := .write offset data) hoffers.reliable.failing
          (Rig.faultFor_eq_none hoffers.reliable.faults _)
        rw [hreadonly] at hserve ⊢
        rw [hserve]
        trivial
      | _ => exact absurd nofun hwritable

theorem offers_imageRig (P : Type) (path : String) (image : ByteArray) (w : Writer)
    (writable : Bool) : (imageRig P path image w).Offers ⟨.direct, path, writable⟩ image := by
  refine ⟨⟨rfl, rfl, rfl, nofun⟩, ?_⟩
  show (List.find? _ [(path, image)]).map _ = _
  simp [Rig.imagePath]

/-- What a hashing comes to on a rig with the contents of a file, it comes to at the desk, and the
    file then has the contents of the rig's image. -/
theorem exists_conduct_of_run (hreport : Discreet report) {writable : Bool}
    (hd : d.Shows path name image printed) {t : Attempt P HashError α}
    (ht : t.Depends ⟨.direct, path, writable⟩) {r : Rig P} {outcome : Except HashError α}
    (hrun : t.run Rig.host (imageRig P path image w) = (r, some outcome))
    (hkept : ¬ Failed (· ≠ .verity .memoryAllocationFailure) outcome) :
    ∃ d' w' after, (conduct report w t).run Desk.host d = (d', some (outcome, w')) ∧
      r.Offers ⟨.direct, path, writable⟩ after ∧ d'.Shows path name after printed := by
  have hmirrors : Mirrors ⟨.direct, path, writable⟩ name printed (imageRig P path image w) d w :=
    ⟨rfl, rfl, image, offers_imageRig P path image w writable, hd⟩
  obtain ⟨d', w', hconduct, -, -, after, hoffers, hshows⟩ :=
    ht.run_interpret (mirrored_desk hreport path name printed writable) hmirrors hrun hkept
  exact ⟨d', w', after, hconduct, hoffers, hshows⟩

theorem conduct_of_run (hreport : Discreet report) {writable : Bool}
    (hd : d.Shows path name image printed) {t : Attempt P HashError α}
    (ht : t.Depends ⟨.direct, path, writable⟩) {r : Rig P} {outcome : Except HashError α}
    (hrun : t.run Rig.host (imageRig P path image w) = (r, some outcome))
    (hkept : ¬ Failed (· ≠ .verity .memoryAllocationFailure) outcome) {after : ByteArray}
    (hafter : r.Offers ⟨.direct, path, writable⟩ after) :
    ∃ d' w', (conduct report w t).run Desk.host d = (d', some (outcome, w')) ∧
      d'.Shows path name after printed := by
  obtain ⟨d', w', image', hconduct, hoffers, hshows⟩ :=
    exists_conduct_of_run hreport hd ht hrun hkept
  cases hoffers.image?.symm.trans hafter.image?
  exact ⟨d', w', hconduct, hshows⟩

/-! ## Hashing a file -/

section

variable (scale : Scale P) (subject : Subject) (dataEnd : Nat) (reported : P) {l : Layout}

/-- Hashing a file with a writer leaves the metadata in it, if there is memory for that, and comes
    to the digest of its bytes in front of the end of the data, and of those behind it
    afterwards. -/
theorem conduct_hashPartition_cases (hreport : Discreet report)
    (hd : d.Shows path name image printed) (hdevice : subject.device = ⟨.direct, path, true⟩)
    (hsubject : subject.size = image.size) (hplaced : l.Placed image.size)
    (hstreams : w.Streams l ByteArray.empty)
    (hcovers : l.hashTreeSize ≠ 0 →
      l.hashTreeDataOffset + l.hashTreeDataSize ≤ min dataEnd image.size) :
    (l.FitsMemory w.memory ∧ ∃ tree after told d' w',
      (conduct report w (hashPartition scale subject dataEnd true reported)).run Desk.host d =
        (d', some (.ok (partitionAlgorithm.digest (image.extract 0 (min dataEnd image.size) ++
          after.extract (min dataEnd image.size) image.size), told), w')) ∧
      d'.Shows path name after printed ∧ l.TreeFor (image.extract 0 (min dataEnd image.size)) tree ∧
      l.Written tree image after) ∨
    (¬ l.FitsMemory w.memory ∧ ∃ d' w',
      (conduct report w (hashPartition scale subject dataEnd true reported)).run Desk.host d =
        (d', some (.error (.verity .memoryAllocationFailure), w'))) := by
  have hdepends := depends_hashPartition scale subject dataEnd true reported
  have hoffers := offers_imageRig P path image w true
  have hword : image.size < Verity.wordLimit := Nat.lt_of_le_of_lt hd.size_le d.fileLimit.toNat_lt
  rw [hdevice] at hdepends
  rw [← hdevice] at hoffers
  rcases run_hashPartition_cases scale reported hoffers hsubject hword (by rw [hdevice]) hplaced
    hstreams hcovers with
    ⟨hfits, tree, after, told, r, hrun, hafter, htree, hwritten⟩ |
      ⟨hcrowded, r, hrun, hafter⟩
  · rw [hdevice] at hafter
    obtain ⟨d', w', hconduct, hshows⟩ :=
      conduct_of_run hreport hd hdepends hrun id hafter
    exact Or.inl ⟨hfits, tree, after, told, d', w', hconduct, hshows, htree, hwritten⟩
  · rw [hdevice] at hafter
    obtain ⟨d', w', hconduct, -⟩ :=
      conduct_of_run hreport hd hdepends hrun (fun h => h rfl) hafter
    exact Or.inr ⟨hcrowded, d', w', hconduct⟩

/-- Hashing a file without a writer comes to its digest. -/
theorem conduct_hashPartition_reading (hreport : Discreet report)
    (hd : d.Shows path name image printed) {writable : Bool}
    (hdevice : subject.device = ⟨.direct, path, writable⟩) (hsubject : subject.size = image.size) :
    ∃ told d' w',
      (conduct report w (hashPartition scale subject dataEnd false reported)).run Desk.host d =
        (d', some (.ok (partitionAlgorithm.digest image, told), w')) ∧
      d'.Shows path name image printed := by
  have hdepends := depends_hashPartition scale subject dataEnd false reported
  have hoffers := offers_imageRig P path image w writable
  rw [hdevice] at hdepends
  rw [← hdevice] at hoffers
  obtain ⟨told, r, hrun, hafter⟩ :=
    run_hashPartition_of_offers scale subject dataEnd reported hoffers (Nat.le_of_eq hsubject)
  rw [hsubject, ByteArray.extract_zero_size] at hrun
  rw [hdevice] at hafter
  obtain ⟨d', w', hconduct, hshows⟩ := conduct_of_run hreport hd hdepends hrun id hafter
  exact ⟨told, d', w', hconduct, hshows⟩

end

end SlotVerify.CommandLine
