import Mathlib
import SlotVerify.Proofs.CommandLine.Regions
import SlotVerify.Proofs.CommandLine.Verifying
import SlotVerify.Proofs.Verity.Rewriting
/-
  An image that has got its verity metadata passes its verification.

  Two callers feed the writer.  Writing the metadata of an image feeds what the hash tree covers,
  and verifying the image feeds everything in front of the metadata, a gap included.  If the regions
  of the image follow each other, neither misses anything that the tree covers, nor feeds anything
  that changes, so the tree is the same, and writing the metadata again leaves the image as it is
  (`verifyPlan_of_finished`).  The digest that was printed is the one of the finished image
  (`execute_cases`), and a plan that expects it is verified with success (`verified_of_written`).
-/

namespace SlotVerify.CommandLine

open Device Verification Routine
open Verity (Writer Layout)

variable {a : WriteVerityArguments} {memory : Nat} {d d' : Desk} {name printed : String}
  {image tree after : ByteArray}

/-! ## Writing -/

/-- An image is finished: it has the metadata over this data, and there is memory to write it. -/
structure Finished (a : WriteVerityArguments) (memory : Nat) (before image : ByteArray) : Prop where
  fits : a.layout.FitsMemory memory
  written : ∃ tree, a.layout.TreeFor (before.extract 0 (min a.dataSize before.size)) tree ∧
    a.layout.Written tree before image

/-- The data is what it was before. -/
theorem Finished.data_eq {before : ByteArray} (h : Finished a memory before image)
    (horder : a.InOrder) {stop : Nat} (hstop : stop ≤ a.dataSize) (hsize : stop ≤ before.size) :
    image.extract 0 stop = before.extract 0 stop := by
  obtain ⟨tree, -, hwritten⟩ := h.written
  exact hwritten.sameBut.extract_eq hsize fun x _ hx =>
    horder.data_apart (Nat.lt_of_lt_of_le hx hstop)

/-- The digest of a finished image, from the data before and the rest afterwards. -/
theorem Finished.digest_eq {before : ByteArray} (h : Finished a memory before image)
    (horder : a.InOrder) :
    before.extract 0 (min a.dataSize before.size) ++
      image.extract (min a.dataSize before.size) before.size = image := by
  obtain ⟨tree, -, hwritten⟩ := h.written
  rw [← h.data_eq horder (Nat.min_le_left _ _) (Nat.min_le_right _ _),
    ByteArray.extract_append_extract, Nat.zero_min, Nat.max_eq_right (Nat.min_le_right _ _),
    ← hwritten.sameBut.size, ByteArray.extract_zero_size]

theorem run_asking {β : Type} (r : CommandLine.Request) (next : r.Reply → Session β) (d : Desk) :
    (request r next).run Desk.host d = (next (d.answer r).2).run Desk.host (d.answer r).1 := rfl

/-- An image that is a file is opened. -/
theorem run_withImage {path : String} (hlookup : d.files.lookup path = .ok (.file name image))
    (writable : Bool) (next : Nat → Execution) :
    (withImage path writable next).run Desk.host d = (next image.size).run Desk.host d := by
  have hanswer : (d.answer (.openImage path writable)).2 = .ok image.size := by
    show (FileDevice.openPath d.files path writable d.fileLimit).map (·.size) = _
    unfold FileDevice.openPath
    rw [hlookup]
    rfl
  rw [withImage, run_asking, hanswer]
  rfl

/-- The writing of metadata, if nothing has to be refused. -/
theorem run_execute (hlookup : d.files.lookup a.image = .ok (.file name image))
    (hfault : a.layoutFault? = none) (hend : a.metadataEnd ≤ image.size)
    (hinit : ((Writer.fresh memory).init a.layout).2 = .ok ()) :
    (a.execute memory).run Desk.host d =
      ((hashImage ⟨.direct, a.image, true⟩ image.size a.dataSize true
        ((Writer.fresh memory).init a.layout).1).bind fun
          | (.error e, _) => fail (.notWritten e)
          | (.ok digest, w) => succeed (digestLines w.lastRootDigest digest)).run Desk.host d := by
  unfold WriteVerityArguments.execute WriteVerityArguments.checkedLayout
  rw [hfault]
  dsimp only
  rw [run_withImage hlookup, if_neg (Nat.not_lt.mpr hend)]
  generalize (Writer.fresh memory).init a.layout = begun at hinit
  obtain ⟨w, outcome⟩ := begun
  cases hinit
  rfl

/-- A hashing that comes to a digest makes the command a success. -/
theorem run_execute_of_hashed (hlookup : d.files.lookup a.image = .ok (.file name image))
    (hfault : a.layoutFault? = none) (hend : a.metadataEnd ≤ image.size)
    (hinit : ((Writer.fresh memory).init a.layout).2 = .ok ()) {digest : ByteArray} {told : Nat}
    {w : Writer} (hhash : (conduct (fun _ => .done ()) ((Writer.fresh memory).init a.layout).1
      (hashPartition .bytes ⟨⟨.direct, a.image, true⟩, image.size, 0, 1⟩ a.dataSize true 0)).run
        Desk.host d = (d', some (.ok (digest, told), w))) :
    (a.execute memory).run Desk.host d =
      ({ d' with printed := d'.printed ++ digestLines w.lastRootDigest digest },
        some (.ok .success)) := by
  rw [run_execute hlookup hfault hend hinit, hashImage, run_bind, run_bind, hhash]
  rfl

/-- What the writing of metadata comes to: the image is finished, and the texts that are printed
    tell its digest, unless there is not enough memory. -/
theorem execute_cases (hd : d.Shows a.image name image printed) (horder : a.InOrder)
    (hfault : a.layoutFault? = none) (hend : a.metadataEnd ≤ image.size)
    (hinit : ((Writer.fresh memory).init a.layout).2 = .ok ()) :
    (∃ root finished d', (a.execute memory).run Desk.host d = (d', some (.ok .success)) ∧
      d'.Shows a.image name finished
        (printed ++ digestLines root (partitionAlgorithm.digest finished)) ∧
      Finished a memory image finished) ∨
    (¬ a.layout.FitsMemory memory ∧ ∃ d', (a.execute memory).run Desk.host d =
      (d', some (.error (.notWritten (.verity .memoryAllocationFailure))))) := by
  have hstreams := Verity.Writer.streams_init hinit
  have hcovers : a.layout.hashTreeSize ≠ 0 → a.layout.hashTreeDataOffset +
      a.layout.hashTreeDataSize ≤ min a.dataSize image.size := by
    intro htree
    have := horder.data_le_size hend htree
    show 0 + a.dataSize ≤ _
    omega
  rcases conduct_hashPartition_cases .bytes ⟨⟨.direct, a.image, true⟩, image.size, 0, 1⟩
    a.dataSize 0 discreet_silent hd rfl rfl (horder.placed hend) hstreams hcovers with
    ⟨hfits, tree, finished, told, d', w', hrun, hshows, htree, hwritten⟩ |
      ⟨hcrowded, d', w', hrun⟩
  · rw [Writer.memory_init] at hfits
    have hfinished : Finished a memory image finished := ⟨hfits, tree, htree, hwritten⟩
    rw [hfinished.digest_eq horder] at hrun
    exact Or.inl ⟨w'.lastRootDigest, finished, _,
      run_execute_of_hashed hd.lookup hfault hend hinit hrun,
      ⟨hshows.lookup, hshows.size_le, congrArg (· ++ _) hshows.printed⟩, hfinished⟩
  · rw [Writer.memory_init] at hcrowded
    refine Or.inr ⟨hcrowded, d', ?_⟩
    rw [run_execute hd.lookup hfault hend hinit, hashImage, run_bind, run_bind, hrun]
    rfl

/-- Only a file can be opened for writing. -/
theorem exists_file_of_openPath {s : FileStore} {path : String} {limit : UInt64} {f : FileDevice}
    (h : FileDevice.openPath s path true limit = .ok f) :
    ∃ name image, s.lookup path = .ok (.file name image) ∧ f.size = image.size := by
  unfold FileDevice.openPath at h
  split at h
  · cases h
  · rename_i name image hlookup
    cases h
    exact ⟨name, image, hlookup, rfl⟩
  · cases h

/-- What has to be in order for the metadata to be written. -/
theorem conditions_of_success (h : (a.execute memory).run Desk.host d = (d', some (.ok .success))) :
    ∃ name image, d.files.lookup a.image = .ok (.file name image) ∧ a.layoutFault? = none ∧
      a.metadataEnd ≤ image.size ∧ ((Writer.fresh memory).init a.layout).2 = .ok () := by
  unfold WriteVerityArguments.execute WriteVerityArguments.checkedLayout at h
  cases hfault : a.layoutFault? with
  | some fault =>
    rw [hfault] at h
    cases h
  | none =>
    rw [hfault] at h
    dsimp only at h
    rw [withImage, run_asking] at h
    have hanswer : (d.answer (.openImage a.image true)).2 =
        (FileDevice.openPath d.files a.image true d.fileLimit).map (·.size) := rfl
    rw [hanswer] at h
    cases hopen : FileDevice.openPath d.files a.image true d.fileLimit with
    | error e =>
      rw [hopen] at h
      cases h
    | ok f =>
      obtain ⟨name, image, hlookup, hsize⟩ := exists_file_of_openPath hopen
      rw [hopen] at h
      dsimp only [Except.map] at h
      rw [hsize] at h
      split at h
      · cases h
      · rename_i hend
        refine ⟨name, image, hlookup, rfl, Nat.not_lt.mp hend, ?_⟩
        generalize (Writer.fresh memory).init a.layout = begun at h
        obtain ⟨w, outcome⟩ := begun
        match outcome, h with
        | .ok (), _ => rfl
        | .error (.rejected e), h => cases h
        | .error (.breakdown f), h => cases h

/-! ## Writing again -/

/-- Hashing a finished image with a writer leaves it as it is, and comes to its digest, wherever
    behind the tree's data the feeding ends. -/
theorem hashPartition_finished {before : ByteArray} (hfinished : Finished a memory before image)
    (horder : a.InOrder) (hend : a.metadataEnd ≤ image.size)
    (hinit : ((Writer.fresh memory).init a.layout).2 = .ok ())
    (hd : d.Shows a.image name image printed) {subject : Subject}
    (hdevice : subject.device = ⟨.direct, a.image, true⟩) (hsize : subject.size = image.size)
    {stop : Nat} (hstop : stop ≤ image.size) (hdata : a.hashTreeSize ≠ 0 → a.dataSize ≤ stop) :
    ∃ told d' w', (conduct showProgress ((Writer.fresh memory).init a.layout).1
        (hashPartition .double subject stop true Scale.double.zero)).run Desk.host d =
          (d', some (.ok (partitionAlgorithm.digest image, told), w')) ∧
      d'.Shows a.image name image printed := by
  obtain ⟨tree, htree, hwritten⟩ := hfinished.written
  have hsame := hwritten.sameBut.size
  have hmin : min stop image.size = stop := Nat.min_eq_left hstop
  have hcovers : a.layout.hashTreeSize ≠ 0 → a.layout.hashTreeDataOffset +
      a.layout.hashTreeDataSize ≤ min stop image.size := by
    intro hsome
    rw [hmin]
    show 0 + a.dataSize ≤ stop
    rw [Nat.zero_add]
    exact hdata hsome
  rcases conduct_hashPartition_cases .double subject stop Scale.double.zero discreet_showProgress hd
    hdevice hsize (horder.placed hend) (Verity.Writer.streams_init hinit) hcovers with
    ⟨-, tree', after, told, d', w', hrun, hshows, htree', hwritten'⟩ | ⟨hcrowded, -⟩
  · -- both streams have the same data for the tree
    have htrees : tree' = tree := by
      refine htree.unique htree' fun hsome => ?_
      have hle := horder.data_le_size hend hsome
      have hstop' := hdata hsome
      show (image.extract 0 (min stop image.size)).extract 0 (0 + a.dataSize) =
        (before.extract 0 (min a.dataSize before.size)).extract 0 (0 + a.dataSize)
      rw [hmin, ByteArray.extract_extract, ByteArray.extract_extract]
      simp only [Nat.zero_add]
      rw [Nat.min_eq_left hstop', Nat.min_eq_left (by omega)]
      exact hfinished.data_eq horder (Nat.le_refl _) (by omega)
    subst htrees
    obtain rfl : after = image :=
      hwritten.stable (hsame ▸ horder.placed hend) htree.size hwritten'
    rw [ByteArray.extract_append_extract, Nat.zero_min, Nat.max_eq_right (Nat.min_le_right _ _),
      ByteArray.extract_zero_size] at hrun
    exact ⟨told, d', w', hrun, hshows⟩
  · rw [Writer.memory_init] at hcrowded
    exact absurd hfinished.fits hcrowded

/-- A plan with the layout, the size and the digest of a finished image is verified with success,
    whether it has the metadata written again or not, and the image stays as it is. -/
theorem verifyPlan_of_finished {before : ByteArray} (hfinished : Finished a memory before image)
    (horder : a.InOrder) (hend : a.metadataEnd ≤ image.size)
    (hinit : ((Writer.fresh memory).init a.layout).2 = .ok ())
    (hd : d.Shows a.image name image printed) {plan : InstallPlan} {p : Partition}
    (hplan : plan.partitions = [p]) (hpath : p.targetPath = a.image)
    (hlayout : p.verityLayout = a.layout)
    (hsize : p.targetSize.toNat = image.size)
    (hhash : p.targetHash = partitionAlgorithm.digest image) :
    ∃ d', (verifyPlan plan memory).run Desk.host d = (d', some (.ok .success)) ∧
      d'.Shows a.image name image printed := by
  obtain ⟨stop, hstop, hle, hdata⟩ := horder.dataEnd_eq hend
  have htreeOffset : p.hashTreeOffset.toNat = a.hashTreeOffset :=
    congrArg Layout.hashTreeOffset hlayout
  have hfecOffset : p.fecOffset.toNat = a.fecOffset := congrArg Layout.fecOffset hlayout
  rw [← htreeOffset, ← hfecOffset, ← hsize] at hstop
  let s : Setting Float := ⟨.double, noDynamicPartitions, plan⟩
  obtain ⟨told, d', w', hrun, hshows⟩ : ∃ told d' w', (conduct showProgress
      (begun s p (.fresh memory))
      (hashPartition .double ⟨⟨.direct, p.targetPath, s.writes p .target⟩, p.targetSize.toNat, 0,
        plan.partitions.length⟩ stop (s.writes p .target) Scale.double.zero)).run Desk.host d =
          (d', some (.ok (p.targetHash, told), w')) ∧ d'.Shows a.image name image printed := by
    unfold begun
    rw [hhash, hpath, hlayout]
    cases s.writes p .target with
    | false => exact conduct_hashPartition_reading .double _ _ _ discreet_showProgress hd rfl hsize
    | true => exact hashPartition_finished hfinished horder hend hinit hd rfl hsize hle hdata
  have hstep : (conduct showProgress (.fresh memory) (hashStep s p .target 0 Scale.double.zero)).run
      Desk.host d = (d', some (.ok (p.targetHash, told), w')) :=
    conduct_hashStep rfl (hpath ▸ hd) hstop (fun _ => hlayout ▸ hinit) hrun
  obtain ⟨remarks, hverify⟩ := verifyPlan_success hplan (hpath ▸ hd.path_ne) hstep
  exact ⟨_, hverify, hshows.remark remarks⟩

/-! ## Writing and verifying -/

/-- The metadata of an image whose regions follow each other has been written with success.  The
    digest that was printed is the one of the finished image.  A plan whose only partition has the
    layout that the metadata was written for, the size of the image and this digest is verified with
    success, whether it has the metadata written again or not, and the image stays byte for byte as
    it was left.  The image is a file that can exist, and there is the same memory both times. -/
theorem verified_of_written (a : WriteVerityArguments) (memory : Nat) (d d' : Desk)
    (horder : a.InOrder) (hlimit : ∀ contents, d.files.readFile a.image = .ok contents →
      contents.size ≤ d.fileLimit.toNat)
    (hrun : (a.execute memory).run Desk.host d = (d', some (.ok .success))) :
    ∃ root image, d'.files.readFile a.image = .ok image ∧
      d'.printed = d.printed ++ digestLines root (partitionAlgorithm.digest image) ∧
      ∀ (plan : InstallPlan) (p : Partition), plan.partitions = [p] → p.targetPath = a.image →
        p.verityLayout = a.layout → p.targetSize.toNat = image.size →
        p.targetHash = partitionAlgorithm.digest image →
        ∃ d'', (verifyPlan plan memory).run Desk.host d' = (d'', some (.ok .success)) ∧
          d''.files.readFile a.image = .ok image := by
  obtain ⟨name, before, hlookup, hfault, hend, hinit⟩ := conditions_of_success hrun
  have hread : d.files.readFile a.image = .ok before := by
    unfold FileStore.readFile
    rw [hlookup]
  have hd : d.Shows a.image name before d.printed := ⟨hlookup, hlimit before hread, rfl⟩
  rcases execute_cases hd horder hfault hend hinit with
    ⟨root, image, d₁, hsuccess, hshows, hfinished⟩ | ⟨-, d₁, hfailure⟩
  · cases hsuccess.symm.trans hrun
    refine ⟨root, image, hshows.readFile, hshows.printed, ?_⟩
    intro plan p hplan hpath hlayout hsize hhash
    obtain ⟨tree, -, hwritten⟩ := hfinished.written
    obtain ⟨d'', hverify, hstays⟩ := verifyPlan_of_finished hfinished horder
      (hwritten.sameBut.size ▸ hend) hinit hshows hplan hpath hlayout hsize hhash
    exact ⟨d'', hverify, hstays.readFile⟩
  · cases hfailure.symm.trans hrun

/-- A block of data, its tree in the block behind, and parity bytes of both. -/
def blockArguments : WriteVerityArguments where
  image := "img"
  blockSize := 64
  hashAlgorithm := "sha256"
  salt := ByteArray.empty
  dataSize := 64
  hashTreeOffset := 64
  hashTreeSize := 64
  fecOffset := 128
  fecSize := 128
  fecRoots := 2

/-- A directory with the image, which is empty so far. -/
def blockDesk : Desk where
  files := ⟨[("img", .file (Bytes.zeros 256))]⟩

/-- The image as the only partition of a plan that expects this digest. -/
def blockPlan (writing : Bool) (digest : ByteArray) : InstallPlan where
  writeVerity := writing
  partitions := [{
    name := "boot"
    targetPath := "img"
    targetSize := 256
    targetHash := digest
    blockSize := 64
    hashTreeAlgorithm := "sha256"
    hashTreeSalt := ByteArray.empty
    hashTreeDataOffset := 0
    hashTreeDataSize := 64
    hashTreeOffset := 64
    hashTreeSize := 64
    fecDataOffset := 0
    fecDataSize := 128
    fecOffset := 128
    fecSize := 128
    fecRoots := 2 }]

/-- The only file of a directory is found. -/
theorem lookup_onlyFile (image : ByteArray) :
    (FileStore.mk [("img", .file image)]).lookup "img" = .ok (.file "img" image) := by
  have hzero : "img".any (· == '\x00') = false := by cbv
  have hsplit : "img".splitOn "/" = ["img"] := by cbv
  have hname : "/".intercalate ["img"].reverse = "img" := by decide +kernel
  have hstep : (FileStore.mk [("img", .file image)]).step (.directory []) "img" =
      .ok (.file "img" image) := by
    unfold FileStore.step
    rw [if_neg (by decide), if_neg (by decide), if_neg (by decide +kernel)]
    unfold FileStore.enter
    dsimp only
    rw [hname]
    rfl
  unfold FileStore.lookup
  rw [hzero, hsplit, if_neg Bool.false_ne_true, if_neg (by decide +kernel), if_neg (by decide),
    if_neg (by decide +kernel), List.foldlM_cons, hstep]
  rfl

/-- The metadata of the block is written, and the image passes its verification either way. -/
theorem verified_of_written_block : ∃ d' root image,
    blockArguments.execute.run Desk.host blockDesk = (d', some (.ok .success)) ∧
    d'.printed = digestLines root (partitionAlgorithm.digest image) ∧
    ∀ writing, ∃ d'', (verifyPlan (blockPlan writing (partitionAlgorithm.digest image))).run
        Desk.host d' = (d'', some (.ok .success)) ∧
      d''.files.readFile "img" = .ok image := by
  have hd : blockDesk.Shows "img" "img" (Bytes.zeros 256) "" :=
    ⟨lookup_onlyFile _, by rw [Bytes.size_zeros]; decide, rfl⟩
  have horder : blockArguments.InOrder := ⟨by decide, by decide⟩
  have hend : blockArguments.metadataEnd ≤ (Bytes.zeros 256).size := by
    rw [Bytes.size_zeros]
    decide
  have hinit : (Writer.fresh.init blockArguments.layout).2 = .ok () :=
    Verity.eq_ok_of_isOk (by decide +kernel)
  have hlimit : ∀ contents, blockDesk.files.readFile "img" = .ok contents →
      contents.size ≤ blockDesk.fileLimit.toNat := by
    intro contents hread
    cases hd.readFile.symm.trans hread
    exact hd.size_le
  rcases execute_cases hd horder (by decide) hend hinit with
    ⟨_, finished, d', hrun, hshows, hfinished⟩ | ⟨hcrowded, -⟩
  · obtain ⟨tree, -, hwritten⟩ := hfinished.written
    obtain ⟨root, image, hread, hprinted, hverify⟩ :=
      verified_of_written blockArguments memoryLimit blockDesk d' horder hlimit hrun
    cases hshows.readFile.symm.trans hread
    refine ⟨d', root, finished, hrun, hprinted, fun writing => ?_⟩
    refine hverify _ _ rfl rfl rfl ?_ rfl
    rw [hwritten.sameBut.size, Bytes.size_zeros]
    rfl
  · exact absurd (fun _ => by decide) hcrowded

end SlotVerify.CommandLine
