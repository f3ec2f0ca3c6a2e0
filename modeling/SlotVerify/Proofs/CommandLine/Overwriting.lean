import SlotVerify.Proofs.CommandLine.WriteVerity
import SlotVerify.Proofs.Verification.Reading
/-
  What the writing of metadata leaves of an image, wherever the metadata is put.

  Of the offsets and sizes that are asked for, nothing is checked but that the metadata ends inside
  the image.  So it can be put over the data, and then the digest that is printed is neither the one
  of the image before nor the one of the image afterwards: the data is hashed before it is
  overwritten, and the rest when all is done.

  1. Reading at the desk leaves the desk alone and hashes the file as it is (`hashed_of_run`).  All
     that is known is that the run came to an end without an error, so each step is read off the end
     of the run (`conduct_andThen_success`).

  2. What a writer hands out writes to the metadata's places only, so all other bytes of the file
     stay, and so does its size (`Desk.Keeps`, `keeps_of_finalizeOn`).

  3. The two put together say what a successful command leaves and prints, whatever the arguments
     are (`image_of_success`).  If no metadata lies in the data, the data stays, the digest is the
     one of the image that is left, and the error correction covers the data and the tree.  A
     command that forgets to say where the parity bytes go has them over the data
     (`data_overwritten`).
-/

namespace SlotVerify.CommandLine

open Device Verification Routine
open Verity (Writer Layout)

variable {P α β ε : Type} {d d' : Desk} {path name printed : String} {image : ByteArray}
  {w w' : Writer} {memory : Nat} {report : P → Session Unit}

/-! ## Success, read backwards -/

/-- A sequence that has come to a success has come through its first part. -/
theorem conduct_andThen_success {t : Attempt P ε α} {f : α → Attempt P ε β} {b : β}
    (h : (conduct report w (t.andThen f)).run Desk.host d = (d', some (.ok b, w'))) :
    ∃ d₁ a w₁, (conduct report w t).run Desk.host d = (d₁, some (.ok a, w₁)) ∧
      (conduct report w₁ (f a)).run Desk.host d₁ = (d', some (.ok b, w')) := by
  unfold Attempt.andThen at h
  rw [conduct_bind, run_bind] at h
  generalize (conduct report w t).run Desk.host d = run at h
  match run, h with
  | (d₁, some (.ok a, w₁)), h => exact ⟨d₁, a, w₁, rfl, h⟩
  | (d₁, some (.error e, w₁)), h => cases h
  | (d₁, none), h => cases h

theorem conduct_request (device : OpenedDevice) (q : Device.Request)
    (next : Except IoError q.Reply → Routine (interface P) α) :
    (conduct report w (.request device q next)).run Desk.host d =
      (conduct report w (next (Desk.host.serve d device q).2)).run Desk.host
        (Desk.host.serve d device q).1 :=
  run_serve Desk.host device q (fun x => conduct report w (next x)) d

/-- Nobody listens to progress. -/
theorem conduct_tell (scale : Scale P) (reported progress : P)
    (next : P → Routine (interface P) α) :
    ∃ told, (conduct (fun _ => .done ()) w
        (Verification.tell scale reported progress next)).run Desk.host d =
      (conduct (fun _ => .done ()) w (next told)).run Desk.host d := by
  unfold Verification.tell
  split
  · exact ⟨progress, rfl⟩
  · exact ⟨reported, rfl⟩

/-- Feeding the writer keeps it with its partition. -/
theorem conduct_feed (report : P → Session Unit) (feeding : Bool) (offset : Nat)
    (bytes : ByteArray) :
    ∃ outcome w₁, (conduct report w (feed feeding offset bytes)).run Desk.host d =
      (d, some (outcome, w₁)) ∧ ∀ l, w.Serves l → w₁.Serves l := by
  cases feeding with
  | false => exact ⟨_, w, rfl, fun _ => id⟩
  | true => exact ⟨_, _, rfl, fun _ h => h.update offset bytes⟩

/-! ## Reading -/

/-- A read at the desk brings what is there, or it fails; the desk stays as it is. -/
theorem serve_read_cases (h : d.files.lookup path = .ok (.file name image)) (writable : Bool)
    (offset : Nat) {length : Nat} (hlength : length ≠ 0) :
    (∃ e, Desk.host.serve d ⟨.direct, path, writable⟩ (.read offset length) = (d, .error e)) ∨
      Desk.host.serve d ⟨.direct, path, writable⟩ (.read offset length) =
        (d, .ok (Bytes.slice image offset length)) := by
  have hnotWrite : ∀ at_ data, Device.Request.read offset length = .write at_ data →
      writable = true := by
    rintro _ _ ⟨⟩
  rw [Desk.host_serve_of_lookup h hnotWrite, Desk.serve_of_lookup h]
  rcases Nat.lt_or_ge d.fileLimit.toNat offset with hbeyond | hinside
  · refine Or.inl ⟨.ofFileFault .invalidInput, ?_⟩
    dsimp only [FileDevice.serve]
    rw [if_pos hbeyond]
  · refine Or.inr ?_
    rw [FileDevice.serve_read (FileDevice.contents?_of_find? (FileStore.find?_of_lookup h) ..)
      hinside hlength]

/-- What a read brings is a stretch of the image, if its beginning is in there. -/
theorem exists_slice_eq {offset : Nat} (hoffset : offset ≤ image.size) (length : Nat) :
    ∃ n, n ≤ length ∧ n ≤ image.size - offset ∧
      (Bytes.slice image offset length).extract 0 length = image.extract offset (offset + n) := by
  refine ⟨min length (image.size - offset), Nat.min_le_left _ _, Nat.min_le_right _ _, ?_⟩
  have hend : min image.size (offset + length) = offset + min length (image.size - offset) := by
    omega
  unfold Bytes.slice
  rw [ByteArray.extract_extract, Nat.add_zero, Nat.min_self, ← Bytes.extract_min, hend]

/-- Reading up to `stop` that comes to a success has hashed the file up to there and has left
    everything alone. -/
theorem hashed_of_run (scale : Scale P) {subject : Subject} (feeding : Bool) {stop first : Nat}
    {base : ByteArray} {writable : Bool} (hdevice : subject.device = ⟨.direct, path, writable⟩)
    (hlookup : d.files.lookup path = .ok (.file name image)) {pos pos' : Position P}
    (hpos : pos.Covers base image first) (hstop : pos.offset ≤ stop)
    (hrun : (conduct (fun _ => .done ()) w (hashUpTo scale subject feeding stop pos)).run
      Desk.host d = (d', some (.ok pos', w'))) :
    d' = d ∧ pos'.offset = stop ∧ pos'.Covers base image first ∧ ∀ l, w.Serves l → w'.Serves l := by
  induction pos using hashUpTo_induction stop generalizing w with
  | ended pos hend =>
    rw [hashUpTo_of_le hend] at hrun
    cases hrun
    exact ⟨rfl, Nat.le_antisymm hstop hend, hpos, fun _ => id⟩
  | chunk pos hmore ih =>
    rw [hashUpTo_of_lt hmore, conduct_request, hdevice] at hrun
    rcases serve_read_cases hlookup writable pos.offset (Nat.ne_of_gt (chunkLength_pos hmore)) with
      ⟨e, hread⟩ | hread
    · rw [hread] at hrun
      cases hrun
    · rw [hread] at hrun
      -- the chunk is what the image has there
      obtain ⟨n, hn, hsize, hslice⟩ := exists_slice_eq hpos.offset_le (chunkLength stop pos)
      have hbytes : (image.extract pos.offset (pos.offset + n)).size = n :=
        Bytes.size_slice_of_le hsize
      rcases afterRead_ok_cases scale subject feeding stop pos
        (Bytes.slice image pos.offset (chunkLength stop pos)) with hfail | ⟨hsome, hchunk⟩
      · rw [hfail] at hrun
        cases hrun
      · rw [hslice] at hsome hchunk
        rw [hchunk] at hrun
        obtain ⟨d₁, _, w₁, hfeed, hrest⟩ := conduct_andThen_success hrun
        obtain ⟨outcome, w₂, hfed, hserves⟩ := conduct_feed (d := d) (w := w)
          (fun (_ : P) => .done ()) feeding pos.offset (image.extract pos.offset (pos.offset + n))
        cases hfed.symm.trans hfeed
        -- nobody is to be woken
        change (conduct (fun _ => .done ()) w₁ (Verification.tell scale pos.reported _ _)).run
          Desk.host d = _ at hrest
        obtain ⟨told, htell⟩ := conduct_tell (d := d) (w := w₁) scale pos.reported _ _
        rw [htell] at hrest
        have hcovers := hpos.behind hsize told
        have hinside := behind_le hstop (hbytes.trans_le hn)
        obtain ⟨hsame, hoffset, hcovered, hkept⟩ :=
          ih _ told hsome (hbytes.trans_le hn) hcovers hinside hrest
        exact ⟨hsame, hoffset, hcovered, fun l h => hkept l (hserves l h)⟩

/-! ## Writing -/

/-- The file at a path has the bytes that it had before, but for those of a region, and these texts
    have been printed so far. -/
def Desk.Keeps (path name printed : String) (region : Nat → Prop) (before : ByteArray) (d : Desk) :
    Prop :=
  ∃ after, d.files.lookup path = .ok (.file name after) ∧ Bytes.SameBut region before after ∧
    d.printed = printed

/-- Carrying out a request that writes inside a region of the file. -/
theorem Desk.Keeps.serve {region : Nat → Prop} {before : ByteArray}
    (h : d.Keeps path name printed region before) (hinside : ∀ x, region x → x < before.size)
    {q : Device.Request} (hq : q.WritesIn region) (writable : Bool) :
    (d.serve ⟨.direct, path, writable⟩ q).1.Keeps path name printed region before := by
  obtain ⟨after, hlookup, hsame, hprinted⟩ := h
  have hfile := FileStore.find?_of_lookup hlookup
  rw [Desk.serve_of_lookup hlookup]
  cases q with
  | read offset length =>
    refine ⟨after, ?_, hsame, hprinted⟩
    dsimp only [FileDevice.serve]
    split
    · exact hlookup
    · split
      · exact hlookup
      · split <;> exact hlookup
  | sync => exact ⟨after, hlookup, hsame, hprinted⟩
  | write offset data =>
    dsimp only [FileDevice.serve]
    split
    · exact ⟨after, hlookup, hsame, hprinted⟩
    · split
      · exact ⟨after, hlookup, hsame, hprinted⟩
      · rw [FileDevice.contents?_of_find? hfile]
        refine ⟨_, FileStore.lookup_replace_self hlookup _, hsame.trans ?_, hprinted⟩
        by_cases hempty : data.size = 0
        · unfold FileDevice.written
          rw [if_pos hempty]
          exact .refl _ _
        · have hlast := hinside _ (hq (offset + data.size - 1) (by omega) (by omega))
          have hfits : offset + data.size ≤ after.size := by
            rw [hsame.size]
            omega
          rw [FileDevice.written_inside hfits]
          exact .overwrite hfits hq

/-- What makes no calls and writes inside a region only keeps all other bytes. -/
theorem keeps_of_only {t : Routine (interface P) α} {region : Nat → Prop} {before : ByteArray}
    (h : d.Keeps path name printed region before) (hinside : ∀ x, region x → x < before.size)
    (ht : t.Only (fun _ => False)
      (fun (o : OpenedDevice) q => o = ⟨.direct, path, true⟩ ∧ q.WritesIn region) fun _ => True) :
    ((conduct report w t).run Desk.host d).1.Keeps path name printed region before := by
  have honly : (conduct report w t).Only (fun _ => False)
      (fun (o : OpenedDevice) q => o = ⟨.direct, path, true⟩ ∧ q.WritesIn region) fun _ => True :=
    only_interpret (I := interface P) (J := surface) (fun _ _ hq => hq) ht w
  have hmeets : (conduct report w t).Meets Desk.host (.still Desk)
      (Desk.Keeps path name printed region before)
      (fun a d₁ => d₁.Keeps path name printed region before ∧ ∀ x, a = some x → True) d := by
    refine honly.meets _ (fun _ _ hc => hc.elim) ?_ ?_ ?_ h
    · intro d₁ o q _ hd
      rwa [Desk.fst_submit]
    · rintro d₁ o q ⟨rfl, hq⟩ hd
      have hserve := Desk.complete_eq d₁ (⟨.direct, path, true⟩ : OpenedDevice) q
      exact hserve ▸ hd.serve hinside hq true
    · rintro _ _ hd rfl
      exact hd
  exact (run_meets hmeets).1

/-- Writing what the writer hands out keeps all bytes outside the metadata. -/
theorem keeps_of_finalizeOn {l : Layout} (hserves : w.Serves l)
    (hlookup : d.files.lookup path = .ok (.file name image))
    (hinside : ∀ x, l.Metadata x → x < image.size) :
    ((conduct report w (finalizeOn ⟨.direct, path, true⟩)).run Desk.host d).1.Keeps path name
      d.printed l.Metadata image := by
  have hstart : d.Keeps path name d.printed l.Metadata image := ⟨image, hlookup, .refl _ _, rfl⟩
  have hcall : (carryOut report w .finalizeWriter).run Desk.host d =
      (d, some (w.finalize.2.map Verity.Finalization.routine, w.finalize.1)) := rfl
  unfold finalizeOn
  rw [conduct_ask hcall]
  cases hfinalize : w.finalize.2 with
  | error e => exact hstart
  | ok f =>
    have hpart : (Routine.onDevice (J := interface P) id
        (fun _ => (⟨.direct, path, true⟩ : OpenedDevice)) f.routine).Only (fun _ => False)
        (fun (o : OpenedDevice) q => o = ⟨.direct, path, true⟩ ∧ q.WritesIn l.Metadata)
        fun _ => True :=
      only_onDevice (fun _ _ hq => ⟨rfl, hq⟩) (hserves.finalize_fits hfinalize).only_routine
    exact keeps_of_only hstart hinside (only_bind hpart fun _ _ => trivial)

/-! ## The command -/

/-- A writer that has come to a success with a whole file has left all bytes but those of the
    metadata, and the digest is that of the bytes in front of the end of the data as they were, and
    of those behind it as they are. -/
theorem image_of_hashPartition (scale : Scale P) {l : Layout} (hserves : w.Serves l)
    (hlookup : d.files.lookup path = .ok (.file name image))
    (hinside : ∀ x, l.Metadata x → x < image.size) {subject : Subject}
    (hdevice : subject.device = ⟨.direct, path, true⟩) (hsize : subject.size = image.size)
    {dataEnd : Nat} {reported told : P} {digest : ByteArray}
    (hrun : (conduct (fun _ => .done ()) w (hashPartition scale subject dataEnd true reported)).run
      Desk.host d = (d', some (.ok (digest, told), w'))) :
    ∃ after, d'.files.lookup path = .ok (.file name after) ∧ d'.printed = d.printed ∧
      Bytes.SameBut l.Metadata image after ∧
      digest = partitionAlgorithm.digest (image.extract 0 (min dataEnd image.size) ++
        after.extract (min dataEnd image.size) after.size) := by
  obtain ⟨d₁, pos, w₁, hfirst, hbehind⟩ := conduct_andThen_success hrun
  obtain ⟨rfl, hoffset, hcovers, hserves₁⟩ := hashed_of_run scale true hdevice hlookup
    (Position.covers_start reported image) (Nat.zero_le _) hfirst
  obtain ⟨d₂, _, w₂, hfinalize, hrest⟩ := conduct_andThen_success hbehind
  rw [if_pos rfl, hdevice] at hfinalize
  have hkeeps : ((conduct (fun (_ : P) => .done ()) w₁ (finalizeOn ⟨.direct, path, true⟩)).run
      Desk.host d₁).1.Keeps path name d₁.printed l.Metadata image :=
    keeps_of_finalizeOn (hserves₁ l hserves) hlookup hinside
  rw [hfinalize] at hkeeps
  obtain ⟨after, hlookup', hsame, hprinted⟩ := hkeeps
  have hstop : pos.offset ≤ subject.size := by
    rw [hoffset]
    exact Nat.min_le_right _ _
  obtain ⟨d₃, pos', w₃, hlast, hdone⟩ := conduct_andThen_success hrest
  obtain ⟨rfl, hoffset', hcovers', -⟩ := hashed_of_run scale false hdevice hlookup'
    (hcovers.resume hsame.size) hstop hlast
  have hfinish : pos'.hasher.finish = partitionAlgorithm.digest
      (image.extract 0 pos.offset ++ after.extract pos.offset pos'.offset) := by
    rw [hcovers'.hasher, Digest.Hasher.finish_fed]
  generalize pos'.hasher.finish = finished at hfinish hdone
  cases hdone
  refine ⟨after, hlookup', hprinted, hsame, ?_⟩
  rw [hfinish, hoffset, hoffset', hsame.size, hsize]

/-- Nothing is behind the end. -/
theorem extract_behind (b : ByteArray) (start : Nat) :
    b.extract (min start b.size) b.size = b.extract start b.size := by
  rcases Nat.le_total start b.size with hinside | hbehind
  · rw [Nat.min_eq_left hinside]
  · rw [Nat.min_eq_right hbehind, ByteArray.extract_same]
    exact (ByteArray.extract_eq_empty_iff.mpr (by omega)).symm

/-- No metadata is put into the data. -/
def WriteVerityArguments.DataApart (a : WriteVerityArguments) : Prop :=
  ∀ x, x < a.dataSize → ¬ a.layout.Metadata x

/-- The bytes of the data and of the tree are among those that the error correction covers. -/
def WriteVerityArguments.FecCoversAll (a : WriteVerityArguments) : Prop :=
  ∀ x, x < a.dataSize ∨ a.layout.TreeRegion x →
    a.layout.fecDataOffset ≤ x ∧ x < a.layout.fecDataOffset + a.layout.fecDataSize

variable {a : WriteVerityArguments}

/-- The metadata ends where all of it does. -/
theorem lt_metadataEnd {x : Nat} (h : a.layout.Metadata x) : x < a.metadataEnd := by
  unfold WriteVerityArguments.metadataEnd
  rcases h with ⟨-, hlast⟩ | ⟨-, hlast⟩
  · change x < a.hashTreeOffset + a.hashTreeSize at hlast
    omega
  · change x < a.fecOffset + a.fecSize at hlast
    omega

/-- A tree that is not put into the data is put behind it. -/
theorem WriteVerityArguments.DataApart.data_le_tree (h : a.DataApart) (htree : a.hashTreeSize ≠ 0) :
    a.dataSize ≤ a.hashTreeOffset := by
  refine Nat.not_lt.mp fun hlt => h _ hlt (Or.inl ⟨Nat.le_refl _, ?_⟩)
  show a.hashTreeOffset < a.hashTreeOffset + a.hashTreeSize
  omega

/-- The error correction covers everything from the beginning to the end of the tree.  That is all
    of the data as well, unless the tree ends inside the data. -/
theorem fecCoversAll_iff (hfec : a.fecSize ≠ 0) :
    a.FecCoversAll ↔ (a.hashTreeSize ≠ 0 → a.dataSize ≤ a.hashTreeOffset + a.hashTreeSize) := by
  have hcovered : ∀ x, a.layout.fecDataOffset ≤ x ∧
      x < a.layout.fecDataOffset + a.layout.fecDataSize ↔ x < a.fecDataSize := by
    intro x
    show 0 ≤ x ∧ x < 0 + a.fecDataSize ↔ x < a.fecDataSize
    omega
  have hregion : ∀ x, a.layout.TreeRegion x ↔
      a.hashTreeOffset ≤ x ∧ x < a.hashTreeOffset + a.hashTreeSize := fun x => Iff.rfl
  unfold WriteVerityArguments.FecCoversAll
  simp only [hcovered, hregion]
  unfold WriteVerityArguments.fecDataSize
  rw [if_neg hfec]
  constructor
  · intro h htree
    refine Nat.not_lt.mp fun hlt => ?_
    have hlast := h _ (Or.inl hlt)
    rw [if_neg htree] at hlast
    exact Nat.lt_irrefl _ hlast
  · intro h x hx
    split
    · omega
    · rename_i htree
      have := h htree
      omega

/-- Writing the metadata of an image with success, whatever the arguments are.  The image has the
    size that it had and the bytes that it had, but for those of the metadata, and the digest that
    is printed is that of the data as it was and of the rest as it is.  So if no metadata is put
    into the data, the data stays, the digest is that of the image that is left, and the error
    correction, if there is any, covers the data and the tree; it does so exactly if the tree does
    not end inside the data. -/
theorem image_of_success (a : WriteVerityArguments) (memory : Nat) (d d' : Desk)
    (hrun : (a.execute memory).run Desk.host d = (d', some (.ok .success))) :
    ∃ before after root digest,
      d.files.readFile a.image = .ok before ∧ d'.files.readFile a.image = .ok after ∧
      d'.printed = d.printed ++ digestLines root digest ∧
      Bytes.SameBut a.layout.Metadata before after ∧
      digest = partitionAlgorithm.digest
        (before.extract 0 a.dataSize ++ after.extract a.dataSize after.size) ∧
      (a.fecSize ≠ 0 → (a.FecCoversAll ↔
        (a.hashTreeSize ≠ 0 → a.dataSize ≤ a.hashTreeOffset + a.hashTreeSize))) ∧
      (a.DataApart → after.extract 0 a.dataSize = before.extract 0 a.dataSize ∧
        digest = partitionAlgorithm.digest after ∧ (a.fecSize ≠ 0 → a.FecCoversAll)) := by
  obtain ⟨name, before, hlookup, hfault, hend, hinit⟩ := conditions_of_success hrun
  rw [run_execute hlookup hfault hend hinit, run_bind, hashImage, run_bind] at hrun
  cases hhash : (conduct (fun _ => .done ()) ((Writer.fresh memory).init a.layout).1
      (hashPartition .bytes ⟨⟨.direct, a.image, true⟩, before.size, 0, 1⟩ a.dataSize true 0)).run
        Desk.host d with
  | mk d₁ outcome =>
  rw [hhash] at hrun
  obtain ⟨digest, told, w', rfl⟩ : ∃ digest told w', outcome = some (.ok (digest, told), w') := by
    rcases outcome with _ | ⟨_ | ⟨digest, told⟩, w'⟩
    · cases hrun
    · cases hrun
    · exact ⟨digest, told, w', rfl⟩
  obtain ⟨after, hlookup', hprinted, hsame, hdigest⟩ :=
    image_of_hashPartition .bytes (Verity.Writer.serves_init hinit) hlookup
      (fun x hx => Nat.lt_of_lt_of_le (lt_metadataEnd hx) hend) rfl rfl hhash
  cases hrun
  have hread : d.files.readFile a.image = .ok before := by
    unfold FileStore.readFile
    rw [hlookup]
  have hread' : d₁.files.readFile a.image = .ok after := by
    unfold FileStore.readFile
    rw [hlookup']
  refine ⟨before, after, w'.lastRootDigest, digest, hread, hread', ?_, hsame, ?_, fecCoversAll_iff,
    ?_⟩
  · exact congrArg (· ++ _) hprinted
  · rw [hdigest, ← Bytes.extract_min before 0 a.dataSize, ← extract_behind after a.dataSize,
      hsame.size, Nat.min_comm before.size]
  · intro hapart
    have hdata : after.extract 0 (min a.dataSize before.size) =
        before.extract 0 (min a.dataSize before.size) :=
      hsame.extract_eq (Nat.min_le_right _ _) fun x _ hx =>
        hapart x (Nat.lt_of_lt_of_le hx (Nat.min_le_left _ _))
    refine ⟨?_, ?_, fun hfec => ?_⟩
    · rw [← Bytes.extract_min, ← Bytes.extract_min before, hsame.size, Nat.min_comm]
      exact hdata
    · rw [hdigest, ← hdata, ByteArray.extract_append_extract, Nat.zero_min,
        Nat.max_eq_right (by rw [hsame.size]; exact Nat.min_le_right _ _),
        ByteArray.extract_zero_size]
    · rw [fecCoversAll_iff hfec]
      intro htree
      exact Nat.le_trans (hapart.data_le_tree htree) (Nat.le_add_right _ _)

/-- The metadata of the block does not touch it: the zeros stay, and the digest that is printed is
    that of the whole image. -/
theorem image_of_success_block : ∃ d' root after,
    blockArguments.execute.run Desk.host blockDesk = (d', some (.ok .success)) ∧
    d'.files.readFile "img" = .ok after ∧ after.size = 256 ∧
    after.extract 0 64 = (Bytes.zeros 256).extract 0 64 ∧
    d'.printed = digestLines root (partitionAlgorithm.digest after) ∧
    blockArguments.FecCoversAll := by
  have hlookup : blockDesk.files.lookup "img" = .ok (.file "img" (Bytes.zeros 256)) :=
    lookup_onlyFile _
  have hd : blockDesk.Shows "img" "img" (Bytes.zeros 256) "" :=
    ⟨hlookup, by rw [Bytes.size_zeros]; decide, rfl⟩
  have horder : blockArguments.InOrder := ⟨by decide, by decide⟩
  have hend : blockArguments.metadataEnd ≤ (Bytes.zeros 256).size := by
    rw [Bytes.size_zeros]
    decide
  have hinit : (Writer.fresh.init blockArguments.layout).2 = .ok () :=
    Verity.eq_ok_of_isOk (by decide +kernel)
  rcases execute_cases hd horder (by decide) hend hinit with
    ⟨_, _, d', hrun, -, -⟩ | ⟨hcrowded, -⟩
  · obtain ⟨before, after, root, digest, hbefore, hafter, hprinted, hsame, -, -, hapart⟩ :=
      image_of_success blockArguments memoryLimit blockDesk d' hrun
    cases hd.readFile.symm.trans hbefore
    obtain ⟨hdata, rfl, hcovers⟩ := hapart fun x hx => horder.data_apart hx
    refine ⟨d', root, after, hrun, hafter, ?_, hdata, hprinted, hcovers (by decide)⟩
    rw [hsame.size, Bytes.size_zeros]
  · exact absurd (fun _ => by decide) hcrowded

/-! ## Metadata over the data -/

/-- Parity bytes are asked for, but not where they are to go. -/
def unplacedParity : WriteVerityArguments where
  image := "img"
  blockSize := 1
  hashAlgorithm := "sha256"
  salt := ByteArray.empty
  dataSize := 1
  hashTreeOffset := 0
  hashTreeSize := 0
  fecOffset := 0
  fecSize := 2
  fecRoots := 2

/-- An image of three bytes. -/
def threeBytes : ByteArray := [5, 7, 9].toByteArray

/-- A directory with the image. -/
def threeBytesDesk : Desk where
  files := ⟨[("img", .file threeBytes)]⟩

/-- The image as the subject of the hashing. -/
def threeBytesSubject : Subject := ⟨⟨.direct, "img", true⟩, 3, 0, 1⟩

/-- The parity of the first byte takes its place and that of the second one. -/
theorem run_unplacedParity :
    let last := (hashPartition .bytes threeBytesSubject 1 true 0).run Rig.host
      (imageRig Nat "img" threeBytes (Writer.fresh.init unplacedParity.layout).1)
    last.2.map (·.isOk) = some true ∧ last.1.image? "img" = some [140, 137, 9].toByteArray := by
  decide +kernel

/-- The command succeeds, the data has become another, and the digest that it prints is not the one
    of the image that it leaves. -/
theorem data_overwritten : ∃ d' root digest after,
    unplacedParity.execute.run Desk.host threeBytesDesk = (d', some (.ok .success)) ∧
    d'.files.readFile "img" = .ok after ∧
    after.extract 0 unplacedParity.dataSize ≠ threeBytes.extract 0 unplacedParity.dataSize ∧
    d'.printed = digestLines root digest ∧ digest ≠ partitionAlgorithm.digest after := by
  have hlookup : threeBytesDesk.files.lookup "img" = .ok (.file "img" threeBytes) :=
    lookup_onlyFile threeBytes
  have hd : threeBytesDesk.Shows "img" "img" threeBytes "" := ⟨hlookup, by decide, rfl⟩
  have hinit : (Writer.fresh.init unplacedParity.layout).2 = .ok () := rfl
  obtain ⟨hok, himage⟩ := run_unplacedParity
  cases hrun : (hashPartition .bytes threeBytesSubject 1 true 0).run Rig.host
      (imageRig Nat "img" threeBytes (Writer.fresh.init unplacedParity.layout).1) with
  | mk r outcome =>
  rw [hrun] at hok himage
  obtain ⟨result, rfl, hresult⟩ := Option.map_eq_some_iff.mp hok
  obtain ⟨digest, told, rfl⟩ : ∃ digest told, result = .ok (digest, told) := by
    cases result with
    | ok result => exact ⟨result.1, result.2, rfl⟩
    | error e => cases hresult
  obtain ⟨d₁, w₁, after, hconduct, hoffers, hshows⟩ := exists_conduct_of_run discreet_silent hd
    (depends_hashPartition .bytes threeBytesSubject 1 true 0) hrun id
  obtain rfl : after = [140, 137, 9].toByteArray :=
    Option.some.inj (hoffers.image?.symm.trans himage)
  have hend : unplacedParity.metadataEnd ≤ threeBytes.size := by decide
  obtain ⟨after, hlookup', -, -, hdigest⟩ := image_of_hashPartition .bytes
    (Verity.Writer.serves_init hinit) hlookup
    (fun x hx => Nat.lt_of_lt_of_le (lt_metadataEnd hx) hend) rfl rfl hconduct
  cases hshows.lookup.symm.trans hlookup'
  refine ⟨_, w₁.lastRootDigest, digest, _,
    run_execute_of_hashed hlookup rfl hend hinit hconduct, hshows.readFile, by decide, ?_, ?_⟩
  · show d₁.printed ++ _ = _
    rw [hshows.printed, String.empty_append]
  · rw [hdigest]
    decide +kernel

end SlotVerify.CommandLine
