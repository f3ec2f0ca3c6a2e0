import SlotVerify.Proofs.Device.Store
import SlotVerify.Proofs.Verity.Footprint
import SlotVerify.Rig
/-
  What the steps of a verification do to the images of a rig.

  Two relations between a rig and a later one carry all arguments about images.  `Still` says that a
  reader would not notice a difference: the images are the same, the writer has not lost its
  partition, and nothing that could go wrong has been added.  `SameBut` allows the bytes of given
  places to differ.  Calls, submissions and reads leave a rig still (`still_answer`, `still_place`,
  `still_finish`); a write that is carried out changes bytes of its own stretch only
  (`sameBut_finish`).

  `meets_read` is the rule for reading: a routine goes on with a stretch of the image, or with an
  error if the rig is not a quiet one.
-/

namespace SlotVerify

/-! ## Images -/

/-- The same image, but for the bytes of a region. -/
structure Bytes.SameBut (region : Nat → Prop) (before after : ByteArray) : Prop where
  size : after.size = before.size
  at0 : ∀ x, ¬ region x → Bytes.at0 after x = Bytes.at0 before x

namespace Bytes.SameBut

variable {region region' : Nat → Prop} {a b c : ByteArray}

theorem refl (region : Nat → Prop) (b : ByteArray) : SameBut region b b :=
  ⟨rfl, fun _ _ => rfl⟩

theorem trans (h : SameBut region a b) (h' : SameBut region b c) : SameBut region a c :=
  ⟨h'.size.trans h.size, fun x hx => (h'.at0 x hx).trans (h.at0 x hx)⟩

theorem mono (hsub : ∀ x, region x → region' x) (h : SameBut region a b) : SameBut region' a b :=
  ⟨h.size, fun x hx => h.at0 x fun hr => hx (hsub x hr)⟩

/-- Without an excepted byte there is no difference. -/
theorem eq (h : SameBut region a b) (hnone : ∀ x, ¬ region x) : b = a :=
  ext_at0 h.size fun x _ => h.at0 x (hnone x)

theorem overwrite {data : ByteArray} {offset : Nat} (hfits : offset + data.size ≤ b.size)
    (h : ∀ x, offset ≤ x → x < offset + data.size → region x) :
    SameBut region b (overwrite b offset data) := by
  refine ⟨size_overwrite hfits, ?_⟩
  intro x hx
  rw [at0_overwrite hfits, if_neg]
  rintro ⟨hlow, hhigh⟩
  exact hx (h x hlow hhigh)

/-- A stretch without an excepted byte is the same. -/
theorem extract_eq (h : SameBut region a b) {start stop : Nat} (hstop : stop ≤ a.size)
    (hnone : ∀ x, start ≤ x → x < stop → ¬ region x) :
    b.extract start stop = a.extract start stop :=
  extract_congr (by rw [h.size]; exact hstop) hstop fun x hlow hhigh => h.at0 x (hnone x hlow hhigh)

end Bytes.SameBut

open Device Verification

/-- A call that neither begins nor ends a partition in the writer. -/
def Verification.Call.Passing {P : Type} : Verification.Call P → Prop
  | .initWriter _ | .finalizeWriter => False
  | _ => True

namespace Rig

variable {P : Type}

/-- Between two polls an abort may be asked for. -/
def surroundings (P : Type) : Surroundings (Rig P) where
  change r r' := ∃ aborted, r' = { r with aborted }
  refl r := ⟨r.aborted, rfl⟩
  trans := by
    rintro a b c ⟨x, rfl⟩ ⟨y, rfl⟩
    exact ⟨y, rfl⟩

/-- A rig with devices that carry out what they take: no failure is on order, every byte can be
    read, and a read delivers one byte at least. -/
structure Reliable (r : Rig P) : Prop where
  faults : r.faults = []
  failing : r.failing = none
  failReadAt : r.failReadAt = none
  readLimit : r.readLimit ≠ some 0

/-- A rig on which nothing goes wrong by itself, without dynamic partitions. -/
structure Quiet (r : Rig P) : Prop extends Reliable r where
  openErrors : r.openErrors = []
  controller : r.controller = none

/-- A reader would not notice a difference. -/
structure Still (r r' : Rig P) : Prop where
  image? : ∀ path, r'.image? path = r.image? path
  serves : ∀ l, r.writer.Serves l → r'.writer.Serves l
  quiet : r.Quiet → r'.Quiet

/-- The images are the same, but for the bytes of given places. -/
def SameBut (allowed : String → Nat → Prop) (r r' : Rig P) : Prop :=
  ∀ path, Option.Rel (Bytes.SameBut (allowed path)) (r.image? path) (r'.image? path)

/-- The images are the same but for given places, and nothing that could go wrong is added. -/
structure Frame (allowed : String → Nat → Prop) (r r' : Rig P) : Prop where
  sameBut : SameBut allowed r r'
  quiet : r.Quiet → r'.Quiet

variable {r r' r'' : Rig P} {allowed allowed' : String → Nat → Prop}

theorem Still.refl (r : Rig P) : Still r r := ⟨fun _ => rfl, fun _ => id, id⟩

theorem Still.trans (h : Still r r') (h' : Still r' r'') : Still r r'' :=
  ⟨fun path => (h'.image? path).trans (h.image? path), fun l hl => h'.serves l (h.serves l hl),
    fun hq => h'.quiet (h.quiet hq)⟩

theorem Still.device_image (h : Still r r') (d : OpenedDevice) :
    (r'.device d).image = (r.device d).image := by
  show (r'.image? (imagePath d)).getD ByteArray.empty = (r.image? (imagePath d)).getD _
  rw [h.image?]

theorem SameBut.refl (allowed : String → Nat → Prop) (r : Rig P) : SameBut allowed r r := by
  intro path
  cases r.image? path with
  | none => exact .none
  | some image => exact .some (.refl _ _)

theorem sameBut_of_image? (h : ∀ path, r'.image? path = r.image? path) : SameBut allowed r r' := by
  intro path
  rw [h]
  exact SameBut.refl allowed r path

theorem Still.sameBut (h : Still r r') : SameBut allowed r r' := sameBut_of_image? h.image?

theorem SameBut.trans (h : SameBut allowed r r') (h' : SameBut allowed r' r'') :
    SameBut allowed r r'' := by
  intro path
  have hfirst := h path
  have hsecond := h' path
  generalize r.image? path = before at hfirst
  generalize r'.image? path = image at hfirst hsecond
  generalize r''.image? path = after at hsecond
  cases hfirst with
  | none => exact hsecond
  | some hab =>
    cases hsecond with
    | some hbc => exact .some (hab.trans hbc)

theorem SameBut.mono (hsub : ∀ path x, allowed path x → allowed' path x)
    (h : SameBut allowed r r') : SameBut allowed' r r' := by
  intro path
  have hpath := h path
  generalize r.image? path = before at hpath
  generalize r'.image? path = after at hpath
  cases hpath with
  | none => exact .none
  | some hab => exact .some (hab.mono (hsub path))

/-- An image's successor. -/
theorem SameBut.exists_image (h : SameBut allowed r r') {path : String} {before : ByteArray}
    (hbefore : r.image? path = some before) :
    ∃ after, r'.image? path = some after ∧ Bytes.SameBut (allowed path) before after := by
  have hpath := h path
  rw [hbefore] at hpath
  generalize r'.image? path = after at hpath
  cases hpath with
  | some hsame => exact ⟨_, rfl, hsame⟩

/-- An image without an excepted byte stays. -/
theorem SameBut.image?_eq (h : SameBut allowed r r') {path : String}
    (hnone : ∀ x, ¬ allowed path x) : r'.image? path = r.image? path := by
  have hpath := h path
  generalize r.image? path = before at hpath
  generalize r'.image? path = after at hpath
  cases hpath with
  | none => rfl
  | some hsame => rw [hsame.eq hnone]

theorem Still.frame (h : Still r r') : Frame allowed r r' := ⟨h.sameBut, h.quiet⟩

theorem Frame.trans (h : Frame allowed r r') (h' : Frame allowed r' r'') : Frame allowed r r'' :=
  ⟨h.sameBut.trans h'.sameBut, fun hq => h'.quiet (h.quiet hq)⟩

theorem Frame.mono (hsub : ∀ path x, allowed path x → allowed' path x) (h : Frame allowed r r') :
    Frame allowed' r r' :=
  ⟨h.sameBut.mono hsub, h.quiet⟩

/-- The image behind an opened device. -/
theorem SameBut.device_image (h : SameBut allowed r r') (d : OpenedDevice) :
    Bytes.SameBut (allowed (imagePath d)) (r.device d).image (r'.device d).image := by
  show Bytes.SameBut _ ((r.image? (imagePath d)).getD _) ((r'.image? (imagePath d)).getD _)
  have hpath := h (imagePath d)
  generalize r.image? (imagePath d) = before at hpath
  generalize r'.image? (imagePath d) = after at hpath
  cases hpath with
  | none => exact .refl _ _
  | some hsame => exact hsame

theorem image?_setImage (r : Rig P) (path : String) (image : ByteArray) (q : String) :
    (r.setImage path image).image? q =
      if q = path then (r.image? path).map fun _ => image else r.image? q := by
  exact find?_map_replace r.images path image q

/-! ## Calls and submissions -/

/-- Nothing but the bookkeeping differs. -/
theorem still_of_eq (h : r' =
    { r with
      readOnlyFlags := r'.readOnlyFlags, submitted := r'.submitted, aborted := r'.aborted
      journal := r'.journal }) : Still r r' := by
  refine ⟨?_, ?_, ?_⟩
  · intro path
    show (r'.images.find? _).map _ = (r.images.find? _).map _
    rw [congrArg images h]
  · intro l hl
    rw [congrArg writer h]
    exact hl
  · intro hq
    exact ⟨⟨(congrArg faults h).trans hq.faults, (congrArg failing h).trans hq.failing,
        (congrArg failReadAt h).trans hq.failReadAt,
        fun hzero => hq.readLimit ((congrArg readLimit h).symm.trans hzero)⟩,
      (congrArg openErrors h).trans hq.openErrors, (congrArg controller h).trans hq.controller⟩

theorem still_of_change (h : (surroundings P).change r r') : Still r r' := by
  obtain ⟨aborted, rfl⟩ := h
  exact still_of_eq rfl

theorem still_openImage (r : Rig P) (path : String) (writable : Bool) :
    Still r (r.openImage path writable).1 := by
  unfold openImage
  split
  · exact .refl r
  · split
    · exact .refl r
    · exact still_of_eq rfl

theorem still_setReadOnly (r : Rig P) (path : String) (readOnly : Bool) :
    Still r (r.setReadOnly path readOnly).1 := by
  unfold setReadOnly
  split
  · exact .refl r
  · split
    · exact .refl r
    · exact still_of_eq rfl

theorem still_hear (r : Rig P) (progress : P) : Still r (r.hear progress) := by
  unfold hear
  split
  · exact still_of_eq rfl
  · exact .refl r

theorem still_updateWriter (r : Rig P) (offset : Nat) (data : ByteArray) :
    Still r (r.updateWriter offset data).1 :=
  ⟨fun _ => rfl, fun _ hl => hl.update offset data,
    fun hq => ⟨⟨hq.faults, hq.failing, hq.failReadAt, hq.readLimit⟩, hq.openErrors, hq.controller⟩⟩

/-- Every call but those that begin or end a partition in the writer leaves a rig still. -/
theorem still_answer (r : Rig P) {c : Verification.Call P} (hc : c.Passing) :
    Still r (r.answer c).1 := by
  cases c with
  | setReadOnly path readOnly => exact still_setReadOnly r path readOnly
  | openPath path writable => exact still_openImage r path writable
  | openSnapshot name sourcePath writable =>
    have hnoted : Still r (r.noteController (.openSnapshot name sourcePath writable)) :=
      still_of_eq rfl
    unfold answer
    dsimp only
    split
    · exact hnoted
    · exact hnoted.trans (still_openImage _ _ _)
  | mapAll => exact still_of_eq rfl
  | unmapAll => exact still_of_eq rfl
  | verifyExtents source target names => exact still_of_eq rfl
  | initWriter l => exact hc.elim
  | updateWriter offset data => exact still_updateWriter r offset data
  | finalizeWriter => exact hc.elim
  | report progress => exact still_hear r progress
  | wake => exact still_of_eq rfl

/-- No call changes an image. -/
theorem frame_answer (r : Rig P) (c : Verification.Call P) : Frame allowed r (r.answer c).1 := by
  by_cases hc : c.Passing
  · exact (still_answer r hc).frame
  · cases c with
    | initWriter l =>
      exact ⟨sameBut_of_image? fun _ => rfl, fun hq =>
        ⟨⟨hq.faults, hq.failing, hq.failReadAt, hq.readLimit⟩, hq.openErrors, hq.controller⟩⟩
    | finalizeWriter =>
      exact ⟨sameBut_of_image? fun _ => rfl, fun hq =>
        ⟨⟨hq.faults, hq.failing, hq.failReadAt, hq.readLimit⟩, hq.openErrors, hq.controller⟩⟩
    | _ => exact absurd trivial hc

theorem faultFor_eq_none (h : r.faults = []) (k : Kind) : r.faultFor k = none := by
  unfold faultFor
  rw [h]
  rfl

theorem still_place (r : Rig P) (d : OpenedDevice) (q : Request) :
    Still r (r.place d q).1 := by
  have hcounted : ∀ counts, Still r { r with submitted := counts } := fun _ => still_of_eq rfl
  unfold place
  dsimp only
  split
  · rename_i fault hfault
    have hordered : ∀ counts, Still r { r with submitted := counts, failing := some fault } := by
      refine fun counts => ⟨fun _ => rfl, fun _ => id, fun hq => ?_⟩
      rw [faultFor_eq_none hq.faults] at hfault
      cases hfault
    split
    · exact hcounted _
    · exact hcounted _
    · exact hordered _
    · exact hordered _
  · split
    · exact hcounted _
    · exact hcounted _

/-- A reliable rig takes every request but a write to a device that was opened for reading. -/
theorem place_reliable (hr : r.Reliable) (d : OpenedDevice) (q : Request)
    (h : ∀ offset data, q = .write offset data → d.writable = true) :
    r.place d q =
      ({ r with submitted := r.submitted.next (Kind.of q) }, .taken MemoryDevice.delay) := by
  unfold place
  dsimp only
  rw [faultFor_eq_none hr.faults]
  cases q with
  | read offset length => rfl
  | write offset data =>
    dsimp only [MemoryDevice.accept, device]
    rw [h offset data rfl]
    rfl
  | sync => rfl

theorem submit_reliable (hr : r.Reliable) (d : OpenedDevice) (q : Request)
    (h : ∀ offset data, q = .write offset data → d.writable = true) :
    host.submit r d q =
      ({ r with submitted := r.submitted.next (Kind.of q) }, .ok MemoryDevice.delay) := by
  show ((r.place d q).1, (r.place d q).2.outcome) = _
  rw [place_reliable hr d q h]
  rfl

/-! ## Requests carried out -/

theorem writer_finish (r : Rig P) (d : OpenedDevice) (q : Request) :
    (r.finish d q).1.writer = r.writer := by
  unfold finish
  split
  · split <;> rfl
  · rfl

theorem quiet_finish (hq : r.Quiet) (d : OpenedDevice) (q : Request) :
    (r.finish d q).1.Quiet := by
  unfold finish
  rw [hq.failing]
  exact ⟨⟨hq.faults, hq.failing, hq.failReadAt, hq.readLimit⟩, hq.openErrors, hq.controller⟩

/-- A request that is carried out changes the image of its own device at most. -/
theorem image?_finish (r : Rig P) (d : OpenedDevice) (q : Request) :
    (∀ path, (r.finish d q).1.image? path = r.image? path) ∨
      ∀ path, (r.finish d q).1.image? path =
        if path = imagePath d then
          (r.image? (imagePath d)).map fun _ => ((r.device d).serve q).1.image
        else r.image? path := by
  unfold finish
  split
  · split
    · exact Or.inl fun _ => rfl
    · exact Or.inl fun _ => rfl
  · exact Or.inr fun path => image?_setImage r (imagePath d) _ path

theorem device_image_of_some {d : OpenedDevice} {image : ByteArray}
    (h : r.image? (imagePath d) = some image) : (r.device d).image = image := by
  show (r.image? (imagePath d)).getD ByteArray.empty = image
  rw [h]
  rfl

/-- A write that is carried out changes bytes of its own stretch at most, any other request none. -/
theorem sameBut_finish (r : Rig P) {d : OpenedDevice} {q : Request}
    (hwrites : q.WritesIn (allowed (imagePath d))) : SameBut allowed r (r.finish d q).1 := by
  rcases image?_finish r d q with hsame | hchanged
  · exact sameBut_of_image? hsame
  · intro path
    rw [hchanged]
    split
    · rename_i hpath
      subst hpath
      cases himage : r.image? (imagePath d) with
      | none => exact .none
      | some image =>
        have hdevice := device_image_of_some himage
        refine .some ?_
        cases q with
        | read offset length =>
          show Bytes.SameBut _ image (ite _ _ _ : MemoryDevice × _).1.image
          split <;> (rw [← hdevice]; exact .refl _ _)
        | write offset data =>
          show Bytes.SameBut _ image (MemoryDevice.write _ offset data).1.image
          rw [MemoryDevice.write, hdevice]
          split
          · rename_i hfits
            exact .overwrite hfits hwrites
          · rw [hdevice]
            exact .refl _ _
        | sync =>
          show Bytes.SameBut _ image (r.device d).image
          rw [hdevice]
          exact .refl _ _
    · exact SameBut.refl allowed r path

/-- A request without a write leaves a rig still. -/
theorem still_finish (r : Rig P) {d : OpenedDevice} {q : Request}
    (hnone : q.WritesIn fun _ => False) : Still r (r.finish d q).1 := by
  refine ⟨?_, ?_, fun hq => quiet_finish hq d q⟩
  · intro path
    have hsame : SameBut (fun _ _ => False) r (r.finish d q).1 := sameBut_finish r hnone
    exact hsame.image?_eq fun _ => id
  · intro l hl
    rwa [writer_finish]

/-- What a read brings: a stretch of the image, unless something goes wrong. -/
theorem complete_read (r : Rig P) (d : OpenedDevice) (offset length : Nat) :
    match (host.complete r d (.read offset length)).2 with
    | .ok bytes => ∃ n, bytes = (r.device d).image.extract offset (offset + n) ∧ n ≤ length ∧
        n ≤ (r.device d).image.size - offset ∧
        (r.Quiet → n = 0 → length = 0 ∨ (r.device d).image.size ≤ offset)
    | .error _ => ¬ r.Quiet := by
  cases hfailing : r.failing with
  | some f =>
    rw [complete_of_failing hfailing]
    intro hq
    rw [hq.failing] at hfailing
    cases hfailing
  | none =>
    rw [complete_of_settled hfailing]
    dsimp only [MemoryDevice.serve]
    by_cases hfails : (r.device d).readFails offset length
    · rw [if_pos hfails]
      intro hq
      rw [MemoryDevice.readFails_of_failReadAt hq.failReadAt] at hfails
      cases hfails
    · rw [if_neg hfails]
      obtain ⟨hlength, hsize, hsome⟩ := (r.device d).available_spec offset length
      exact ⟨_, rfl, hlength, hsize, fun hq => hsome hq.readLimit⟩

/-! ## Rules for routines -/

section

variable {α : Type} {inv : Rig P → Prop} {post : Option α → Rig P → Prop}

/-- Asking: the routine goes on with the answer. -/
theorem meets_ask {c : Verification.Call P} {next : c.Answer → Routine (interface P) α}
    (h : (next (r.answer c).2).Meets host (surroundings P) inv post (r.answer c).1) :
    (ask c next).Meets host (surroundings P) inv post r := h

/-- Giving way: an abort may be asked for. -/
theorem meets_pause {next : Routine (interface P) α}
    (h : ∀ r', Still r r' → inv r' ∧ next.Meets host (surroundings P) inv post r') :
    (Routine.pause next).Meets host (surroundings P) inv post r :=
  fun r' hchange => h r' (still_of_change hchange)

/-- Reading: the routine goes on with a stretch of the image, or something goes wrong. -/
theorem meets_read {d : OpenedDevice} {offset length : Nat}
    {next : Except IoError ByteArray → Routine (interface P) α}
    (hinv : ∀ r', Still r r' → inv r')
    (herror : ¬ r.Quiet → ∀ r' e, Still r r' →
      (next (.error e)).Meets host (surroundings P) inv post r')
    (hok : ∀ r' n, Still r r' → n ≤ length → n ≤ (r.device d).image.size - offset →
      (r.Quiet → n = 0 → length = 0 ∨ (r.device d).image.size ≤ offset) →
      (next (.ok ((r.device d).image.extract offset (offset + n)))).Meets host (surroundings P) inv
        post r') :
    (Routine.read (I := interface P) d offset length next).Meets host (surroundings P) inv post
      r := by
  have hsubmitted : Still r (host.submit r d (.read offset length)).1 := still_place r d _
  have hquiet : r.Quiet →
      (host.submit r d (.read offset length)).2 = .ok MemoryDevice.delay := by
    intro hq
    rw [submit_reliable hq.toReliable d (.read offset length) nofun]
  unfold Routine.read Routine.Meets
  split
  · -- only a rig that is not quiet refuses a read
    rename_i r' e heq
    rw [heq] at hsubmitted hquiet
    refine herror ?_ r' e hsubmitted
    intro hq
    cases hquiet hq
  · rename_i r' polls heq
    rw [heq] at hsubmitted
    intro r'' hchange
    have hstill := hsubmitted.trans (still_of_change hchange)
    refine ⟨hinv r'' hstill, ?_⟩
    have hcompleted : Still r (host.complete r'' d (.read offset length)).1 :=
      hstill.trans (still_finish r'' trivial)
    have hread := complete_read r'' d offset length
    rw [hstill.device_image d] at hread
    show (next (((host.complete r'' d (.read offset length)).2).map _)).Meets _ _ _ _ _
    cases houtcome : (host.complete r'' d (.read offset length)).2 with
    | error e =>
      rw [houtcome] at hread
      exact herror (fun hq => hread (hstill.quiet hq)) _ e hcompleted
    | ok bytes =>
      rw [houtcome] at hread
      obtain ⟨n, rfl, hlength, hsize, hsome⟩ := hread
      have hfits : ((r.device d).image.extract offset (offset + n)).extract 0 length =
          (r.device d).image.extract offset (offset + n) := by
        rw [ByteArray.extract_extract, Nat.add_zero, Nat.min_eq_right (by omega)]
      have hnext := hok _ n hcompleted hlength hsize fun hq => hsome (hstill.quiet hq)
      rw [← hfits] at hnext
      exact hnext

end

end Rig

end SlotVerify
