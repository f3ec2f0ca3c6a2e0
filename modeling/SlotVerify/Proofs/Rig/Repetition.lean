import SlotVerify.Proofs.Rig.Images
import SlotVerify.Proofs.Rig.Stages
import SlotVerify.Proofs.Verity.Fresh
/-
  Running a routine again on the images that it has left.

  A run changes only bytes that it writes (`sameBut_run`).  So if it never writes where it has been
  before, then a device holds in the end what it has delivered on the way and what it has been told
  to write.  A device with the last image serves every request of the run the same way once more,
  and nothing changes (`MemoryDevice.serve_again`); so the second run goes the way of the first one
  (`run_again`, by induction on the routine).
-/

namespace SlotVerify

open Device Verification Routine

/-! ## One request -/

namespace Bytes.SameBut

variable {region : Nat → Prop} {a b data : ByteArray} {offset n : Nat}

theorem slice_eq (h : SameBut region a b) (hinside : n ≤ a.size - offset)
    (hnone : ∀ x, offset ≤ x → x < offset + n → ¬ region x) :
    slice b offset n = slice a offset n := by
  by_cases hfits : offset + n ≤ a.size
  · exact h.extract_eq hfits hnone
  · obtain rfl : n = 0 := by omega
    exact ByteArray.extract_same.trans ByteArray.extract_same.symm

/-- What is still in its place may be written once more. -/
theorem overwrite_again (h : SameBut region (Bytes.overwrite a offset data) b)
    (hfits : offset + data.size ≤ a.size)
    (hnone : ∀ x, offset ≤ x → x < offset + data.size → ¬ region x) :
    Bytes.overwrite b offset data = b := by
  have hsize := size_overwrite hfits
  have hstretch := h.extract_eq (by rwa [hsize]) hnone
  exact Bytes.overwrite_extract (by rwa [h.size, hsize])
    (hstretch.trans (extract_overwrite_self hfits))

end Bytes.SameBut

/-- A request is served again by a device that holds what the request has delivered or written: the
    outcome is the same, and the image stays. -/
theorem Device.MemoryDevice.serve_again {d : MemoryDevice} {q : Request} {image : ByteArray}
    (h : Bytes.SameBut (fun x => ¬ q.Concerns x) (d.serve q).1.image image) :
    ({ d with image } : MemoryDevice).serve q = ({ (d.serve q).1 with image }, (d.serve q).2) := by
  cases q with
  | read offset length =>
    have hread : (d.serve (.read offset length)).1 = { d with reads := d.reads + 1 } := by
      unfold serve
      dsimp only
      split <;> rfl
    rw [hread] at h
    have havailable : ({ d with image } : MemoryDevice).available offset length =
        d.available offset length := by
      unfold available
      rw [show image.size = d.image.size from h.size]
    obtain ⟨hlength, hinside, -⟩ := d.available_spec offset length
    -- what the read delivers is inside what it asks for, and that is still in its place
    have hslice := h.slice_eq hinside fun x hlow hhigh hnot => hnot ⟨hlow, by omega⟩
    unfold serve
    dsimp only
    rw [havailable]
    change (if d.readFails offset length then _ else _) = _
    split
    · rfl
    · exact congrArg (fun bytes => (_, Except.ok bytes)) hslice
  | write offset data =>
    by_cases hfits : offset + data.size ≤ d.image.size
    · have hwrite : d.serve (.write offset data) =
          ({ d with image := Bytes.overwrite d.image offset data }, .ok ()) := if_pos hfits
      rw [hwrite] at h ⊢
      have hsize : image.size = d.image.size := h.size.trans (Bytes.size_overwrite hfits)
      have hagain : ({ d with image } : MemoryDevice).serve (.write offset data) =
          ({ d with image := Bytes.overwrite image offset data }, .ok ()) :=
        if_pos (hsize ▸ hfits)
      rw [hagain, h.overwrite_again hfits fun x hlow hhigh hnot => hnot ⟨hlow, hhigh⟩]
    · have hwrite : d.serve (.write offset data) = (d, .error .outOfRange) := if_neg hfits
      rw [hwrite] at h ⊢
      have hsize : image.size = d.image.size := h.size
      exact if_neg (hsize ▸ hfits)
  | sync => rfl

theorem Device.MemoryDevice.size_image_serve (d : MemoryDevice) (q : Request) :
    (d.serve q).1.image.size = d.image.size := by
  cases q with
  | read offset length =>
    unfold serve
    dsimp only
    split <;> rfl
  | write offset data => exact d.size_image_write offset data
  | sync => rfl

namespace Rig

variable {P α : Type} {r : Rig P} {images : List (String × ByteArray)}
  {allowed : String → Nat → Prop}

/-- No failure is on order. -/
structure Faultless (r : Rig P) : Prop where
  faults : r.faults = []
  failing : r.failing = none

/-- The rig with other images. -/
abbrev refilled (r : Rig P) (images : List (String × ByteArray)) : Rig P := { r with images }

theorem image?_refilled (r r' : Rig P) : (r.refilled r'.images).image? = r'.image? := rfl

/-! ## What a run changes -/

theorem sameBut_serve (r : Rig P) {d : OpenedDevice} {q : Request}
    (hwrites : q.WritesIn (allowed (imagePath d))) : SameBut allowed r (host.serve r d q).1 := by
  have hsubmit : Still r (host.submit r d q).1 := still_place r d q
  unfold Host.serve
  split
  · rename_i heq
    rw [heq] at hsubmit
    exact hsubmit.sameBut
  · rename_i heq
    rw [heq] at hsubmit
    exact hsubmit.sameBut.trans (sameBut_finish _ hwrites)

/-- A run changes nothing but what it writes. -/
theorem sameBut_run (t : Routine (interface P) α) :
    ∀ {r : Rig P}, PutsIn imagePath allowed (t.trail host r) →
      SameBut allowed r (t.run host r).1 := by
  induction t with
  | done a => exact fun _ => SameBut.refl _ _
  | call c next ih =>
    intro r h
    obtain ⟨-, hrest⟩ := List.forall_mem_cons.mp h
    exact (frame_answer r c).sameBut.trans (ih _ hrest)
  | request d q next ih =>
    intro r h
    obtain ⟨hwrites, hrest⟩ := List.forall_mem_cons.mp h
    rw [run_serve]
    exact (sameBut_serve r hwrites).trans (ih _ hrest)
  | pause next ih =>
    intro r h
    obtain ⟨-, hrest⟩ := List.forall_mem_cons.mp h
    exact ih hrest
  | broken => exact fun _ => SameBut.refl _ _

/-- Images neither appear nor vanish. -/
theorem isSome_image?_run (t : Routine (interface P) α) (r : Rig P) (path : String) :
    ((t.run host r).1.image? path).isSome = (r.image? path).isSome := by
  have hsame : SameBut (fun _ _ => True) r (t.run host r).1 :=
    sameBut_run t fun e _ => e.permitted_true.mono (fun _ => id) fun _ q _ => q.writesIn_true
  have hpath := hsame path
  generalize r.image? path = before at hpath
  generalize (t.run host r).1.image? path = after at hpath
  cases hpath <;> rfl

/-- A run that writes nothing leaves the images alone. -/
theorem image?_run_of_reads {t : Routine (interface P) α} {okResult : α → Prop}
    (h : t.Only (fun _ => True) (fun _ q => q.WritesIn fun _ => False) okResult) (r : Rig P)
    (path : String) : (t.run host r).1.image? path = r.image? path := by
  obtain ⟨u, hreaches⟩ := t.reaches_trail host r
  have hsame : SameBut (fun _ _ => False) r (t.run host r).1 := sameBut_run t (h.reaches hreaches).1
  exact hsame.image?_eq fun _ => id

/-- What no run changes: whether devices do what they are asked for and can be opened, and the
    controller. -/
structure SameSetup (r r' : Rig P) : Prop where
  reliable : r.Reliable → r'.Reliable
  openErrors : r'.openErrors = r.openErrors
  controller : r'.controller = r.controller

theorem sameSetup_of_eq {r' : Rig P} (h : r' =
    { r with
      images := r'.images, readOnlyFlags := r'.readOnlyFlags, submitted := r'.submitted
      writer := r'.writer, aborted := r'.aborted, journal := r'.journal }) : SameSetup r r' := by
  have hopenErrors := congrArg openErrors h
  have hcontroller := congrArg controller h
  refine ⟨fun hr => ⟨?_, ?_, ?_, ?_⟩, hopenErrors, hcontroller⟩
  · exact (congrArg faults h).trans hr.faults
  · exact (congrArg failing h).trans hr.failing
  · exact (congrArg failReadAt h).trans hr.failReadAt
  · exact fun hzero => hr.readLimit ((congrArg readLimit h).symm.trans hzero)

theorem sameSetup_openImage (r : Rig P) (path : String) (writable : Bool) :
    SameSetup r (r.openImage path writable).1 := by
  unfold openImage
  split
  · exact sameSetup_of_eq rfl
  · split <;> exact sameSetup_of_eq rfl

theorem sameSetup_answer (r : Rig P) (c : Verification.Call P) : SameSetup r (r.answer c).1 := by
  cases c with
  | setReadOnly path readOnly =>
    show SameSetup r (r.setReadOnly path readOnly).1
    unfold setReadOnly
    split
    · exact sameSetup_of_eq rfl
    · split <;> exact sameSetup_of_eq rfl
  | openPath path writable => exact sameSetup_openImage r path writable
  | openSnapshot name sourcePath writable =>
    unfold answer
    dsimp only
    split
    · exact sameSetup_of_eq rfl
    · have hopen := sameSetup_openImage (r.noteController (.openSnapshot name sourcePath writable))
        (snapshotPath name) writable
      exact ⟨fun hr => hopen.reliable ⟨hr.faults, hr.failing, hr.failReadAt, hr.readLimit⟩,
        hopen.openErrors, hopen.controller⟩
  | report progress =>
    show SameSetup r (r.hear progress)
    unfold hear
    split <;> exact sameSetup_of_eq rfl
  | _ => exact sameSetup_of_eq rfl

theorem SameSetup.trans {r' r'' : Rig P} (h : SameSetup r r') (h' : SameSetup r' r'') :
    SameSetup r r'' :=
  ⟨fun hr => h'.reliable (h.reliable hr), h'.openErrors.trans h.openErrors,
    h'.controller.trans h.controller⟩

theorem sameSetup_place (r : Rig P) (d : OpenedDevice) (q : Request) :
    SameSetup r (r.place d q).1 := by
  unfold place
  dsimp only
  split
  · rename_i fault hfault
    have hfaulty : ∀ r' : Rig P, r'.openErrors = r.openErrors → r'.controller = r.controller →
        SameSetup r r' := by
      intro r' herrors hcontroller
      refine ⟨fun hr => ?_, herrors, hcontroller⟩
      rw [faultFor_eq_none hr.faults] at hfault
      cases hfault
    split <;> exact hfaulty _ rfl rfl
  · split <;> exact sameSetup_of_eq rfl

theorem sameSetup_finish (r : Rig P) (d : OpenedDevice) (q : Request) :
    SameSetup r (r.finish d q).1 := by
  show SameSetup r (host.complete r d q).1
  cases hfailing : r.failing with
  | some f =>
    rw [complete_of_failing hfailing]
    exact ⟨fun hr => ⟨hr.faults, rfl, hr.failReadAt, hr.readLimit⟩, rfl, rfl⟩
  | none =>
    rw [complete_of_settled hfailing]
    exact sameSetup_of_eq rfl

theorem sameSetup_run (t : Routine (interface P) α) (r : Rig P) :
    SameSetup r (t.run host r).1 := by
  refine (run_meets (t.only_true.meets (SameSetup r) ?_ ?_ ?_ ?_ (sameSetup_of_eq rfl))).1
  · exact fun r' c _ h => h.trans (sameSetup_answer r' c)
  · exact fun r' d q _ h => h.trans (sameSetup_place r' d q)
  · exact fun r' d q _ h => h.trans (sameSetup_finish r' d q)
  · rintro r' _ h rfl
    exact h

/-- A rig on which nothing goes wrong by itself; it may have dynamic partitions. -/
structure Sound (r : Rig P) : Prop extends Reliable r where
  openErrors : r.openErrors = []

theorem Sound.of_sameSetup {r' : Rig P} (h : r.Sound) (hsame : SameSetup r r') : r'.Sound :=
  ⟨hsame.reliable h.toReliable, hsame.openErrors.trans h.openErrors⟩

/-- What is there can be opened. -/
theorem Sound.openImage (h : r.Sound) {path : String} {image : ByteArray}
    (himage : r.image? path = some image) (writable : Bool) :
    (r.openImage path writable).2 = .ok () := by
  unfold Rig.openImage
  rw [h.openErrors, himage]
  rfl

/-! ## Once more -/

/-- An image is there in both rigs, or in neither. -/
theorem image?_cases {path : String} (h : ((r.refilled images).image? path).isSome =
      (r.image? path).isSome) :
    (r.image? path = none ∧ (r.refilled images).image? path = none) ∨
      ∃ image image', r.image? path = some image ∧
        (r.refilled images).image? path = some image' := by
  generalize r.image? path = before at h
  generalize (r.refilled images).image? path = after at h
  cases before with
  | none =>
    cases after with
    | none => exact .inl ⟨rfl, rfl⟩
    | some image' => cases h
  | some image =>
    cases after with
    | none => cases h
    | some image' => exact .inr ⟨image, image', rfl, rfl⟩

theorem openImage_refilled {path : String} (h : ((r.refilled images).image? path).isSome =
      (r.image? path).isSome) (writable : Bool) :
    (r.refilled images).openImage path writable =
      ((r.openImage path writable).1.refilled images, (r.openImage path writable).2) := by
  unfold openImage
  dsimp only
  split
  · rfl
  · rcases image?_cases h with ⟨hnone, hnone'⟩ | ⟨image, image', hsome, hsome'⟩
    · rw [hnone, hnone']
    · rw [hsome, hsome']
      rfl

/-- The answer to a call depends on the images only in so far as they are there. -/
theorem answer_refilled (h : ∀ path, ((r.refilled images).image? path).isSome =
      (r.image? path).isSome) (c : Verification.Call P) :
    (r.refilled images).answer c = ((r.answer c).1.refilled images, (r.answer c).2) := by
  cases c with
  | setReadOnly path readOnly =>
    unfold answer setReadOnly
    dsimp only
    split
    · rfl
    · rcases image?_cases (h path) with ⟨hnone, hnone'⟩ | ⟨image, image', hsome, hsome'⟩
      · rw [hnone, hnone']
      · rw [hsome, hsome']
  | openPath path writable => exact openImage_refilled (h path) writable
  | openSnapshot name sourcePath writable =>
    have hopen := openImage_refilled
      (r := r.noteController (.openSnapshot name sourcePath writable)) (h (snapshotPath name))
      writable
    unfold answer
    dsimp only
    rw [show ((r.refilled images).noteController _).controller = r.controller from rfl,
      show (r.noteController _).controller = r.controller from rfl]
    cases r.controller with
    | none => rfl
    | some c => exact hopen
  | report progress =>
    show ((r.refilled images).hear progress, ()) = ((r.hear progress).refilled images, ())
    unfold hear
    dsimp only
    split <;> rfl
  | _ => rfl

theorem Faultless.answer (h : r.Faultless) (c : Verification.Call P) :
    (r.answer c).1.Faultless := by
  obtain ⟨hfaults, hfailing⟩ := faults_answer r c
  exact ⟨hfaults.trans h.faults, hfailing.trans h.failing⟩

theorem Faultless.serve (h : r.Faultless) (d : OpenedDevice) (q : Request) :
    (host.serve r d q).1.Faultless := by
  rw [serve_of_none h.failing (faultFor_eq_none h.faults _)]
  split
  · exact ⟨h.faults, h.failing⟩
  · exact ⟨h.faults, h.failing⟩

/-- What a device is told to hold it holds, if it is as much as before. -/
theorem device_image_setImage {d : OpenedDevice} {image : ByteArray}
    (h : image.size = (r.device d).image.size) :
    ((r.setImage (imagePath d) image).device d).image = image := by
  show ((r.setImage (imagePath d) image).image? (imagePath d)).getD ByteArray.empty = image
  rw [image?_setImage, if_pos rfl]
  cases himage : r.image? (imagePath d) with
  | none =>
    have hnone : (r.device d).image = ByteArray.empty := by
      show (r.image? (imagePath d)).getD ByteArray.empty = _
      rw [himage]
      rfl
    rw [hnone] at h
    exact (ByteArray.size_eq_zero_iff.mp h).symm
  | some before => rfl

/-- It may be told to hold what it holds. -/
theorem image?_setImage_device (r : Rig P) (d : OpenedDevice) (path : String) :
    (r.setImage (imagePath d) (r.device d).image).image? path = r.image? path := by
  rw [image?_setImage]
  split
  · rename_i hpath
    subst hpath
    show (r.image? (imagePath d)).map (fun _ => (r.image? (imagePath d)).getD _) = _
    cases r.image? (imagePath d) <;> rfl
  · rfl

/-- A request is served again by a rig that holds what the request has delivered or written. -/
theorem serve_refilled (h : r.Faultless) {d : OpenedDevice} {q : Request}
    (hholds : SameBut (fun path x => path = imagePath d → ¬ q.Concerns x) (host.serve r d q).1
      (r.refilled images)) :
    ∃ images', host.serve (r.refilled images) d q =
        ((host.serve r d q).1.refilled images', (host.serve r d q).2) ∧
      ∀ path, (r.refilled images').image? path = (r.refilled images).image? path := by
  have h' : (r.refilled images).Faultless := ⟨h.faults, h.failing⟩
  rw [serve_of_none h.failing (faultFor_eq_none h.faults _)] at hholds ⊢
  rw [serve_of_none h'.failing (faultFor_eq_none h'.faults _)]
  have haccept : (((r.refilled images).counting q).device d).accept q =
      ((r.counting q).device d).accept q := by
    cases q <;> rfl
  rw [haccept]
  cases haccepts : ((r.counting q).device d).accept q with
  | error e => exact ⟨images, rfl, fun _ => rfl⟩
  | ok _ =>
    rw [haccepts] at hholds
    have hkept : (((r.counting q).setImage (imagePath d)
        (((r.counting q).device d).serve q).1.image).device d).image =
          (((r.counting q).device d).serve q).1.image :=
      device_image_setImage (MemoryDevice.size_image_serve _ q)
    -- the other rig holds what the request has left, wherever the request has been
    have hdevice : Bytes.SameBut (fun x => ¬ q.Concerns x)
        (((r.counting q).device d).serve q).1.image ((r.refilled images).device d).image := by
      rw [← hkept]
      exact (hholds.device_image d).mono fun _ hx => hx rfl
    have hagain : (((r.refilled images).counting q).device d).serve q = _ :=
      MemoryDevice.serve_again hdevice
    dsimp only
    rw [hagain]
    exact ⟨_, rfl, fun path => image?_setImage_device (r.refilled images) d path⟩

/-- Nothing later writes where a request has been. -/
theorem putsIn_of_fresh_cons {d : OpenedDevice} {q : Request} {outcome : Except IoError q.Reply}
    {es : List (Happening (interface P))} (h : Fresh imagePath (.served d q outcome :: es)) :
    PutsIn imagePath (fun path x => path = imagePath d → ¬ q.Concerns x) es := by
  intro e he
  have hspared := (List.pairwise_cons.mp h).1 e he
  match e with
  | .served d' (.write offset data) _ => exact fun x hlow hhigh hpath => hspared hpath x hlow hhigh
  | .served _ (.read ..) _ => trivial
  | .served _ .sync _ => trivial
  | .called .. => trivial
  | .paused => trivial

/-- A routine that never writes where it has been before runs the same way on the images that it
    has left, and leaves them alone. -/
theorem run_again (t : Routine (interface P) α) :
    ∀ {r : Rig P} {images : List (String × ByteArray)}, r.Faultless →
      Fresh imagePath (t.trail host r) →
      (∀ path, (r.refilled images).image? path = (t.run host r).1.image? path) →
      (t.run host (r.refilled images)).2 = (t.run host r).2 ∧
        ∀ path, (t.run host (r.refilled images)).1.image? path =
          (r.refilled images).image? path := by
  induction t with
  | done a => exact fun _ _ _ => ⟨rfl, fun _ => rfl⟩
  | call c next ih =>
    intro r images hfaultless hfresh himages
    have hanswer : host.answer (r.refilled images) c =
        ((host.answer r c).1.refilled images, (host.answer r c).2) :=
      answer_refilled (fun path =>
        (congrArg Option.isSome (himages path)).trans (isSome_image?_run (.call c next) r path)) c
    rw [run_call, run_call, hanswer]
    exact ih _ (hfaultless.answer c) (List.pairwise_cons.mp hfresh).2 himages
  | request d q next ih =>
    intro r images hfaultless hfresh himages
    -- the rest of the run writes elsewhere, so the last images hold what this request was about
    have hputs := putsIn_of_fresh_cons hfresh
    rw [run_serve] at himages
    have hholds : SameBut (fun path x => path = imagePath d → ¬ q.Concerns x) (host.serve r d q).1
        (r.refilled images) := by
      intro path
      rw [himages]
      exact sameBut_run _ hputs path
    obtain ⟨images', hserve, hkept⟩ := serve_refilled hfaultless hholds
    obtain ⟨hresult, himages'⟩ := ih _ (hfaultless.serve d q) (List.pairwise_cons.mp hfresh).2
      fun path => (hkept path).trans (himages path)
    rw [run_serve, run_serve, hserve]
    exact ⟨hresult, fun path => (himages' path).trans (hkept path)⟩
  | pause next ih =>
    intro r images hfaultless hfresh himages
    exact ih hfaultless (List.pairwise_cons.mp hfresh).2 himages
  | broken => exact fun _ _ _ => ⟨rfl, fun _ => rfl⟩

end Rig

end SlotVerify
