import SlotVerify.Proofs.Rig.Images
/-
  Routines on one device of a rig that carries out everything.

  `DeviceRoutine.Yields` says of a routine and an image: opened on a device with this image, the
  routine succeeds, whatever the reads are cut into, and what holds then of its result and of the
  image that it leaves.  There is one rule for each kind of request, and one for a sequence; a run
  ends as promised (`DeviceRoutine.Yields.run`).
-/

namespace SlotVerify

open Device Verification Verity

namespace Rig

variable {P : Type} {r : Rig P} {d : OpenedDevice} {image : ByteArray}

/-- A reliable rig with this image behind an opened device. -/
structure Offers (r : Rig P) (d : OpenedDevice) (image : ByteArray) : Prop where
  reliable : r.Reliable
  image? : r.image? (imagePath d) = some image

/-- Neither the writer nor the bookkeeping changes what is offered. -/
theorem Offers.of_eq {r' : Rig P} (h : r.Offers d image) (heq : r' =
    { r with
      writer := r'.writer, submitted := r'.submitted, aborted := r'.aborted
      journal := r'.journal }) : r'.Offers d image := by
  rw [heq]
  exact ⟨⟨h.reliable.faults, h.reliable.failing, h.reliable.failReadAt, h.reliable.readLimit⟩,
    h.image?⟩

/-- A request that is carried out, and its outcome; the device goes on offering its image. -/
theorem Offers.complete (h : r.Offers d image) (q : Request) :
    (host.complete r d q).2 = ((r.device d).serve q).2 ∧
      (host.complete r d q).1.Offers d ((r.device d).serve q).1.image := by
  have hfinish : r.finish d q =
      ((r.setImage (imagePath d) ((r.device d).serve q).1.image).note
        fun j => { j with reads := ((r.device d).serve q).1.reads },
        .ofReply ((r.device d).serve q).2) := by
    unfold Rig.finish
    rw [h.reliable.failing]
  show (r.finish d q).2.outcome = _ ∧ (r.finish d q).1.Offers d _
  rw [hfinish]
  refine ⟨Completion.outcome_ofReply _, ⟨h.reliable.faults, h.reliable.failing,
    h.reliable.failReadAt, h.reliable.readLimit⟩, ?_⟩
  show (r.setImage (imagePath d) ((r.device d).serve q).1.image).image? (imagePath d) = _
  rw [image?_setImage, if_pos rfl, h.image?]
  rfl

theorem Offers.change {r' : Rig P} (h : r.Offers d image) (hchange : (surroundings P).change r r') :
    r'.Offers d image := by
  obtain ⟨aborted, rfl⟩ := hchange
  exact h.of_eq rfl

/-- A request: the routine goes on with what the device makes of it. -/
theorem Offers.meets_request {α : Type} {post : Option α → Rig P → Prop} {q : Request}
    {next : Except IoError q.Reply → Routine (interface P) α} (h : r.Offers d image)
    (hwritable : ∀ offset data, q = .write offset data → d.writable = true)
    (hnext : ∀ (device : MemoryDevice) r', device.image = image → device.failReadAt = none →
      device.readLimit ≠ some 0 → r'.Offers d (device.serve q).1.image →
      (next (device.serve q).2).Meets host (surroundings P) (fun _ => True) post r') :
    (Routine.request d q next).Meets host (surroundings P) (fun _ => True) post r := by
  have hsubmitted := submit_reliable h.reliable d q hwritable
  have htaken : Offers { r with submitted := r.submitted.next (Kind.of q) } d image :=
    h.of_eq rfl
  unfold Routine.Meets
  rw [hsubmitted]
  -- while the request is pending an abort may be asked for; the device does not notice
  intro r' hchange
  have hdue := htaken.change hchange
  obtain ⟨houtcome, hoffers⟩ := hdue.complete q
  refine ⟨trivial, ?_⟩
  show (next (host.complete r' d q).2).Meets _ _ _ _ (host.complete r' d q).1
  rw [houtcome]
  exact hnext (r'.device d) _ (device_image_of_some hdue.image?) hdue.reliable.failReadAt
    hdue.reliable.readLimit hoffers

end Rig

namespace Verity.DeviceRoutine

variable {α β : Type} {d : OpenedDevice} {image : ByteArray} {post : α → ByteArray → Prop}

/-- The routine on an opened device. -/
abbrev on (P : Type) (d : OpenedDevice) (t : DeviceRoutine α) :
    Routine (interface P) (Except Error α) :=
  Routine.onDevice (J := interface P) id (fun _ => d) t

theorem on_andThen {P : Type} (t : DeviceRoutine α) (f : α → DeviceRoutine β) :
    (t.andThen f).on P d = (t.on P d).bind fun
      | .ok a => (f a).on P d
      | .error e => .done (.error e) := by
  refine (Routine.onDevice_bind t _).trans (congrArg _ (funext ?_))
  rintro (e | a) <;> rfl

/-- On a device with this image the routine succeeds; `post` holds of the result and of the image
    that it leaves. -/
def Yields (d : OpenedDevice) (post : α → ByteArray → Prop) (t : DeviceRoutine α)
    (image : ByteArray) : Prop :=
  ∀ (P : Type) (r : Rig P), r.Offers d image →
    (t.on P d).Meets Rig.host (Rig.surroundings P) (fun _ => True)
      (fun outcome r' => ∃ a after, outcome = some (.ok a) ∧ post a after ∧ r'.Offers d after) r

theorem yields_done {a : α} (h : post a image) : Yields d post (.done (.ok a)) image :=
  fun _ _ hr => ⟨a, image, rfl, h, hr⟩

/-- A sequence: the second part is left with the image of the first one. -/
theorem Yields.andThen {post : β → ByteArray → Prop} {t : DeviceRoutine α}
    {f : α → DeviceRoutine β} (h : Yields d (fun a after => (f a).Yields d post after) t image) :
    (t.andThen f).Yields d post image := by
  intro P r hr
  rw [on_andThen]
  apply Routine.meets_bind
  refine (h P r hr).mono (fun _ => id) ?_
  rintro _ r' ⟨a, after, rfl, hf, hr'⟩
  exact hf P r' hr'

theorem Yields.mono {post' : α → ByteArray → Prop} {t : DeviceRoutine α}
    (h : t.Yields d post image) (hpost : ∀ a after, post a after → post' a after) :
    t.Yields d post' image := by
  intro P r hr
  refine (h P r hr).mono (fun _ => id) ?_
  rintro _ r' ⟨a, after, rfl, ha, hr'⟩
  exact ⟨a, after, rfl, hpost a after ha, hr'⟩

/-- A read brings the beginning of what was asked for, and not nothing where there is something. -/
theorem yields_read {offset length : Nat} {next : Except IoError ByteArray → DeviceRoutine α}
    (h : ∀ n, n ≤ length → n ≤ image.size - offset →
      (n = 0 → length = 0 ∨ image.size ≤ offset) →
      (next (.ok (image.extract offset (offset + n)))).Yields d post image) :
    Yields d post (Routine.read (I := Interface.deviceOnly) () offset length next) image := by
  intro P r hr
  refine hr.meets_request nofun ?_
  rintro device r' rfl hfail hlimit hr'
  obtain ⟨n, hserve, hfits, hlength, hsize, hsome⟩ := device.serve_read hfail offset length
  have hnext := h n hlength hsize (hsome hlimit)
  rw [hserve] at hr' ⊢
  rw [← hfits] at hnext
  exact hnext P r' hr'

/-- A write inside the image. -/
theorem yields_write (hwritable : d.writable = true) {post : Unit → ByteArray → Prop}
    {offset : Nat} {data : ByteArray} (hfits : offset + data.size ≤ image.size)
    (h : post () (Bytes.overwrite image offset data)) :
    (write offset data).Yields d post image := by
  intro P r hr
  refine hr.meets_request (fun _ _ _ => hwritable) ?_
  rintro device r' rfl - - hr'
  have hserve : device.serve (.write offset data) =
      ({ device with image := Bytes.overwrite device.image offset data }, .ok ()) := if_pos hfits
  rw [hserve] at hr' ⊢
  exact ⟨(), _, rfl, h, hr'⟩

theorem yields_sync {post : Unit → ByteArray → Prop} (h : post () image) :
    sync.Yields d post image := by
  intro P r hr
  refine hr.meets_request nofun ?_
  rintro device r' rfl - - hr'
  exact ⟨(), _, rfl, h, hr'⟩

/-- A run to the end. -/
theorem Yields.run {t : DeviceRoutine α} (h : t.Yields d post image) {P : Type} {r : Rig P}
    (hr : r.Offers d image) :
    ∃ a after, ((t.on P d).run Rig.host r).2 = some (.ok a) ∧ post a after ∧
      ((t.on P d).run Rig.host r).1.Offers d after :=
  Routine.run_meets (h P r hr).still

end Verity.DeviceRoutine

end SlotVerify
