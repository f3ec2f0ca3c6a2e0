import SlotVerify.Device.Request
/-
  A device held in memory.

  Its image is a byte array of fixed size.  A read delivers what lies inside the image, at most
  `readLimit` bytes of it; one that covers `failReadAt` fails.  A write has to lie inside the image
  and the device has to be writable, else nothing changes: a device opened for reading refuses the
  request at once, a misplaced write fails when it is carried out.

  Every request is pending once before it is carried out.
-/

namespace SlotVerify.Device

/-- A device in memory, as seen by one opening of it. -/
structure MemoryDevice where
  image : ByteArray
  writable : Bool := true
  /-- Most bytes that one read delivers. -/
  readLimit : Option Nat := none
  /-- Any read of this byte fails. -/
  failReadAt : Option Nat := none
  /-- Reads carried out so far, the failed ones included. -/
  reads : Nat := 0

namespace MemoryDevice

/-- Polls of a request that end pending. -/
def delay : Nat := 1

/-- How many bytes a read at `offset` of up to `length` bytes delivers. -/
def available (d : MemoryDevice) (offset length : Nat) : Nat :=
  let n := min length (d.image.size - offset)
  match d.readLimit with
  | some limit => min n limit
  | none => n

/-- Whether a read of `length` bytes at `offset` touches the byte that cannot be read. -/
def readFails (d : MemoryDevice) (offset length : Nat) : Bool :=
  match d.failReadAt with
  | some bad => offset ≤ bad && bad < offset + length
  | none => false

/-- Carries out a read into the request's own buffer. -/
def read (d : MemoryDevice) (r : ReadRequest) : MemoryDevice × ReadRequest × Except IoError Nat :=
  let d' := { d with reads := d.reads + 1 }
  if d.readFails r.offset r.length then (d', r, .error .ioFailure)
  else
    let n := d.available r.offset r.length
    (d', r.deliver (Bytes.slice d.image r.offset n), .ok n)

/-- Whether the device takes the request at all. -/
def accept (d : MemoryDevice) : Request → Except IoError Unit
  | .write .. => if d.writable then .ok () else .error .readOnly
  | _ => .ok ()

/-- Carries out a write that was accepted. -/
def write (d : MemoryDevice) (offset : Nat) (data : ByteArray) :
    MemoryDevice × Except IoError Unit :=
  if offset + data.size ≤ d.image.size then
    ({ d with image := Bytes.overwrite d.image offset data }, .ok ())
  else (d, .error .outOfRange)

/-- Carries out an accepted request for a requester who looks only at the bytes read. -/
def serve (d : MemoryDevice) : (r : Request) → MemoryDevice × Except IoError r.Reply
  | .read offset length =>
    let d' := { d with reads := d.reads + 1 }
    if d.readFails offset length then (d', .error .ioFailure)
    else (d', .ok (Bytes.slice d.image offset (d.available offset length)))
  | .write offset data => d.write offset data
  | .sync => (d, .ok ())

/-- A read delivers no more than asked for and than there is, and not nothing where there is
    something to deliver. -/
theorem available_spec (d : MemoryDevice) (offset length : Nat) :
    d.available offset length ≤ length ∧ d.available offset length ≤ d.image.size - offset ∧
      (d.readLimit ≠ some 0 → d.available offset length = 0 →
        length = 0 ∨ d.image.size ≤ offset) := by
  unfold available
  dsimp only
  split
  · rename_i limit hlimit
    refine ⟨by omega, by omega, ?_⟩
    intro hsome hzero
    have hpos : limit ≠ 0 := by
      rintro rfl
      exact hsome hlimit
    omega
  · omega

theorem readFails_of_failReadAt {d : MemoryDevice} (h : d.failReadAt = none)
    (offset length : Nat) : d.readFails offset length = false := by
  unfold readFails
  rw [h]

/-- A read of a device on which none fails, and what is left of it if no more is taken than was
    asked for. -/
theorem serve_read {d : MemoryDevice} (h : d.failReadAt = none) (offset length : Nat) :
    ∃ n, d.serve (.read offset length) =
        ({ d with reads := d.reads + 1 }, .ok (d.image.extract offset (offset + n))) ∧
      (d.image.extract offset (offset + n)).extract 0 length =
        d.image.extract offset (offset + n) ∧
      n ≤ length ∧ n ≤ d.image.size - offset ∧
      (d.readLimit ≠ some 0 → n = 0 → length = 0 ∨ d.image.size ≤ offset) := by
  obtain ⟨hlength, hsize, hsome⟩ := d.available_spec offset length
  refine ⟨d.available offset length,
    if_neg (Bool.eq_false_iff.mp (readFails_of_failReadAt h offset length)), ?_, hlength, hsize,
    hsome⟩
  rw [ByteArray.extract_extract, Nat.add_zero, Nat.min_eq_right (by omega)]

/-- No write changes the image's size. -/
theorem size_image_write (d : MemoryDevice) (offset : Nat) (data : ByteArray) :
    (d.write offset data).1.image.size = d.image.size := by
  unfold write
  split
  · next h => exact Bytes.size_overwrite h
  · rfl

end MemoryDevice

end SlotVerify.Device
