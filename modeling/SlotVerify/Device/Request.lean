import SlotVerify.Bytes
import SlotVerify.Device.Error
/-
  Requests to a device.

  `Request` is what a computation asks of a device, `Request.Reply` what it gets back on success.
  A request can fail when it is submitted and when it is carried out, and either way its buffer may
  be handed back with the error or not: `Placement` and `Completion` keep these apart.

  `ReadRequest` is the device's own view of a read: it owns the destination buffer, which may be
  longer than the stretch asked for and may hold old bytes behind what the read delivers.
-/

namespace SlotVerify.Device

/-- The largest buffer that can be had where nothing else is said, in bytes. -/
def memoryLimit : Nat := 1 <<< 36

/-- A read, a write or a request to make all writes durable. -/
inductive Request where
  /-- Up to `length` bytes from `offset` on. -/
  | read (offset length : Nat)
  | write (offset : Nat) (data : ByteArray)
  | sync

/-- What a successful request gives: the bytes read, fewer than asked for at the device's end. -/
abbrev Request.Reply : Request → Type
  | .read .. => ByteArray
  | .write .. => Unit
  | .sync => Unit

/-- Whether a request has a buffer that can be handed back. -/
def Request.hasBuffer : Request → Bool
  | .read .. | .write .. => true
  | .sync => false

/-- What comes of submitting a request; `φ` is what a device that takes it leaves behind. -/
inductive Placement (r : Request) (φ : Type) where
  | taken (future : φ)
  /-- The request is handed back, with an error. -/
  | returned (buffer : r.hasBuffer) (e : IoError)
  /-- There is nothing but an error. -/
  | refused (e : IoError)

/-- What comes of a request that a device has taken. -/
inductive Completion (r : Request) where
  | answered (reply : r.Reply)
  /-- The request is handed back, with an error. -/
  | failed (buffer : r.hasBuffer) (e : IoError)
  /-- There is nothing but an error. -/
  | lost (e : IoError)

namespace Placement

variable {r : Request} {φ ψ : Type}

/-- The same with another thing left behind. -/
def map (f : φ → ψ) : Placement r φ → Placement r ψ
  | .taken future => .taken (f future)
  | .returned buffer e => .returned buffer e
  | .refused e => .refused e

/-- An error, with the request handed back if there is anything of it. -/
def handBack (e : IoError) : Placement r φ :=
  if h : r.hasBuffer then .returned h e else .refused e

/-- Whether the request has been taken. -/
def outcome : Placement r φ → Except IoError φ
  | .taken future => .ok future
  | .returned _ e | .refused e => .error e

@[simp] theorem outcome_handBack (e : IoError) :
    (handBack e : Placement r φ).outcome = .error e := by
  unfold handBack
  split <;> rfl

end Placement

namespace Completion

variable {r : Request}

/-- An error, with the request handed back if there is anything of it. -/
def handBack (e : IoError) : Completion r :=
  if h : r.hasBuffer then .failed h e else .lost e

/-- What a device gives that always hands requests back. -/
def ofReply : Except IoError r.Reply → Completion r
  | .ok reply => .answered reply
  | .error e => .handBack e

/-- What the request has come to. -/
def outcome : Completion r → Except IoError r.Reply
  | .answered reply => .ok reply
  | .failed _ e | .lost e => .error e

@[simp] theorem outcome_handBack (e : IoError) :
    (handBack e : Completion r).outcome = .error e := by
  unfold handBack
  split <;> rfl

@[simp] theorem outcome_ofReply (reply : Except IoError r.Reply) :
    (ofReply reply).outcome = reply := by
  cases reply with
  | ok reply => rfl
  | error e => exact outcome_handBack e

end Completion

/-- A read with its destination. -/
structure ReadRequest where
  offset : Nat
  buffer : ByteArray
  /-- Bytes of the buffer's head that may be filled. -/
  length : Nat

namespace ReadRequest

/-- A read into `buffer`, which grows by zeros to `length` bytes where it is shorter, if buffers of
    that size can be had. -/
def new (offset : Nat) (buffer : ByteArray) (length : Nat) (memory : Nat := memoryLimit) :
    Except IoError ReadRequest :=
  if buffer.size < length then
    if memory < length then .error .memoryAllocationFailure
    else .ok ⟨offset, buffer ++ Bytes.zeros (length - buffer.size), length⟩
  else .ok ⟨offset, buffer, length⟩

/-- The destination: the first `length` bytes of the buffer. -/
def data (r : ReadRequest) : ByteArray := r.buffer.extract 0 r.length

/-- The request with the head of its buffer replaced by what was read. -/
def deliver (r : ReadRequest) (bytes : ByteArray) : ReadRequest :=
  { r with buffer := Bytes.overwrite r.buffer 0 bytes }

/-- Whether nothing is asked for. -/
def isEmpty (r : ReadRequest) : Bool := r.length == 0

@[simp] theorem offset_deliver (r : ReadRequest) (bytes : ByteArray) :
    (r.deliver bytes).offset = r.offset := rfl

@[simp] theorem length_deliver (r : ReadRequest) (bytes : ByteArray) :
    (r.deliver bytes).length = r.length := rfl

/-- Bytes that have room in the buffer leave its size alone. -/
theorem size_deliver {r : ReadRequest} {bytes : ByteArray} (h : bytes.size ≤ r.buffer.size) :
    (r.deliver bytes).buffer.size = r.buffer.size :=
  Bytes.size_overwrite (by omega)

/-- A new request has room for what it asks for. -/
theorem length_le_size_buffer {offset length memory : Nat} {buffer : ByteArray} {r : ReadRequest}
    (h : new offset buffer length memory = .ok r) : r.length ≤ r.buffer.size := by
  unfold new at h
  split at h
  · split at h
    · cases h
    · cases h
      simp [ByteArray.size_append]
      omega
  · cases h
    simp_all

end ReadRequest

end SlotVerify.Device
