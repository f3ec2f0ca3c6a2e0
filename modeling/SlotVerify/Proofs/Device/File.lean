import SlotVerify.Proofs.Bytes
import SlotVerify.Proofs.Device.Store
import SlotVerify.Proofs.Routine.Reliance
import SlotVerify.Device.Memory
/-
  Files that are used like devices in memory.

  A device in memory has its image for itself; a file is a part of a directory and can be reached by
  many paths.  Whatever a device in memory makes of a request, a file with the same contents makes
  of it as well and ends with the same contents, as far as the request comes to anything
  (`FileDevice.serve_memory`).  Where it does not, they differ: a write behind the end is refused by
  one and extends the other.
-/

namespace SlotVerify.Device

variable {s : FileStore} {name : String} {contents : ByteArray}

/-- The contents of a file that a directory has. -/
theorem FileDevice.contents?_of_find? (h : s.find? name = some (.file contents)) (writable : Bool)
    (size : Nat) (limit : UInt64) :
    FileDevice.contents? ⟨some name, writable, size, limit⟩ s = some contents := by
  unfold FileDevice.contents?
  rw [show (some name).bind s.find? = some (.file contents) from h]

theorem FileDevice.serve_read {d : FileDevice} (h : d.contents? s = some contents)
    {offset length : Nat} (hoffset : offset ≤ d.limit.toNat) (hlength : length ≠ 0) :
    d.serve s (.read offset length) = (s, .ok (Bytes.slice contents offset length)) := by
  dsimp only [FileDevice.serve]
  rw [if_neg (Nat.not_lt.mpr hoffset), if_neg hlength, h]

/-- Inside a file a write replaces bytes. -/
theorem FileDevice.written_inside {offset : Nat} {data : ByteArray}
    (h : offset + data.size ≤ contents.size) :
    FileDevice.written contents offset data = Bytes.overwrite contents offset data := by
  have hnothing : contents ++ Bytes.zeros (offset - contents.size) = contents := by
    rw [show offset - contents.size = 0 by omega]
    exact ByteArray.append_empty
  unfold FileDevice.written
  split
  · rename_i hempty
    rw [ByteArray.size_eq_zero_iff.mp hempty, Bytes.overwrite_empty]
  · rw [hnothing]

theorem FileDevice.serve_write (h : s.find? name = some (.file contents)) (writable : Bool)
    (size : Nat) {limit : UInt64} {offset : Nat} {data : ByteArray}
    (hfits : offset + data.size ≤ contents.size) (hsize : contents.size ≤ limit.toNat) :
    FileDevice.serve s ⟨some name, writable, size, limit⟩ (.write offset data) =
      (s.replace name (Bytes.overwrite contents offset data), .ok ()) := by
  dsimp only [FileDevice.serve]
  rw [if_neg (by omega), if_neg (by omega), contents?_of_find? h]
  dsimp only
  rw [written_inside hfits]

/-- A request that comes to anything on a device in memory comes to the same on a file, and leaves
    the same contents. -/
theorem FileDevice.serve_memory {path : String} (h : s.lookup path = .ok (.file name contents))
    {limit : UInt64} (hsize : contents.size ≤ limit.toNat) {m : MemoryDevice}
    (himage : m.image = contents) (hlimit : m.readLimit = none)
    (hfail : ∀ offset length, m.readFails offset length = false) (writable : Bool)
    (size : Nat) (q : Request) :
    q.Fruitless (m.serve q).2 ∨
      (FileDevice.serve s ⟨some name, writable, size, limit⟩ q).2 = (m.serve q).2 ∧
      (FileDevice.serve s ⟨some name, writable, size, limit⟩ q).1.lookup path =
        .ok (.file name (m.serve q).1.image) ∧
      (m.serve q).1.image.size ≤ limit.toNat := by
  subst himage
  have hfile := FileStore.find?_of_lookup h
  cases q with
  | read offset length =>
    have hserve : m.serve (.read offset length) = ({ m with reads := m.reads + 1 },
        .ok (Bytes.slice m.image offset (m.available offset length))) :=
      if_neg (Bool.eq_false_iff.mp (hfail offset length))
    have havailable : m.available offset length = min length (m.image.size - offset) := by
      unfold MemoryDevice.available
      rw [hlimit]
    rw [hserve, havailable]
    by_cases hsome : 0 < length ∧ offset < m.image.size
    · have hinside : offset ≤ limit.toNat := by omega
      rw [serve_read (contents?_of_find? hfile writable size limit) hinside (by omega)]
      refine Or.inr ⟨?_, h, hsize⟩
      show Except.ok (Bytes.slice _ _ _) = Except.ok (Bytes.slice _ _ _)
      congr 1
      unfold Bytes.slice
      rw [← Bytes.extract_min, ← Bytes.extract_min _ _ (_ + min _ _)]
      congr 1
      omega
    · refine Or.inl ?_
      show (Bytes.slice m.image offset (min length (m.image.size - offset))).size = 0
      rw [Bytes.size_slice]
      omega
  | write offset data =>
    by_cases hfits : offset + data.size ≤ m.image.size
    · have hserve : m.serve (.write offset data) =
          ({ m with image := Bytes.overwrite m.image offset data }, .ok ()) := if_pos hfits
      rw [hserve, serve_write hfile writable size hfits hsize]
      refine Or.inr ⟨rfl, FileStore.lookup_replace_self h _, ?_⟩
      show (Bytes.overwrite m.image offset data).size ≤ _
      rw [Bytes.size_overwrite hfits]
      exact hsize
    · refine Or.inl ?_
      have hserve : m.serve (.write offset data) = (m, .error .outOfRange) := if_neg hfits
      rw [hserve]
      trivial
  | sync => exact Or.inr ⟨rfl, h, hsize⟩

end SlotVerify.Device
