import SlotVerify.Bytes
import SlotVerify.Fec.Geometry
/-
  One round of the error correction: gathering its blocks and computing its parity.

  The blocks are read in order.  Since only the round's last block can be cut off by the end of the
  region, and all later ones lie wholly behind it, what has been gathered is always the beginning
  of the round's blocks laid end to end: its length alone says what to read next.
-/

namespace SlotVerify.Fec

/-- A round whose blocks are being gathered. -/
structure Round where
  geometry : Geometry
  index : Nat
  /-- The bytes read so far. -/
  gathered : ByteArray

namespace Round

/-- A round before its first byte. -/
def start (g : Geometry) (index : Nat) : Round := ⟨g, index, ByteArray.empty⟩

/-- How many bytes of the round's `j`th block lie inside the covered region. -/
def blockLength (r : Round) (j : Nat) : Nat :=
  min (r.geometry.dataSize - r.geometry.blockOffset r.index j) r.geometry.blockSize

/-- The offset on the device and the length of what to read next, if anything is missing. -/
def nextRead (r : Round) : Option (Nat × Nat) :=
  let g := r.geometry
  let j := r.gathered.size / g.blockSize
  let filled := r.gathered.size % g.blockSize
  if j < g.messageLength ∧ filled < r.blockLength j then
    some (g.dataOffset + g.blockOffset r.index j + filled, r.blockLength j - filled)
  else none

/-- The round with the next bytes read. -/
def gather (r : Round) (bytes : ByteArray) : Round :=
  { r with gathered := r.gathered ++ bytes }

/-- The message of the round's `k`th code word. -/
def message (r : Round) (k : Nat) : List UInt8 :=
  (List.range r.geometry.messageLength).map fun j =>
    Bytes.at0 r.gathered (j * r.geometry.blockSize + k)

/-- The round's parity bytes: those of its code words, one after the other. -/
def parity (r : Round) (code : Code) : ByteArray :=
  Bytes.concat ((List.range r.geometry.blockSize).map fun k =>
    (code.parity (r.message k)).toByteArray)

/-- Something is missing only while the round's blocks are not complete. -/
theorem size_gathered_lt {r : Round} {offset length : Nat}
    (h : r.nextRead = some (offset, length)) :
    r.gathered.size < r.geometry.messageLength * r.geometry.blockSize := by
  unfold nextRead at h
  simp only at h
  split at h
  · next hc =>
    obtain ⟨hj, hf⟩ := hc
    have hb : 0 < r.geometry.blockSize := by
      unfold blockLength at hf
      omega
    exact (Nat.div_lt_iff_lt_mul hb).1 hj
  · cases h

end Round

end SlotVerify.Fec
