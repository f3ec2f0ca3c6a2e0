import SlotVerify.Verity.Layout
import SlotVerify.Fec.Geometry
import SlotVerify.Device.Request
/-
  Hash trees of block data.

  The leaf level holds a digest of every data block, each followed by zeros up to a power of two
  (a slot).  A level that needs more than one block is covered by the level above it in the same
  way; the last block of a level is filled with zeros.  The tree is stored top level first, and its
  root digest is that of the top block, or of a zero block where there is no data.

  Every block is hashed behind a salt.  The tree itself needs to know only how one block is hashed,
  so `Format` takes that function as it comes; `Format.ofAlgorithm` fills in a salted digest.

  A `Builder` takes the data in pieces of any size, in order.  `size` predicts how large a tree will
  be, from the number of data blocks alone.
-/

namespace SlotVerify.HashTree

open Verity (Error)

/-- Bytes that a digest occupies in a tree: the next power of two, for two bytes or more. -/
def slotFor (digestSize : Nat) : Nat := 1 <<< (Nat.log2 (digestSize - 1) + 1)

example : slotFor 20 = 32 ∧ slotFor 32 = 32 ∧ slotFor 64 = 64 := by decide

/-- Whether a number is a power of two. -/
def isPowerOfTwo (n : Nat) : Bool := 1 <<< n.log2 == n

example : (List.range 10).filter isPowerOfTwo = [1, 2, 4, 8] := by decide

/-- How blocks are hashed and digests are stored. -/
structure Format where
  blockSize : Nat
  /-- Bytes that a digest occupies. -/
  slot : Nat
  /-- The digest of a block. -/
  digest : ByteArray → ByteArray
  slot_pos : 0 < slot
  two_slots : 2 * slot ≤ blockSize

namespace Format

/-- Digests behind a salt, in blocks of a power of two that hold two digests at least. -/
def ofAlgorithm (a : Digest.Algorithm) (salt : ByteArray) (blockSize : Nat) :
    Except Error Format :=
  if h : isPowerOfTwo blockSize ∧ 2 * slotFor a.digestSize ≤ blockSize then
    .ok
      { blockSize
        slot := slotFor a.digestSize
        digest := fun block => a.digest (salt ++ block)
        slot_pos := Nat.shiftLeft_pos_iff.mpr Nat.one_pos
        two_slots := h.2 }
  else .error (.invalidBlockSize blockSize)

/-- A block's digest as it is stored. -/
def entry (f : Format) (block : ByteArray) : ByteArray := Bytes.fit f.slot (f.digest block)

/-- The stored digests of a level's blocks. -/
def entries (f : Format) (level : ByteArray) : ByteArray :=
  Bytes.concat ((Bytes.pieces f.blockSize level).map f.entry)

end Format

/-! ## Sizes of levels -/

theorem size_foldl_append (parts : List ByteArray) (start : ByteArray) {n : Nat}
    (h : ∀ p ∈ parts, p.size = n) :
    (parts.foldl (· ++ ·) start).size = start.size + parts.length * n := by
  induction parts generalizing start with
  | nil => simp
  | cons p rest ih =>
    have hp := h p (by simp)
    rw [List.foldl_cons, ih _ (fun q hq => h q (by simp [hq])), ByteArray.size_append, hp,
      List.length_cons, Nat.add_mul]
    omega

@[simp] theorem Format.size_entries (f : Format) (level : ByteArray) :
    (f.entries level).size = level.size / f.blockSize * f.slot := by
  unfold Format.entries Bytes.concat
  rw [size_foldl_append (n := f.slot)]
  · simp
  · simp only [List.mem_map]
    rintro p ⟨b, -, rfl⟩
    simp [Format.entry]

/-- Padding goes to the next multiple. -/
theorem size_padTo (unit : Nat) (b : ByteArray) (h : 0 < unit) :
    (Bytes.padTo unit b).size = (b.size + unit - 1) / unit * unit := by
  have hmod := Nat.mod_lt b.size h
  have hdiv := Nat.div_add_mod b.size unit
  simp only [Bytes.padTo, ByteArray.size_append, Bytes.size_zeros]
  by_cases hz : b.size % unit = 0
  · rw [hz, Nat.sub_zero, Nat.mod_self]
    have : (b.size + unit - 1) / unit = b.size / unit := by
      rw [Nat.div_eq_of_lt_le]
      · have := Nat.div_mul_le_self b.size unit; omega
      · rw [Nat.add_mul, Nat.mul_comm]; omega
    rw [this, Nat.mul_comm]; omega
  · rw [Nat.mod_eq_of_lt (by omega)]
    have : (b.size + unit - 1) / unit = b.size / unit + 1 := by
      rw [Nat.div_eq_of_lt_le]
      · rw [Nat.add_mul, Nat.mul_comm]; omega
      · rw [Nat.add_mul, Nat.add_mul, Nat.mul_comm]; omega
    rw [this, Nat.add_mul, Nat.mul_comm]; omega

/-- A level above is smaller than the level that it covers. -/
theorem Format.size_entries_padTo_lt (f : Format) (level : ByteArray) (hne : level.size ≠ 0)
    (hmany : (Bytes.padTo f.blockSize level).size ≠ f.blockSize) :
    (f.entries (Bytes.padTo f.blockSize level)).size < level.size := by
  have hs := f.slot_pos
  have h2 := f.two_slots
  have hb : 0 < f.blockSize := by omega
  rw [Format.size_entries, size_padTo _ _ hb] at *
  rw [Nat.mul_div_cancel _ hb]
  generalize hq : (level.size + f.blockSize - 1) / f.blockSize = q at *
  have hq1 : q ≠ 0 := by
    rintro rfl
    have := Nat.div_add_mod (level.size + f.blockSize - 1) f.blockSize
    have := Nat.mod_lt (level.size + f.blockSize - 1) hb
    rw [hq] at *
    omega
  have hq2 : q ≠ 1 := by
    rintro rfl
    simp at hmany
  have hle : q * f.blockSize ≤ level.size + f.blockSize - 1 := hq ▸ Nat.div_mul_le_self _ _
  have hslots : q * (2 * f.slot) ≤ q * f.blockSize := Nat.mul_le_mul_left q h2
  have hqb : 2 * f.blockSize ≤ q * f.blockSize := Nat.mul_le_mul_right _ (by omega)
  have hsplit : q * (2 * f.slot) = 2 * (q * f.slot) := by rw [Nat.mul_left_comm]
  omega

/-! ## The tree -/

/-- The levels over a level of digests and that level itself, top level first, in whole blocks. -/
def Format.levels (f : Format) (level : ByteArray) : List ByteArray :=
  if _ : level.size = 0 then []
  else if _ : (Bytes.padTo f.blockSize level).size = f.blockSize then
    [Bytes.padTo f.blockSize level]
  else
    f.levels (f.entries (Bytes.padTo f.blockSize level)) ++ [Bytes.padTo f.blockSize level]
termination_by level.size
decreasing_by exact f.size_entries_padTo_lt level ‹_› ‹_›

/-- A finished tree. -/
structure Tree where
  rootDigest : ByteArray
  /-- All levels, top level first. -/
  bytes : ByteArray

/-- The tree over a level of digests. -/
def Format.tree (f : Format) (leaves : ByteArray) : Tree :=
  let levels := f.levels leaves
  { rootDigest := f.digest (levels.headD (Bytes.zeros f.blockSize))
    bytes := Bytes.concat levels }

/-! ## Building a tree -/

/-- A tree whose data is still coming in. -/
structure Builder where
  format : Format
  /-- Bytes of data that the tree covers. -/
  dataSize : Nat
  /-- Bytes taken so far. -/
  hashed : Nat
  /-- The bytes taken that do not fill a block yet. -/
  pending : ByteArray
  /-- The stored digests of the full blocks taken. -/
  leaves : ByteArray

namespace Builder

/-- A builder for data of a given size, where buffers of up to `memory` bytes can be had. -/
def new (a : Digest.Algorithm) (blockSize : Nat) (salt : ByteArray) (dataSize : Nat)
    (memory : Nat := Device.memoryLimit) : Except Error Builder := do
  let format ← Format.ofAlgorithm a salt blockSize
  if dataSize % blockSize ≠ 0 then .error (.unalignedDataSize dataSize blockSize)
  else if memory < dataSize / blockSize * format.slot then
    .error .memoryAllocationFailure
  else .ok ⟨format, dataSize, 0, ByteArray.empty, ByteArray.empty⟩

/-- Takes the next bytes of the data; more than is still missing is refused as a whole. -/
def update (b : Builder) (data : ByteArray) : Except Error Builder :=
  if b.dataSize - b.hashed < data.size then .error .dataOverflow
  else
    let waiting := b.pending ++ data
    let full := waiting.size / b.format.blockSize * b.format.blockSize
    .ok
      { b with
        hashed := b.hashed + data.size
        pending := waiting.extract full waiting.size
        leaves := b.leaves ++ b.format.entries waiting }

/-- The finished tree, once all data has been taken. -/
def build (b : Builder) : Except Error Tree :=
  if b.hashed ≠ b.dataSize ∨ b.pending.size ≠ 0 then .error (.incompleteData b.hashed b.dataSize)
  else .ok (b.format.tree b.leaves)

end Builder

/-! ## The size of a tree -/

/-- Why a tree has no size. -/
inductive SizeFault where
  /-- A block does not hold a single digest. -/
  | divisionByZero
  /-- A block holds one digest only, so that no level is smaller than the one below. -/
  | endless
deriving DecidableEq

/-- Blocks of all levels above `blocks` blocks, with `perBlock` digests a block. -/
def blocksAbove (perBlock : Nat) (h : 2 ≤ perBlock) (blocks : Nat) : Nat :=
  if Fec.ceilDiv blocks perBlock ≤ 1 then Fec.ceilDiv blocks perBlock
  else Fec.ceilDiv blocks perBlock + blocksAbove perBlock h (Fec.ceilDiv blocks perBlock)
termination_by blocks
decreasing_by
  rename_i hmany
  unfold Fec.ceilDiv at *
  have hlt : blocks + perBlock - 1 < blocks * perBlock := by
    have hb : 2 ≤ blocks := by
      rcases Nat.lt_or_ge blocks 2 with hlt | hge
      · have : (blocks + perBlock - 1) / perBlock ≤ 1 := by
          rw [← Nat.lt_succ_iff, Nat.div_lt_iff_lt_mul (by omega)]; omega
        omega
      · exact hge
    have := Nat.mul_le_mul_left blocks h
    obtain ⟨p, rfl⟩ := Nat.exists_eq_add_of_le h
    obtain ⟨k, rfl⟩ := Nat.exists_eq_add_of_le hb
    have : (2 + k) * (2 + p) = 4 + 2 * p + 2 * k + k * p := by
      simp only [Nat.add_mul, Nat.mul_add]; omega
    omega
  exact (Nat.div_lt_iff_lt_mul (by omega)).2 hlt

/-- The size in bytes of the tree over `dataSize` bytes. -/
def size (a : Digest.Algorithm) (blockSize dataSize : Nat) : Except SizeFault Nat :=
  let perBlock := blockSize / slotFor a.digestSize
  let blocks := Fec.ceilDiv dataSize blockSize
  if h : 2 ≤ perBlock then .ok (blocksAbove perBlock h blocks * blockSize)
  else if perBlock = 0 then .error .divisionByZero
  else if blocks ≤ 1 then .ok (blocks * blockSize)
  else .error .endless

end SlotVerify.HashTree
