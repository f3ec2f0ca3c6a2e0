import SlotVerify.Verity.Layout
/-
  Install plans.

  A plan lists the partitions that an update has written, in the order of their verification.  For
  each it says where the source and the target slot keep it, how large it is, which digest it has
  to have, and which verity metadata belongs to the target.
-/

namespace SlotVerify

/-- A boot slot. -/
structure Slot where
  number : UInt32
deriving DecidableEq, Repr

namespace Slot

/-- The mark for the absence of a slot. -/
def invalid : Slot := ⟨0xffffffff⟩

instance : Inhabited Slot := ⟨invalid⟩

/-- Whether this is a slot at all. -/
def isValid (s : Slot) : Bool := s != invalid

/-- The first two slots go by letters. -/
def text (s : Slot) : String :=
  if s.number = 0 then "A"
  else if s.number = 1 then "B"
  else if s = invalid then "INVALID"
  else toString s.number.toNat

end Slot

/-- A partition to verify. -/
structure Partition where
  name : String := ""
  sourcePath : String := ""
  targetPath : String := ""
  /-- The mapped read-only view of a dynamic target partition. -/
  readonlyTargetPath : String := ""
  sourceSize : UInt64 := 0
  targetSize : UInt64 := 0
  /-- The source's digest; empty for a full update. -/
  sourceHash : ByteArray := ByteArray.empty
  targetHash : ByteArray := ByteArray.empty
  blockSize : UInt32 := 4096
  hashTreeAlgorithm : String := "sha256"
  hashTreeSalt : ByteArray := ByteArray.empty
  hashTreeDataOffset : UInt64 := 0
  hashTreeDataSize : UInt64 := 0
  hashTreeOffset : UInt64 := 0
  hashTreeSize : UInt64 := 0
  fecDataOffset : UInt64 := 0
  fecDataSize : UInt64 := 0
  fecOffset : UInt64 := 0
  fecSize : UInt64 := 0
  fecRoots : UInt32 := 2
deriving DecidableEq

namespace Partition

/-- Where to read a mapped target: its own path, if there is no view of it. -/
def effectiveReadonlyPath (p : Partition) : String :=
  if p.readonlyTargetPath = "" then p.targetPath else p.readonlyTargetPath

/-- Whether a hash tree or error correction belongs to the target. -/
def hasVerity (p : Partition) : Bool := 0 < p.hashTreeSize || 0 < p.fecSize

/-- The parameters of the target's metadata. -/
def verityLayout (p : Partition) : Verity.Layout where
  blockSize := p.blockSize.toNat
  hashTreeAlgorithm := p.hashTreeAlgorithm
  hashTreeSalt := p.hashTreeSalt
  hashTreeDataOffset := p.hashTreeDataOffset.toNat
  hashTreeDataSize := p.hashTreeDataSize.toNat
  hashTreeOffset := p.hashTreeOffset.toNat
  hashTreeSize := p.hashTreeSize.toNat
  fecDataOffset := p.fecDataOffset.toNat
  fecDataSize := p.fecDataSize.toNat
  fecOffset := p.fecOffset.toNat
  fecSize := p.fecSize.toNat
  fecRoots := p.fecRoots.toNat

end Partition

/-- What an update has written, and how to verify it. -/
structure InstallPlan where
  sourceSlot : Slot := .invalid
  targetSlot : Slot := .invalid
  /-- Whether verity metadata is computed and written for the targets. -/
  writeVerity : Bool := true
  /-- In the order of verification. -/
  partitions : List Partition := []
  /-- Dynamic partitions that the update has left alone. -/
  untouchedDynamicPartitions : List String := []
deriving DecidableEq

/-- Whether the update builds on the contents of a source slot. -/
def InstallPlan.isDelta (p : InstallPlan) : Bool :=
  p.partitions.any fun q => q.sourceHash.size != 0

end SlotVerify
