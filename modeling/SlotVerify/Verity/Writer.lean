import SlotVerify.HashTree
import SlotVerify.Verity.Finalization
/-
  The writer of verity metadata.

  A writer is initialized for a partition's layout, fed the partition's data from offset zero on
  without gaps, and then finalized; finalizing hands out what is to be written and leaves the writer
  ready for the next partition.  It remembers the root digest of the last tree it built.
-/

namespace SlotVerify.Verity

/-- Why a layout cannot be used. -/
inductive InitFault where
  | rejected (e : Error)
  /-- The size of the tree has no answer. -/
  | breakdown (f : HashTree.SizeFault)

/-- A partition whose data is coming in. -/
structure Session where
  layout : Layout
  builder : Option HashTree.Builder
  fec : Option Fec.Geometry
  /-- Where the next data has to begin. -/
  nextOffset : Nat

/-- The end of a region, which has to be addressable. -/
def regionEnd (offset size : Nat) : Except Error Nat :=
  if offset + size < wordLimit then .ok (offset + size) else .error (.layoutOutOfRange offset size)

namespace Session

/-- The builder of a layout's tree, if it has one. -/
def treeBuilder (l : Layout) (memory : Nat := Device.memoryLimit) :
    Except InitFault (Option HashTree.Builder) :=
  if l.hashTreeSize = 0 then .ok none
  else
    match Digest.Algorithm.ofName? l.hashTreeAlgorithm with
    | .error _ => .error (.rejected (.unsupportedHashAlgorithm l.hashTreeAlgorithm))
    | .ok a =>
      match HashTree.size a l.blockSize l.hashTreeDataSize with
      | .error f => .error (.breakdown f)
      | .ok calculated =>
        if calculated ≠ l.hashTreeSize then
          .error (.rejected (.hashTreeSizeMismatch l.hashTreeSize calculated))
        else
          match HashTree.Builder.new a l.blockSize l.hashTreeSalt l.hashTreeDataSize memory with
          | .error e => .error (.rejected e)
          | .ok b => .ok (some b)

/-- The geometry of a layout's error correction, if it has one. -/
def fecGeometry (l : Layout) : Except Error (Option Fec.Geometry) :=
  if l.fecSize = 0 then .ok none else (Fec.Geometry.ofLayout l).map some

/-- The checks on a layout that concern no single part of the metadata. -/
def checkRegions (l : Layout) : Except Error Unit := do
  if ¬ HashTree.isPowerOfTwo l.blockSize then .error (.invalidBlockSize l.blockSize)
  let _ ← regionEnd l.hashTreeDataOffset l.hashTreeDataSize
  let _ ← regionEnd l.hashTreeOffset l.hashTreeSize
  let _ ← regionEnd l.fecDataOffset l.fecDataSize
  let _ ← regionEnd l.fecOffset l.fecSize

/-- A session for a layout, before any data. -/
def new (l : Layout) (memory : Nat := Device.memoryLimit) : Except InitFault Session := do
  (checkRegions l).mapError .rejected
  let builder ← treeBuilder l memory
  let fec ← (fecGeometry l).mapError .rejected
  return ⟨l, builder, fec, 0⟩

/-- The part of `data`, which begins at `offset`, that the tree covers. -/
def covered (l : Layout) (offset : Nat) (data : ByteArray) : ByteArray :=
  let first := max offset l.hashTreeDataOffset
  let last := min (offset + data.size) (l.hashTreeDataOffset + l.hashTreeDataSize)
  data.extract (first - offset) (last - offset)

/-- Takes the next data; it has to begin where the last one ended. -/
def update (s : Session) (offset : Nat) (data : ByteArray) : Session × Except Error Unit :=
  if offset ≠ s.nextOffset then (s, .error (.nonSequentialUpdate offset s.nextOffset))
  else if wordLimit ≤ offset + data.size then (s, .error .dataOverflow)
  else
    let s := { s with nextOffset := offset + data.size }
    match s.builder with
    | none => (s, .ok ())
    | some b =>
      match b.update (covered s.layout offset data) with
      | .ok b => ({ s with builder := some b }, .ok ())
      | .error e => (s, .error e)

end Session

/-- A writer, for one partition after the other. -/
structure Writer where
  session : Option Session
  /-- The root digest of the last tree built. -/
  lastRootDigest : Option ByteArray
  /-- The most bytes that can be had in one piece. -/
  memory : Nat

namespace Writer

/-- A writer that has not been used. -/
def fresh (memory : Nat := Device.memoryLimit) : Writer :=
  { session := none, lastRootDigest := none, memory }

/-- Begins a partition. -/
def init (w : Writer) (l : Layout) : Writer × Except InitFault Unit :=
  match Session.new l w.memory with
  | .ok s => ({ w with session := some s }, .ok ())
  | .error f => ({ w with session := none }, .error f)

/-- Takes the partition's next data. -/
def update (w : Writer) (offset : Nat) (data : ByteArray) : Writer × Except Error Unit :=
  match w.session with
  | none => (w, .error .notInitialized)
  | some s =>
    let (s, outcome) := s.update offset data
    ({ w with session := some s }, outcome)

/-- The error correction, if there is memory for the blocks of a round. -/
def heldFec (memory : Nat) : Option Fec.Geometry → Except Error (Option Fec.Geometry)
  | none => .ok none
  | some g =>
    if memory < g.messageLength * g.blockSize then .error .memoryAllocationFailure
    else .ok (some g)

/-- Ends the partition and gives what is to be written for it. -/
def finalize (w : Writer) : Writer × Except Error Finalization :=
  match w.session with
  | none => (w, .error .notInitialized)
  | some s =>
    let w := { w with session := none }
    match s.builder with
    | none => (w, (heldFec w.memory s.fec).map fun fec => ⟨none, fec⟩)
    | some b =>
      match b.build with
      | .error e => (w, .error e)
      | .ok tree =>
        ({ w with lastRootDigest := some tree.rootDigest },
          (heldFec w.memory s.fec).map fun fec => ⟨some (s.layout.hashTreeOffset, tree.bytes), fec⟩)

end Writer

end SlotVerify.Verity
