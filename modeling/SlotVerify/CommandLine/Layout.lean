import SlotVerify.CommandLine.Command
/-
  The verity layout that the arguments of `write-verity` describe.

  The data begins where the image does.  Error correction covers the data and the hash tree, from
  the image's beginning to the tree's end, or the data alone where there is no tree.
-/

namespace SlotVerify.CommandLine

open Verity (Layout wordLimit)

/-- Why arguments describe no layout. -/
inductive LayoutFault where
  | blockSizeTooLarge
  | hashTreeEndOutOfRange
  | fecEndOutOfRange
deriving DecidableEq, Repr

/-- The text shown for a fault. -/
def LayoutFault.message : LayoutFault → String
  | .blockSizeTooLarge => "block size too large: number too large to fit in target type"
  | .hashTreeEndOutOfRange => "hash tree end out of range"
  | .fecEndOutOfRange => "FEC end out of range"

namespace WriteVerityArguments

/-- How much error correction covers. -/
def fecDataSize (a : WriteVerityArguments) : Nat :=
  if a.fecSize = 0 then 0
  else if a.hashTreeSize = 0 then a.dataSize
  else a.hashTreeOffset + a.hashTreeSize

/-- The layout. -/
def layout (a : WriteVerityArguments) : Layout where
  blockSize := a.blockSize
  hashTreeAlgorithm := a.hashAlgorithm
  hashTreeSalt := a.salt
  hashTreeDataOffset := 0
  hashTreeDataSize := a.dataSize
  hashTreeOffset := a.hashTreeOffset
  hashTreeSize := a.hashTreeSize
  fecDataOffset := 0
  fecDataSize := a.fecDataSize
  fecOffset := a.fecOffset
  fecSize := a.fecSize
  fecRoots := a.fecRoots

/-- The end of all metadata. -/
def metadataEnd (a : WriteVerityArguments) : Nat :=
  max (a.hashTreeOffset + a.hashTreeSize) (a.fecOffset + a.fecSize)

/-- What is wrong with the arguments, if anything is. -/
def layoutFault? (a : WriteVerityArguments) : Option LayoutFault :=
  if 1 <<< 32 ≤ a.blockSize then some .blockSizeTooLarge
  else if wordLimit ≤ a.hashTreeOffset + a.hashTreeSize then some .hashTreeEndOutOfRange
  else if wordLimit ≤ a.fecOffset + a.fecSize then some .fecEndOutOfRange
  else none

/-- The layout and the end of all metadata, if nothing is wrong. -/
def checkedLayout (a : WriteVerityArguments) : Except LayoutFault (Layout × Nat) :=
  match a.layoutFault? with
  | some f => .error f
  | none => .ok (a.layout, a.metadataEnd)

end WriteVerityArguments

end SlotVerify.CommandLine
