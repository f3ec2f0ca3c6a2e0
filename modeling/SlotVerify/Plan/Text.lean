import SlotVerify.JsonText.Reader
import SlotVerify.JsonText.Record
import SlotVerify.JsonText.Writer
import SlotVerify.Plan.Basic
import SlotVerify.Text.Base64
/-
  Install plans as JSON texts.

  A plan is a record of its fields, a partition likewise; digests and salts are Base64.  Writing
  gives every field, in the order of declaration.
-/

namespace SlotVerify

open JsonText (Problem Value)

/-- Bytes, written as Base64. -/
def JsonText.Value.base64 (v : Value) : Except Problem ByteArray := do
  let s ← v.text
  match Text.Base64.ofText? s with
  | some bytes => .ok bytes
  | none => .error .mismatch

/-- Bytes as a Base64 string. -/
def JsonText.writeBase64 (b : ByteArray) : String := writeText (Text.Base64.text b)

namespace Partition

/-- The fields of a partition. -/
def fields : List (JsonText.Field Partition) :=
  [.of "name" Value.text fun p x => { p with name := x },
   .of "source_path" Value.text fun p x => { p with sourcePath := x },
   .of "target_path" Value.text fun p x => { p with targetPath := x },
   .of "readonly_target_path" Value.text fun p x => { p with readonlyTargetPath := x },
   .of "source_size" Value.word64 fun p x => { p with sourceSize := x },
   .of "target_size" Value.word64 fun p x => { p with targetSize := x },
   .of "source_hash" Value.base64 fun p x => { p with sourceHash := x },
   .of "target_hash" Value.base64 fun p x => { p with targetHash := x },
   .of "block_size" Value.word32 fun p x => { p with blockSize := x },
   .of "hash_tree_algorithm" Value.text fun p x => { p with hashTreeAlgorithm := x },
   .of "hash_tree_salt" Value.base64 fun p x => { p with hashTreeSalt := x },
   .of "hash_tree_data_offset" Value.word64 fun p x => { p with hashTreeDataOffset := x },
   .of "hash_tree_data_size" Value.word64 fun p x => { p with hashTreeDataSize := x },
   .of "hash_tree_offset" Value.word64 fun p x => { p with hashTreeOffset := x },
   .of "hash_tree_size" Value.word64 fun p x => { p with hashTreeSize := x },
   .of "fec_data_offset" Value.word64 fun p x => { p with fecDataOffset := x },
   .of "fec_data_size" Value.word64 fun p x => { p with fecDataSize := x },
   .of "fec_offset" Value.word64 fun p x => { p with fecOffset := x },
   .of "fec_size" Value.word64 fun p x => { p with fecSize := x },
   .of "fec_roots" Value.word32 fun p x => { p with fecRoots := x }]

/-- Takes a partition out of a value. -/
def ofValue (v : Value) : Except Problem Partition := v.record fields {}

/-- A partition as an object. -/
def write (p : Partition) : String :=
  JsonText.writeObject
    [("name", JsonText.writeText p.name),
     ("source_path", JsonText.writeText p.sourcePath),
     ("target_path", JsonText.writeText p.targetPath),
     ("readonly_target_path", JsonText.writeText p.readonlyTargetPath),
     ("source_size", JsonText.writeNat p.sourceSize.toNat),
     ("target_size", JsonText.writeNat p.targetSize.toNat),
     ("source_hash", JsonText.writeBase64 p.sourceHash),
     ("target_hash", JsonText.writeBase64 p.targetHash),
     ("block_size", JsonText.writeNat p.blockSize.toNat),
     ("hash_tree_algorithm", JsonText.writeText p.hashTreeAlgorithm),
     ("hash_tree_salt", JsonText.writeBase64 p.hashTreeSalt),
     ("hash_tree_data_offset", JsonText.writeNat p.hashTreeDataOffset.toNat),
     ("hash_tree_data_size", JsonText.writeNat p.hashTreeDataSize.toNat),
     ("hash_tree_offset", JsonText.writeNat p.hashTreeOffset.toNat),
     ("hash_tree_size", JsonText.writeNat p.hashTreeSize.toNat),
     ("fec_data_offset", JsonText.writeNat p.fecDataOffset.toNat),
     ("fec_data_size", JsonText.writeNat p.fecDataSize.toNat),
     ("fec_offset", JsonText.writeNat p.fecOffset.toNat),
     ("fec_size", JsonText.writeNat p.fecSize.toNat),
     ("fec_roots", JsonText.writeNat p.fecRoots.toNat)]

end Partition

namespace InstallPlan

/-- A slot, written as its number. -/
def slotOfValue (v : Value) : Except Problem Slot := v.word32.map Slot.mk

/-- The fields of a plan. -/
def fields : List (JsonText.Field InstallPlan) :=
  [.of "source_slot" slotOfValue fun p x => { p with sourceSlot := x },
   .of "target_slot" slotOfValue fun p x => { p with targetSlot := x },
   .of "write_verity" Value.truth fun p x => { p with writeVerity := x },
   .of "partitions" (Value.list Partition.ofValue) fun p x => { p with partitions := x },
   .of "untouched_dynamic_partitions" (Value.list Value.text) fun p x =>
     { p with untouchedDynamicPartitions := x }]

/-- Takes a plan out of a value. -/
def ofValue (v : Value) : Except Problem InstallPlan := v.record fields {}

/-- Reads a plan from the bytes of a text. -/
def ofText (text : JsonText.Text) : Except Problem InstallPlan := do
  let document := JsonText.read text
  let plan ← ofValue document.value
  match document.problem with
  | some p => .error p
  | none => .ok plan

/-- A plan as a text. -/
def write (p : InstallPlan) : String :=
  JsonText.writeObject
    [("source_slot", JsonText.writeNat p.sourceSlot.number.toNat),
     ("target_slot", JsonText.writeNat p.targetSlot.number.toNat),
     ("write_verity", JsonText.writeBool p.writeVerity),
     ("partitions", JsonText.writeArray (p.partitions.map Partition.write)),
     ("untouched_dynamic_partitions",
       JsonText.writeArray (p.untouchedDynamicPartitions.map JsonText.writeText))]

end InstallPlan

end SlotVerify
