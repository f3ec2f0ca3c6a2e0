import SlotVerify.Proofs.JsonText.Writing
import SlotVerify.Proofs.Plan.Rewriting
import SlotVerify.Proofs.Text.Base64
/-
  Plans survive being written and read.

  Each field is written as a text that gives its value back, so the members of a partition lead
  from the default to the partition, field by field, and those of a plan from the default to the
  plan.  No field may be left out: the next member would be met in its place.
-/

namespace SlotVerify

open JsonText (Value Gives Careful gives_field gives_text gives_word32 gives_word64 gives_truth
  gives_array gives_object)

/-- Bytes survive as the text of their Base64. -/
theorem JsonText.gives_base64 (b : ByteArray) : Gives Value.base64 (writeBase64 b) b := by
  obtain ⟨v, hspelled, htext⟩ := gives_text (Text.Base64.text b)
  refine ⟨v, hspelled, bind_eq_ok.mpr ⟨_, htext, ?_⟩⟩
  rw [Text.Base64.ofText?_text]

open JsonText (gives_base64)

/-- The members lead from the default to the partition. -/
theorem Partition.gives_write (p : Partition) : Gives Partition.ofValue p.write p :=
  gives_object Partition.lawful_fields <|
    .cons (gives_field (gives_text p.name) _) <|
    .cons (gives_field (gives_text p.sourcePath) _) <|
    .cons (gives_field (gives_text p.targetPath) _) <|
    .cons (gives_field (gives_text p.readonlyTargetPath) _) <|
    .cons (gives_field (gives_word64 p.sourceSize) _) <|
    .cons (gives_field (gives_word64 p.targetSize) _) <|
    .cons (gives_field (gives_base64 p.sourceHash) _) <|
    .cons (gives_field (gives_base64 p.targetHash) _) <|
    .cons (gives_field (gives_word32 p.blockSize) _) <|
    .cons (gives_field (gives_text p.hashTreeAlgorithm) _) <|
    .cons (gives_field (gives_base64 p.hashTreeSalt) _) <|
    .cons (gives_field (gives_word64 p.hashTreeDataOffset) _) <|
    .cons (gives_field (gives_word64 p.hashTreeDataSize) _) <|
    .cons (gives_field (gives_word64 p.hashTreeOffset) _) <|
    .cons (gives_field (gives_word64 p.hashTreeSize) _) <|
    .cons (gives_field (gives_word64 p.fecDataOffset) _) <|
    .cons (gives_field (gives_word64 p.fecDataSize) _) <|
    .cons (gives_field (gives_word64 p.fecOffset) _) <|
    .cons (gives_field (gives_word64 p.fecSize) _) <|
    .cons (gives_field (gives_word32 p.fecRoots) _) .nil

namespace InstallPlan

theorem gives_slot (s : Slot) : Gives slotOfValue (JsonText.writeNat s.number.toNat) s :=
  (gives_word32 s.number).map Slot.mk

/-- The members lead from the default to the plan. -/
theorem gives_write (p : InstallPlan) : Gives InstallPlan.ofValue p.write p :=
  gives_object lawful_fields <|
    .cons (gives_field (gives_slot p.sourceSlot) _) <|
    .cons (gives_field (gives_slot p.targetSlot) _) <|
    .cons (gives_field (gives_truth p.writeVerity) _) <|
    .cons (gives_field (gives_array fun q _ => q.gives_write) _) <|
    .cons (gives_field (gives_array fun s _ => gives_text s) _) .nil

/-- The text of a plan gives the plan. -/
theorem ofText_write (p : InstallPlan) : ofText p.write.toUTF8.data.toList = .ok p := by
  obtain ⟨v, hspelled, hv⟩ := p.gives_write
  exact ofText_iff.mpr ⟨v, hspelled.writtenAs, hv⟩

end InstallPlan

end SlotVerify
