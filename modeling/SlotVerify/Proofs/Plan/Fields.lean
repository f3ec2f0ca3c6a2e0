import SlotVerify.Plan.Text
import SlotVerify.Proofs.JsonText.Records
/-
  The fields of plans and partitions are lawful.

  No two of them have a name in common or set the same part of the record, and each takes its value
  only out of what has been read to its end (`Careful`).
-/

namespace SlotVerify

open JsonText

theorem JsonText.careful_base64 : Careful Value.base64 := by
  intro v b h
  obtain ⟨s, hs, -⟩ := bind_eq_ok.mp h
  exact careful_text hs

theorem Partition.lawful_fields : Lawful Partition.fields where
  distinct := by
    simp only [Distinct, Partition.fields, Field.of]
    decide
  commutes := by
    simp only [Partition.fields, List.pairwise_cons, List.forall_mem_cons]
    repeat' first
      | exact commutes_of fun _ _ _ => rfl
      | constructor
    all_goals simp
  careful := by
    simp only [Partition.fields, List.forall_mem_cons]
    repeat' first
      | exact careful_of careful_text
      | exact careful_of careful_word32
      | exact careful_of careful_word64
      | exact careful_of careful_base64
      | constructor
    simp

theorem Partition.careful_ofValue : Careful Partition.ofValue :=
  Partition.lawful_fields.careful_record {}

theorem InstallPlan.lawful_fields : Lawful InstallPlan.fields where
  distinct := by
    simp only [Distinct, InstallPlan.fields, Field.of]
    decide
  commutes := by
    simp only [InstallPlan.fields, List.pairwise_cons, List.forall_mem_cons]
    repeat' first
      | exact commutes_of fun _ _ _ => rfl
      | constructor
    all_goals simp
  careful := by
    simp only [InstallPlan.fields, List.forall_mem_cons]
    have hslot : Careful InstallPlan.slotOfValue := careful_map careful_word32 _
    exact ⟨careful_of hslot, careful_of hslot, careful_of careful_truth,
      careful_of (careful_list Partition.careful_ofValue), careful_of (careful_list careful_text),
      by simp⟩

end SlotVerify
