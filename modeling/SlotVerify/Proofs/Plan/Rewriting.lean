import Mathlib
import SlotVerify.Proofs.JsonText.Rewriting
import SlotVerify.Proofs.Plan.Fields
/-
  Texts that give the same plan.

  1. **Texts and values.**  A text gives a plan exactly when it spells a value that gives the plan
     (`ofText_iff`).  White space and escapes are done with there.
  2. **Rewritings.**  A plan's value may be rewritten as a record, and so may each of its
     partitions, whether the plan is an object or an array.  The plan stays (`Rewriting.ofValue`),
     and the value can still be spelled (`Rewriting.spellable`).
  3. **Texts again.**  `ofText_rewritten`: whatever comes of the value by rewritings can be spelled,
     and each of its spellings gives the same plan.
-/

namespace SlotVerify

open JsonText (Value RawString)

namespace InstallPlan

/-! ## Texts and values -/

/-- A text gives a plan exactly when it spells a value that gives the plan. -/
theorem ofText_iff {t : JsonText.Text} {p : InstallPlan} :
    ofText t = .ok p ↔ ∃ v : Value, v.WrittenAs t ∧ ofValue v = .ok p := by
  constructor
  · intro h
    obtain ⟨plan, hplan, hrest⟩ := JsonText.bind_eq_ok.mp h
    cases hread : JsonText.read t with
    | mk v problem =>
      rw [hread] at hplan hrest
      cases problem with
      | some _ => cases hrest
      | none =>
        obtain rfl : plan = p := Except.ok.inj hrest
        have hskip := lawful_fields.careful_record {} hplan
        exact ⟨v, JsonText.writtenAs_iff.mpr ⟨hread, hskip⟩, hplan⟩
  · rintro ⟨v, hwritten, hv⟩
    rw [ofText, JsonText.read_of_writtenAs hwritten]
    simp [hv, bind, Except.bind]

/-! ## Rewritings -/

/-- A way to write a plan differently. -/
inductive Rewriting : Value → Value → Prop
  /-- The plan itself. -/
  | plan {v v' : Value} (h : JsonText.Rewriting fields {} v v') : Rewriting v v'
  /-- A partition of a plan that is an object. -/
  | inObject {before after : List (RawString × Value)} {name : RawString}
    {items items' : List Value} {v v' : Value} (named : name.text = .ok "partitions")
    (h : JsonText.Rewriting Partition.fields {} v v') :
    Rewriting (.object (before ++ (name, .array (items ++ v :: items') none) :: after) none)
      (.object (before ++ (name, .array (items ++ v' :: items') none) :: after) none)
  /-- A partition of a plan that is the array of its fields. -/
  | inArray {source target verity : Value} {items items' rest : List Value} {v v' : Value}
    (h : JsonText.Rewriting Partition.fields {} v v') :
    Rewriting
      (.array (source :: target :: verity :: .array (items ++ v :: items') none :: rest) none)
      (.array (source :: target :: verity :: .array (items ++ v' :: items') none :: rest) none)

/-- The field that holds a plan's partitions. -/
def partitionsField : JsonText.Field InstallPlan :=
  .of "partitions" (Value.list Partition.ofValue) fun p x => { p with partitions := x }

theorem replaces_partition {items items' : List Value} {v v' : Value}
    (h : JsonText.Rewriting Partition.fields {} v v') :
    partitionsField.Replaces (.array (items ++ v :: items') none)
      (.array (items ++ v' :: items') none) := by
  intro p p' henter
  obtain ⟨as, has, hset⟩ := JsonText.map_eq_ok.mp henter
  have hreplaced := JsonText.list_replace (fun _ => h.record Partition.lawful_fields) has
  exact JsonText.map_eq_ok.mpr ⟨as, hreplaced, hset⟩

/-- A plan written differently is the same plan. -/
theorem Rewriting.ofValue {v v' : Value} (h : Rewriting v v') {p : InstallPlan}
    (hp : ofValue v = .ok p) : ofValue v' = .ok p := by
  cases h with
  | plan h => exact h.record lawful_fields hp
  | inObject named h =>
    exact JsonText.record_replace (f := partitionsField) lawful_fields
      (by simp [fields, partitionsField]) named (replaces_partition h) hp
  | @inArray source target verity items items' rest v v' h =>
    obtain ⟨hproblem, hlength, henter⟩ := JsonText.record_array_iff.mp hp
    refine JsonText.record_array_iff.mpr ⟨hproblem, hlength, ?_⟩
    -- the partitions are the fourth item
    exact JsonText.enterAll_replace (replaces_partition h)
      [(_, source), (_, target), (_, verity)] henter

theorem spellable_items {items items' : List Value} {v v' : Value}
    (h : JsonText.Rewriting Partition.fields {} v v')
    (hv : (Value.array (items ++ v :: items') none).Spellable) :
    (Value.array (items ++ v' :: items') none).Spellable := by
  simp only [JsonText.spellable_array_iff, List.forall_mem_append, List.forall_mem_cons] at hv ⊢
  exact ⟨hv.1, h.spellable hv.2.1, hv.2.2⟩

/-- What can be spelled can be spelled differently. -/
theorem Rewriting.spellable {v v' : Value} (h : Rewriting v v') (hv : v.Spellable) :
    v'.Spellable := by
  cases h with
  | plan h => exact h.spellable hv
  | inObject _ h =>
    simp only [JsonText.spellable_object_iff, List.forall_mem_append, List.forall_mem_cons] at hv ⊢
    exact ⟨hv.1, ⟨hv.2.1.1, spellable_items h hv.2.1.2⟩, hv.2.2⟩
  | inArray h =>
    rw [JsonText.spellable_array_iff] at hv ⊢
    simp only [List.forall_mem_cons] at hv ⊢
    exact ⟨hv.1, hv.2.1, hv.2.2.1, spellable_items h hv.2.2.2.1, hv.2.2.2.2⟩

/-- The spellings of a plan's value, rewritten again and again, give the same plan. -/
theorem ofText_rewritten {t : JsonText.Text} {p : InstallPlan} (h : ofText t = .ok p) :
    ∃ v : Value, v.WrittenAs t ∧ ∀ v', Relation.ReflTransGen Rewriting v v' →
      (∃ t', v'.WrittenAs t') ∧ ∀ t', v'.WrittenAs t' → ofText t' = .ok p := by
  obtain ⟨v, hwritten, hv⟩ := ofText_iff.mp h
  refine ⟨v, hwritten, fun v' hrewritten => ?_⟩
  have hkept : v'.Spellable ∧ ofValue v' = .ok p := by
    induction hrewritten with
    | refl => exact ⟨hwritten.spellable, hv⟩
    | tail _ hstep ih => exact ⟨hstep.spellable ih.1, hstep.ofValue ih.2⟩
  obtain ⟨⟨t', ht'⟩, hv'⟩ := hkept
  exact ⟨⟨t', ht'.writtenAs⟩, fun t' ht' => ofText_iff.mpr ⟨v', ht', hv'⟩⟩

/-- Two members swapped, and then the array of the two. -/
theorem ofText_rewritten_slots :
    ofText (JsonText.ascii "\x7b\"target_slot\":1,\"source_slot\":0\x7d") =
        .ok { sourceSlot := ⟨0⟩, targetSlot := ⟨1⟩ } ∧
      ofText (JsonText.ascii "[0,1]") = .ok { sourceSlot := ⟨0⟩, targetSlot := ⟨1⟩ } := by
  have hread : ofText (JsonText.ascii "\x7b\"target_slot\":1,\"source_slot\":0\x7d") =
      .ok { sourceSlot := ⟨0⟩, targetSlot := ⟨1⟩ } := by cbv
  obtain ⟨v, hv, hrewritten⟩ := ofText_rewritten hread
  let source : RawString × Value :=
    (⟨(JsonText.ascii "source_slot").map .byte, none⟩, .number { whole := [0x30] })
  let target : RawString × Value :=
    (⟨(JsonText.ascii "target_slot").map .byte, none⟩, .number { whole := [0x31] })
  obtain rfl : v = .object [target, source] none :=
    hv.unique (JsonText.writtenAs_iff.mpr ⟨by cbv, by cbv⟩)
  have horder : JsonText.InOrder fields [source, target] :=
    JsonText.inOrder_cons.mpr ⟨_, _, rfl, by rfl,
      JsonText.inOrder_cons.mpr ⟨_, _, rfl, by rfl, List.nil_prefix⟩⟩
  have hswap : Rewriting (.object [target, source] none) (.object [source, target] none) :=
    .plan (.reorder (.swap ..))
  have hlist : Rewriting (.object [source, target] none) (.array [source.2, target.2] none) :=
    .plan (.list horder)
  exact ⟨hread, (hrewritten _ (.tail (.single hswap) hlist)).2 _
    (JsonText.writtenAs_iff.mpr ⟨by cbv, by cbv⟩)⟩

end InstallPlan

end SlotVerify
