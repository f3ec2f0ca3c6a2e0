import Mathlib.Data.List.Forall2
import SlotVerify.Proofs.JsonText.Rewriting
import SlotVerify.Proofs.JsonText.WritingLeaves
/-
  What is written gives back what it was written for.

  `Gives get s a` says that the text spells a value out of which `a` is taken.  It holds of each
  kind of text that is written: the single values, lists of what holds by itself, and objects whose
  members enter the fields of a record one after the other (`Enters`).  Lists and objects put the
  same commas between their parts, and the grammar wants them in front of all parts but the first,
  so both inductions are on the parts with `first` as a parameter.
-/

namespace SlotVerify.JsonText

variable {α : Type}

/-- The text spells a value from which this is taken. -/
def Gives (get : Value → Except Problem α) (s : String) (a : α) : Prop :=
  ∃ v : Value, v.Spelled (bytes s) ∧ get v = .ok a

/-! ## Strings, numbers and truth values -/

theorem gives_text (s : String) : Gives Value.text (writeText s) s := by
  obtain ⟨raw, hspelled, htext⟩ := spelled_writeText s
  exact ⟨.string raw, .string hspelled, htext⟩

theorem gives_nat {n limit : Nat} (h : n < limit) :
    Gives (Value.natBelow limit) (writeNat n) n := by
  obtain ⟨raw, hspelled, hnat⟩ := spelled_writeNat n
  exact ⟨.number raw, .number hspelled, by simp [Value.natBelow, hnat, h]⟩

theorem Gives.map {β : Type} {get : Value → Except Problem α} {s : String} {a : α}
    (h : Gives get s a) (f : α → β) : Gives (fun v => (get v).map f) s (f a) := by
  obtain ⟨v, hspelled, ha⟩ := h
  exact ⟨v, hspelled, map_eq_ok.mpr ⟨a, ha, rfl⟩⟩

theorem gives_word32 (n : UInt32) : Gives Value.word32 (writeNat n.toNat) n := by
  have hbelow : n.toNat < 1 <<< 32 := n.toNat_lt
  have hgives := (gives_nat hbelow).map UInt32.ofNat
  rwa [UInt32.ofNat_toNat] at hgives

theorem gives_word64 (n : UInt64) : Gives Value.word64 (writeNat n.toNat) n := by
  have hbelow : n.toNat < 1 <<< 64 := n.toNat_lt
  have hgives := (gives_nat hbelow).map UInt64.ofNat
  rwa [UInt64.ofNat_toNat] at hgives

theorem gives_truth (b : Bool) : Gives Value.truth (writeBool b) b :=
  ⟨.bool b, spelled_writeBool b, rfl⟩

/-! ## Lists -/

/-- Parts with a comma in front of each, the first perhaps excepted. -/
def joined : (first : Bool) → List String → Text
  | _, [] => []
  | first, part :: parts =>
    (if first then [] else [0x2c]) ++ (bytes part ++ joined false parts)

theorem separator_joined (first : Bool) : Separator first (if first then [] else [0x2c]) := by
  cases first with
  | true => exact .none
  | false => exact .comma blank_nil

theorem bytes_commaSeparated (parts : List String) :
    bytes (commaSeparated parts) = joined true parts := by
  cases parts with
  | nil => rfl
  | cons part parts =>
    have hcomma : bytes "," = [0x2c] := by rfl
    induction parts generalizing part with
    | nil => simp [commaSeparated, joined]
    | cons next parts ih =>
      have hrest := ih next
      rw [commaSeparated] at hrest ⊢
      simp only [String.intercalate_cons_cons, bytes_append, hrest, hcomma]
      simp [joined]

/-- Items as they are written, up to the bracket. -/
theorem spelled_items {item : Value → Except Problem α} {write : α → String} {as : List α}
    (h : ∀ a ∈ as, Gives item (write a) a) (first : Bool) :
    ∃ vs, ItemsSpelled first vs (joined first (as.map write) ++ [0x5d]) ∧
      List.Forall₂ (fun v a => item v = .ok a) vs as := by
  induction as generalizing first with
  | nil => exact ⟨[], .close blank_nil, .nil⟩
  | cons a as ih =>
    rw [List.forall_mem_cons] at h
    obtain ⟨⟨v, hv, ha⟩, hrest⟩ := h
    obtain ⟨vs, hvs, has⟩ := ih hrest false
    have hspelled := ItemsSpelled.item (separator_joined first) blank_nil hv hvs
    refine ⟨v :: vs, ?_, .cons ha has⟩
    simpa only [List.map_cons, joined, List.append_assoc, List.nil_append] using hspelled

theorem gives_array {item : Value → Except Problem α} {write : α → String} {as : List α}
    (h : ∀ a ∈ as, Gives item (write a) a) :
    Gives (Value.list item) (writeArray (as.map write)) as := by
  obtain ⟨vs, hvs, has⟩ := spelled_items h true
  refine ⟨.array vs none, ?_, collect_iff.mpr ⟨rfl, has⟩⟩
  rw [writeArray, bytes_append, bytes_append, bytes_commaSeparated]
  exact .array hvs

/-! ## Records -/

variable {ρ : Type} {fields : List (Field ρ)}

/-- Members written down for some fields lead from one record to another. -/
inductive Enters : List (Field ρ) → List (String × String) → ρ → ρ → Prop
  | nil {r : ρ} : Enters [] [] r r
  | cons {f : Field ρ} {front : List (Field ρ)} {s : String} {members : List (String × String)}
    {r mid r' : ρ} (head : Gives (f.enter · r) s mid) (tail : Enters front members mid r') :
    Enters (f :: front) ((f.name, s) :: members) r r'

theorem gives_field {name : String} {get : Value → Except Problem α} {set : ρ → α → ρ}
    {s : String} {a : α} (h : Gives get s a) (r : ρ) :
    Gives ((Field.of name get set).enter · r) s (set r a) :=
  h.map (set r)

/-- Members as they are written, up to the brace. -/
theorem spelled_members {front : List (Field ρ)} (hfront : ∀ f ∈ front, f ∈ fields)
    {members : List (String × String)} {r r' : ρ} (h : Enters front members r r') (first : Bool) :
    ∃ ms es, MembersSpelled first ms
        (joined first (members.map fun m => writeText m.1 ++ ":" ++ m.2) ++ [0x7d]) ∧
      Assigns fields ms es ∧ es.map Prod.fst = front ∧ enterAll es r = .ok r' := by
  induction h generalizing first with
  | nil => exact ⟨[], [], .close blank_nil, .nil, rfl, rfl⟩
  | @cons f front s members r mid r' head _ ih =>
    rw [List.forall_mem_cons] at hfront
    obtain ⟨v, hv, hmid⟩ := head
    obtain ⟨raw, hraw, named⟩ := spelled_writeText f.name
    obtain ⟨ms, es, hms, hassigns, hes, henter⟩ := ih hfront.2 false
    have hspelled := MembersSpelled.member (separator_joined first) blank_nil hraw blank_nil
      blank_nil hv hms
    refine ⟨(raw, v) :: ms, (f, v) :: es, ?_, .known named hfront.1 hassigns, ?_,
      enterAll_cons.mpr ⟨mid, hmid, henter⟩⟩
    · simpa [joined, show bytes ":" = [0x3a] by rfl] using hspelled
    · rw [List.map_cons, hes]

/-- An object with all the fields in their order. -/
theorem gives_object (h : Lawful fields) {members : List (String × String)} {default r : ρ}
    (henters : Enters fields members default r) :
    Gives (Value.record fields default) (writeObject members) r := by
  obtain ⟨ms, es, hms, hassigns, hes, henter⟩ := spelled_members (fun _ hf => hf) henters true
  refine ⟨.object ms none, ?_, (record_object_iff h.distinct).mpr ⟨rfl, es, hassigns, ?_, henter⟩⟩
  · rw [writeObject, bytes_append, bytes_append, bytes_commaSeparated]
    exact .object hms
  · have hdistinct := h.distinct
    rw [Distinct, ← hes, List.map_map] at hdistinct
    exact hdistinct

end SlotVerify.JsonText
