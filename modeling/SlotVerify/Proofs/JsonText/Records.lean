import Mathlib.Data.List.Forall2
import Mathlib.Data.List.Nodup
import Mathlib.Data.List.Pairwise
import Mathlib.Data.List.Perm.Basic
import SlotVerify.JsonText.Record
import SlotVerify.Proofs.JsonText.Soundness
/-
  What a record takes from a value.

  An object and an array give the same thing to a record: fields with their values, which enter it
  one after the other (`enterAll`).

  1. **Objects.**  `Assigns` says which fields the members of an object enter.  A record comes of
     the object exactly when no field is entered twice and they all enter (`record_object_iff`).
  2. **Arrays.**  The items go to the fields in their order (`record_array_iff`).
  3. **Lawful fields.**  The crux is that two fields do not touch each other: they commute, and so
     the order in which they are entered does not matter (`enterAll_perm`).  A field that is entered
     with the value it has by default might as well be left out (`enterAll_default`).
  4. **Problems.**  A record is taken only out of a value that has been read to its end
     (`Lawful.careful_record`), because the same is true of what its fields take.
-/

namespace SlotVerify.JsonText

variable {ρ : Type} {fields : List (Field ρ)}

/-! ## Entering -/

/-- Enters values one after the other. -/
def enterAll : List (Field ρ × Value) → ρ → Except Problem ρ
  | [], r => .ok r
  | (f, v) :: rest, r => f.enter v r >>= enterAll rest

/-- A computation in two steps succeeds when both do. -/
theorem bind_eq_ok {α β : Type} {x : Except Problem α} {f : α → Except Problem β} {b : β} :
    (x >>= f) = .ok b ↔ ∃ a, x = .ok a ∧ f a = .ok b := by
  cases x <;> simp [bind, Except.bind]

theorem map_eq_ok {α β : Type} {x : Except Problem α} {f : α → β} {b : β} :
    x.map f = .ok b ↔ ∃ a, x = .ok a ∧ f a = b := by
  cases x <;> simp [Except.map]

theorem enterAll_cons {e : Field ρ × Value} {es : List (Field ρ × Value)} {r r' : ρ} :
    enterAll (e :: es) r = .ok r' ↔
      ∃ mid, e.1.enter e.2 r = .ok mid ∧ enterAll es mid = .ok r' :=
  bind_eq_ok

/-! ## Lists -/

theorem collect_iff {α : Type} {item : Value → Except Problem α} {problem : Option Problem}
    {items : List Value} {as : List α} :
    collect item problem items = .ok as ↔
      problem = none ∧ List.Forall₂ (fun v a => item v = .ok a) items as := by
  induction items generalizing as with
  | nil => cases problem <;> simp [collect, eq_comm]
  | cons v items ih =>
    rw [collect, bind_eq_ok, List.forall₂_cons_left_iff]
    simp only [bind_eq_ok, ih]
    constructor
    · rintro ⟨a, ha, more, ⟨hproblem, hrest⟩, has⟩
      exact ⟨hproblem, a, more, ha, hrest, (Except.ok.inj has).symm⟩
    · rintro ⟨hproblem, a, more, ha, hrest, rfl⟩
      exact ⟨a, ha, more, ⟨hproblem, hrest⟩, rfl⟩

/-! ## Objects -/

/-- The fields that an object's members enter, with their values. -/
inductive Assigns (fields : List (Field ρ)) :
    List (RawString × Value) → List (Field ρ × Value) → Prop
  | nil : Assigns fields [] []
  | known {name : RawString} {v : Value} {members : List (RawString × Value)}
    {es : List (Field ρ × Value)} {f : Field ρ} (named : name.text = .ok f.name) (hf : f ∈ fields)
    (rest : Assigns fields members es) : Assigns fields ((name, v) :: members) ((f, v) :: es)
  | unknown {name : RawString} {v : Value} {members : List (RawString × Value)}
    {es : List (Field ρ × Value)} {s : String} (named : name.text = .ok s)
    (hs : ∀ f ∈ fields, f.name ≠ s) (hskip : v.skip = none) (rest : Assigns fields members es) :
    Assigns fields ((name, v) :: members) es

/-- Names tell fields apart. -/
def Distinct (fields : List (Field ρ)) : Prop := (fields.map Field.name).Nodup

theorem find?_name (h : Distinct fields) {f : Field ρ} (hf : f ∈ fields) :
    fields.find? (·.name == f.name) = some f := by
  cases hfind : fields.find? (·.name == f.name) with
  | none => simpa using List.find?_eq_none.mp hfind f hf
  | some g =>
    have hname : g.name = f.name := by simpa using List.find?_some hfind
    rw [List.inj_on_of_nodup_map h (List.mem_of_find?_eq_some hfind) hf hname]

/-- No field is entered twice, nor one of those seen before. -/
def Fresh (seen : List String) (es : List (Field ρ × Value)) : Prop :=
  (es.map (·.1.name)).Nodup ∧ ∀ e ∈ es, e.1.name ∉ seen

theorem fresh_cons {seen : List String} {e : Field ρ × Value} {es : List (Field ρ × Value)} :
    Fresh seen (e :: es) ↔ e.1.name ∉ seen ∧ Fresh (e.1.name :: seen) es := by
  simp only [Fresh, List.map_cons, List.nodup_cons, List.forall_mem_cons, List.mem_map,
    not_exists, not_and]
  constructor
  · rintro ⟨⟨hnotin, hnodup⟩, hseen, hrest⟩
    exact ⟨hseen, hnodup, fun e' he' =>
      List.not_mem_cons_of_ne_of_not_mem (hnotin e' he') (hrest e' he')⟩
  · rintro ⟨hseen, hnodup, hrest⟩
    exact ⟨⟨fun e' he' => List.ne_of_not_mem_cons (hrest e' he'), hnodup⟩, hseen,
      fun e' he' => List.not_mem_of_not_mem_cons (hrest e' he')⟩

/-- Members enter their fields one after the other, and no field twice. -/
theorem enterMembers_iff (h : Distinct fields) {problem : Option Problem} {seen : List String}
    {members : List (RawString × Value)} {r r' : ρ} :
    enterMembers fields problem seen members r = .ok r' ↔
      problem = none ∧
        ∃ es, Assigns fields members es ∧ Fresh seen es ∧ enterAll es r = .ok r' := by
  induction members generalizing seen r with
  | nil =>
    cases problem with
    | some p => simp [enterMembers]
    | none =>
      constructor
      · intro hr
        exact ⟨rfl, [], .nil, ⟨.nil, by simp⟩, hr⟩
      · rintro ⟨-, es, hassigns, -, henter⟩
        cases hassigns
        exact henter
  | cons m members ih =>
    obtain ⟨name, v⟩ := m
    rw [enterMembers, bind_eq_ok]
    constructor
    · rintro ⟨s, named, hrest⟩
      split at hrest
      · rename_i f hfind
        obtain rfl : f.name = s := by simpa using List.find?_some hfind
        split at hrest
        · cases hrest
        · rename_i hseen
          obtain ⟨mid, hmid, hrest⟩ := bind_eq_ok.mp hrest
          obtain ⟨hproblem, es, hassigns, hfresh, henter⟩ := ih.mp hrest
          exact ⟨hproblem, (f, v) :: es,
            .known named (List.mem_of_find?_eq_some hfind) hassigns,
            fresh_cons.mpr ⟨by simpa using hseen, hfresh⟩, enterAll_cons.mpr ⟨mid, hmid, henter⟩⟩
      · rename_i hfind
        split at hrest
        · cases hrest
        · rename_i hskip
          obtain ⟨hproblem, es, hassigns, hfresh, henter⟩ := ih.mp hrest
          exact ⟨hproblem, es, .unknown named (by simpa using hfind) hskip hassigns, hfresh, henter⟩
    · rintro ⟨hproblem, es, hassigns, hfresh, henter⟩
      cases hassigns with
      | @known _ _ _ es f named hf rest =>
        obtain ⟨hseen, hfresh⟩ := fresh_cons.mp hfresh
        obtain ⟨mid, hmid, henter⟩ := enterAll_cons.mp henter
        refine ⟨f.name, named, ?_⟩
        simp only [find?_name h hf, List.contains_iff_mem, hseen, if_false]
        exact bind_eq_ok.mpr ⟨mid, hmid, ih.mpr ⟨hproblem, es, rest, hfresh, henter⟩⟩
      | @unknown _ _ _ _ s named hs hskip rest =>
        have hfind : fields.find? (·.name == s) = none := by simpa using hs
        refine ⟨s, named, ?_⟩
        simp only [hfind, hskip]
        exact ih.mpr ⟨hproblem, es, rest, hfresh, henter⟩

/-- The record that an object gives. -/
theorem record_object_iff (h : Distinct fields) {default r : ρ} {problem : Option Problem}
    {members : List (RawString × Value)} :
    Value.record fields default (.object members problem) = .ok r ↔
      problem = none ∧ ∃ es, Assigns fields members es ∧ (es.map (·.1.name)).Nodup ∧
        enterAll es default = .ok r := by
  rw [Value.record, enterMembers_iff h]
  simp [Fresh]

/-! ## Arrays -/

theorem enterItems_iff {problem : Option Problem} {items : List Value} {r r' : ρ} :
    enterItems problem fields items r = .ok r' ↔
      problem = none ∧ items.length ≤ fields.length ∧ enterAll (fields.zip items) r = .ok r' := by
  induction items generalizing fields r with
  | nil => cases problem <;> simp [enterItems, enterAll]
  | cons v items ih =>
    cases fields with
    | nil => simp [enterItems]
    | cons f fields =>
      rw [enterItems, bind_eq_ok, List.zip_cons_cons, enterAll_cons]
      simp only [ih, List.length_cons, Nat.add_le_add_iff_right]
      exact ⟨fun ⟨mid, hmid, hproblem, hlength, henter⟩ =>
          ⟨hproblem, hlength, mid, hmid, henter⟩,
        fun ⟨hproblem, hlength, mid, hmid, henter⟩ =>
          ⟨mid, hmid, hproblem, hlength, henter⟩⟩

/-- The record that an array gives. -/
theorem record_array_iff {default r : ρ} {problem : Option Problem} {items : List Value} :
    Value.record fields default (.array items problem) = .ok r ↔
      problem = none ∧ items.length ≤ fields.length ∧
        enterAll (fields.zip items) default = .ok r :=
  enterItems_iff

/-! ## Lawful fields -/

/-- The order in which two fields are entered does not matter. -/
def Field.Commutes (f g : Field ρ) : Prop :=
  ∀ v w r r', (f.enter v r >>= g.enter w) = .ok r' ↔ (g.enter w r >>= f.enter v) = .ok r'

theorem Field.Commutes.symm {f g : Field ρ} (h : f.Commutes g) : g.Commutes f :=
  fun v w r r' => (h w v r r').symm

instance : Std.Symm (@Field.Commutes ρ) := ⟨fun _ _ => Field.Commutes.symm⟩

/-- Fields that set different parts of a record commute. -/
theorem commutes_of {α β : Type} {name name' : String} {get : Value → Except Problem α}
    {get' : Value → Except Problem β} {set : ρ → α → ρ} {set' : ρ → β → ρ}
    (h : ∀ r a b, set' (set r a) b = set (set' r b) a) :
    (Field.of name get set).Commutes (.of name' get' set') := by
  intro v w r r'
  cases hv : get v <;> cases hw : get' w <;>
    simp [Field.of, hv, hw, bind, Except.bind, Except.map, h]

/-- A way to take something out of values that takes nothing out of one with a problem in it. -/
def Careful {α : Type} (get : Value → Except Problem α) : Prop :=
  ∀ {v a}, get v = .ok a → v.skip = none

theorem careful_map {α β : Type} {get : Value → Except Problem α} (h : Careful get) (f : α → β) :
    Careful fun v => (get v).map f := by
  intro v b hb
  obtain ⟨a, ha, -⟩ := map_eq_ok.mp hb
  exact h ha

/-- A field that is entered with no value that has a problem in it. -/
def Field.Careful (f : Field ρ) : Prop := ∀ r, JsonText.Careful (f.enter · r)

theorem careful_of {α : Type} {name : String} {get : Value → Except Problem α}
    {set : ρ → α → ρ} (h : Careful get) : (Field.of name get set).Careful :=
  fun r => careful_map h (set r)

/-- Fields that make up a record. -/
structure Lawful (fields : List (Field ρ)) : Prop where
  distinct : Distinct fields
  commutes : fields.Pairwise Field.Commutes
  careful : ∀ f ∈ fields, f.Careful

theorem Lawful.commutes_of_name (h : Lawful fields) {f g : Field ρ} (hf : f ∈ fields)
    (hg : g ∈ fields) (hname : f.name ≠ g.name) : f.Commutes g := by
  have hne : f ≠ g := fun heq => hname (heq ▸ rfl)
  exact h.commutes.forall hf hg hne

theorem enterAll_cons_cons {e e' : Field ρ × Value} {es : List (Field ρ × Value)} {r r' : ρ} :
    enterAll (e :: e' :: es) r = .ok r' ↔
      ∃ mid, (e.1.enter e.2 r >>= e'.1.enter e'.2) = .ok mid ∧ enterAll es mid = .ok r' := by
  simp only [enterAll_cons, bind_eq_ok]
  exact ⟨fun ⟨mid, hmid, mid', hmid', h⟩ => ⟨mid', ⟨mid, hmid, hmid'⟩, h⟩,
    fun ⟨mid', ⟨mid, hmid, hmid'⟩, h⟩ => ⟨mid, hmid, mid', hmid', h⟩⟩

/-- Fields entered in another order give the same record. -/
theorem enterAll_perm {es es' : List (Field ρ × Value)} (h : es.Perm es')
    (hc : es.Pairwise fun e e' => e.1.Commutes e'.1) {r r' : ρ} :
    enterAll es r = .ok r' ↔ enterAll es' r = .ok r' := by
  induction h generalizing r with
  | nil => exact Iff.rfl
  | cons e h ih =>
    simp only [enterAll_cons, ih hc.of_cons]
  | swap e e' es =>
    have hswap := (List.pairwise_cons.mp hc).1 e List.mem_cons_self
    simp only [enterAll_cons_cons, hswap _ _ _ _]
  | trans h h' ih ih' =>
    have hc' := (h.pairwise_iff fun h => h.symm).mp hc
    rw [ih hc, ih' hc']

/-- What the members of an object enter are fields. -/
theorem Assigns.mem {members : List (RawString × Value)} {es : List (Field ρ × Value)}
    (h : Assigns fields members es) : ∀ e ∈ es, e.1 ∈ fields := by
  induction h with
  | nil => simp
  | known _ hf _ ih => exact List.forall_mem_cons.mpr ⟨hf, ih⟩
  | unknown _ _ _ _ ih => exact ih

theorem Lawful.pairwise (h : Lawful fields) {es : List (Field ρ × Value)}
    (hmem : ∀ e ∈ es, e.1 ∈ fields) (hnodup : (es.map (·.1.name)).Nodup) :
    es.Pairwise fun e e' => e.1.Commutes e'.1 := by
  refine (List.pairwise_map.mp hnodup).imp_of_mem ?_
  intro e e' he he' hname
  exact h.commutes_of_name (hmem e he) (hmem e' he') hname

/-- A field that is entered with the value it has by default changes nothing. -/
theorem enterAll_default {es es' : List (Field ρ × Value)} {f : Field ρ} {v : Value}
    (hc : (es ++ (f, v) :: es').Pairwise fun e e' => e.1.Commutes e'.1) {default r : ρ}
    (hdefault : f.enter v default = .ok default) :
    enterAll (es ++ (f, v) :: es') default = .ok r ↔ enterAll (es ++ es') default = .ok r := by
  rw [enterAll_perm List.perm_middle hc, enterAll_cons]
  simp [hdefault]

/-! ## Values that are taken have been read to their ends -/

theorem pieceBytes_problem {problem : Option Problem} {pieces : List Piece} {bytes : List UInt8}
    (h : pieceBytes problem pieces = .ok bytes) : problem = none := by
  fun_induction pieceBytes problem pieces generalizing bytes with
  | case1 | case4 | case5 | case7 | case9 | case11 => cases h
  | case2 => assumption
  | case3 | case6 | case8 | case10 | case12 =>
    rename_i ih
    obtain ⟨_, h, -⟩ := map_eq_ok.mp h
    exact ih h

theorem RawString.problem_of_text {s : RawString} {text : String} (h : s.text = .ok text) :
    s.problem = none := by
  rw [RawString.text] at h
  split at h
  · cases h
  · rename_i hbytes
    exact pieceBytes_problem hbytes

theorem careful_text : Careful Value.text := by
  intro v s h
  cases v with
  | string => exact RawString.problem_of_text h
  | _ => cases h

theorem careful_natBelow (limit : Nat) : Careful (Value.natBelow limit) := by
  intro v n h
  cases v with
  | number => rfl
  | _ => cases h

theorem careful_word32 : Careful Value.word32 := careful_map (careful_natBelow _) _

theorem careful_word64 : Careful Value.word64 := careful_map (careful_natBelow _) _

theorem careful_truth : Careful Value.truth := by
  intro v b h
  cases v with
  | bool => rfl
  | _ => cases h

theorem careful_list {α : Type} {item : Value → Except Problem α} (h : Careful item) :
    Careful (Value.list item) := by
  intro v as hv
  cases v with
  | array items problem =>
    obtain ⟨hproblem, hitems⟩ := collect_iff.mp hv
    have hskip := (List.forall₂_and_left _ _).mp (hitems.imp fun _ _ ha => ⟨h ha, ha⟩)
    exact skipItems_eq_none_iff.mpr ⟨hproblem, hskip.1⟩
  | _ => cases hv

theorem Lawful.skip_of_enterAll (h : Lawful fields) {es : List (Field ρ × Value)} {r r' : ρ}
    (hmem : ∀ e ∈ es, e.1 ∈ fields) (henter : enterAll es r = .ok r') :
    ∀ e ∈ es, e.2.skip = none := by
  induction es generalizing r with
  | nil => simp
  | cons e es ih =>
    obtain ⟨mid, hmid, henter⟩ := enterAll_cons.mp henter
    rw [List.forall_mem_cons] at hmem ⊢
    exact ⟨h.careful e.1 hmem.1 r hmid, ih hmem.2 henter⟩

theorem Assigns.skip {members : List (RawString × Value)} {es : List (Field ρ × Value)}
    (h : Assigns fields members es) (hskip : ∀ e ∈ es, e.2.skip = none) :
    ∀ m ∈ members, m.1.problem = none ∧ m.2.skip = none := by
  induction h with
  | nil => simp
  | known named _ _ ih =>
    rw [List.forall_mem_cons] at hskip ⊢
    exact ⟨⟨RawString.problem_of_text named, hskip.1⟩, ih hskip.2⟩
  | unknown named _ hv _ ih =>
    rw [List.forall_mem_cons]
    exact ⟨⟨RawString.problem_of_text named, hv⟩, ih hskip⟩

/-- Whatever gives a record has been read to its end. -/
theorem Lawful.careful_record (h : Lawful fields) (default : ρ) :
    Careful (Value.record fields default) := by
  intro v r hr
  cases v with
  | object members problem =>
    obtain ⟨hproblem, es, hassigns, -, henter⟩ := (record_object_iff h.distinct).mp hr
    exact skipMembers_eq_none_iff.mpr
      ⟨hproblem, hassigns.skip (h.skip_of_enterAll hassigns.mem henter)⟩
  | array items problem =>
    obtain ⟨hproblem, hlength, henter⟩ := record_array_iff.mp hr
    have hskip := h.skip_of_enterAll (fun e he => (List.of_mem_zip he).1) henter
    refine skipItems_eq_none_iff.mpr ⟨hproblem, fun v hv => ?_⟩
    rw [← List.map_snd_zip hlength] at hv
    obtain ⟨e, he, rfl⟩ := List.mem_map.mp hv
    exact hskip e he
  | _ => cases hr

end SlotVerify.JsonText
