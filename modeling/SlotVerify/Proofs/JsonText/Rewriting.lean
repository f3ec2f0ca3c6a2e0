import SlotVerify.Proofs.JsonText.Records
/-
  Values that give the same record.

  A record can be written in many ways: its members in any order, with others among them that mean
  nothing to it, without those that say what is so by default, and as an array.  `Rewriting` has one
  constructor for each of these ways and for the way back, and `Rewriting.record` says that the
  record stays.

  1. **Assignments.**  All but the arrays comes down to what the members assign.  An append of
     members assigns an append (`assigns_append`), and so a member can be looked at where it stands.
  2. **Members.**  Members in another order assign the same in another order, a foreign member
     assigns nothing, and a member that names a field assigns its value to it
     (`Assigns.at_field`).  What that does to the record is a matter of lawful fields.
  3. **Arrays.**  The values of members that name the first fields in order are the items of the
     array that assigns the same (`InOrder.assigns`).
-/

namespace SlotVerify.JsonText

variable {ρ : Type} {fields : List (Field ρ)} {default : ρ}

/-! ## What members assign -/

theorem assigns_append {members members' : List (RawString × Value)}
    {es : List (Field ρ × Value)} :
    Assigns fields (members ++ members') es ↔
      ∃ es₁ es₂, es = es₁ ++ es₂ ∧ Assigns fields members es₁ ∧ Assigns fields members' es₂ := by
  induction members generalizing es with
  | nil =>
    constructor
    · exact fun h => ⟨[], es, rfl, .nil, h⟩
    · rintro ⟨es₁, es₂, rfl, h, h'⟩
      cases h
      exact h'
  | cons m members ih =>
    constructor
    · intro h
      cases h with
      | known named hf rest =>
        obtain ⟨es₁, es₂, rfl, h, h'⟩ := ih.mp rest
        exact ⟨_ :: es₁, es₂, rfl, .known named hf h, h'⟩
      | unknown named hs hskip rest =>
        obtain ⟨es₁, es₂, rfl, h, h'⟩ := ih.mp rest
        exact ⟨es₁, es₂, rfl, .unknown named hs hskip h, h'⟩
    · rintro ⟨es₁, es₂, rfl, h, h'⟩
      cases h with
      | known named hf rest => exact .known named hf (ih.mpr ⟨_, _, rfl, rest, h'⟩)
      | unknown named hs hskip rest =>
        exact .unknown named hs hskip (ih.mpr ⟨_, _, rfl, rest, h'⟩)

theorem Assigns.perm {members members' : List (RawString × Value)}
    {es : List (Field ρ × Value)} (h : members.Perm members')
    (hassigns : Assigns fields members es) :
    ∃ es', Assigns fields members' es' ∧ es.Perm es' := by
  induction h generalizing es with
  | nil => exact ⟨es, hassigns, .refl _⟩
  | cons m _ ih =>
    cases hassigns with
    | known named hf rest =>
      obtain ⟨es', h', hperm⟩ := ih rest
      exact ⟨_ :: es', .known named hf h', hperm.cons _⟩
    | unknown named hs hskip rest =>
      obtain ⟨es', h', hperm⟩ := ih rest
      exact ⟨es', .unknown named hs hskip h', hperm⟩
  | swap m m' members =>
    have hsplit : Assigns fields ([m'] ++ ([m] ++ members)) es := hassigns
    obtain ⟨es₁, _, rfl, h₁, hrest⟩ := assigns_append.mp hsplit
    obtain ⟨es₂, es₃, rfl, h₂, h₃⟩ := assigns_append.mp hrest
    have hswapped : Assigns fields ([m] ++ ([m'] ++ members)) (es₂ ++ (es₁ ++ es₃)) :=
      assigns_append.mpr ⟨_, _, rfl, h₂, assigns_append.mpr ⟨_, _, rfl, h₁, h₃⟩⟩
    exact ⟨_, hswapped, List.perm_append_comm_assoc ..⟩
  | trans _ _ ih ih' =>
    obtain ⟨es', h', hperm⟩ := ih hassigns
    obtain ⟨es'', h'', hperm'⟩ := ih' h'
    exact ⟨es'', h'', hperm.trans hperm'⟩

/-- Every field that is entered is named by a member. -/
theorem Assigns.named {members : List (RawString × Value)} {es : List (Field ρ × Value)}
    (h : Assigns fields members es) : ∀ e ∈ es, ∃ m ∈ members, m.1.text = .ok e.1.name := by
  induction h with
  | nil => simp
  | @known name v _ _ f named _ _ ih =>
    rw [List.forall_mem_cons]
    refine ⟨⟨(name, v), List.mem_cons_self, named⟩, fun e he => ?_⟩
    obtain ⟨m, hm, hname⟩ := ih e he
    exact ⟨m, List.mem_cons_of_mem _ hm, hname⟩
  | unknown _ _ _ _ ih =>
    intro e he
    obtain ⟨m, hm, hname⟩ := ih e he
    exact ⟨m, List.mem_cons_of_mem _ hm, hname⟩

/-- There is one thing that members assign. -/
theorem Assigns.unique (h : Distinct fields) {members : List (RawString × Value)}
    {es es' : List (Field ρ × Value)} (hes : Assigns fields members es)
    (hes' : Assigns fields members es') : es = es' := by
  induction hes generalizing es' with
  | nil =>
    cases hes'
    rfl
  | known named hf _ ih =>
    cases hes' with
    | known named' hf' rest =>
      rw [named] at named'
      obtain rfl := List.inj_on_of_nodup_map h hf hf' (Except.ok.inj named')
      rw [ih rest]
    | unknown named' hs =>
      rw [named] at named'
      exact absurd (Except.ok.inj named') (hs _ hf)
  | unknown named hs _ _ ih =>
    cases hes' with
    | known named' hf' =>
      rw [named] at named'
      exact absurd (Except.ok.inj named').symm (hs _ hf')
    | unknown _ _ _ rest => exact ih rest

/-- A member that names a field assigns its value to it. -/
theorem Assigns.at_field (h : Distinct fields) {before after : List (RawString × Value)}
    {m : RawString × Value} {es : List (Field ρ × Value)}
    (hassigns : Assigns fields (before ++ m :: after) es) {f : Field ρ} (hf : f ∈ fields)
    (named : m.1.text = .ok f.name) :
    ∃ es₁ es₂, es = es₁ ++ (f, m.2) :: es₂ ∧ Assigns fields before es₁ ∧
      Assigns fields after es₂ := by
  obtain ⟨es₁, es₂, rfl, h₁, h₂⟩ := assigns_append.mp hassigns
  cases h₂ with
  | known named' hg rest =>
    rw [named] at named'
    obtain rfl := List.inj_on_of_nodup_map h hf hg (Except.ok.inj named')
    exact ⟨es₁, _, rfl, h₁, rest⟩
  | unknown named' hs =>
    rw [named] at named'
    exact absurd (Except.ok.inj named') (hs _ hf)

/-! ## Members that make no difference -/

theorem record_perm (h : Lawful fields) {members members' : List (RawString × Value)}
    (hperm : members.Perm members') {r : ρ}
    (hr : Value.record fields default (.object members none) = .ok r) :
    Value.record fields default (.object members' none) = .ok r := by
  obtain ⟨-, es, hassigns, hnodup, henter⟩ := (record_object_iff h.distinct).mp hr
  obtain ⟨es', hassigns', hes⟩ := hassigns.perm hperm
  refine (record_object_iff h.distinct).mpr ⟨rfl, es', hassigns', ?_, ?_⟩
  · exact (hes.map _).nodup_iff.mp hnodup
  · exact (enterAll_perm hes (h.pairwise hassigns.mem hnodup)).mp henter

/-- A member with a name that is no field's. -/
def Foreign (fields : List (Field ρ)) (m : RawString × Value) : Prop :=
  ∃ s, m.1.text = .ok s ∧ ∀ f ∈ fields, f.name ≠ s

theorem assigns_foreign {before after : List (RawString × Value)} {m : RawString × Value}
    (hm : Foreign fields m) {es : List (Field ρ × Value)} :
    Assigns fields (before ++ m :: after) es ↔
      m.2.skip = none ∧ Assigns fields (before ++ after) es := by
  obtain ⟨s, named, hs⟩ := hm
  simp only [assigns_append]
  constructor
  · rintro ⟨es₁, es₂, rfl, h₁, h₂⟩
    cases h₂ with
    | known named' hf =>
      rw [named] at named'
      exact absurd (Except.ok.inj named').symm (hs _ hf)
    | unknown _ _ hskip rest => exact ⟨hskip, es₁, es₂, rfl, h₁, rest⟩
  · rintro ⟨hskip, es₁, es₂, rfl, h₁, h₂⟩
    exact ⟨es₁, es₂, rfl, h₁, .unknown named hs hskip h₂⟩

/-- All that matters of a foreign member is that it can be passed over. -/
theorem record_foreign (h : Lawful fields) {before after : List (RawString × Value)}
    {m : RawString × Value} (hm : Foreign fields m) {r : ρ} :
    Value.record fields default (.object (before ++ m :: after) none) = .ok r ↔
      m.2.skip = none ∧ Value.record fields default (.object (before ++ after) none) = .ok r := by
  simp only [record_object_iff h.distinct, assigns_foreign hm]
  exact ⟨fun ⟨_, es, ⟨hskip, h⟩, hrest⟩ => ⟨hskip, trivial, es, h, hrest⟩,
    fun ⟨hskip, _, es, h, hrest⟩ => ⟨trivial, es, ⟨hskip, h⟩, hrest⟩⟩

/-- A member that gives a field the value it has by default. -/
def Defaulted (fields : List (Field ρ)) (default : ρ) (m : RawString × Value) (f : Field ρ) :
    Prop :=
  f ∈ fields ∧ m.1.text = .ok f.name ∧ f.enter m.2 default = .ok default

theorem record_of_defaulted (h : Lawful fields) {before after : List (RawString × Value)}
    {m : RawString × Value} {f : Field ρ} (hm : Defaulted fields default m f) {r : ρ}
    (hr : Value.record fields default (.object (before ++ m :: after) none) = .ok r) :
    Value.record fields default (.object (before ++ after) none) = .ok r := by
  obtain ⟨hf, named, hdefault⟩ := hm
  obtain ⟨-, es, hassigns, hnodup, henter⟩ := (record_object_iff h.distinct).mp hr
  have hpairwise := h.pairwise hassigns.mem hnodup
  obtain ⟨es₁, es₂, rfl, h₁, h₂⟩ := hassigns.at_field h.distinct hf named
  refine (record_object_iff h.distinct).mpr
    ⟨rfl, es₁ ++ es₂, assigns_append.mpr ⟨_, _, rfl, h₁, h₂⟩, ?_, ?_⟩
  · exact hnodup.sublist (((List.sublist_cons_self _ _).append_left _).map _)
  · exact (enterAll_default hpairwise hdefault).mp henter

theorem record_defaulted (h : Lawful fields) {before after : List (RawString × Value)}
    {m : RawString × Value} {f : Field ρ} (hm : Defaulted fields default m f)
    (habsent : ∀ m' ∈ before ++ after, m'.1.text ≠ .ok f.name) {r : ρ}
    (hr : Value.record fields default (.object (before ++ after) none) = .ok r) :
    Value.record fields default (.object (before ++ m :: after) none) = .ok r := by
  obtain ⟨hf, named, hdefault⟩ := hm
  obtain ⟨-, es, hassigns, hnodup, henter⟩ := (record_object_iff h.distinct).mp hr
  have hnew : f.name ∉ es.map (·.1.name) := by
    intro hin
    obtain ⟨e, he, hname⟩ := List.mem_map.mp hin
    obtain ⟨m', hm', hnamed⟩ := hassigns.named e he
    exact habsent m' hm' (hname ▸ hnamed)
  obtain ⟨es₁, es₂, rfl, h₁, h₂⟩ := assigns_append.mp hassigns
  have hassigns' : Assigns fields (before ++ m :: after) (es₁ ++ (f, m.2) :: es₂) :=
    assigns_append.mpr ⟨_, _, rfl, h₁, .known named hf h₂⟩
  have hnodup' : ((es₁ ++ (f, m.2) :: es₂).map (·.1.name)).Nodup := by
    rw [(List.perm_middle.map _).nodup_iff, List.map_cons, List.nodup_cons]
    exact ⟨hnew, hnodup⟩
  have hpairwise := h.pairwise hassigns'.mem hnodup'
  exact (record_object_iff h.distinct).mpr
    ⟨rfl, _, hassigns', hnodup', (enterAll_default hpairwise hdefault).mpr henter⟩

/-! ## Objects and arrays -/

/-- The members of an object name the first fields in their order. -/
def InOrder (fields : List (Field ρ)) (members : List (RawString × Value)) : Prop :=
  (members.map fun m => m.1.text) <+: fields.map fun f => .ok f.name

theorem inOrder_cons {fields : List (Field ρ)} {m : RawString × Value}
    {members : List (RawString × Value)} :
    InOrder fields (m :: members) ↔
      ∃ f rest, fields = f :: rest ∧ m.1.text = .ok f.name ∧ InOrder rest members := by
  cases fields <;> simp [InOrder, List.cons_prefix_cons]

/-- The front of the fields is among all of them, which is what the induction needs. -/
theorem InOrder.assigns {front : List (Field ρ)} (hfront : ∀ f ∈ front, f ∈ fields)
    {members : List (RawString × Value)} (h : InOrder front members) :
    members.length ≤ front.length ∧
      Assigns fields members (front.zip (members.map Prod.snd)) := by
  induction members generalizing front with
  | nil => exact ⟨Nat.zero_le _, by simpa using Assigns.nil⟩
  | cons m members ih =>
    obtain ⟨f, rest, rfl, named, horder⟩ := inOrder_cons.mp h
    rw [List.forall_mem_cons] at hfront
    obtain ⟨hlength, hassigns⟩ := ih hfront.2 horder
    exact ⟨Nat.succ_le_succ hlength, .known named hfront.1 hassigns⟩

theorem names_zip (fields : List (Field ρ)) (vs : List Value) :
    ((fields.zip vs).map (·.1.name)) <+: fields.map Field.name := by
  induction fields generalizing vs with
  | nil => simp
  | cons f fields ih =>
    cases vs with
    | nil => simp
    | cons v vs => simpa using ih vs

theorem record_inOrder (h : Lawful fields) {members : List (RawString × Value)}
    (horder : InOrder fields members) {r : ρ} :
    Value.record fields default (.object members none) = .ok r ↔
      Value.record fields default (.array (members.map Prod.snd) none) = .ok r := by
  obtain ⟨hlength, hassigns⟩ := horder.assigns fun _ hf => hf
  rw [record_object_iff h.distinct, record_array_iff, List.length_map]
  constructor
  · rintro ⟨-, es, hes, -, henter⟩
    exact ⟨rfl, hlength, hes.unique h.distinct hassigns ▸ henter⟩
  · rintro ⟨-, -, henter⟩
    exact ⟨rfl, _, hassigns, List.Nodup.sublist (names_zip fields _).sublist h.distinct, henter⟩

/-! ## Values inside lists and records -/

/-- An item of a list may be replaced by one of which the same is taken. -/
theorem list_replace {α : Type} {item : Value → Except Problem α} {v v' : Value}
    (h : ∀ a, item v = .ok a → item v' = .ok a) {items items' : List Value} {as : List α}
    (hlist : Value.list item (.array (items ++ v :: items') none) = .ok as) :
    Value.list item (.array (items ++ v' :: items') none) = .ok as := by
  obtain ⟨-, has⟩ := collect_iff.mp hlist
  refine collect_iff.mpr ⟨rfl, ?_⟩
  induction items generalizing as with
  | nil =>
    obtain ⟨a, more, ha, hmore, rfl⟩ := List.forall₂_cons_left_iff.mp has
    exact .cons (h a ha) hmore
  | cons w items ih =>
    obtain ⟨a, more, ha, hmore, rfl⟩ := List.forall₂_cons_left_iff.mp has
    exact .cons ha (ih (collect_iff.mpr ⟨rfl, hmore⟩) hmore)

/-- Whatever a field takes from the first value, it takes from the second. -/
def Field.Replaces (f : Field ρ) (v v' : Value) : Prop :=
  ∀ r r', f.enter v r = .ok r' → f.enter v' r = .ok r'

theorem enterAll_replace {f : Field ρ} {v v' : Value} (h : f.Replaces v v')
    (es : List (Field ρ × Value)) {es' : List (Field ρ × Value)} {r r' : ρ}
    (henter : enterAll (es ++ (f, v) :: es') r = .ok r') :
    enterAll (es ++ (f, v') :: es') r = .ok r' := by
  induction es generalizing r with
  | nil =>
    obtain ⟨mid, hmid, hrest⟩ := enterAll_cons.mp henter
    exact enterAll_cons.mpr ⟨mid, h _ _ hmid, hrest⟩
  | cons e es ih =>
    obtain ⟨mid, hmid, hrest⟩ := enterAll_cons.mp henter
    exact enterAll_cons.mpr ⟨mid, hmid, ih hrest⟩

theorem record_replace (h : Lawful fields) {before after : List (RawString × Value)}
    {name : RawString} {v v' : Value} {f : Field ρ} (hf : f ∈ fields)
    (named : name.text = .ok f.name) (hreplace : f.Replaces v v') {r : ρ}
    (hr : Value.record fields default (.object (before ++ (name, v) :: after) none) = .ok r) :
    Value.record fields default (.object (before ++ (name, v') :: after) none) = .ok r := by
  obtain ⟨-, es, hassigns, hnodup, henter⟩ := (record_object_iff h.distinct).mp hr
  obtain ⟨es₁, es₂, rfl, h₁, h₂⟩ := hassigns.at_field h.distinct hf named
  have hassigns' : Assigns fields (before ++ (name, v') :: after) (es₁ ++ (f, v') :: es₂) :=
    assigns_append.mpr ⟨_, _, rfl, h₁, .known named hf h₂⟩
  exact (record_object_iff h.distinct).mpr
    ⟨rfl, _, hassigns', by simpa using hnodup, enterAll_replace hreplace _ henter⟩

/-! ## Rewritings -/

/-- A way to write a record differently. -/
inductive Rewriting (fields : List (Field ρ)) (default : ρ) : Value → Value → Prop
  /-- The members in another order. -/
  | reorder {members members' : List (RawString × Value)} (h : members.Perm members') :
    Rewriting fields default (.object members none) (.object members' none)
  /-- One more member, whose name is no field's. -/
  | insert {before after : List (RawString × Value)} {m : RawString × Value}
    (hm : Foreign fields m) (hname : m.1.Spellable) (hvalue : m.2.Spellable) :
    Rewriting fields default (.object (before ++ after) none) (.object (before ++ m :: after) none)
  /-- Without a member whose name is no field's. -/
  | remove {before after : List (RawString × Value)} {m : RawString × Value}
    (hm : Foreign fields m) :
    Rewriting fields default (.object (before ++ m :: after) none) (.object (before ++ after) none)
  /-- Without a member whose value is the default. -/
  | drop {before after : List (RawString × Value)} {m : RawString × Value} {f : Field ρ}
    (hm : Defaulted fields default m f) :
    Rewriting fields default (.object (before ++ m :: after) none) (.object (before ++ after) none)
  /-- With a member for a field that has had none, whose value is the default. -/
  | supply {before after : List (RawString × Value)} {m : RawString × Value} {f : Field ρ}
    (hm : Defaulted fields default m f) (hname : m.1.Spellable) (hvalue : m.2.Spellable)
    (habsent : ∀ m' ∈ before ++ after, m'.1.text ≠ .ok f.name) :
    Rewriting fields default (.object (before ++ after) none) (.object (before ++ m :: after) none)
  /-- The array of the fields in place of the object. -/
  | list {members : List (RawString × Value)} (h : InOrder fields members) :
    Rewriting fields default (.object members none) (.array (members.map Prod.snd) none)
  /-- The object in place of the array of the fields. -/
  | name {members : List (RawString × Value)} (h : InOrder fields members)
    (hnames : ∀ m ∈ members, m.1.Spellable) :
    Rewriting fields default (.array (members.map Prod.snd) none) (.object members none)

/-- A record written differently is the same record. -/
theorem Rewriting.record (h : Lawful fields) {v v' : Value}
    (hrewrite : Rewriting fields default v v') {r : ρ} (hr : v.record fields default = .ok r) :
    v'.record fields default = .ok r := by
  cases hrewrite with
  | reorder hperm => exact record_perm h hperm hr
  | insert hm _ hvalue =>
    obtain ⟨_, ht⟩ := hvalue
    exact (record_foreign h hm).mpr ⟨ht.skip, hr⟩
  | remove hm => exact ((record_foreign h hm).mp hr).2
  | drop hm => exact record_of_defaulted h hm hr
  | supply hm _ _ habsent => exact record_defaulted h hm habsent hr
  | list horder => exact (record_inOrder h horder).mp hr
  | name horder _ => exact (record_inOrder h horder).mpr hr

/-- What can be spelled can be spelled differently. -/
theorem Rewriting.spellable {v v' : Value} (hrewrite : Rewriting fields default v v')
    (hv : v.Spellable) : v'.Spellable := by
  cases hrewrite with
  | reorder hperm =>
    rw [spellable_object_iff] at hv ⊢
    exact fun m hm => hv m (hperm.mem_iff.mpr hm)
  | insert _ hname hvalue | supply _ hname hvalue =>
    rw [spellable_object_iff, List.forall_mem_append] at hv ⊢
    exact ⟨hv.1, List.forall_mem_cons.mpr ⟨⟨hname, hvalue⟩, hv.2⟩⟩
  | remove | drop =>
    rw [spellable_object_iff, List.forall_mem_append] at hv ⊢
    exact ⟨hv.1, (List.forall_mem_cons.mp hv.2).2⟩
  | list =>
    rw [spellable_object_iff] at hv
    rw [spellable_array_iff, List.forall_mem_map]
    exact fun m hm => (hv m hm).2
  | name _ hnames =>
    rw [spellable_array_iff] at hv
    rw [spellable_object_iff]
    exact fun m hm => ⟨hnames m hm, hv m.2 (List.mem_map_of_mem hm)⟩

end SlotVerify.JsonText
