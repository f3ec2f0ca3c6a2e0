import SlotVerify.Proofs.JsonText.Leaves
/-
  Spellings are read.

  1. **Beginnings and ends.**  A value begins with neither white space nor a closing bracket, and
     behind it stands nothing that a number could go on with.  So the reader is never in doubt where
     one thing ends and the next begins.
  2. **One call.**  Each of the three functions that call each other is brought down to the calls
     that it makes, one equation for each way on.
  3. **Fuel.**  The crux is how much is enough: twice the length of the spelling, and one more for
     a value, two more for a list.  A list's first item may be as long as the list is, so the
     function for lists has to have more left than the one for values; `reads_spelled` then is an
     induction on the fuel, with one lemma for each function.
-/

namespace SlotVerify.JsonText

/-! ## Where values begin and end -/

theorem isSpace_iff {b : UInt8} :
    isSpace b = true ↔ b = 0x20 ∨ b = 0x0a ∨ b = 0x09 ∨ b = 0x0d := by
  simp [isSpace, or_assoc]

/-- A number behind its sign begins with a digit. -/
theorem RawNumber.Unsigned.begins {n : RawNumber} {t : Text} (h : n.Unsigned t) :
    ∃ d s, t = d :: s ∧ isDigit d = true := by
  obtain ⟨hwhole, _, _, _⟩ := h
  obtain ⟨d, ds, hds⟩ := List.exists_cons_of_ne_nil hwhole.1
  exact ⟨d, _, by rw [hds, List.cons_append], hwhole.2 d (by simp [hds])⟩

/-- A value begins with neither white space nor a closing bracket. -/
theorem Value.Spelled.begins {v : Value} {t : Text} (h : v.Spelled t) :
    ∃ b s, t = b :: s ∧ isSpace b = false ∧ b ≠ 0x5d := by
  cases h with
  | null | isTrue | isFalse | array | object => exact ⟨_, _, rfl, by decide, by decide⟩
  | string h =>
    cases h
    exact ⟨_, _, rfl, by decide, by decide⟩
  | number h =>
    cases h with
    | positive _ h =>
      obtain ⟨d, s, rfl, hd⟩ := h.begins
      refine ⟨d, s, rfl, ?_, ?_⟩
      · rw [Bool.eq_false_iff]
        intro hspace
        obtain rfl | rfl | rfl | rfl := isSpace_iff.mp hspace <;> cases hd
      · rintro rfl
        cases hd
    | negative => exact ⟨_, _, rfl, by decide, by decide⟩

theorem Value.Spelled.length_pos {v : Value} {t : Text} (h : v.Spelled t) : 0 < t.length := by
  obtain ⟨b, s, rfl, -⟩ := h.begins
  exact Nat.succ_pos _

theorem stops_space {b : UInt8} (hb : isSpace b = true) (s : Text) : Stops (b :: s) := by
  refine stops_cons ?_ s
  obtain rfl | rfl | rfl | rfl := isSpace_iff.mp hb <;> simp [IsExponentSign, isDigit]

/-- No number goes on over white space or the sign behind it. -/
theorem stops_blank {w : Text} (hw : Blank w) {b : UInt8}
    (hb : isDigit b = false ∧ b ≠ 0x2e ∧ ¬IsExponentSign b) (s : Text) : Stops (w ++ b :: s) := by
  cases w with
  | nil => exact stops_cons hb s
  | cons c w => exact stops_space (hw c List.mem_cons_self) _

theorem Separator.stops {c : Text} (h : Separator false c) (s : Text) : Stops (c ++ s) := by
  cases h with
  | comma hw =>
    rw [List.append_assoc]
    exact stops_blank hw (by simp [IsExponentSign, isDigit]) s

theorem ItemsSpelled.stops {items : List Value} {t : Text} (h : ItemsSpelled false items t)
    (rest : Text) : Stops (t ++ rest) := by
  cases h with
  | close hw =>
    rw [List.append_assoc]
    exact stops_blank hw (by simp [IsExponentSign, isDigit]) rest
  | item separator =>
    rw [List.append_assoc]
    exact separator.stops _

theorem MembersSpelled.stops {members : List (RawString × Value)} {t : Text}
    (h : MembersSpelled false members t) (rest : Text) : Stops (t ++ rest) := by
  cases h with
  | close hw =>
    rw [List.append_assoc]
    exact stops_blank hw (by simp [IsExponentSign, isDigit]) rest
  | member separator =>
    rw [List.append_assoc]
    exact separator.stops _

/-! ## One call -/

theorem skipSpace_blank_cons {w : Text} (hw : Blank w) {b : UInt8} (hb : isSpace b = false)
    (s : Text) : skipSpace (w ++ b :: s) = b :: s := by
  rw [skipSpace_blank hw, skipSpace_cons hb]

theorem readItems_close {w : Text} (hw : Blank w) (fuel : Nat) (first : Bool) (rest : Text) :
    readItems (fuel + 1) first (w ++ 0x5d :: rest) = ([], none, rest) := by
  rw [readItems, skipSpace_blank_cons hw (by decide)]
  rfl

/-- Reads an item and those behind it, where an item begins. -/
def itemsFrom (fuel : Nat) (s : Text) : List Value × Option Problem × Text :=
  let (v, rest) := readValue fuel s
  let (items, problem, rest) := readItems fuel false rest
  (v :: items, problem, rest)

theorem readItems_first {s : Text} {b : UInt8} {rest : Text} (hs : skipSpace s = b :: rest)
    (hb : b ≠ 0x5d) (fuel : Nat) : readItems (fuel + 1) true s = itemsFrom fuel (b :: rest) := by
  rw [readItems, hs]
  simp [hb, itemsFrom]

theorem readItems_comma {w : Text} (hw : Blank w) {s : Text}
    (hs : (skipSpace s).head? ≠ some 0x5d) (fuel : Nat) :
    readItems (fuel + 1) false (w ++ 0x2c :: s) = itemsFrom fuel s := by
  rw [readItems, skipSpace_blank_cons hw (by decide)]
  simp [hs, itemsFrom]

theorem readMembers_close {w : Text} (hw : Blank w) (fuel : Nat) (first : Bool) (rest : Text) :
    readMembers (fuel + 1) first (w ++ 0x7d :: rest) = ([], none, rest) := by
  rw [readMembers, skipSpace_blank_cons hw (by decide)]
  rfl

/-- Reads a member's value and the members behind it. -/
def membersFrom (fuel : Nat) (name : RawString) (s : Text) :
    List (RawString × Value) × Option Problem × Text :=
  let (v, rest) := readValue fuel s
  let (members, problem, rest) := readMembers fuel false rest
  ((name, v) :: members, problem, rest)

/-- Reads a member from behind the quote in front of its name. -/
def memberFrom (fuel : Nat) (s : Text) : List (RawString × Value) × Option Problem × Text :=
  let (name, rest) := readString s
  match skipSpace rest with
  | [] => ([(name, .broken .truncated)], none, [])
  | c :: rest =>
    if c == 0x3a then membersFrom fuel name rest else ([(name, .broken .malformed)], none, [])

theorem readMembers_first {w : Text} (hw : Blank w) (s : Text) (fuel : Nat) :
    readMembers (fuel + 1) true (w ++ 0x22 :: s) = memberFrom fuel s := by
  rw [readMembers, skipSpace_blank_cons hw (by decide)]
  simp only [if_true, Bool.true_or, skipSpace_cons (show isSpace 0x22 = false by decide)]
  rfl

theorem readMembers_comma {w w' : Text} (hw : Blank w) (hw' : Blank w') (s : Text) (fuel : Nat) :
    readMembers (fuel + 1) false (w ++ 0x2c :: (w' ++ 0x22 :: s)) = memberFrom fuel s := by
  rw [readMembers, skipSpace_blank_cons hw (by decide)]
  simp only [Bool.false_eq_true, if_false,
    skipSpace_blank_cons hw' (show isSpace 0x22 = false by decide)]
  rfl

/-! ## Spellings hold no problem -/

theorem skipItems_eq_none_iff {problem : Option Problem} {items : List Value} :
    skipItems problem items = none ↔ problem = none ∧ ∀ v ∈ items, v.skip = none := by
  induction items with
  | nil => simp [skipItems]
  | cons v items ih =>
    rw [skipItems, List.forall_mem_cons]
    cases hv : v.skip <;> simp [ih]

theorem skipMembers_eq_none_iff {problem : Option Problem} {members : List (RawString × Value)} :
    skipMembers problem members = none ↔
      problem = none ∧ ∀ m ∈ members, m.1.problem = none ∧ m.2.skip = none := by
  induction members with
  | nil => simp [skipMembers]
  | cons m members ih =>
    obtain ⟨name, v⟩ := m
    rw [skipMembers, RawString.skip, List.forall_mem_cons]
    cases hn : name.problem <;> cases hv : v.skip <;> simp [ih]

theorem RawString.Spelled.problem {s : RawString} {t : Text} (h : s.Spelled t) :
    s.problem = none := by
  cases h
  rfl

mutual

theorem Value.Spelled.skip {v : Value} {t : Text} : v.Spelled t → v.skip = none
  | .null | .isTrue | .isFalse | .number _ => rfl
  | .string h => h.problem
  | .array h => skipItems_eq_none_iff.mpr ⟨rfl, h.skip⟩
  | .object h => skipMembers_eq_none_iff.mpr ⟨rfl, h.skip⟩

theorem ItemsSpelled.skip {first : Bool} {items : List Value} {t : Text} :
    ItemsSpelled first items t → ∀ v ∈ items, v.skip = none
  | .close _ => by simp
  | .item _ _ value rest => List.forall_mem_cons.mpr ⟨value.skip, rest.skip⟩

theorem MembersSpelled.skip {first : Bool} {members : List (RawString × Value)} {t : Text} :
    MembersSpelled first members t → ∀ m ∈ members, m.1.problem = none ∧ m.2.skip = none
  | .close _ => by simp
  | .member _ _ key _ _ value rest =>
    List.forall_mem_cons.mpr ⟨⟨key.problem, value.skip⟩, rest.skip⟩

end

/-! ## Spellings are read -/

/-- With this much fuel, spelled values are read. -/
def ReadsValues (fuel : Nat) : Prop :=
  ∀ {v w t rest}, Blank w → Value.Spelled v t → Stops rest →
    2 * (w.length + t.length) + 1 ≤ fuel → readValue fuel (w ++ (t ++ rest)) = (v, rest)

/-- With this much fuel, spelled items are read. -/
def ReadsItems (fuel : Nat) : Prop :=
  ∀ {first items t rest}, ItemsSpelled first items t → 2 * t.length + 2 ≤ fuel →
    readItems fuel first (t ++ rest) = (items, none, rest)

/-- With this much fuel, spelled members are read. -/
def ReadsMembers (fuel : Nat) : Prop :=
  ∀ {first members t rest}, MembersSpelled first members t → 2 * t.length + 2 ≤ fuel →
    readMembers fuel first (t ++ rest) = (members, none, rest)

theorem readsValues_succ {fuel : Nat} (hitems : ReadsItems fuel) (hmembers : ReadsMembers fuel) :
    ReadsValues (fuel + 1) := by
  intro v w t rest hw h hstop hfuel
  obtain ⟨b, s, ht, hspace, -⟩ := h.begins
  have hbegin : skipSpace (w ++ (t ++ rest)) = t ++ rest := by
    rw [ht, List.cons_append, skipSpace_blank_cons hw hspace]
  rw [readValue, hbegin]
  cases h with
  | null => exact readWord_append .null (ascii "ull") rest
  | isTrue => exact readWord_append (.bool true) (ascii "rue") rest
  | isFalse => exact readWord_append (.bool false) (ascii "alse") rest
  | string h =>
    cases h with
    | quoted inner => simp [readString_spelled inner]
  | @number n _ h =>
    cases h with
    | positive sign h =>
      have hread := readNumber_spelled h hstop
      rw [sign] at hread
      obtain ⟨d, s, rfl, hd⟩ := h.begins
      have hne : ∀ c, isDigit c = false → (d == c) = false := by
        intro c hc
        rw [beq_eq_false_iff_ne]
        rintro rfl
        simp [hd] at hc
      simp only [List.cons_append, hd, if_true, hne 0x22 (by rfl), hne 0x5b (by rfl),
        hne 0x7b (by rfl), hne 0x2d (by rfl), Bool.false_eq_true, if_false]
      exact hread
    | negative sign h =>
      have hread := readNumber_spelled h hstop
      rw [sign] at hread
      exact hread
  | @array items s h =>
    have hread : readItems fuel true (s ++ rest) = (items, none, rest) :=
      hitems h (by simp at hfuel; omega)
    simp [hread]
  | @object members s h =>
    have hread : readMembers fuel true (s ++ rest) = (members, none, rest) :=
      hmembers h (by simp at hfuel; omega)
    simp [hread]

theorem itemsFrom_spelled {fuel : Nat} (hvalues : ReadsValues fuel) (hitems : ReadsItems fuel)
    {v : Value} {items : List Value} {w t s rest : Text} (hw : Blank w) (value : v.Spelled t)
    (tail : ItemsSpelled false items s) (hfuel : 2 * (w.length + t.length + s.length) + 1 ≤ fuel) :
    itemsFrom fuel (w ++ (t ++ (s ++ rest))) = (v :: items, none, rest) := by
  have hlength := value.length_pos
  simp only [itemsFrom, hvalues hw value (tail.stops rest) (by omega), hitems tail (by omega)]

theorem readsItems_succ {fuel : Nat} (hvalues : ReadsValues fuel) (hitems : ReadsItems fuel) :
    ReadsItems (fuel + 1) := by
  intro first items t rest h hfuel
  cases h with
  | close hw => exact (List.append_assoc ..).symm ▸ readItems_close hw fuel first rest
  | @item _ v items c w t s separator hw value tail =>
    obtain ⟨b, t', ht, hspace, hb⟩ := value.begins
    have hbegin : skipSpace (w ++ (t ++ (s ++ rest))) = b :: (t' ++ (s ++ rest)) := by
      rw [ht, List.cons_append, skipSpace_blank_cons hw hspace]
    simp only [List.append_assoc, List.length_append] at hfuel ⊢
    cases separator with
    | none =>
      rw [List.nil_append, readItems_first hbegin hb, ← List.cons_append, ← ht]
      exact itemsFrom_spelled hvalues hitems blank_nil value tail (by simp; omega)
    | comma hw' =>
      rw [List.append_assoc, List.singleton_append, readItems_comma hw' (by simpa [hbegin])]
      exact itemsFrom_spelled hvalues hitems hw value tail (by simp at hfuel; omega)

theorem memberFrom_spelled {fuel : Nat} (hvalues : ReadsValues fuel)
    (hmembers : ReadsMembers fuel) {pieces : List Piece} {v : Value}
    {members : List (RawString × Value)} {n w w' t s rest : Text} (key : PiecesSpelled pieces n)
    (hw : Blank w) (hw' : Blank w') (value : v.Spelled t) (tail : MembersSpelled false members s)
    (hfuel : 2 * (w'.length + t.length + s.length) + 1 ≤ fuel) :
    memberFrom fuel (n ++ 0x22 :: (w ++ 0x3a :: (w' ++ (t ++ (s ++ rest))))) =
      ((⟨pieces, none⟩, v) :: members, none, rest) := by
  have hlength := value.length_pos
  simp only [memberFrom, readString_spelled key,
    skipSpace_blank_cons hw (show isSpace 0x3a = false by decide)]
  simp only [membersFrom, hvalues hw' value (tail.stops rest) (by omega),
    hmembers tail (by omega), BEq.rfl, if_true]

theorem readsMembers_succ {fuel : Nat} (hvalues : ReadsValues fuel)
    (hmembers : ReadsMembers fuel) : ReadsMembers (fuel + 1) := by
  intro first members t rest h hfuel
  cases h with
  | close hw => exact (List.append_assoc ..).symm ▸ readMembers_close hw fuel first rest
  | @member _ name v members c w n w' w'' t s separator hw key hw' hw'' value tail =>
    cases key with
    | @quoted pieces n inner =>
      simp only [List.append_assoc, List.length_append, List.cons_append, List.nil_append,
        List.length_cons] at hfuel ⊢
      cases separator with
      | none =>
        rw [List.nil_append, readMembers_first hw]
        exact memberFrom_spelled hvalues hmembers inner hw' hw'' value tail (by omega)
      | comma hc =>
        rw [List.append_assoc, List.singleton_append, readMembers_comma hc hw]
        exact memberFrom_spelled hvalues hmembers inner hw' hw'' value tail (by omega)

theorem reads_spelled (fuel : Nat) : ReadsValues fuel ∧ ReadsItems fuel ∧ ReadsMembers fuel := by
  induction fuel with
  | zero =>
    refine ⟨fun _ _ _ h => ?_, fun _ h => ?_, fun _ h => ?_⟩ <;> omega
  | succ fuel ih =>
    obtain ⟨hvalues, hitems, hmembers⟩ := ih
    exact ⟨readsValues_succ hitems hmembers, readsItems_succ hvalues hitems,
      readsMembers_succ hvalues hmembers⟩

end SlotVerify.JsonText
