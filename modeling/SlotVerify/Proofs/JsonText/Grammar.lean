import SlotVerify.JsonText.Reader
/-
  The spellings of a value.

  The grammar of JSON, as a relation between values and texts: which texts write a value down.  A
  value has many spellings.  White space may stand around values, names and the signs between
  them, a byte of a string may stand for itself or behind a backslash, and an exponent may have a
  plus sign.  What it leaves open it never confuses: a text spells one value at most, which is shown
  where the reader is shown to find it.

  Each comma is written with what follows it, so that a list is a first entry without one, further
  entries with one, and the closing bracket.  No comma can stand in front of the bracket then.
-/

namespace SlotVerify.JsonText

/-- White space only. -/
def Blank (s : Text) : Prop := ∀ b ∈ s, isSpace b = true

/-! ## Strings -/

/-- A piece of a string between the quotes. -/
inductive Piece.Spelled : Piece → Text → Prop
  | plain {b : UInt8} (printable : 0x20 ≤ b) (notQuote : b ≠ 0x22) (notBackslash : b ≠ 0x5c) :
    Spelled (.byte b) [b]
  | escape {e b : UInt8} (stands : escaped? e = some b) : Spelled (.byte b) [0x5c, e]
  | unit {a b c d : UInt8} {u : Nat} (stands : hexUnit? a b c d = some u) :
    Spelled (.unit u) [0x5c, 0x75, a, b, c, d]

/-- Pieces one after the other. -/
inductive PiecesSpelled : List Piece → Text → Prop
  | nil : PiecesSpelled [] []
  | cons {p : Piece} {ps : List Piece} {s t : Text} (head : p.Spelled s)
    (tail : PiecesSpelled ps t) : PiecesSpelled (p :: ps) (s ++ t)

/-- A string with its quotes. -/
inductive RawString.Spelled : RawString → Text → Prop
  | quoted {pieces : List Piece} {s : Text} (inner : PiecesSpelled pieces s) :
    Spelled ⟨pieces, none⟩ (0x22 :: (s ++ [0x22]))

/-! ## Numbers -/

/-- One digit or more. -/
def Digits (s : Text) : Prop := s ≠ [] ∧ ∀ b ∈ s, isDigit b = true

/-- A fraction, or nothing in its place. -/
inductive FractionSpelled : Option Text → Text → Prop
  | absent : FractionSpelled none []
  | present {digits : Text} (h : Digits digits) : FractionSpelled (some digits) (0x2e :: digits)

/-- The letter in front of an exponent. -/
def IsExponentSign (b : UInt8) : Prop := b = 0x65 ∨ b = 0x45

/-- An exponent, or nothing in its place. -/
inductive ExponentSpelled : Option (Bool × Text) → Text → Prop
  | absent : ExponentSpelled none []
  | unsigned {e : UInt8} {digits : Text} (he : IsExponentSign e) (h : Digits digits) :
    ExponentSpelled (some (false, digits)) (e :: digits)
  | plus {e : UInt8} {digits : Text} (he : IsExponentSign e) (h : Digits digits) :
    ExponentSpelled (some (false, digits)) (e :: 0x2b :: digits)
  | minus {e : UInt8} {digits : Text} (he : IsExponentSign e) (h : Digits digits) :
    ExponentSpelled (some (true, digits)) (e :: 0x2d :: digits)

/-- A number behind its sign. -/
inductive RawNumber.Unsigned : RawNumber → Text → Prop
  | parts {n : RawNumber} {f e : Text} (whole : Digits n.whole)
    (noLeadingZero : n.whole.head? = some 0x30 → n.whole = [0x30])
    (fraction : FractionSpelled n.fraction f) (exponent : ExponentSpelled n.exponent e) :
    Unsigned n (n.whole ++ (f ++ e))

/-- A number. -/
inductive RawNumber.Spelled : RawNumber → Text → Prop
  | positive {n : RawNumber} {s : Text} (sign : n.negative = false) (h : n.Unsigned s) : Spelled n s
  | negative {n : RawNumber} {s : Text} (sign : n.negative = true) (h : n.Unsigned s) :
    Spelled n (0x2d :: s)

/-! ## Values -/

/-- What stands between an entry of a list and the one before it. -/
inductive Separator : (first : Bool) → Text → Prop
  | none : Separator true []
  | comma {w : Text} (hw : Blank w) : Separator false (w ++ [0x2c])

mutual

/-- A value, without white space around it. -/
inductive Value.Spelled : Value → Text → Prop
  | null : Value.Spelled .null (ascii "null")
  | isTrue : Value.Spelled (.bool true) (ascii "true")
  | isFalse : Value.Spelled (.bool false) (ascii "false")
  | number {n : RawNumber} {t : Text} (h : n.Spelled t) : Value.Spelled (.number n) t
  | string {s : RawString} {t : Text} (h : s.Spelled t) : Value.Spelled (.string s) t
  | array {items : List Value} {t : Text} (h : ItemsSpelled true items t) :
    Value.Spelled (.array items none) (0x5b :: t)
  | object {members : List (RawString × Value)} {t : Text} (h : MembersSpelled true members t) :
    Value.Spelled (.object members none) (0x7b :: t)

/-- The items of an array and its closing bracket. -/
inductive ItemsSpelled : (first : Bool) → List Value → Text → Prop
  | close {first : Bool} {w : Text} (hw : Blank w) : ItemsSpelled first [] (w ++ [0x5d])
  | item {first : Bool} {v : Value} {items : List Value} {c w t s : Text}
    (separator : Separator first c) (hw : Blank w) (value : Value.Spelled v t)
    (rest : ItemsSpelled false items s) :
    ItemsSpelled first (v :: items) (c ++ (w ++ (t ++ s)))

/-- The members of an object and its closing brace. -/
inductive MembersSpelled : (first : Bool) → List (RawString × Value) → Text → Prop
  | close {first : Bool} {w : Text} (hw : Blank w) : MembersSpelled first [] (w ++ [0x7d])
  | member {first : Bool} {name : RawString} {v : Value} {members : List (RawString × Value)}
    {c w n w' w'' t s : Text} (separator : Separator first c) (hw : Blank w)
    (key : name.Spelled n) (hw' : Blank w') (hw'' : Blank w'') (value : Value.Spelled v t)
    (rest : MembersSpelled false members s) :
    MembersSpelled first ((name, v) :: members)
      (c ++ (w ++ (n ++ (w' ++ 0x3a :: (w'' ++ (t ++ s))))))

end

/-- A whole text that spells a value. -/
def Value.WrittenAs (v : Value) (s : Text) : Prop :=
  ∃ w t w', Blank w ∧ v.Spelled t ∧ Blank w' ∧ s = w ++ (t ++ w')

/-! ## What can be spelled at all -/

/-- A string that has a spelling. -/
def RawString.Spellable (s : RawString) : Prop := ∃ t, s.Spelled t

/-- A value that has a spelling. -/
def Value.Spellable (v : Value) : Prop := ∃ t, v.Spelled t

theorem blank_nil : Blank [] := by simp [Blank]

theorem Blank.append {w w' : Text} (hw : Blank w) (hw' : Blank w') : Blank (w ++ w') :=
  List.forall_mem_append.mpr ⟨hw, hw'⟩

theorem itemsSpelled_iff {items : List Value} :
    (∃ t, ItemsSpelled false items t) ↔ ∀ v ∈ items, v.Spellable := by
  induction items with
  | nil => exact ⟨fun _ v hv => absurd hv (by simp), fun _ => ⟨_, .close blank_nil⟩⟩
  | cons v items ih =>
    constructor
    · rintro ⟨_, h⟩
      cases h with
      | item _ _ value rest =>
        rw [List.forall_mem_cons]
        exact ⟨⟨_, value⟩, ih.mp ⟨_, rest⟩⟩
    · intro h
      rw [List.forall_mem_cons] at h
      obtain ⟨⟨_, value⟩, hrest⟩ := h
      obtain ⟨_, rest⟩ := ih.mpr hrest
      exact ⟨_, .item (.comma blank_nil) blank_nil value rest⟩

/-- The first entry differs from the others in its comma alone. -/
theorem spellable_array_iff {items : List Value} :
    (Value.array items none).Spellable ↔ ∀ v ∈ items, v.Spellable := by
  rw [← itemsSpelled_iff]
  constructor
  · rintro ⟨_, h⟩
    cases h with
    | array h =>
      cases h with
      | close hw => exact ⟨_, .close hw⟩
      | item _ hw value rest => exact ⟨_, .item (.comma blank_nil) hw value rest⟩
  · rintro ⟨_, h⟩
    cases h with
    | close hw => exact ⟨_, .array (.close hw)⟩
    | item _ hw value rest => exact ⟨_, .array (.item .none hw value rest)⟩

theorem membersSpelled_iff {members : List (RawString × Value)} :
    (∃ t, MembersSpelled false members t) ↔
      ∀ m ∈ members, m.1.Spellable ∧ m.2.Spellable := by
  induction members with
  | nil => exact ⟨fun _ v hv => absurd hv (by simp), fun _ => ⟨_, .close blank_nil⟩⟩
  | cons m members ih =>
    constructor
    · rintro ⟨_, h⟩
      cases h with
      | member _ _ key _ _ value rest =>
        rw [List.forall_mem_cons]
        exact ⟨⟨⟨_, key⟩, ⟨_, value⟩⟩, ih.mp ⟨_, rest⟩⟩
    · intro h
      rw [List.forall_mem_cons] at h
      obtain ⟨⟨⟨_, key⟩, ⟨_, value⟩⟩, hrest⟩ := h
      obtain ⟨_, rest⟩ := ih.mpr hrest
      exact ⟨_, .member (.comma blank_nil) blank_nil key blank_nil blank_nil value rest⟩

theorem spellable_object_iff {members : List (RawString × Value)} :
    (Value.object members none).Spellable ↔ ∀ m ∈ members, m.1.Spellable ∧ m.2.Spellable := by
  rw [← membersSpelled_iff]
  constructor
  · rintro ⟨_, h⟩
    cases h with
    | object h =>
      cases h with
      | close hw => exact ⟨_, .close hw⟩
      | member _ hw key hw' hw'' value rest =>
        exact ⟨_, .member (.comma blank_nil) hw key hw' hw'' value rest⟩
  · rintro ⟨_, h⟩
    cases h with
    | close hw => exact ⟨_, .object (.close hw)⟩
    | member _ hw key hw' hw'' value rest =>
      exact ⟨_, .object (.member .none hw key hw' hw'' value rest)⟩

/-- A spelling is a whole text already. -/
theorem Value.Spelled.writtenAs {v : Value} {t : Text} (h : v.Spelled t) : v.WrittenAs t :=
  ⟨[], t, [], blank_nil, h, blank_nil, by simp⟩

theorem Value.WrittenAs.spellable {v : Value} {s : Text} (h : v.WrittenAs s) : v.Spellable := by
  obtain ⟨_, t, _, _, ht, _⟩ := h
  exact ⟨t, ht⟩

end SlotVerify.JsonText
