/-
  JSON values as far as they could be read.

  A text is read front to back, and its first problem decides.  What is a problem depends on who
  reads: a number may be too large for a double, a string may not be Unicode, and a member may have
  the wrong type, but only where somebody wants the value.  So the reader of texts settles for the
  grammar and keeps the rest: digits as digits, strings as the pieces between the quotes.  Where the
  grammar is broken, the value ends with the problem in its place, behind everything that was read
  before it.
-/

namespace SlotVerify.JsonText

/-- What is wrong with a text. -/
inductive Problem where
  /-- It is not JSON. -/
  | malformed
  /-- It ends too early. -/
  | truncated
  /-- It is JSON, but not what is wanted. -/
  | mismatch
deriving DecidableEq, Repr

/-- A piece of a string between its quotes. -/
inductive Piece where
  | byte (b : UInt8)
  /-- A 16-bit unit given by four hexadecimal digits. -/
  | unit (u : Nat)
deriving DecidableEq, Repr

/-- A string as written, and the problem in place of its closing quote. -/
structure RawString where
  pieces : List Piece
  problem : Option Problem := none
deriving DecidableEq, Repr

/-- A number as written. -/
structure RawNumber where
  negative : Bool := false
  whole : List UInt8
  fraction : Option (List UInt8) := none
  /-- Whether the exponent is negative, and its digits. -/
  exponent : Option (Bool × List UInt8) := none
deriving DecidableEq, Repr

/-- A value; a problem ends it. -/
inductive Value where
  | null
  | bool (b : Bool)
  | number (n : RawNumber)
  /-- A number that the end of the text has cut off. -/
  | cutNumber
  | string (s : RawString)
  | array (items : List Value) (problem : Option Problem)
  | object (members : List (RawString × Value)) (problem : Option Problem)
  /-- No value at all. -/
  | broken (p : Problem)

/-! ## Values that nobody wants -/

/-- A string is passed over up to its closing quote. -/
def RawString.skip (s : RawString) : Option Problem := s.problem

mutual

/-- The problem that is met when a value is passed over. -/
def Value.skip : Value → Option Problem
  | .null | .bool _ | .number _ => none
  | .cutNumber => some .malformed
  | .string s => s.skip
  | .array items problem => skipItems problem items
  | .object members problem => skipMembers problem members
  | .broken p => some p

/-- The first problem of an array's items, or the one behind them. -/
def skipItems (problem : Option Problem) : List Value → Option Problem
  | [] => problem
  | v :: rest =>
    match v.skip with
    | some p => some p
    | none => skipItems problem rest

/-- The first problem of an object's members, or the one behind them. -/
def skipMembers (problem : Option Problem) : List (RawString × Value) → Option Problem
  | [] => problem
  | (name, v) :: rest =>
    match name.skip with
    | some p => some p
    | none =>
      match v.skip with
      | some p => some p
      | none => skipMembers problem rest

end

end SlotVerify.JsonText
