import SlotVerify.JsonText.Value
/-
  Taking values out of JSON.

  Each function wants a value of one type and gives the first problem on the way to it.  A value of
  another type is read to its end first, unless it is an array or an object, so that a problem
  inside it comes before the complaint about its type.

  A record is an object of named fields, any of which may be missing, or the array of its fields in
  their order, which may end early.  Names that mean nothing are passed over with their values.
-/

namespace SlotVerify.JsonText

/-! ## Strings -/

/-- The UTF-8 bytes of a code point. -/
def utf8 (n : Nat) : List UInt8 := (String.utf8EncodeChar (Char.ofNat n))

/-- Whether a unit is the first half of a pair. -/
def isHighHalf (u : Nat) : Bool := 0xd800 ≤ u && u < 0xdc00

/-- Whether a unit is the second half of a pair. -/
def isLowHalf (u : Nat) : Bool := 0xdc00 ≤ u && u < 0xe000

/-- The bytes of a string's pieces; halves of a pair have to follow each other. -/
def pieceBytes (problem : Option Problem) : List Piece → Except Problem (List UInt8)
  | [] =>
    match problem with
    | some p => .error p
    | none => .ok []
  | .byte b :: rest => (pieceBytes problem rest).map (b :: ·)
  | [.unit u] =>
    if isHighHalf u then .error (problem.getD .malformed)
    else if isLowHalf u then .error .malformed
    else (pieceBytes problem []).map (utf8 u ++ ·)
  | .unit u :: .byte b :: rest =>
    if isHighHalf u || isLowHalf u then .error .malformed
    else (pieceBytes problem rest).map fun bytes => utf8 u ++ b :: bytes
  | .unit u :: .unit v :: rest =>
    if isLowHalf u then .error .malformed
    else if isHighHalf u then
      if isLowHalf v then
        let n := 0x10000 + (u - 0xd800) * 0x400 + (v - 0xdc00)
        (pieceBytes problem rest).map (utf8 n ++ ·)
      else .error .malformed
    else (pieceBytes problem (.unit v :: rest)).map (utf8 u ++ ·)

/-- The text of a string. -/
def RawString.text (s : RawString) : Except Problem String :=
  match pieceBytes s.problem s.pieces with
  | .error p => .error p
  | .ok bytes =>
    match String.fromUTF8? bytes.toByteArray with
    | some text => .ok text
    | none => .error .malformed

/-! ## Numbers -/

/-- The number that digits write down. -/
def ofDigits (digits : List UInt8) : Nat :=
  digits.foldl (fun n d => n * 10 + (d.toNat - 0x30)) 0

/-- A number rounded to 53 significant bits, ties to even. -/
def toDouble (n : Nat) : Nat :=
  let shift := n.log2 - 52
  let unit := 1 <<< shift
  let q := n / unit
  let r := n % unit
  if unit < 2 * r ∨ (unit = 2 * r ∧ q % 2 = 1) then (q + 1) * unit else q * unit

/-- From here on a number rounds to no double. -/
def doubleLimit : Nat := 1 <<< 1024 - 1 <<< 970

/-- The digits that a 64-bit significand takes, and how many digits are left over. -/
def significand : (digits : List UInt8) → (n : Nat) → Nat × Nat
  | [], n => (n, 0)
  | d :: rest, n =>
    let next := n * 10 + (d.toNat - 0x30)
    if next < 1 <<< 64 then significand rest next else (n, (d :: rest).length)

namespace RawNumber

/-- Whether the number is written with neither a fraction nor an exponent. -/
def isWhole (n : RawNumber) : Bool := n.fraction.isNone && n.exponent.isNone

/-- The significand and the decimal exponent. -/
def scaled (n : RawNumber) : Nat × Int :=
  let (s, dropped) := significand n.whole 0
  let (s, e) : Nat × Int :=
    match n.fraction with
    | none => (s, dropped)
    | some digits =>
      let (s, unused) := significand digits s
      (s, (dropped : Int) - ((digits.length - unused : Nat) : Int))
  match n.exponent with
  | none => (s, e)
  | some (true, digits) => (s, e - ofDigits digits)
  | some (false, digits) => (s, e + ofDigits digits)

/-- Whether the number is too large for a double. -/
def overflows (n : RawNumber) : Bool :=
  let (s, e) := n.scaled
  if e < 0 then false
  else if 308 < e then s != 0
  else doubleLimit ≤ toDouble s * toDouble (Nat.pow 10 e.toNat)

/-- The natural number written, if it is one. -/
def nat? (n : RawNumber) : Option Nat :=
  if n.isWhole && !n.negative then some (ofDigits n.whole) else none

/-- The problem of a number where something else is wanted. -/
def problem (n : RawNumber) : Problem :=
  if n.overflows then .malformed else .mismatch

end RawNumber

/-! ## Values -/

/-- The problem of a value where something else is wanted. -/
def Value.unwanted : Value → Problem
  | .null | .bool _ | .array .. | .object .. => .mismatch
  | .number n => n.problem
  | .cutNumber => .truncated
  | .string s =>
    match s.text with
    | .ok _ => .mismatch
    | .error p => p
  | .broken p => p

/-- A natural number below `limit`. -/
def Value.natBelow (limit : Nat) : Value → Except Problem Nat
  | .number n =>
    match n.nat? with
    | some k => if k < limit then .ok k else .error n.problem
    | none => .error n.problem
  | v => .error v.unwanted

/-- A 32-bit number. -/
def Value.word32 (v : Value) : Except Problem UInt32 := (v.natBelow (1 <<< 32)).map UInt32.ofNat

/-- A 64-bit number. -/
def Value.word64 (v : Value) : Except Problem UInt64 := (v.natBelow (1 <<< 64)).map UInt64.ofNat

/-- A truth value. -/
def Value.truth : Value → Except Problem Bool
  | .bool b => .ok b
  | v => .error v.unwanted

/-- A text. -/
def Value.text : Value → Except Problem String
  | .string s => s.text
  | v => .error v.unwanted

/-- What a list's items give, or the problem behind them. -/
def collect {α : Type} (item : Value → Except Problem α) (problem : Option Problem) :
    List Value → Except Problem (List α)
  | [] =>
    match problem with
    | some p => .error p
    | none => .ok []
  | v :: rest => do
    let a ← item v
    let more ← collect item problem rest
    return a :: more

/-- A list. -/
def Value.list {α : Type} (item : Value → Except Problem α) : Value → Except Problem (List α)
  | .array items problem => collect item problem items
  | v => .error v.unwanted

/-! ## Records -/

/-- A field of a record: its name, and how its value enters the record. -/
structure Field (ρ : Type) where
  name : String
  enter : Value → ρ → Except Problem ρ

/-- A field from what its value has to be and where it goes. -/
def Field.of {ρ α : Type} (name : String) (get : Value → Except Problem α) (set : ρ → α → ρ) :
    Field ρ :=
  ⟨name, fun v r => (get v).map (set r)⟩

/-- Enters an object's members in their order. -/
def enterMembers {ρ : Type} (fields : List (Field ρ)) (problem : Option Problem) :
    (seen : List String) → List (RawString × Value) → ρ → Except Problem ρ
  | _, [], r =>
    match problem with
    | some p => .error p
    | none => .ok r
  | seen, (name, v) :: rest, r => do
    let name ← name.text
    match fields.find? (·.name == name) with
    | some f =>
      if seen.contains name then .error .mismatch
      else
        let r ← f.enter v r
        enterMembers fields problem (name :: seen) rest r
    | none =>
      match v.skip with
      | some p => .error p
      | none => enterMembers fields problem seen rest r

/-- Enters an array's items as fields in their order. -/
def enterItems {ρ : Type} (problem : Option Problem) :
    List (Field ρ) → List Value → ρ → Except Problem ρ
  | _, [], r =>
    match problem with
    | some p => .error p
    | none => .ok r
  | [], _ :: _, _ => .error .malformed
  | f :: fields, v :: rest, r => do
    let r ← f.enter v r
    enterItems problem fields rest r

/-- A record; fields that are not given keep the values of `default`. -/
def Value.record {ρ : Type} (fields : List (Field ρ)) (default : ρ) : Value → Except Problem ρ
  | .object members problem => enterMembers fields problem [] members default
  | .array items problem => enterItems problem fields items default
  | v => .error v.unwanted

end SlotVerify.JsonText
