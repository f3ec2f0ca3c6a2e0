import SlotVerify.JsonText.Value
/-
  Reading JSON texts.

  The grammar is the standard's: four kinds of white space, no leading zeros, no comma before a
  closing bracket, no control characters inside strings.  Every function gives what it has read and
  the bytes behind it; after a problem there are none.

  Values nest to any depth.  The functions that call each other count down from twice the length of
  the text: on the way down, no two calls in a row leave the text as long as it was.
-/

namespace SlotVerify.JsonText

/-- Bytes of a text. -/
abbrev Text := List UInt8

/-- The bytes of a word that needs no quoting. -/
def ascii (s : String) : Text := s.toList.map fun c => UInt8.ofNat c.toNat

/-- Space, newline, tab and carriage return. -/
def isSpace (b : UInt8) : Bool := b == 0x20 || b == 0x0a || b == 0x09 || b == 0x0d

/-- The decimal digits. -/
def isDigit (b : UInt8) : Bool := 0x30 ≤ b && b ≤ 0x39

/-- A text without the white space at its beginning. -/
def skipSpace (s : Text) : Text := s.dropWhile isSpace

/-- The value of a hexadecimal digit of either case. -/
def hexValue? (b : UInt8) : Option Nat :=
  if isDigit b then some (b.toNat - 0x30)
  else if 0x61 ≤ b && b ≤ 0x66 then some (b.toNat - 0x57)
  else if 0x41 ≤ b && b ≤ 0x46 then some (b.toNat - 0x37)
  else none

/-- The value of four hexadecimal digits. -/
def hexUnit? (a b c d : UInt8) : Option Nat := do
  let a ← hexValue? a
  let b ← hexValue? b
  let c ← hexValue? c
  let d ← hexValue? d
  return ((a * 16 + b) * 16 + c) * 16 + d

/-- The byte that a letter behind a backslash stands for. -/
def escaped? (b : UInt8) : Option UInt8 :=
  if b == 0x22 || b == 0x5c || b == 0x2f then some b
  else if b == 0x62 then some 0x08
  else if b == 0x66 then some 0x0c
  else if b == 0x6e then some 0x0a
  else if b == 0x72 then some 0x0d
  else if b == 0x74 then some 0x09
  else none

/-! ## Strings -/

/-- A string with one more piece in front. -/
def withPiece (p : Piece) (r : RawString × Text) : RawString × Text :=
  ({ r.1 with pieces := p :: r.1.pieces }, r.2)

/-- A string that ends here with a problem. -/
def endString (p : Problem) : RawString × Text := (⟨[], some p⟩, [])

/-- Reads a string from behind its opening quote. -/
def readString : Text → RawString × Text
  | [] => endString .truncated
  | 0x22 :: rest => (⟨[], none⟩, rest)
  | [0x5c] => endString .truncated
  | 0x5c :: 0x75 :: a :: b :: c :: d :: rest =>
    match hexUnit? a b c d with
    | some u => withPiece (.unit u) (readString rest)
    | none => endString .malformed
  | 0x5c :: e :: rest =>
    if e == 0x75 then endString .truncated
    else
      match escaped? e with
      | some b => withPiece (.byte b) (readString rest)
      | none => endString .malformed
  | b :: rest =>
    if b < 0x20 then endString .malformed else withPiece (.byte b) (readString rest)

/-! ## Numbers and words -/

/-- What a number that breaks off before `s` is. -/
def endNumber (s : Text) : Value × Text :=
  if s.isEmpty then (.cutNumber, []) else (.broken .malformed, [])

/-- Reads an exponent, if there is one, and closes the number. -/
def readExponent (n : RawNumber) : Text → Value × Text
  | [] => (.number n, [])
  | e :: rest =>
    if e == 0x65 || e == 0x45 then
      let negative := rest.head? == some 0x2d
      let rest := if negative || rest.head? == some 0x2b then rest.tail else rest
      let digits := rest.takeWhile isDigit
      if digits.isEmpty then endNumber rest
      else (.number { n with exponent := some (negative, digits) }, rest.dropWhile isDigit)
    else (.number n, e :: rest)

/-- Reads a fraction, if there is one, and what follows it. -/
def readFraction (n : RawNumber) : Text → Value × Text
  | [] => (.number n, [])
  | p :: rest =>
    if p == 0x2e then
      let digits := rest.takeWhile isDigit
      if digits.isEmpty then endNumber rest
      else readExponent { n with fraction := some digits } (rest.dropWhile isDigit)
    else readExponent n (p :: rest)

/-- Reads a number from behind its sign. -/
def readNumber (negative : Bool) (s : Text) : Value × Text :=
  match s.takeWhile isDigit with
  | [] => endNumber s
  | d :: digits =>
    if d == 0x30 && !digits.isEmpty then (.broken .malformed, [])
    else readFraction { negative, whole := d :: digits } (s.dropWhile isDigit)

/-- Reads the rest of a word. -/
def readWord (v : Value) : (word : Text) → Text → Value × Text
  | [], s => (v, s)
  | _ :: _, [] => (.broken .truncated, [])
  | w :: word, b :: s => if w == b then readWord v word s else (.broken .malformed, [])

/-! ## Values -/

mutual

/-- Reads a value. -/
def readValue (fuel : Nat) (s : Text) : Value × Text :=
  match fuel with
  | 0 => (.broken .truncated, [])
  | fuel + 1 =>
    match skipSpace s with
    | [] => (.broken .truncated, [])
    | b :: rest =>
      if b == 0x22 then
        let (text, rest) := readString rest
        (.string text, rest)
      else if b == 0x5b then
        let (items, problem, rest) := readItems fuel true rest
        (.array items problem, rest)
      else if b == 0x7b then
        let (members, problem, rest) := readMembers fuel true rest
        (.object members problem, rest)
      else if b == 0x2d then readNumber true rest
      else if isDigit b then readNumber false (b :: rest)
      else if b == 0x6e then readWord .null (ascii "ull") rest
      else if b == 0x74 then readWord (.bool true) (ascii "rue") rest
      else if b == 0x66 then readWord (.bool false) (ascii "alse") rest
      else (.broken .malformed, [])

/-- Reads an array's items, from behind the opening bracket or an item. -/
def readItems (fuel : Nat) (first : Bool) (s : Text) : List Value × Option Problem × Text :=
  match fuel with
  | 0 => ([], some .truncated, [])
  | fuel + 1 =>
    match skipSpace s with
    | [] => ([], some .truncated, [])
    | b :: rest =>
      if b == 0x5d then ([], none, rest)
      else if first || b == 0x2c then
        let here := if first then b :: rest else rest
        if !first && (skipSpace here).head? == some 0x5d then ([.broken .malformed], none, [])
        else
          let (v, rest) := readValue fuel here
          let (items, problem, rest) := readItems fuel false rest
          (v :: items, problem, rest)
      else ([], some .malformed, [])

/-- Reads an object's members, from behind the opening brace or a member. -/
def readMembers (fuel : Nat) (first : Bool) (s : Text) :
    List (RawString × Value) × Option Problem × Text :=
  match fuel with
  | 0 => ([], some .truncated, [])
  | fuel + 1 =>
    match skipSpace s with
    | [] => ([], some .truncated, [])
    | b :: rest =>
      if b == 0x7d then ([], none, rest)
      else if first || b == 0x2c then
        match skipSpace (if first then b :: rest else rest) with
        | [] => ([], some .truncated, [])
        | q :: rest =>
          if q == 0x22 then
            let (name, rest) := readString rest
            match skipSpace rest with
            | [] => ([(name, .broken .truncated)], none, [])
            | c :: rest =>
              if c == 0x3a then
                let (v, rest) := readValue fuel rest
                let (members, problem, rest) := readMembers fuel false rest
                ((name, v) :: members, problem, rest)
              else ([(name, .broken .malformed)], none, [])
          else ([], some .malformed, [])
      else ([], some .malformed, [])

end

/-- A whole text: its value, and the problem behind it. -/
structure Document where
  value : Value
  problem : Option Problem

/-- Reads a whole text. -/
def read (s : Text) : Document :=
  let (value, rest) := readValue (2 * s.length + 1) s
  { value, problem := if (skipSpace rest).isEmpty then none else some .malformed }

end SlotVerify.JsonText
