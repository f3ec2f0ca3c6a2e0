/-
  Base64.

  Three bytes become four characters of the standard alphabet.  A rest of one or two bytes is
  closed with `=` signs, and the bits that it leaves unused are zero.  Reading accepts exactly what
  writing produces: every other spelling of the same bytes is refused.
-/

namespace SlotVerify.Text.Base64

/-- The character for a value below 64. -/
def digit (n : Nat) : Char :=
  if n < 26 then Char.ofNat (65 + n)
  else if n < 52 then Char.ofNat (71 + n)
  else if n < 62 then Char.ofNat (n - 4)
  else if n = 62 then '+' else '/'

/-- The value of a character of the alphabet. -/
def value? (c : Char) : Option Nat :=
  if 'A' ≤ c ∧ c ≤ 'Z' then some (c.toNat - 65)
  else if 'a' ≤ c ∧ c ≤ 'z' then some (c.toNat - 71)
  else if '0' ≤ c ∧ c ≤ '9' then some (c.toNat + 4)
  else if c = '+' then some 62
  else if c = '/' then some 63
  else none

/-- The text that writes bytes down. -/
def encode : List UInt8 → List Char
  | [] => []
  | [a] =>
    let n := a.toNat * 16
    [digit (n / 64), digit (n % 64), '=', '=']
  | [a, b] =>
    let n := (a.toNat * 256 + b.toNat) * 4
    [digit (n / 4096), digit (n / 64 % 64), digit (n % 64), '=']
  | a :: b :: c :: rest =>
    let n := (a.toNat * 256 + b.toNat) * 256 + c.toNat
    digit (n / 262144) :: digit (n / 4096 % 64) :: digit (n / 64 % 64) :: digit (n % 64) ::
      encode rest

/-- The bytes that a text writes down. -/
def decode : List Char → Option (List UInt8)
  | [] => some []
  | [p, q, '=', '='] => do
    let n := (← value? p) * 64 + (← value? q)
    if n % 16 = 0 then some [UInt8.ofNat (n / 16)] else none
  | [p, q, r, '='] => do
    let n := ((← value? p) * 64 + (← value? q)) * 64 + (← value? r)
    if n % 4 = 0 then some [UInt8.ofNat (n / 1024), UInt8.ofNat (n / 4)] else none
  | p :: q :: r :: s :: rest => do
    let n := (((← value? p) * 64 + (← value? q)) * 64 + (← value? r)) * 64 + (← value? s)
    let bytes ← decode rest
    return UInt8.ofNat (n / 65536) :: UInt8.ofNat (n / 256) :: UInt8.ofNat n :: bytes
  | _ => none

/-- The text of a byte string. -/
def text (b : ByteArray) : String := String.ofList (encode b.data.toList)

/-- The byte string of a text. -/
def ofText? (s : String) : Option ByteArray := (decode s.toList).map List.toByteArray

example : encode [0xde, 0xad, 0xbe, 0xef] = ['3', 'q', '2', '+', '7', 'w', '=', '='] := by decide
example : decode ['3', 'q', '2', '+', '7', 'w', '=', '='] = some [0xde, 0xad, 0xbe, 0xef] := by
  decide
example : decode ['3', 'q', '2', '+', '7', 'x', '=', '='] = none := by decide

end SlotVerify.Text.Base64
