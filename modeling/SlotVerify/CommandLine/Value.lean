import SlotVerify.Bytes
import SlotVerify.Text.Blank
import SlotVerify.Verity.Layout
/-
  Values on the command line.

  A size is a decimal number with an optional unit behind it, blanks around both being of no
  account.  A byte string is a hexadecimal number of any length.  A count is a number with an
  optional sign.  A path is any text but the empty one.
-/

namespace SlotVerify.CommandLine

open Verity (wordLimit)

/-- What is wrong with a value. -/
inductive ValueFault where
  | empty
  | unknownUnit
  | invalidNumber
  | numberTooLarge
  | invalidHexDigit
  | invalidCount
deriving DecidableEq, Repr

/-- The text shown for a fault. -/
def ValueFault.message : ValueFault → String
  | .empty => "a value is required"
  | .unknownUnit => "unrecognized unit, possible values: none|B, K, M, G"
  | .invalidNumber => "invalid or too large value"
  | .numberTooLarge => "value too large"
  | .invalidHexDigit => "invalid digit in hexadecimal string"
  | .invalidCount => s!"not a number from 0 to {1 <<< 32 - 1}"

/-- The number that decimal digits denote. -/
def decimal (digits : List Char) : Nat :=
  digits.foldl (fun n c => 10 * n + (c.toNat - '0'.toNat)) 0

/-- The bytes in a unit. -/
def unit? : List Char → Option Nat
  | [] | ['B'] => some 1
  | ['K'] => some (1 <<< 10)
  | ['M'] => some (1 <<< 20)
  | ['G'] => some (1 <<< 30)
  | _ => none

/-- A number of bytes.  The unit is looked at first, then the number, then their product. -/
def sizeOfText (s : String) : Except ValueFault Nat :=
  let word := Text.trim s.toList
  let digits := word.takeWhile Char.isDigit
  match unit? (Text.trim (word.dropWhile Char.isDigit)) with
  | none => .error .unknownUnit
  | some unit =>
    if digits = [] ∨ wordLimit ≤ decimal digits then .error .invalidNumber
    else if wordLimit ≤ decimal digits * unit then .error .numberTooLarge
    else .ok (decimal digits * unit)

/-- A byte string; an odd number of digits is completed by a zero in front. -/
def bytesOfText (s : String) : Except ValueFault ByteArray :=
  let digits := Text.trim s.toList
  let pairs := if digits.length % 2 = 0 then digits else '0' :: digits
  match Bytes.ofHexDigits? pairs with
  | some bytes => .ok bytes.toByteArray
  | none => .error .invalidHexDigit

/-- A number of 32 bits.  A minus sign is allowed in front of zero. -/
def countOfText (s : String) : Except ValueFault Nat :=
  let number (digits : List Char) (limit : Nat) : Except ValueFault Nat :=
    if digits ≠ [] ∧ digits.all Char.isDigit ∧ decimal digits < limit then .ok (decimal digits)
    else .error .invalidCount
  match s.toList with
  | '-' :: digits => number digits 1
  | '+' :: digits => number digits (1 <<< 32)
  | digits => number digits (1 <<< 32)

/-- A path. -/
def pathOfText (s : String) : Except ValueFault String :=
  if s = "" then .error .empty else .ok s

end SlotVerify.CommandLine
