import SlotVerify.Text.Invisible
/-
  Quoted text.

  A text is shown between double quotes, with a backslash before a double quote and before a
  backslash, the usual letters for a tab, a line feed, a carriage return and a null, and the code
  point in hexadecimal for every other character that has no look of its own.
-/

namespace SlotVerify.Text.Quoted

/-- A number in lower case hexadecimal digits. -/
def hexNumber (n : Nat) : String := String.ofList (Nat.toDigits 16 n)

/-- How a character is written between quotes. -/
def escape (c : Char) : String :=
  if c = '"' then "\\\""
  else if c = '\\' then "\\\\"
  else if c = '\n' then "\\n"
  else if c = '\r' then "\\r"
  else if c = '\t' then "\\t"
  else if c = '\x00' then "\\0"
  else if isInvisible c then "\\u\x7b" ++ hexNumber c.toNat ++ "\x7d"
  else c.toString

/-- The quoted form of a text. -/
def encode (s : String) : String :=
  s.toList.foldl (fun acc c => acc ++ escape c) "\"" ++ "\""

end SlotVerify.Text.Quoted
