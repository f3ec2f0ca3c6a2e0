/-
  Writing JSON texts.

  The texts are compact: no white space, members in the order in which they are given.  In strings,
  only the double quote, the backslash and control characters are escaped, the latter by a letter
  where there is one.
-/

namespace SlotVerify.JsonText

/-- A lower case hexadecimal digit. -/
def hexDigit (n : Nat) : Char :=
  if n < 10 then Char.ofNat (48 + n) else Char.ofNat (87 + n)

/-- How a character is written inside a string. -/
def writeChar (c : Char) : String :=
  if c = '"' then "\\\""
  else if c = '\\' then "\\\\"
  else if c = '\x08' then "\\b"
  else if c = '\x0c' then "\\f"
  else if c = '\n' then "\\n"
  else if c = '\r' then "\\r"
  else if c = '\t' then "\\t"
  else if c.toNat < 0x20 then
    "\\u00" ++ ((hexDigit (c.toNat / 16)).toString ++ (hexDigit (c.toNat % 16)).toString)
  else c.toString

/-- A string. -/
def writeText (s : String) : String :=
  s.toList.foldl (fun acc c => acc ++ writeChar c) "\"" ++ "\""

/-- A natural number. -/
def writeNat (n : Nat) : String := toString n

/-- A truth value. -/
def writeBool (b : Bool) : String := if b then "true" else "false"

/-- Parts with commas in between. -/
def commaSeparated (parts : List String) : String := String.intercalate "," parts

/-- An array of values already written. -/
def writeArray (items : List String) : String := "[" ++ commaSeparated items ++ "]"

/-- An object of values already written. -/
def writeObject (members : List (String × String)) : String :=
  "\x7b" ++ commaSeparated (members.map fun m => writeText m.1 ++ ":" ++ m.2) ++ "\x7d"

end SlotVerify.JsonText
