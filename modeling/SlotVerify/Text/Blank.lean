/-
  White space around an argument.

  Blanks are the characters with the Unicode property White_Space.  `trim` takes them off both ends
  of a text and leaves those inside alone.
-/

namespace SlotVerify.Text

/-- Whether a character is white space. -/
def isBlank (c : Char) : Bool :=
  let n := c.toNat
  (9 ≤ n && n ≤ 13) || n == 0x20 || n == 0x85 || n == 0xa0 || n == 0x1680 ||
    (0x2000 ≤ n && n ≤ 0x200a) || n == 0x2028 || n == 0x2029 || n == 0x202f ||
    n == 0x205f || n == 0x3000

/-- A text without the blanks at its beginning. -/
def trimStart (s : List Char) : List Char := s.dropWhile isBlank

/-- A text without the blanks at its end. -/
def trimEnd (s : List Char) : List Char := (s.reverse.dropWhile isBlank).reverse

/-- A text without the blanks at its ends. -/
def trim (s : List Char) : List Char := trimEnd (trimStart s)

example : trim [' ', 'a', ' ', 'b', '\t'] = ['a', ' ', 'b'] := by decide

end SlotVerify.Text
