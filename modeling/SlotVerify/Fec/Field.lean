/-
  The field with 256 elements.

  An element is a byte, read as a polynomial over the two-element field with the least significant
  bit as the constant term.  Addition is exclusive or.  Multiplication is polynomial multiplication
  modulo `x^8 + x^4 + x^3 + x^2 + 1`, of which `x` (the byte 2) generates all nonzero elements.

  `mul` is the schoolbook method, one bit of the first factor at a time: it is additive in both
  arguments by construction, so that a law of the product needs checking on powers of `x` only.
-/

namespace SlotVerify.Fec.Field

/-- The low eight coefficients of the field polynomial. -/
def reduction : UInt8 := 0x1d

/-- The product with `x`. -/
@[inline] def timesX (a : UInt8) : UInt8 :=
  if a &&& 0x80 = 0 then a <<< 1 else (a <<< 1) ^^^ reduction

/-- The product of `b` with the polynomial of the low `n` bits of `a`. -/
def mulBits : (n : Nat) → (a b : UInt8) → UInt8
  | 0, _, _ => 0
  | n + 1, a, b =>
    (if a &&& 1 = 0 then 0 else b) ^^^ mulBits n (a >>> 1) (timesX b)

/-- The product. -/
def mul (a b : UInt8) : UInt8 := mulBits 8 a b

/-- The power `x^n`. -/
def power : Nat → UInt8
  | 0 => 1
  | n + 1 => timesX (power n)

example : mul 2 0x80 = reduction := by decide
example : power 255 = 1 := by decide +kernel

end SlotVerify.Fec.Field
