/-
  Numbers with a fixed count of decimal places.

  A finite double that is not negative is a fraction of two natural numbers.  It is scaled by a
  power of ten and rounded to the nearest integer, a half to the even one; this integer's digits are
  written with the point in its place.
-/

namespace SlotVerify.Text.FixedPoint

/-- A quotient rounded to the nearest integer: one half and more goes up, except that an even number
    and a half goes down. -/
def roundQuotient (num den : Nat) : Nat :=
  let quotient := num / den
  if den < 2 * (num % den) + quotient % 2 then quotient + 1 else quotient

/-- The numerator and the denominator of a finite double that is not negative. -/
def fraction (x : Float) : Nat × Nat :=
  let bits := x.toBits.toNat
  let exponent := bits >>> 52 % 1 <<< 11
  let mantissa := bits % 1 <<< 52
  if exponent = 0 then (mantissa, 1 <<< 1074)
  else ((mantissa + 1 <<< 52) <<< (exponent - 1075), 1 <<< (1075 - exponent))

/-- The digits of a number, more than `places` of them, with a point in front of the last `places`
    ones. -/
def pointed (places n : Nat) : List Char :=
  let digits := (Nat.toDigits 10 n).leftpad (places + 1) '0'
  let cut := digits.length - places
  digits.take cut ++ '.' :: digits.drop cut

/-- The text of a number with some decimal places, at least `width` characters long. -/
def write (places width : Nat) (x : Float) : String :=
  let (num, den) := fraction x
  String.ofList ((pointed places (roundQuotient (num * Nat.pow 10 places) den)).leftpad width ' ')

example : pointed 1 5 = ['0', '.', '5'] := by decide
example : pointed 1 333 = ['3', '3', '.', '3'] := by decide
example : roundQuotient 25 10 = 2 ∧ roundQuotient 35 10 = 4 ∧ roundQuotient 26 10 = 3 := by decide

end SlotVerify.Text.FixedPoint
