import SlotVerify.Fec.Field
/-
  The systematic Reed-Solomon code behind forward error correction.

  A code word has 255 bytes: a message of `255 - roots` bytes and `roots` parity bytes.  Read as a
  polynomial, first byte highest degree, it is a multiple of the generator polynomial
  `(x - 1)(x - α)(x - α^2)…` with one factor a root.

  Encoding divides the message, moved up by `roots` places, by the generator and keeps the
  remainder: one step of the division a message byte, with the remainder so far in a register of
  `roots` bytes.  Since a step needs the generator times one byte, the 256 multiples are tabled.
-/

namespace SlotVerify.Fec

/-- Bytes of a code word. -/
def codeWordLength : Nat := 255

/-- Fewest parity bytes a code word may have. -/
def minRoots : Nat := 2

/-- Most parity bytes a code word may have. -/
def maxRoots : Nat := 24

/-- The product of a polynomial, highest degree first, and `x - r`. -/
def timesLinear (p : List UInt8) (r : UInt8) : List UInt8 :=
  List.zipWith (· ^^^ ·) (p ++ [0]) (0 :: p.map (Field.mul r))

/-- The generator polynomial for `n` roots, highest degree first. -/
def generator : (n : Nat) → List UInt8
  | 0 => [1]
  | n + 1 => timesLinear (generator n) (Field.power n)

/-- The generator's coefficients below the leading one, times a byte. -/
def generatorMultiple (roots : Nat) (b : UInt8) : List UInt8 :=
  (generator roots).tail.map (Field.mul b)

/-- The value of a word, as a polynomial, at a point. -/
def evaluate (word : List UInt8) (x : UInt8) : UInt8 :=
  word.foldl (fun s b => Field.mul s x ^^^ b) 0

/-- A code with its table of multiples of the generator. -/
structure Code where
  roots : Nat
  multiples : Array (List UInt8)
  multiples_eq : multiples = Array.ofFn fun b : Fin 256 =>
    generatorMultiple roots (UInt8.ofNat b) := by rfl

namespace Code

/-- The code with the given number of parity bytes, if it is an accepted one. -/
def ofRoots? (roots : Nat) : Option Code :=
  if minRoots ≤ roots ∧ roots ≤ maxRoots then
    some
      { roots
        multiples :=
          let tail := (generator roots).tail
          Array.ofFn fun b : Fin 256 => tail.map (Field.mul (UInt8.ofNat b)) }
  else none

/-- Message bytes of a code word. -/
def messageLength (c : Code) : Nat := codeWordLength - c.roots

/-- One step of the division: the next message byte enters the register. -/
def step (c : Code) (register : List UInt8) (m : UInt8) : List UInt8 :=
  let feedback := m ^^^ register.headD 0
  List.zipWith (· ^^^ ·) (register.tail ++ [0]) (c.multiples.getD feedback.toNat [])

/-- The parity bytes of a message. -/
def parity (c : Code) (message : List UInt8) : List UInt8 :=
  message.foldl c.step (List.replicate c.roots 0)

/-- The parity bytes of a message in the place of a buffer, which is cleared and then serves as the
    register. -/
def parityOver (c : Code) (message buffer : List UInt8) : List UInt8 :=
  message.foldl c.step (buffer.map fun _ => 0)

/-- The values of a word, as a polynomial, at the roots of the generator. -/
def syndromes (c : Code) (word : List UInt8) : List UInt8 :=
  (List.range c.roots).map fun i => evaluate word (Field.power i)

end Code

end SlotVerify.Fec
