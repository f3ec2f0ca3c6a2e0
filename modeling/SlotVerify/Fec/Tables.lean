import SlotVerify.Fec.Code
/-
  The code by logarithms.

  Every byte but zero is a power of `x`, so a product of two is the power that has the sum of their
  logarithms for an exponent.  Two tables hold the powers and the logarithms.  Zero has none: what
  stands for its logarithm is out of the range of exponents, and whoever multiplies looks out for
  it.

  The generator polynomial is multiplied out in place, lowest coefficient first, one factor after
  the other, and kept as the logarithms of its coefficients.  The parity bytes are computed where
  they belong: with each message byte a multiple of the generator is added to them, and all of them
  move one place to the front.

  Every index is in its table by its type.
-/

namespace SlotVerify.Fec

/-- What stands for the logarithm of zero. -/
def logZero : Nat := codeWordLength

/-- The powers of `x`, and the logarithms to the base `x`. -/
structure Tables where
  powers : Vector UInt8 256
  logs : Vector Nat 256

namespace Tables

/-- The power after this one, which is a byte in a wider register. -/
def next (sr : Nat) : Nat :=
  let up := sr <<< 1
  (if up &&& 0x100 ≠ 0 then up ^^^ 0x11d else up) &&& 0xff

theorem next_lt (sr : Nat) : next sr < 256 := Nat.lt_succ_of_le Nat.and_le_right

/-- The tables with the `n`th power in them. -/
def put (t : Tables) (n : Nat) (h : n < 256) (sr : Fin 256) : Tables :=
  { powers := t.powers.set n (UInt8.ofNat sr)
    logs := t.logs.set sr n }

/-- The tables with the first `n` powers in them, and the power that comes next. -/
def upTo : (n : Nat) → (h : n ≤ codeWordLength) → Tables × Fin 256
  | 0, _ =>
    ({ powers := (Vector.replicate 256 0).set 255 0
       logs := (Vector.replicate 256 0).set 0 logZero },
      1)
  | n + 1, h =>
    let (t, sr) := upTo n (Nat.le_of_succ_le h)
    (t.put n (Nat.lt_succ_of_lt h) sr, ⟨next sr, next_lt sr⟩)

/-- The tables with all powers in them. -/
def full : Tables := (upTo codeWordLength (Nat.le_refl _)).1

/-- The logarithm of a byte, as the table has it. -/
def log (t : Tables) (a : UInt8) : Nat :=
  have := a.toNat_lt
  t.logs[a.toNat]

/-- The power with this exponent, as the table has it. -/
def exp (t : Tables) (exponent : Nat) : UInt8 :=
  have : exponent % codeWordLength < 256 :=
    Nat.lt_trans (Nat.mod_lt exponent (by decide)) (by decide)
  t.powers[exponent % codeWordLength]

/-- The product by logarithms. -/
def times (t : Tables) (a b : UInt8) : UInt8 :=
  if a = 0 ∨ b = 0 then 0 else t.exp (t.log a + t.log b)

/-! ## The generator polynomial -/

variable {roots : Nat}

/-- The coefficients from the `j`th down to the first, times `x - α^root`; what is behind them has
    its final value already. -/
def timesFactor (t : Tables) (root : Nat) : (j : Nat) → (h : j ≤ roots) →
    Vector UInt8 (roots + 1) → Vector UInt8 (roots + 1)
  | 0, _, p => p
  | j + 1, h, p =>
    have hj : j < roots := h
    let coefficient :=
      if p[j + 1] ≠ 0 then p[j] ^^^ t.exp (t.log p[j + 1] + root) else p[j]
    timesFactor t root j (Nat.le_of_succ_le h) (p.set (j + 1) coefficient)

/-- The product of the first `n` factors. -/
def generator (t : Tables) : (n : Nat) → (h : n ≤ roots) → Vector UInt8 (roots + 1)
  | 0, _ => (Vector.replicate (roots + 1) 0).set 0 1
  | n + 1, h =>
    have hn : n < roots := h
    let p := (generator t n (Nat.le_of_succ_le h)).set (n + 1) 1
    let p := t.timesFactor n n (Nat.le_of_succ_le h) p
    -- the lowest coefficient is never zero
    p.set 0 (t.exp (t.log p[0] + n))

end Tables

/-- An encoder by logarithms. -/
structure ReedSolomon where
  roots : Nat
  accepted : minRoots ≤ roots ∧ roots ≤ maxRoots
  tables : Tables
  /-- The logarithms of the generator's coefficients, the lowest first. -/
  generator : Vector Nat (roots + 1)

namespace ReedSolomon

/-- The encoder with the given number of parity bytes, if it is an accepted one. -/
def ofRoots? (roots : Nat) : Option ReedSolomon :=
  if accepted : minRoots ≤ roots ∧ roots ≤ maxRoots then
    let tables := Tables.full
    some
      { roots
        accepted
        tables
        generator := (tables.generator roots (Nat.le_refl roots)).map tables.log }
  else none

variable (rs : ReedSolomon)

theorem roots_pos : 0 < rs.roots := Nat.lt_of_lt_of_le (by decide) rs.accepted.1

/-- The parity bytes from the second to the `n`th after it, with a multiple of the generator added
    to them: its logarithm is that of the feedback byte. -/
def addMultiple (feedback : Nat) (parity : Vector UInt8 rs.roots) :
    (n : Nat) → (h : n < rs.roots) → Vector UInt8 rs.roots
  | 0, _ => parity
  | n + 1, h =>
    have hplace : rs.roots - (n + 1) < rs.roots + 1 := Nat.lt_succ_of_le (Nat.sub_le _ _)
    let added := addMultiple feedback parity n (Nat.lt_of_succ_lt h)
    let multiple := rs.tables.exp (feedback + rs.generator[rs.roots - (n + 1)])
    added.set (n + 1) (added[n + 1] ^^^ multiple)

/-- All parity bytes but the first, one place to the front; the last one stays as well. -/
def moveUp (parity : Vector UInt8 rs.roots) : Vector UInt8 rs.roots :=
  .ofFn fun k => if h : k + 1 < rs.roots then parity[k.val + 1] else parity[k.val]

/-- One step of the division: the next message byte enters. -/
def step (parity : Vector UInt8 rs.roots) (m : UInt8) : Vector UInt8 rs.roots :=
  have hpos := rs.roots_pos
  have hlast : rs.roots - 1 < rs.roots := Nat.sub_one_lt_of_lt hpos
  let feedback := rs.tables.log (m ^^^ parity[0])
  let added :=
    if feedback ≠ logZero then rs.addMultiple feedback parity (rs.roots - 1) hlast else parity
  let last := if feedback ≠ logZero then rs.tables.exp (feedback + rs.generator[0]) else 0
  (rs.moveUp added).set (rs.roots - 1) last

/-- The parity bytes of a message, in the place of what is there. -/
def encode (message : List UInt8) (parity : Vector UInt8 rs.roots) : Vector UInt8 rs.roots :=
  message.foldl rs.step (parity.map fun _ => 0)

/-- The values of a word, as a polynomial, at the roots of the generator. -/
def syndromes (word : List UInt8) : List UInt8 :=
  (List.range rs.roots).map fun i =>
    let x := rs.tables.exp i
    word.foldl (fun s b => rs.tables.times s x ^^^ b) 0

end ReedSolomon

end SlotVerify.Fec
