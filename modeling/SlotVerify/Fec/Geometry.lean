import SlotVerify.Fec.Code
import SlotVerify.Verity.Layout
/-
  Which bytes make up a code word of the error correction.

  The covered region is cut into blocks.  With `rounds` rounds, block `i + j * rounds` is the `j`th
  block of round `i`: neighbouring blocks belong to different rounds, so that a damaged stretch
  hits each code word in few places.  Code word `k` of a round takes the `k`th byte of each of its
  blocks, with zeros past the region's end.  The rounds' parity bytes follow one another.
-/

namespace SlotVerify.Fec

/-- Rounds up a quotient; zero for a zero divisor. -/
def ceilDiv (a b : Nat) : Nat := (a + b - 1) / b

/-- The error correction of one partition. -/
structure Geometry where
  blockSize : Nat
  roots : Nat
  rounds : Nat
  dataOffset : Nat
  dataSize : Nat
  fecOffset : Nat

namespace Geometry

/-- Message bytes of a code word: the blocks of a round. -/
def messageLength (g : Geometry) : Nat := codeWordLength - g.roots

/-- The rounds that a region needs, from its whole blocks. -/
def roundsFor (blockSize roots dataSize : Nat) : Nat :=
  ceilDiv (dataSize / blockSize) (codeWordLength - roots)

/-- The geometry of a layout, whose size for the parity bytes has to fit. -/
def ofLayout (l : Verity.Layout) : Except Verity.Error Geometry :=
  if l.fecRoots < minRoots ∨ maxRoots < l.fecRoots then .error (.invalidFecRoots l.fecRoots)
  else if l.blockSize = 0 then .error (.invalidBlockSize l.blockSize)
  else
    let rounds := roundsFor l.blockSize l.fecRoots l.fecDataSize
    let calculated := rounds * l.fecRoots * l.blockSize
    if calculated ≠ l.fecSize then .error (.fecSizeMismatch l.fecSize calculated)
    else
      .ok
        { blockSize := l.blockSize
          roots := l.fecRoots
          rounds
          dataOffset := l.fecDataOffset
          dataSize := l.fecDataSize
          fecOffset := l.fecOffset }

/-- Where the `j`th block of a round begins, from the beginning of the covered region. -/
def blockOffset (g : Geometry) (round j : Nat) : Nat :=
  round * g.blockSize + j * g.rounds * g.blockSize

/-- Parity bytes of a round. -/
def roundSize (g : Geometry) : Nat := g.roots * g.blockSize

/-- Where the parity bytes of a round go on the device. -/
def roundOffset (g : Geometry) (round : Nat) : Nat := g.fecOffset + round * g.roundSize

end Geometry

end SlotVerify.Fec
