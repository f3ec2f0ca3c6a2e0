import SlotVerify.Digest.Iterated
/-
  SHA-1.

  Blocks of 64 bytes, a chaining value of five 32-bit words, 80 rounds in four groups of twenty.
  Each group has its own mixing function and constant.
-/

namespace SlotVerify.Digest.Sha1

/-- The chaining value. -/
structure Chain where
  a : UInt32
  b : UInt32
  c : UInt32
  d : UInt32
  e : UInt32
deriving DecidableEq

def initial : Chain := ⟨0x67452301, 0xefcdab89, 0x98badcfe, 0x10325476, 0xc3d2e1f0⟩

/-- Rotation to the left, by more than zero and fewer than 32 places. -/
@[inline] def rotate (x n : UInt32) : UInt32 := (x <<< n) ||| (x >>> (32 - n))

/-- Extends the schedule by `n` words. -/
def extend : (n : Nat) → Array UInt32 → Array UInt32
  | 0, w => w
  | n + 1, w =>
    let t := w.size
    extend n (w.push (rotate (w[t - 3]! ^^^ w[t - 8]! ^^^ w[t - 14]! ^^^ w[t - 16]!) 1))

/-- The words of the block at `offset`, extended to one a round. -/
def schedule (data : ByteArray) (offset : Nat) : Array UInt32 :=
  extend 64 ((Array.range 16).map fun i => Bytes.word32 data (offset + 4 * i))

/-- The mixing function of round `t` with its constant added. -/
def mix (t : Nat) (b c d : UInt32) : UInt32 :=
  if t < 20 then ((b &&& c) ||| (~~~b &&& d)) + 0x5a827999
  else if t < 40 then (b ^^^ c ^^^ d) + 0x6ed9eba1
  else if t < 60 then ((b &&& c) ||| (b &&& d) ||| (c &&& d)) + 0x8f1bbcdc
  else (b ^^^ c ^^^ d) + 0xca62c1d6

/-- The last `n` rounds. -/
def rounds (w : Array UInt32) : (n : Nat) → (a b c d e : UInt32) → Chain
  | 0, a, b, c, d, e => ⟨a, b, c, d, e⟩
  | n + 1, a, b, c, d, e =>
    let t := 79 - n
    rounds w n (rotate a 5 + mix t b c d + e + w[t]!) a (rotate b 30) c d

/-- Absorbs the block of `data` at `offset`. -/
def compress (s : Chain) (data : ByteArray) (offset : Nat) : Chain :=
  let r := rounds (schedule data offset) 80 s.a s.b s.c s.d s.e
  ⟨s.a + r.a, s.b + r.b, s.c + r.c, s.d + r.d, s.e + r.e⟩

/-- The chaining value's words, big-endian. -/
def output (s : Chain) : List UInt8 :=
  [s.a, s.b, s.c, s.d, s.e].flatMap fun x => Bytes.bigEndian 4 x.toNat

/-- SHA-1. -/
def construction : Construction Chain :=
  ⟨64, 8, initial, compress, output⟩

end SlotVerify.Digest.Sha1
