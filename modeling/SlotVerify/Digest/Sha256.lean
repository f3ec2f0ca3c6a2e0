import SlotVerify.Digest.Iterated
/-
  SHA-256.

  Blocks of 64 bytes, a chaining value of eight 32-bit words, 64 rounds.  The message schedule
  is computed first and then consumed by the rounds, one word and one constant a round.
-/

namespace SlotVerify.Digest.Sha256

/-- The chaining value. -/
structure Chain where
  a : UInt32
  b : UInt32
  c : UInt32
  d : UInt32
  e : UInt32
  f : UInt32
  g : UInt32
  h : UInt32
deriving DecidableEq

/-- The fractional parts of the square roots of the first eight primes. -/
def initial : Chain :=
  ⟨0x6a09e667, 0xbb67ae85, 0x3c6ef372, 0xa54ff53a,
   0x510e527f, 0x9b05688c, 0x1f83d9ab, 0x5be0cd19⟩

/-- The fractional parts of the cube roots of the first 64 primes. -/
def roundConstants : Array UInt32 :=
  #[0x428a2f98, 0x71374491, 0xb5c0fbcf, 0xe9b5dba5,
   0x3956c25b, 0x59f111f1, 0x923f82a4, 0xab1c5ed5,
   0xd807aa98, 0x12835b01, 0x243185be, 0x550c7dc3,
   0x72be5d74, 0x80deb1fe, 0x9bdc06a7, 0xc19bf174,
   0xe49b69c1, 0xefbe4786, 0x0fc19dc6, 0x240ca1cc,
   0x2de92c6f, 0x4a7484aa, 0x5cb0a9dc, 0x76f988da,
   0x983e5152, 0xa831c66d, 0xb00327c8, 0xbf597fc7,
   0xc6e00bf3, 0xd5a79147, 0x06ca6351, 0x14292967,
   0x27b70a85, 0x2e1b2138, 0x4d2c6dfc, 0x53380d13,
   0x650a7354, 0x766a0abb, 0x81c2c92e, 0x92722c85,
   0xa2bfe8a1, 0xa81a664b, 0xc24b8b70, 0xc76c51a3,
   0xd192e819, 0xd6990624, 0xf40e3585, 0x106aa070,
   0x19a4c116, 0x1e376c08, 0x2748774c, 0x34b0bcb5,
   0x391c0cb3, 0x4ed8aa4a, 0x5b9cca4f, 0x682e6ff3,
   0x748f82ee, 0x78a5636f, 0x84c87814, 0x8cc70208,
   0x90befffa, 0xa4506ceb, 0xbef9a3f7, 0xc67178f2]

/-- Rotation to the right, by more than zero and fewer than 32 places. -/
@[inline] def rotate (x n : UInt32) : UInt32 := (x >>> n) ||| (x <<< (32 - n))

/-- Extends the schedule by `n` words. -/
def extend : (n : Nat) → Array UInt32 → Array UInt32
  | 0, w => w
  | n + 1, w =>
    let t := w.size
    let w15 := w[t - 15]!
    let w2 := w[t - 2]!
    let s0 := rotate w15 7 ^^^ rotate w15 18 ^^^ (w15 >>> 3)
    let s1 := rotate w2 17 ^^^ rotate w2 19 ^^^ (w2 >>> 10)
    extend n (w.push (w[t - 16]! + s0 + w[t - 7]! + s1))

/-- The words of the block at `offset`, extended to one a round. -/
def schedule (data : ByteArray) (offset : Nat) : Array UInt32 :=
  extend 48 ((Array.range 16).map fun i => Bytes.word32 data (offset + 4 * i))

/-- The last `n` rounds. -/
def rounds (w : Array UInt32) : (n : Nat) → (a b c d e f g h : UInt32) → Chain
  | 0, a, b, c, d, e, f, g, h => ⟨a, b, c, d, e, f, g, h⟩
  | n + 1, a, b, c, d, e, f, g, h =>
    let t := 63 - n
    let s1 := rotate e 6 ^^^ rotate e 11 ^^^ rotate e 25
    let choice := (e &&& f) ^^^ (~~~e &&& g)
    let t1 := h + s1 + choice + roundConstants[t]! + w[t]!
    let s0 := rotate a 2 ^^^ rotate a 13 ^^^ rotate a 22
    let majority := (a &&& b) ^^^ (a &&& c) ^^^ (b &&& c)
    rounds w n (t1 + (s0 + majority)) a b c (d + t1) e f g

/-- Absorbs the block of `data` at `offset`. -/
def compress (s : Chain) (data : ByteArray) (offset : Nat) : Chain :=
  let r := rounds (schedule data offset) 64 s.a s.b s.c s.d s.e s.f s.g s.h
  ⟨s.a + r.a, s.b + r.b, s.c + r.c, s.d + r.d, s.e + r.e, s.f + r.f, s.g + r.g, s.h + r.h⟩

/-- The chaining value's words, big-endian. -/
def output (s : Chain) : List UInt8 :=
  [s.a, s.b, s.c, s.d, s.e, s.f, s.g, s.h].flatMap fun x => Bytes.bigEndian 4 x.toNat

/-- SHA-256. -/
def construction : Construction Chain :=
  ⟨64, 8, initial, compress, output⟩

end SlotVerify.Digest.Sha256
