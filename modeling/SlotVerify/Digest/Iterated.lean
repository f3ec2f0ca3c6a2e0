import SlotVerify.Bytes
/-
  Iterated hash functions.

  The secure hash standards share one construction: a chaining value absorbs the message block by
  block through a compression function; the last blocks carry a one bit, zeros and the message's
  length in bits.  `Construction` names the parts in which the standards differ, `Stream` is a
  computation in progress.

  A message may arrive in pieces of any size.  A stream keeps the bytes that do not fill a block
  yet, so that only the concatenation of the pieces matters.
-/

namespace SlotVerify.Digest

/-- The parts of an iterated hash function over chaining values of type `σ`. -/
structure Construction (σ : Type) where
  /-- Bytes absorbed by one compression. -/
  blockSize : Nat
  /-- Bytes of the length field that closes the message. -/
  lengthSize : Nat
  initial : σ
  /-- Absorbs the block of `data` that starts at `offset`. -/
  compress : (chain : σ) → (data : ByteArray) → (offset : Nat) → σ
  /-- The digest of a final chaining value. -/
  output : σ → List UInt8

namespace Construction

variable {σ : Type}

/-- Absorbs `n` consecutive blocks of `data`, the first at `offset`. -/
def absorb (c : Construction σ) (data : ByteArray) : (n offset : Nat) → σ → σ
  | 0, _, chain => chain
  | n + 1, offset, chain => absorb c data n (offset + c.blockSize) (c.compress chain data offset)

/-- What follows a message of `length` bytes: a one bit, zeros up to the length field of the last
    block, and the length in bits. -/
def closing (c : Construction σ) (length : Nat) : ByteArray :=
  let zeroBytes := (2 * c.blockSize - (length + 1 + c.lengthSize) % c.blockSize) % c.blockSize
  (0x80 :: (List.replicate zeroBytes 0 ++ Bytes.bigEndian c.lengthSize (8 * length))).toByteArray

/-- A hash computation in progress. -/
structure Stream (c : Construction σ) where
  chain : σ
  /-- Bytes that do not fill a block yet. -/
  pending : ByteArray
  /-- Number of bytes fed so far. -/
  fed : Nat

/-- The computation before the first byte. -/
def start (c : Construction σ) : c.Stream := ⟨c.initial, ByteArray.empty, 0⟩

/-- Feeds the next bytes of the message. -/
def Stream.update {c : Construction σ} (s : c.Stream) (data : ByteArray) : c.Stream :=
  let waiting := s.pending ++ data
  let blocks := waiting.size / c.blockSize
  { chain := c.absorb waiting blocks 0 s.chain
    pending := waiting.extract (blocks * c.blockSize) waiting.size
    fed := s.fed + data.size }

/-- The digest of all bytes fed. -/
def Stream.finish {c : Construction σ} (s : c.Stream) : ByteArray :=
  let last := s.pending ++ c.closing s.fed
  (c.output (c.absorb last (last.size / c.blockSize) 0 s.chain)).toByteArray

end Construction

end SlotVerify.Digest
