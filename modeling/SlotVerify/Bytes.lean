/-
  Byte strings.

  Messages, images, digests and trees are all `ByteArray`s.  This module adds the few operations
  on them that the other modules share: runs of zeros, cutting or padding to an exact length,
  overwriting a stretch in place, big-endian words and their hexadecimal and decimal text.

  The two operations that everything else leans on are `fit` (an exact length, whatever came in:
  `size_fit`) and `overwrite` (a stretch replaced inside an image whose length stays:
  `size_overwrite`).
-/

namespace SlotVerify

/-- Byte strings are compared byte by byte. -/
instance Bytes.decEq : DecidableEq ByteArray := ByteArray.instDecidableEq

namespace Bytes

/-- A run of `n` zero bytes. -/
def zeros (n : Nat) : ByteArray := ⟨Array.replicate n 0⟩

@[simp] theorem size_zeros (n : Nat) : (zeros n).size = n := by
  simp [zeros, ByteArray.size]

/-- Exactly `n` bytes: a longer string is cut, a shorter one is padded with zeros. -/
def fit (n : Nat) (b : ByteArray) : ByteArray :=
  b.extract 0 n ++ zeros (n - b.size)

@[simp] theorem size_fit (n : Nat) (b : ByteArray) : (fit n b).size = n := by
  simp [fit, ByteArray.size_append, ByteArray.size_extract]; omega

/-- The `len` bytes at `offset`, fewer where the string ends. -/
def slice (b : ByteArray) (offset len : Nat) : ByteArray := b.extract offset (offset + len)

@[simp] theorem size_slice (b : ByteArray) (offset len : Nat) :
    (slice b offset len).size = min (offset + len) b.size - offset := by
  simp [slice, ByteArray.size_extract]

/-- A stretch that lies inside the string is whole. -/
theorem size_slice_of_le {b : ByteArray} {offset len : Nat} (h : len ≤ b.size - offset) :
    (slice b offset len).size = len := by
  rw [size_slice]
  omega

/-- `b` with the bytes from `offset` on replaced by `data`; bytes of `data` that would fall behind
    the end of `b` extend it. -/
def overwrite (b : ByteArray) (offset : Nat) (data : ByteArray) : ByteArray :=
  data.copySlice 0 b offset data.size

/-- A stretch that lies inside the string leaves its length alone. -/
theorem size_overwrite {b data : ByteArray} {offset : Nat} (h : offset + data.size ≤ b.size) :
    (overwrite b offset data).size = b.size := by
  simp [overwrite, ByteArray.copySlice_eq_append, ByteArray.size_append, ByteArray.size_extract]
  omega

/-- The zero bytes up to the next multiple of `unit` appended. -/
def padTo (unit : Nat) (b : ByteArray) : ByteArray :=
  b ++ zeros ((unit - b.size % unit) % unit)

/-- Consecutive pieces of `unit` bytes; a shorter rest is left out. -/
def pieces (unit : Nat) (b : ByteArray) : List ByteArray :=
  (List.range (b.size / unit)).map fun i => slice b (i * unit) unit

@[simp] theorem length_pieces (unit : Nat) (b : ByteArray) :
    (pieces unit b).length = b.size / unit := by
  simp [pieces]

/-- All strings of a list, one after the other. -/
def concat (parts : List ByteArray) : ByteArray :=
  parts.foldl (· ++ ·) ByteArray.empty

/-! ## Words -/

/-- The byte at `i`, zero behind the end. -/
@[inline] def at0 (b : ByteArray) (i : Nat) : UInt8 := b.get! i

/-- The big-endian 32-bit word at byte `i`. -/
def word32 (b : ByteArray) (i : Nat) : UInt32 :=
  ((at0 b i).toUInt32 <<< 24) ||| ((at0 b (i + 1)).toUInt32 <<< 16) |||
    ((at0 b (i + 2)).toUInt32 <<< 8) ||| (at0 b (i + 3)).toUInt32

/-- The big-endian 64-bit word at byte `i`. -/
def word64 (b : ByteArray) (i : Nat) : UInt64 :=
  ((word32 b i).toUInt64 <<< 32) ||| (word32 b (i + 4)).toUInt64

/-- The low `n` bytes of a number, most significant first. -/
def bigEndian : (n : Nat) → Nat → List UInt8
  | 0, _ => []
  | n + 1, v => bigEndian n (v / 256) ++ [UInt8.ofNat v]

@[simp] theorem length_bigEndian (n v : Nat) : (bigEndian n v).length = n := by
  induction n generalizing v with
  | zero => rfl
  | succ n ih => simp [bigEndian, ih]

/-! ## Hexadecimal text -/

/-- The lower case digit of a value below 16. -/
def hexDigit (n : Nat) : Char :=
  if n < 10 then Char.ofNat (48 + n) else Char.ofNat (87 + n)

/-- Two lower case digits a byte. -/
def toHex (b : ByteArray) : String :=
  b.foldl (fun s x => (s.push (hexDigit (x.toNat / 16))).push (hexDigit (x.toNat % 16))) ""

/-- The value of a hexadecimal digit of either case. -/
def hexValue? (c : Char) : Option Nat :=
  if '0' ≤ c ∧ c ≤ '9' then some (c.toNat - 48)
  else if 'a' ≤ c ∧ c ≤ 'f' then some (c.toNat - 87)
  else if 'A' ≤ c ∧ c ≤ 'F' then some (c.toNat - 55)
  else none

/-- Reads pairs of digits into bytes; refuses a lone digit and anything else. -/
def ofHexDigits? : List Char → Option (List UInt8)
  | [] => some []
  | [_] => none
  | hi :: lo :: rest => do
    let h ← hexValue? hi
    let l ← hexValue? lo
    let bytes ← ofHexDigits? rest
    return UInt8.ofNat (16 * h + l) :: bytes

/-- The bytes that a hexadecimal text of even length writes down. -/
def ofHex? (s : String) : Option ByteArray :=
  (ofHexDigits? s.toList).map List.toByteArray

example : ofHexDigits? ['0', 'a', 'F', 'f'] = some [10, 255] := by decide
example : ofHexDigits? ['0', 'a', 'F'] = none := by decide

end Bytes

end SlotVerify
