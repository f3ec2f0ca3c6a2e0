import SlotVerify.Digest.Sha1
import SlotVerify.Digest.Sha256
import SlotVerify.Digest.Sha512
/-
  The digest algorithms that partitions and hash trees use.

  `Algorithm` names them, `Hasher` is a computation of one of them in progress, fed in pieces of
  any size.  Algorithm names are matched without regard to the case of ASCII letters, because
  device-mapper tables and boot metadata spell them differently.

  A digest has the length that its algorithm promises (`size_digest`), whatever was fed.
-/

namespace SlotVerify.Digest

/-- The supported algorithms. -/
inductive Algorithm where
  | sha1
  | sha256
  | sha512
deriving DecidableEq, Repr

/-- Why a digest could not be computed. -/
inductive Error where
  | unsupportedAlgorithm
  | invalidDigestLength
deriving DecidableEq, Repr

/-- The text shown for an error. -/
def Error.message : Error → String
  | .unsupportedAlgorithm => "unsupported hash algorithm"
  | .invalidDigestLength => "invalid digest length"

namespace Algorithm

/-- The canonical lower case name. -/
def name : Algorithm → String
  | .sha1 => "sha1"
  | .sha256 => "sha256"
  | .sha512 => "sha512"

/-- Looks an algorithm up by its name, in any mixture of cases. -/
def ofName? (name : String) : Except Error Algorithm :=
  match name.toLower with
  | "sha1" => .ok .sha1
  | "sha256" => .ok .sha256
  | "sha512" => .ok .sha512
  | _ => .error .unsupportedAlgorithm

/-- Bytes of a digest. -/
def digestSize : Algorithm → Nat
  | .sha1 => 20
  | .sha256 => 32
  | .sha512 => 64

/-- The type of an algorithm's chaining values. -/
def Chain : Algorithm → Type
  | .sha1 => Sha1.Chain
  | .sha256 => Sha256.Chain
  | .sha512 => Sha512.Chain

/-- The construction behind an algorithm. -/
def construction : (a : Algorithm) → Construction a.Chain
  | .sha1 => Sha1.construction
  | .sha256 => Sha256.construction
  | .sha512 => Sha512.construction

end Algorithm

/-- A computation in progress. -/
abbrev Hasher (a : Algorithm) := a.construction.Stream

namespace Hasher

/-- Nothing fed yet. -/
def start (a : Algorithm) : Hasher a := a.construction.start

/-- The next piece of the message. -/
def update {a : Algorithm} (h : Hasher a) (data : ByteArray) : Hasher a :=
  Construction.Stream.update h data

/-- The digest of everything fed. -/
def finish {a : Algorithm} (h : Hasher a) : ByteArray := Construction.Stream.finish h

/-- The digest for a place of `room` bytes, which has to be the digest's own length. -/
def finishInto {a : Algorithm} (h : Hasher a) (room : Nat) : Except Error ByteArray :=
  if room = a.digestSize then .ok h.finish else .error .invalidDigestLength

end Hasher

/-- The digest of a whole message. -/
def Algorithm.digest (a : Algorithm) (message : ByteArray) : ByteArray :=
  ((Hasher.start a).update message).finish

/-- A digest has its algorithm's length. -/
theorem size_digest (a : Algorithm) (message : ByteArray) :
    (a.digest message).size = a.digestSize := by
  cases a <;>
    simp [Algorithm.digest, Hasher.finish, Construction.Stream.finish, Algorithm.construction,
      Sha1.construction, Sha256.construction, Sha512.construction, Sha1.output, Sha256.output,
      Sha512.output, Algorithm.digestSize]

end SlotVerify.Digest
