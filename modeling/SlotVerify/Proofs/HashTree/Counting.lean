import SlotVerify.Proofs.Fec.Coverage
import SlotVerify.Proofs.HashTree.Levels
/-
  The size of a tree as the outcome of a count.

  A machine finds the size of a tree by counting: level by level from the data up, with a running
  total, until a level of at most one block is reached (`Count.next`, `EndsAfter`).

  1. What `size` says is how that count goes (`size_counts`).  It gives the total where the count
     ends; it has no answer for two reasons, and each is the true one: with no digest in a block the
     count has no first step, and with a single one the levels do not get smaller and the count
     never ends.

  2. The crux of the bounds is that a level is at most half of the one below.  Over no more than
     `2 ^ e` blocks of data there are therefore fewer than `2 ^ e` blocks of tree
     (`blocksAbove_lt`), so the tree has fewer bytes than a word can number as soon as the data has.

  Main result: for blocks of a power of two that hold two digests, counting ends, on numbers that
  are words throughout, with the size of the tree that a builder makes of so much data
  (`size_of_counted`).
-/

namespace SlotVerify.HashTree

open Verity (wordLimit)

/-! ## The count -/

/-- A count of blocks in progress. -/
structure Count where
  /-- Blocks of the level counted last. -/
  level : Nat
  /-- Blocks of all levels counted. -/
  total : Nat

/-- Counts the next level. -/
def Count.next (perBlock : Nat) (c : Count) : Count where
  level := Fec.ceilDiv c.level perBlock
  total := c.total + Fec.ceilDiv c.level perBlock

/-- The count over so many blocks of data after a number of levels. -/
def countAfter (perBlock blocks : Nat) : (rounds : Nat) → Count
  | 0 => ⟨blocks, 0⟩
  | rounds + 1 => (countAfter perBlock blocks rounds).next perBlock

/-- All numbers of a count are words, and so is the size in bytes that it stands for. -/
structure Count.Fits (c : Count) (blockSize : Nat) : Prop where
  level : c.level < wordLimit
  total : c.total < wordLimit
  bytes : c.total * blockSize < wordLimit

/-- Counting is over: the last level, and none of those counted before, has at most one block. -/
structure EndsAfter (perBlock blocks rounds : Nat) : Prop where
  pos : 0 < rounds
  level_le : (countAfter perBlock blocks rounds).level ≤ 1
  many : ∀ k, 0 < k → k < rounds → 1 < (countAfter perBlock blocks k).level

section
variable {perBlock n rounds : Nat}

/-- Having counted the first level, one goes on as over that many blocks of data. -/
theorem countAfter_succ (perBlock n k : Nat) :
    (countAfter perBlock n (k + 1)).level =
        (countAfter perBlock (Fec.ceilDiv n perBlock) k).level ∧
      (countAfter perBlock n (k + 1)).total =
        Fec.ceilDiv n perBlock + (countAfter perBlock (Fec.ceilDiv n perBlock) k).total := by
  induction k with
  | zero => exact ⟨rfl, Nat.add_comm _ _⟩
  | succ k ih =>
    obtain ⟨hlevel, htotal⟩ := ih
    constructor
    · show Fec.ceilDiv (countAfter perBlock n (k + 1)).level perBlock = _
      rw [hlevel]
      rfl
    · show (countAfter perBlock n (k + 1)).total +
        Fec.ceilDiv (countAfter perBlock n (k + 1)).level perBlock = _
      rw [hlevel, htotal, Nat.add_assoc]
      rfl

theorem EndsAfter.one (h : Fec.ceilDiv n perBlock ≤ 1) : EndsAfter perBlock n 1 :=
  ⟨Nat.one_pos, h, fun k hpos hlt => by omega⟩

theorem EndsAfter.succ (hmany : 1 < Fec.ceilDiv n perBlock)
    (h : EndsAfter perBlock (Fec.ceilDiv n perBlock) rounds) :
    EndsAfter perBlock n (rounds + 1) := by
  refine ⟨Nat.succ_pos _, ?_, ?_⟩
  · rw [(countAfter_succ perBlock n rounds).1]
    exact h.level_le
  · intro k hpos hlt
    obtain ⟨k, rfl⟩ := Nat.exists_eq_succ_of_ne_zero (by omega : k ≠ 0)
    rw [(countAfter_succ perBlock n k).1]
    rcases Nat.eq_zero_or_pos k with rfl | hk
    · exact hmany
    · exact h.many k hk (by omega)

/-- With two digests in a block the count ends, with the blocks of all levels. -/
theorem exists_endsAfter (hper : 2 ≤ perBlock) (n : Nat) : ∃ rounds,
    EndsAfter perBlock n rounds ∧ (countAfter perBlock n rounds).total =
      blocksAbove perBlock hper n := by
  -- by induction on the number of blocks: the first level has fewer of them
  induction n using Nat.strongRecOn with
  | ind n ih =>
    rw [blocksAbove]
    by_cases hsingle : Fec.ceilDiv n perBlock ≤ 1
    · rw [if_pos hsingle]
      exact ⟨1, .one hsingle, Nat.zero_add _⟩
    · have hmany : 1 < Fec.ceilDiv n perBlock := by omega
      have hnone : n ≠ 0 := by
        rintro rfl
        rw [Fec.ceilDiv_zero] at hmany
        omega
      obtain ⟨rounds, hends, htotal⟩ := ih _ (ceilDiv_lt hper hnone (by omega))
      rw [if_neg hsingle]
      refine ⟨rounds + 1, hends.succ hmany, ?_⟩
      rw [(countAfter_succ perBlock n rounds).2, htotal]

theorem ceilDiv_one (n : Nat) : Fec.ceilDiv n 1 = n := by
  unfold Fec.ceilDiv
  rw [Nat.div_one, Nat.add_sub_cancel]

/-- With one digest in a block every level is as large as the data. -/
theorem level_countAfter_one (n k : Nat) : (countAfter 1 n k).level = n := by
  induction k with
  | zero => rfl
  | succ k ih => exact (ceilDiv_one _).trans ih

theorem not_endsAfter_one (hmany : 1 < n) (rounds : Nat) : ¬ EndsAfter 1 n rounds := by
  intro h
  have hlevel := h.level_le
  rw [level_countAfter_one] at hlevel
  omega

end

/-- What `size` says about a tree is how the count of its blocks goes. -/
theorem size_counts (a : Digest.Algorithm) (blockSize dataSize : Nat) :
    let perBlock := blockSize / slotFor a.digestSize
    let blocks := Fec.ceilDiv dataSize blockSize
    match size a blockSize dataSize with
    | .ok n => 0 < perBlock ∧ ∃ rounds, EndsAfter perBlock blocks rounds ∧
        n = (countAfter perBlock blocks rounds).total * blockSize
    | .error .divisionByZero => perBlock = 0
    | .error .endless => 0 < perBlock ∧ ∀ rounds, ¬ EndsAfter perBlock blocks rounds := by
  intro perBlock blocks
  show match (if h : 2 ≤ perBlock then Except.ok (blocksAbove perBlock h blocks * blockSize)
    else if perBlock = 0 then .error .divisionByZero
    else if blocks ≤ 1 then .ok (blocks * blockSize)
    else .error .endless : Except SizeFault Nat) with
    | .ok n => _
    | .error .divisionByZero => _
    | .error .endless => _
  by_cases htwo : 2 ≤ perBlock
  · rw [dif_pos htwo]
    obtain ⟨rounds, hends, htotal⟩ := exists_endsAfter htwo blocks
    exact ⟨Nat.lt_of_lt_of_le Nat.two_pos htwo, rounds, hends, by rw [htotal]⟩
  · by_cases hnone : perBlock = 0
    · rw [dif_neg htwo, if_pos hnone]
      exact hnone
    · have hone : perBlock = 1 :=
        Nat.le_antisymm (Nat.not_lt.mp htwo) (Nat.pos_of_ne_zero hnone)
      by_cases hsingle : blocks ≤ 1
      · rw [dif_neg htwo, if_neg hnone, if_pos hsingle, hone]
        refine ⟨Nat.one_pos, 1, .one (by rwa [ceilDiv_one]), ?_⟩
        show blocks * blockSize = (0 + Fec.ceilDiv blocks 1) * blockSize
        rw [ceilDiv_one, Nat.zero_add]
      · rw [dif_neg htwo, if_neg hnone, if_neg hsingle, hone]
        exact ⟨Nat.one_pos, not_endsAfter_one (by omega)⟩

/-- The tree over no data is empty. -/
theorem size_zero {a : Digest.Algorithm} {blockSize n : Nat}
    (h : size a blockSize 0 = .ok n) : n = 0 := by
  unfold size at h
  dsimp only at h
  rw [Fec.ceilDiv_zero] at h
  split at h
  · rename_i hmany
    cases h
    rw [blocksAbove, Fec.ceilDiv_zero, if_pos (Nat.zero_le _), Nat.zero_mul]
  · split at h
    · cases h
    · cases h
      exact Nat.zero_mul _

/-! ## Bounds -/

section
variable {perBlock n : Nat}

/-- A level is at most half of the one below. -/
theorem ceilDiv_le_half (hper : 2 ≤ perBlock) {m : Nat} (h : n ≤ m * 2) :
    Fec.ceilDiv n perBlock ≤ m :=
  (Fec.ceilDiv_le_iff (by omega)).mpr (Nat.le_trans h (Nat.mul_le_mul_left m hper))

/-- A tree has fewer blocks than the least power of two, from two on, that bounds the blocks of its
    data. -/
theorem blocksAbove_lt (hper : 2 ≤ perBlock) (e : Nat) :
    ∀ n, n ≤ 2 ^ (e + 1) → blocksAbove perBlock hper n < 2 ^ (e + 1) := by
  induction e with
  | zero =>
    intro n hn
    have hsingle : Fec.ceilDiv n perBlock ≤ 1 := ceilDiv_le_half hper hn
    rw [blocksAbove, if_pos hsingle]
    omega
  | succ e ih =>
    intro n hn
    have hhalf : Fec.ceilDiv n perBlock ≤ 2 ^ (e + 1) := ceilDiv_le_half hper hn
    have hrest := ih _ hhalf
    rw [blocksAbove]
    split <;> omega

theorem total_mono (perBlock n : Nat) {k rounds : Nat} (h : k ≤ rounds) :
    (countAfter perBlock n k).total ≤ (countAfter perBlock n rounds).total := by
  induction h with
  | refl => exact Nat.le_refl _
  | step _ ih => exact Nat.le_trans ih (Nat.le_add_right _ _)

/-- A level that has been counted is part of the total. -/
theorem level_le (perBlock n k : Nat) :
    (countAfter perBlock n k).level ≤ max n (countAfter perBlock n k).total := by
  cases k with
  | zero => exact Nat.le_max_left _ _
  | succ k => exact Nat.le_trans (Nat.le_add_left _ _) (Nat.le_max_right _ _)

/-- There is a tree exactly over some data. -/
theorem blocksAbove_eq_zero_iff (hper : 2 ≤ perBlock) :
    blocksAbove perBlock hper n = 0 ↔ n = 0 := by
  have hfirst : Fec.ceilDiv n perBlock = 0 ↔ n = 0 := ceilDiv_eq_zero_iff (by omega)
  rw [blocksAbove]
  split <;> omega

end

/-- In bytes: the tree over data that a word can number has fewer bytes than words can number. -/
theorem blocksAbove_mul_lt {perBlock blockSize dataSize : Nat} (hper : 2 ≤ perBlock)
    (hpower : isPowerOfTwo blockSize = true) (hword : blockSize < 2 ^ 32)
    (hdata : dataSize < wordLimit) :
    blocksAbove perBlock hper (Fec.ceilDiv dataSize blockSize) * blockSize < wordLimit := by
  have hblock := eq_two_pow_of_isPowerOfTwo hpower
  generalize blockSize.log2 = m at hblock
  have hsmall : m < 32 := (Nat.pow_lt_pow_iff_right (by decide)).mp (hblock ▸ hword)
  obtain ⟨e, he⟩ : ∃ e, 64 = e + 1 + m := ⟨63 - m, by omega⟩
  have hlimit : wordLimit = 2 ^ (e + 1) * blockSize := by
    rw [hblock, ← Nat.pow_add, ← he]
    rfl
  have hpos : 0 < blockSize := hblock ▸ Nat.two_pow_pos m
  have hblocks : Fec.ceilDiv dataSize blockSize ≤ 2 ^ (e + 1) :=
    (Fec.ceilDiv_le_iff hpos).mpr (hlimit ▸ Nat.le_of_lt hdata)
  rw [hlimit]
  exact Nat.mul_lt_mul_of_pos_right (blocksAbove_lt hper e _ hblocks) hpos

/-- Whatever size is found is a word, if the data is as large as one at most. -/
theorem size_lt {a : Digest.Algorithm} {blockSize dataSize n : Nat}
    (hpower : isPowerOfTwo blockSize = true) (hword : blockSize < 2 ^ 32)
    (hdata : dataSize < wordLimit) (h : size a blockSize dataSize = .ok n) : n < wordLimit := by
  unfold size at h
  dsimp only at h
  split at h
  · rename_i htwo
    cases h
    exact blocksAbove_mul_lt htwo hpower hword hdata
  · split at h
    · cases h
    · split at h
      · rename_i hsingle
        cases h
        have hlimit : wordLimit = 2 ^ 64 := by decide
        have hblock := Nat.mul_le_mul_right blockSize hsingle
        omega
      · cases h

/-! ## The size of the tree -/

/-- A builder of so much data builds a tree of this size; only memory for its digests can be
    missing. -/
theorem Builder.size_build {a : Digest.Algorithm} {blockSize dataSize n : Nat}
    (hpower : isPowerOfTwo blockSize = true) (hslots : 2 * slotFor a.digestSize ≤ blockSize)
    (haligned : dataSize % blockSize = 0) (hsize : HashTree.size a blockSize dataSize = .ok n)
    (salt : ByteArray) (memory : Nat) :
    match Builder.new a blockSize salt dataSize memory with
    | .error e => e = .memoryAllocationFailure
    | .ok b => ∀ pieces, (Builder.taken dataSize pieces).size = dataSize →
        ∃ tree, (b.offer pieces).build = .ok tree ∧ tree.bytes.size = n := by
  cases hnew : Builder.new a blockSize salt dataSize memory with
  | error e =>
    unfold Builder.new Format.ofAlgorithm at hnew
    rw [dif_pos ⟨hpower, hslots⟩] at hnew
    replace hnew : (if dataSize % blockSize ≠ 0 then
        Except.error (Verity.Error.unalignedDataSize dataSize blockSize)
      else if _ then .error .memoryAllocationFailure
      else .ok _) = .error e := hnew
    rw [if_neg (Decidable.not_not.mpr haligned)] at hnew
    split at hnew
    · cases hnew
      rfl
    · cases hnew
  | ok b =>
    intro pieces hcomplete
    obtain ⟨-, -, -, hof⟩ := Builder.holds_new hnew
    obtain ⟨-, hblock, -⟩ := Format.of_ofAlgorithm hof
    refine ⟨_, Builder.build_of_taken hnew hcomplete, Format.size_tree hof haligned hsize ?_⟩
    rw [Format.size_entries, hcomplete, hblock]

/-- For blocks of a power of two that hold two digests: counting ends, all its numbers are words,
    and the size that comes out is that of the tree over so much data, of no bytes exactly where
    there is no data. -/
theorem size_of_counted {a : Digest.Algorithm} {blockSize dataSize : Nat}
    (hpower : isPowerOfTwo blockSize = true) (hword : blockSize < 2 ^ 32)
    (hslots : 2 * slotFor a.digestSize ≤ blockSize) (hdata : dataSize < wordLimit) :
    let perBlock := blockSize / slotFor a.digestSize
    let blocks := Fec.ceilDiv dataSize blockSize
    ∃ rounds n, EndsAfter perBlock blocks rounds ∧
      (∀ k, k ≤ rounds → (countAfter perBlock blocks k).Fits blockSize) ∧
      HashTree.size a blockSize dataSize = .ok n ∧
      n = (countAfter perBlock blocks rounds).total * blockSize ∧
      (n = 0 ↔ dataSize = 0) ∧
      (dataSize % blockSize = 0 → ∀ salt memory,
        (∀ f data, Format.ofAlgorithm a salt blockSize = .ok f → data.size = dataSize →
          (f.tree (f.entries data)).bytes.size = n) ∧
        match Builder.new a blockSize salt dataSize memory with
        | .error e => e = .memoryAllocationFailure
        | .ok b => ∀ pieces, (Builder.taken dataSize pieces).size = dataSize →
            ∃ tree, (b.offer pieces).build = .ok tree ∧ tree.bytes.size = n) := by
  intro perBlock blocks
  have hslot : 0 < slotFor a.digestSize := Nat.shiftLeft_pos_iff.mpr Nat.one_pos
  have hper : 2 ≤ perBlock := (Nat.le_div_iff_mul_le hslot).mpr hslots
  have hpos : 0 < blockSize := by omega
  have hblocks : blocks ≤ dataSize :=
    (Fec.ceilDiv_le_iff hpos).mpr (Nat.le_mul_of_pos_right _ hpos)
  have hsize : HashTree.size a blockSize dataSize =
      .ok (blocksAbove perBlock hper blocks * blockSize) := dif_pos hper
  have hlimit := size_lt hpower hword hdata hsize
  have hcounts := size_counts a blockSize dataSize
  rw [hsize] at hcounts
  obtain ⟨-, rounds, hends, hbytes⟩ := hcounts
  refine ⟨rounds, _, hends, ?_, hsize, hbytes, ?_, ?_⟩
  · intro k hk
    have hlevel := level_le perBlock blocks k
    have hscaled := Nat.mul_le_mul_right blockSize (total_mono perBlock blocks hk)
    have hunscaled := Nat.le_mul_of_pos_right (countAfter perBlock blocks k).total hpos
    rw [← hbytes] at hscaled
    exact ⟨by omega, by omega, by omega⟩
  · have hnone : blocks = 0 ↔ dataSize = 0 := ceilDiv_eq_zero_iff hpos
    rw [Nat.mul_eq_zero, blocksAbove_eq_zero_iff, hnone]
    omega
  · intro haligned salt memory
    refine ⟨?_, Builder.size_build hpower hslots haligned hsize salt memory⟩
    intro f data hof hall
    refine Format.size_tree hof haligned hsize ?_
    rw [Format.size_entries, hall, (Format.of_ofAlgorithm hof).2.1]

/-- The most data in the smallest blocks: counting ends after 58 levels, and the tree is as large as
    the data. -/
theorem size_of_counted_largest : isPowerOfTwo 64 = true ∧ 2 ^ 64 - 64 < wordLimit ∧
    ∃ rounds, EndsAfter 2 (2 ^ 58 - 1) rounds ∧
      (countAfter 2 (2 ^ 58 - 1) rounds).total * 64 < wordLimit ∧
      HashTree.size .sha256 64 (2 ^ 64 - 64) = .ok (2 ^ 64 - 64) := by
  obtain ⟨rounds, n, hends, hwords, hsize, -⟩ :=
    @size_of_counted .sha256 64 (2 ^ 64 - 64) (by decide) (by decide) (by decide) (by decide)
  have hn : (HashTree.size .sha256 64 (2 ^ 64 - 64)).toOption = some (2 ^ 64 - 64) := by
    decide +kernel
  rw [hsize] at hn
  cases hn
  exact ⟨by decide, by decide, rounds, hends, (hwords rounds (Nat.le_refl _)).bytes, hsize⟩

end SlotVerify.HashTree
