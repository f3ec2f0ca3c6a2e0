import SlotVerify.Fec.Round
import SlotVerify.Proofs.Bytes
/-
  What a round has gathered.

  `Geometry.symbol` is the byte that a code word takes from a block: a byte of the covered region,
  or zero behind its end.  While a round is gathered, every byte that it holds is the symbol of its
  block and place (`Round.Gathered`), however the reads were cut; once nothing is left to read, the
  symbols that it does not hold are zeros, so its messages are the ones specified
  (`Round.Gathered.message_eq`).
-/

namespace SlotVerify.Fec

namespace Geometry

/-- Byte `k` of the `j`th block of a round, zero behind the end of the covered region. -/
def symbol (g : Geometry) (image : ByteArray) (round j k : Nat) : UInt8 :=
  if (round + j * g.rounds) * g.blockSize + k < g.dataSize then
    Bytes.at0 image (g.dataOffset + ((round + j * g.rounds) * g.blockSize + k))
  else 0

/-- The message of the `k`th code word of a round. -/
def message (g : Geometry) (image : ByteArray) (round k : Nat) : List UInt8 :=
  (List.range g.messageLength).map fun j => g.symbol image round j k

theorem blockOffset_eq (g : Geometry) (round j : Nat) :
    g.blockOffset round j = (round + j * g.rounds) * g.blockSize := by
  rw [blockOffset, Nat.add_mul]

/-- A later block of a round begins behind the end of an earlier one. -/
theorem blockOffset_lt {g : Geometry} (hrounds : 0 < g.rounds) (round : Nat) {i j : Nat}
    (h : i < j) : g.blockOffset round i + g.blockSize ≤ g.blockOffset round j := by
  have hstep : (i + 1) * g.rounds ≤ j * g.rounds := Nat.mul_le_mul_right _ h
  have hmul := Nat.mul_le_mul_right g.blockSize hstep
  have hone : g.blockSize ≤ g.rounds * g.blockSize := Nat.le_mul_of_pos_left _ hrounds
  rw [Nat.succ_mul, Nat.add_mul] at hmul
  unfold blockOffset
  omega

/-- Only bytes of the covered region matter. -/
theorem message_congr {g : Geometry} {a b : ByteArray}
    (h : ∀ x, x < g.dataSize → Bytes.at0 a (g.dataOffset + x) = Bytes.at0 b (g.dataOffset + x))
    (round k : Nat) : g.message a round k = g.message b round k := by
  unfold message
  apply List.map_congr_left
  intro j _
  unfold symbol
  split
  · rename_i hinside
    exact h _ hinside
  · rfl

end Geometry

/-- A byte belongs to its block. -/
theorem div_of_block {blockSize k : Nat} (j : Nat) (hk : k < blockSize) :
    (j * blockSize + k) / blockSize = j := by
  rw [Nat.mul_comm, Nat.mul_add_div (by omega), Nat.div_eq_of_lt hk, Nat.add_zero]

theorem add_lt_of_block {j n blockSize k : Nat} (hj : j < n) (hk : k < blockSize) :
    j * blockSize + k < n * blockSize := by
  have hend := Nat.mul_le_mul_right blockSize (Nat.succ_le_of_lt hj)
  rw [Nat.succ_mul] at hend
  omega

theorem mod_of_block {blockSize k : Nat} (j : Nat) (hk : k < blockSize) :
    (j * blockSize + k) % blockSize = k := by
  rw [Nat.mul_comm, Nat.mul_add_mod, Nat.mod_eq_of_lt hk]

namespace Round

variable {r : Round} {image : ByteArray}

/-- What has been read of a round is the beginning of its blocks, and lies inside the region. -/
def Gathered (r : Round) (image : ByteArray) : Prop :=
  ∀ m, m < r.gathered.size →
    r.geometry.blockOffset r.index (m / r.geometry.blockSize) + m % r.geometry.blockSize <
        r.geometry.dataSize ∧
      Bytes.at0 r.gathered m = Bytes.at0 image (r.geometry.dataOffset +
        (r.geometry.blockOffset r.index (m / r.geometry.blockSize) + m % r.geometry.blockSize))

@[simp] theorem geometry_gather (r : Round) (bytes : ByteArray) :
    (r.gather bytes).geometry = r.geometry := rfl

@[simp] theorem index_gather (r : Round) (bytes : ByteArray) :
    (r.gather bytes).index = r.index := rfl

theorem size_gathered_gather (r : Round) (bytes : ByteArray) :
    (r.gather bytes).gathered.size = r.gathered.size + bytes.size :=
  ByteArray.size_append

theorem gather_empty (r : Round) : r.gather ByteArray.empty = r := by
  unfold gather
  rw [ByteArray.append_empty]

theorem gather_append (r : Round) (a b : ByteArray) :
    r.gather (a ++ b) = (r.gather a).gather b := by
  unfold gather
  rw [ByteArray.append_assoc]

theorem gathered_start (g : Geometry) (index : Nat) : (start g index).Gathered image := by
  intro m hm
  exact absurd hm (Nat.not_lt_zero m)

/-- Where the next read is, and that it stays inside one block and inside the region. -/
theorem nextRead_eq_some {offset length : Nat} (h : r.nextRead = some (offset, length)) :
    ∃ j filled, j < r.geometry.messageLength ∧ filled + length ≤ r.geometry.blockSize ∧
      0 < length ∧ r.gathered.size = j * r.geometry.blockSize + filled ∧
      offset = r.geometry.dataOffset + (r.geometry.blockOffset r.index j + filled) ∧
      r.geometry.blockOffset r.index j + filled + length ≤ r.geometry.dataSize := by
  unfold nextRead at h
  dsimp only at h
  split at h
  · rename_i hmissing
    obtain ⟨hj, hfilled⟩ := hmissing
    cases h
    unfold blockLength at hfilled ⊢
    refine ⟨_, r.gathered.size % r.geometry.blockSize, hj, ?_, ?_, ?_, ?_, ?_⟩
    · omega
    · omega
    · rw [Nat.mul_comm]
      exact (Nat.div_add_mod _ _).symm
    · omega
    · omega
  · cases h

/-- A read that brings the next bytes of the region. -/
theorem Gathered.gather (h : r.Gathered image) {offset length n : Nat}
    (hread : r.nextRead = some (offset, length)) (hn : n ≤ length)
    (hsize : offset + n ≤ image.size) :
    (r.gather (image.extract offset (offset + n))).Gathered image := by
  obtain ⟨j, filled, -, hblock, -, hgathered, hoffset, hdata⟩ := nextRead_eq_some hread
  have hbytes : (image.extract offset (offset + n)).size = n := Bytes.size_slice_of_le (by omega)
  intro m hm
  show r.geometry.blockOffset r.index (m / r.geometry.blockSize) + m % r.geometry.blockSize <
      r.geometry.dataSize ∧
    Bytes.at0 (r.gathered ++ _) m = Bytes.at0 image (r.geometry.dataOffset +
      (r.geometry.blockOffset r.index (m / r.geometry.blockSize) + m % r.geometry.blockSize))
  change m < (r.gathered ++ _).size at hm
  rw [ByteArray.size_append, hbytes] at hm
  rw [Bytes.at0_append]
  by_cases hold : m < r.gathered.size
  · rw [if_pos hold]
    exact h m hold
  · -- the new bytes all belong to the block that is being filled
    obtain ⟨t, rfl⟩ : ∃ t, m = j * r.geometry.blockSize + t :=
      ⟨m - j * r.geometry.blockSize, by omega⟩
    have ht : t < r.geometry.blockSize := by omega
    rw [if_neg hold, div_of_block j ht, mod_of_block j ht]
    refine ⟨by omega, ?_⟩
    have hplace : offset + (j * r.geometry.blockSize + t - r.gathered.size) =
        r.geometry.dataOffset + (r.geometry.blockOffset r.index j + t) := by omega
    rw [Bytes.at0_extract, if_pos (by omega), hplace]

/-- Once nothing is left to read, what is not held lies behind the end of the region. -/
theorem dataSize_le_of_done (hrounds : 0 < r.geometry.rounds) (hread : r.nextRead = none)
    {j k : Nat} (hj : j < r.geometry.messageLength) (hk : k < r.geometry.blockSize)
    (hmissing : r.gathered.size ≤ j * r.geometry.blockSize + k) :
    r.geometry.dataSize ≤ r.geometry.blockOffset r.index j + k := by
  unfold nextRead at hread
  dsimp only at hread
  split at hread
  · cases hread
  · rename_i hstop
    have hdiv := Nat.div_add_mod r.gathered.size r.geometry.blockSize
    have hmod := Nat.mod_lt r.gathered.size (Nat.lt_of_le_of_lt (Nat.zero_le k) hk)
    unfold blockLength at hstop
    generalize r.gathered.size / r.geometry.blockSize = last at hdiv hstop
    generalize r.gathered.size % r.geometry.blockSize = filled at hdiv hmod hstop
    rw [Nat.mul_comm] at hdiv
    have hlast : last ≤ j := by
      have hle : last * r.geometry.blockSize ≤ j * r.geometry.blockSize + k := by omega
      have hlt : last * r.geometry.blockSize < (j + 1) * r.geometry.blockSize := by
        rw [Nat.succ_mul]
        omega
      exact Nat.lt_succ_iff.mp (Nat.lt_of_mul_lt_mul_right hlt)
    have hend : r.geometry.dataSize ≤ r.geometry.blockOffset r.index last + filled := by
      have hfull : ¬ filled < min (r.geometry.dataSize - r.geometry.blockOffset r.index last)
          r.geometry.blockSize := fun hlt => hstop ⟨by omega, hlt⟩
      omega
    rcases Nat.lt_or_eq_of_le hlast with hlt | rfl
    · have hbehind := Geometry.blockOffset_lt hrounds r.index hlt
      omega
    · omega

/-- Once nothing is left to read, each byte of the blocks is held, or lies behind the end. -/
theorem Gathered.at0_eq_symbol (h : r.Gathered image) (hrounds : 0 < r.geometry.rounds)
    (hread : r.nextRead = none) {j k : Nat} (hj : j < r.geometry.messageLength)
    (hk : k < r.geometry.blockSize) :
    Bytes.at0 r.gathered (j * r.geometry.blockSize + k) =
      r.geometry.symbol image r.index j k := by
  unfold Geometry.symbol
  rw [← Geometry.blockOffset_eq]
  by_cases hheld : j * r.geometry.blockSize + k < r.gathered.size
  · obtain ⟨hinside, hbyte⟩ := h _ hheld
    rw [div_of_block j hk, mod_of_block j hk] at hinside hbyte
    rw [if_pos hinside, hbyte]
  · rw [Bytes.at0_of_size_le (Nat.not_lt.mp hheld), if_neg]
    exact Nat.not_lt.mpr (dataSize_le_of_done hrounds hread hj hk (Nat.not_lt.mp hheld))

/-- Once nothing is left to read, the messages are complete. -/
theorem Gathered.message_eq (h : r.Gathered image) (hrounds : 0 < r.geometry.rounds)
    (hread : r.nextRead = none) {k : Nat} (hk : k < r.geometry.blockSize) :
    r.message k = r.geometry.message image r.index k := by
  unfold message Geometry.message
  apply List.map_congr_left
  intro j hj
  exact h.at0_eq_symbol hrounds hread (List.mem_range.mp hj) hk

end Round

end SlotVerify.Fec
