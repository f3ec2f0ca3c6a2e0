import SlotVerify.Proofs.Fec.Gathering
/-
  The encoder: a round as three counters and a buffer.

  A `Round` keeps what has been read and works out from its length where to go on.  An encoder
  keeps the place itself: the block it is in, how much of the block is filled, and one buffer with
  the blocks of a round, which it clears and uses again for the next one.

  1. To go on is a loop: blocks that are full or lie behind the region are skipped until one misses
     something.  Its three branches are `nextRead_of_missing`, `nextRead_of_full` and
     `nextRead_of_past`; behind the region it runs through to the end (`nextRead_behind`).

  2. The crux is that an encoder and a round with the same bytes agree (`Mirrors`): the buffer is
     the round's bytes with zeros behind them, and the number of the round's bytes is the place
     that the counters name.  Then both go on alike (`Mirrors.nextRead`), and the buffer has room
     for whatever is delivered (`Mirrors.completeRead`).
-/

namespace SlotVerify.Fec

/-- A round in the course of being read, with its code. -/
structure Encoder where
  geometry : Geometry
  code : Code
  round : Nat
  /-- The block that is being read. -/
  block : Nat
  /-- How much of that block there is. -/
  filled : Nat
  /-- The round's blocks, end to end. -/
  blocks : ByteArray

namespace Encoder

/-- An encoder before the first round. -/
def start (g : Geometry) (code : Code) : Encoder :=
  ⟨g, code, 0, 0, 0, Bytes.zeros (g.messageLength * g.blockSize)⟩

/-- How much of the current block lies inside the covered region. -/
def blockLength (e : Encoder) : Nat :=
  min (e.geometry.dataSize - e.geometry.blockOffset e.round e.block) e.geometry.blockSize

/-- The encoder at the next block that misses something, with the offset on the device and the
    length of what it misses there. -/
def nextRead (e : Encoder) : Encoder × Option (Nat × Nat) :=
  if e.block < e.geometry.messageLength then
    if e.geometry.blockOffset e.round e.block < e.geometry.dataSize ∧ e.filled < e.blockLength then
      (e, some (e.geometry.dataOffset + e.geometry.blockOffset e.round e.block + e.filled,
        e.blockLength - e.filled))
    else nextRead { e with block := e.block + 1, filled := 0 }
  else (e, none)
termination_by e.geometry.messageLength - e.block

/-- The encoder with bytes put where they were missing, provided the buffer has room for them. -/
def completeRead (e : Encoder) (data : ByteArray) : Option Encoder :=
  let place := e.block * e.geometry.blockSize + e.filled
  if place + data.size ≤ e.blocks.size then
    some { e with
      blocks := Bytes.overwrite e.blocks place data
      filled := e.filled + data.size }
  else none

/-- The message of the round's `k`th code word. -/
def message (e : Encoder) (k : Nat) : List UInt8 :=
  (List.range e.geometry.messageLength).map fun j =>
    Bytes.at0 e.blocks (j * e.geometry.blockSize + k)

/-- The round's parity bytes. -/
def parity (e : Encoder) : ByteArray :=
  Bytes.concat ((List.range e.geometry.blockSize).map fun k =>
    (e.code.parity (e.message k)).toByteArray)

/-- The encoder at the beginning of the next round, and whether there is such a round. -/
def advance (e : Encoder) : Encoder × Bool :=
  ({ e with
      round := e.round + 1
      block := 0
      filled := 0
      blocks := Bytes.zeros e.blocks.size },
    e.round + 1 < e.geometry.rounds)

/-! ## The search for the next block -/

section Search

variable {e : Encoder}

theorem nextRead_of_missing (hblock : e.block < e.geometry.messageLength)
    (hmissing : e.filled < e.blockLength) :
    e.nextRead = (e, some
      (e.geometry.dataOffset + e.geometry.blockOffset e.round e.block + e.filled,
        e.blockLength - e.filled)) := by
  have hinside : e.geometry.blockOffset e.round e.block < e.geometry.dataSize := by
    unfold blockLength at hmissing
    omega
  rw [nextRead, if_pos hblock, if_pos ⟨hinside, hmissing⟩]

theorem nextRead_of_full (hblock : e.block < e.geometry.messageLength)
    (hfull : e.blockLength ≤ e.filled) :
    e.nextRead = nextRead { e with block := e.block + 1, filled := 0 } := by
  rw [nextRead, if_pos hblock, if_neg]
  rintro ⟨-, hmissing⟩
  exact absurd hmissing (Nat.not_lt.mpr hfull)

theorem nextRead_of_past (hblock : e.geometry.messageLength ≤ e.block) :
    e.nextRead = (e, none) := by
  rw [nextRead, if_neg (Nat.not_lt.mpr hblock)]

/-- The search keeps everything but its place. -/
theorem nextRead_keeps (e : Encoder) :
    e.nextRead.1.geometry = e.geometry ∧ e.nextRead.1.code = e.code ∧
      e.nextRead.1.round = e.round ∧ e.nextRead.1.blocks = e.blocks := by
  induction e using nextRead.induct with
  | case1 e hblock hmissing =>
    rw [nextRead, if_pos hblock, if_pos hmissing]
    exact ⟨rfl, rfl, rfl, rfl⟩
  | case2 e hblock hfull ih =>
    rw [nextRead, if_pos hblock, if_neg hfull]
    exact ih
  | case3 e hpast =>
    rw [nextRead, if_neg hpast]
    exact ⟨rfl, rfl, rfl, rfl⟩

/-- What is asked for is what the block that the search has come to misses. -/
theorem nextRead_eq_some {offset length : Nat} (h : e.nextRead.2 = some (offset, length)) :
    e.nextRead.1.block < e.geometry.messageLength ∧
      e.nextRead.1.filled + length = e.nextRead.1.blockLength ∧ 0 < length ∧
      offset = e.geometry.dataOffset + e.geometry.blockOffset e.round e.nextRead.1.block +
        e.nextRead.1.filled := by
  induction e using nextRead.induct with
  | case1 e hblock hmissing =>
    rw [nextRead, if_pos hblock, if_pos hmissing] at h ⊢
    cases h
    have hfilled := hmissing.2
    exact ⟨hblock, by dsimp only; omega, by omega, rfl⟩
  | case2 e hblock hfull ih =>
    rw [nextRead, if_pos hblock, if_neg hfull] at h ⊢
    exact ih h
  | case3 e hpast =>
    rw [nextRead, if_neg hpast] at h
    cases h

/-- From the end of the region on nothing is missing. -/
theorem nextRead_behind (hrounds : 0 < e.geometry.rounds)
    (hfilled : e.filled ≤ e.geometry.blockSize)
    (hbehind : e.geometry.dataSize ≤ e.geometry.blockOffset e.round e.block + e.filled) :
    e.nextRead.2 = none := by
  induction e using nextRead.induct with
  | case1 e hblock hmissing =>
    have hmissing := hmissing.2
    unfold blockLength at hmissing
    omega
  | case2 e hblock hfull ih =>
    rw [nextRead, if_pos hblock, if_neg hfull]
    refine ih hrounds (Nat.zero_le _) ?_
    have hlater := Geometry.blockOffset_lt hrounds e.round (Nat.lt_succ_self e.block)
    show e.geometry.dataSize ≤ e.geometry.blockOffset e.round e.block.succ + 0
    omega
  | case3 e hpast => rw [nextRead, if_neg hpast]

/-- After a short read the rest of it is asked for. -/
theorem nextRead_rest {offset length : Nat} (h : e.nextRead.2 = some (offset, length))
    {data : ByteArray} (hshort : data.size < length) {e' : Encoder}
    (hput : e.nextRead.1.completeRead data = some e') :
    e'.nextRead.2 = some (offset + data.size, length - data.size) := by
  obtain ⟨hblock, hlength, -, hoffset⟩ := nextRead_eq_some h
  obtain ⟨hgeometry, -, hround, -⟩ := e.nextRead_keeps
  rw [← hgeometry] at hblock hoffset
  rw [← hround] at hoffset
  generalize e.nextRead.1 = e₁ at *
  unfold completeRead at hput
  dsimp only at hput
  split at hput
  · cases hput
    generalize Bytes.overwrite e₁.blocks _ data = blocks
    have hmissing : e₁.filled + data.size < e₁.blockLength := by omega
    have hnext := nextRead_of_missing (e := { e₁ with blocks, filled := e₁.filled + data.size })
      hblock hmissing
    rw [hnext]
    show some (e₁.geometry.dataOffset + e₁.geometry.blockOffset e₁.round e₁.block +
      (e₁.filled + data.size), e₁.blockLength - (e₁.filled + data.size)) = _
    congr 2
    · omega
    · omega
  · cases hput

end Search

/-! ## The round that an encoder holds -/

/-- An encoder and a round that hold the same bytes. -/
structure Mirrors (e : Encoder) (r : Round) : Prop where
  geometry : e.geometry = r.geometry
  index : e.round = r.index
  blocks : e.blocks = Bytes.fit (r.geometry.messageLength * r.geometry.blockSize) r.gathered
  place : r.gathered.size = e.block * r.geometry.blockSize + e.filled
  filled_le : e.filled ≤ r.geometry.blockSize
  size_le : r.gathered.size ≤ r.geometry.messageLength * r.geometry.blockSize

variable {e : Encoder} {r : Round}

theorem blockLength_eq (h : e.Mirrors r) : e.blockLength = r.blockLength e.block := by
  unfold blockLength Round.blockLength
  rw [h.geometry, h.index]

/-- In the middle of a block, the round's length says which block it is and how much of it is
    there. -/
theorem Mirrors.nextRead_within (h : e.Mirrors r) (hrounds : 0 < r.geometry.rounds)
    (hwithin : e.filled < r.geometry.blockSize) :
    e.nextRead.2 = r.nextRead ∧ (r.nextRead.isSome → e.nextRead.1 = e) := by
  have hlast : r.gathered.size / r.geometry.blockSize = e.block := by
    rw [h.place, div_of_block e.block hwithin]
  have hfilled : r.gathered.size % r.geometry.blockSize = e.filled := by
    rw [h.place, mod_of_block e.block hwithin]
  unfold Round.nextRead
  dsimp only
  rw [hlast, hfilled, ← blockLength_eq h, ← h.geometry, ← h.index]
  rcases Nat.lt_or_ge e.block e.geometry.messageLength with hblock | hpast
  · rcases Nat.lt_or_ge e.filled e.blockLength with hmissing | hfull
    · rw [if_pos ⟨hblock, hmissing⟩, nextRead_of_missing hblock hmissing]
      exact ⟨rfl, fun _ => rfl⟩
    · -- a block that is full before its end is cut off by the end of the region
      rw [if_neg (fun hboth => Nat.not_lt.mpr hfull hboth.2), nextRead_behind]
      · exact ⟨rfl, nofun⟩
      · rwa [h.geometry]
      · rw [h.geometry]
        exact h.filled_le
      · rw [← h.geometry] at hwithin
        unfold blockLength at hfull
        omega
  · rw [if_neg (fun hboth => Nat.not_lt.mpr hpast hboth.1), nextRead_of_past hpast]
    exact ⟨rfl, nofun⟩

/-- An encoder goes on where its round does. -/
theorem Mirrors.nextRead (h : e.Mirrors r) (hrounds : 0 < r.geometry.rounds)
    (hpos : 0 < r.geometry.blockSize) :
    e.nextRead.2 = r.nextRead ∧ (r.nextRead.isSome → e.nextRead.1.Mirrors r) := by
  rcases Nat.lt_or_eq_of_le h.filled_le with hwithin | hwhole
  · obtain ⟨hsame, hstays⟩ := h.nextRead_within hrounds hwithin
    refine ⟨hsame, fun hsome => ?_⟩
    rw [hstays hsome]
    exact h
  · -- a whole block: its end is the beginning of the next one
    have hplace : r.gathered.size = (e.block + 1) * r.geometry.blockSize + 0 := by
      rw [h.place, hwhole, Nat.succ_mul, Nat.add_zero]
    have hnext : Mirrors { e with block := e.block + 1, filled := 0 } r :=
      ⟨h.geometry, h.index, h.blocks, hplace, Nat.zero_le _, h.size_le⟩
    obtain ⟨hsame, hstays⟩ := hnext.nextRead_within hrounds hpos
    rcases Nat.lt_or_ge e.block e.geometry.messageLength with hblock | hpast
    · have hfull : e.blockLength ≤ e.filled := by
        rw [hwhole, ← h.geometry]
        exact Nat.min_le_right _ _
      rw [nextRead_of_full hblock hfull]
      refine ⟨hsame, fun hsome => ?_⟩
      rw [hstays hsome]
      exact hnext
    · rw [nextRead_of_past (e := { e with block := e.block + 1, filled := 0 })
        (Nat.le_succ_of_le hpast)] at hsame
      rw [nextRead_of_past hpast, ← hsame]
      exact ⟨rfl, nofun⟩

/-- Bytes in front of the zeros of a buffer. -/
theorem overwrite_fit {n : Nat} {held data : ByteArray} (h : held.size + data.size ≤ n) :
    Bytes.overwrite (Bytes.fit n held) held.size data = Bytes.fit n (held ++ data) := by
  have hroom : held.size + data.size ≤ (Bytes.fit n held).size := by rwa [Bytes.size_fit]
  refine Bytes.ext_at0 ?_ ?_
  · rw [Bytes.size_overwrite hroom, Bytes.size_fit, Bytes.size_fit]
  · intro m hm
    rw [Bytes.size_overwrite hroom, Bytes.size_fit] at hm
    rw [Bytes.at0_overwrite hroom, Bytes.at0_fit, Bytes.at0_fit, if_pos hm, if_pos hm,
      Bytes.at0_append]
    by_cases hheld : m < held.size
    · rw [if_neg (fun hnew => Nat.not_le.mpr hheld hnew.1), if_pos hheld]
    · rw [if_neg hheld]
      by_cases hdata : m < held.size + data.size
      · rw [if_pos ⟨Nat.not_lt.mp hheld, hdata⟩]
      · rw [if_neg (fun hnew => hdata hnew.2), Bytes.at0_of_size_le (Nat.not_lt.mp hheld),
          Bytes.at0_of_size_le (by omega)]

/-- What is delivered for a request, in full or in part, has room in the buffer. -/
theorem Mirrors.completeRead (h : e.Mirrors r) (hrounds : 0 < r.geometry.rounds)
    (hpos : 0 < r.geometry.blockSize) {offset length : Nat}
    (hread : e.nextRead.2 = some (offset, length)) {data : ByteArray} (hdata : data.size ≤ length) :
    ∃ e', e.nextRead.1.completeRead data = some e' ∧ e'.code = e.code ∧
      e'.Mirrors (r.gather data) := by
  obtain ⟨hsame, hstays⟩ := h.nextRead hrounds hpos
  rw [hread] at hsame
  have hstands := hstays (by rw [← hsame]; rfl)
  obtain ⟨j, filled, hj, hblock, -, hgathered, -, -⟩ := Round.nextRead_eq_some hsame.symm
  have hroom : r.gathered.size + data.size ≤
      r.geometry.messageLength * r.geometry.blockSize := by
    have hend := Nat.mul_le_mul_right r.geometry.blockSize (Nat.succ_le_of_lt hj)
    rw [Nat.succ_mul] at hend
    omega
  have hplace : e.nextRead.1.block * e.nextRead.1.geometry.blockSize + e.nextRead.1.filled =
      r.gathered.size := by rw [hstands.place, hstands.geometry]
  unfold Encoder.completeRead
  dsimp only
  rw [hplace, hstands.blocks, Bytes.size_fit, if_pos hroom]
  refine ⟨_, rfl, e.nextRead_keeps.2.1, ?_⟩
  have hwithin : e.nextRead.1.filled + length ≤ r.geometry.blockSize := by
    rw [(nextRead_eq_some hread).2.1, ← hstands.geometry]
    exact Nat.min_le_right _ _
  refine ⟨hstands.geometry, hstands.index, overwrite_fit hroom, ?_, ?_, ?_⟩
  · show (r.gathered ++ data).size =
      e.nextRead.1.block * r.geometry.blockSize + (e.nextRead.1.filled + data.size)
    rw [ByteArray.size_append, hstands.place]
    omega
  · show e.nextRead.1.filled + data.size ≤ r.geometry.blockSize
    omega
  · rwa [Round.size_gathered_gather]

/-- An encoder has the messages of its round, and so the parity bytes. -/
theorem Mirrors.parity_eq (h : e.Mirrors r) : e.parity = r.parity e.code := by
  unfold parity Round.parity
  rw [h.geometry]
  congr 1
  apply List.map_congr_left
  intro k hk
  congr 2
  unfold message Round.message
  rw [h.geometry]
  apply List.map_congr_left
  intro j hj
  rw [h.blocks, Bytes.at0_fit,
    if_pos (add_lt_of_block (List.mem_range.mp hj) (List.mem_range.mp hk))]

/-- The search for what is missing does not change the parity bytes. -/
theorem parity_nextRead (e : Encoder) : e.nextRead.1.parity = e.parity := by
  obtain ⟨hgeometry, hcode, -, hblocks⟩ := e.nextRead_keeps
  unfold parity message
  rw [hgeometry, hcode, hblocks]

/-- With nothing but zeros in the buffer, a round is at its beginning. -/
theorem mirrors_start {g : Geometry} (code : Code) (i : Nat) {blocks : ByteArray}
    (h : blocks = Bytes.zeros (g.messageLength * g.blockSize)) :
    Mirrors ⟨g, code, i, 0, 0, blocks⟩ (Round.start g i) := by
  refine ⟨rfl, rfl, ?_, ?_, Nat.zero_le _, Nat.zero_le _⟩
  · show blocks = Bytes.fit (g.messageLength * g.blockSize) ByteArray.empty
    subst h
    refine Bytes.ext_at0 (by rw [Bytes.size_zeros, Bytes.size_fit]) fun m hm => ?_
    rw [Bytes.at0_zeros, Bytes.at0_fit, if_pos (by rwa [Bytes.size_zeros] at hm)]
    exact (Bytes.at0_of_size_le (Nat.zero_le m)).symm
  · show 0 = 0 * g.blockSize + 0
    rw [Nat.zero_mul]

end Encoder

end SlotVerify.Fec
