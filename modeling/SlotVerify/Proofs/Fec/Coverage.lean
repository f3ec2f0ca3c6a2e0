import Mathlib.Algebra.Group.Nat.Defs
import Mathlib.Logic.ExistsUnique
import Mathlib.Tactic.ByContra
import SlotVerify.Proofs.Fec.Words
/-
  Which bytes of the covered region belong to a code word.

  A `Geometry.Place` is a symbol of a message: a round, a block of the round, and a byte of the
  block.  The interleaving sends different places to different bytes (`Place.offset_injective`), and
  the bytes that it reaches are the first `Geometry.capacity` ones, as many as there are places
  (`Place.existsUnique_offset_iff`).

  So everything hangs on two conditions (`region_covered_iff`).

  1. The region has to fit into the rounds.  Their number comes from the region's whole blocks only.
     A block that is cut off at the region's end finds room if the whole blocks leave some in the
     last round; where they fill all rounds, its bytes are in no code word.

  2. The blocks have to begin at words.  The first block that does not, if offsets are cut off,
     begins inside the very first one, whose bytes then have two places
     (`Place.exists_twice_of_not_fit`).
-/

namespace SlotVerify.Fec

open Verity (wordLimit)

/-- The quotient rounded up is the least number of stretches of length `b` that hold `a`. -/
theorem ceilDiv_le_iff {a b n : Nat} (hb : 0 < b) : ceilDiv a b ≤ n ↔ a ≤ n * b := by
  unfold ceilDiv
  rw [← Nat.lt_succ_iff, Nat.div_lt_iff_lt_mul hb, Nat.succ_mul]
  omega

theorem ceilDiv_zero (b : Nat) : ceilDiv 0 b = 0 := by
  unfold ceilDiv
  rcases Nat.eq_zero_or_pos b with rfl | hpos
  · rfl
  · exact Nat.div_eq_of_lt (by omega)

/-- Rounding up leaves some room exactly if there is a remainder. -/
theorem lt_ceilDiv_mul_iff {a b : Nat} (hb : 0 < b) : a < ceilDiv a b * b ↔ a % b ≠ 0 := by
  constructor
  · intro hroom hzero
    have hwhole : a / b * b = a := Nat.div_mul_cancel (Nat.dvd_of_mod_eq_zero hzero)
    have hfits : ceilDiv a b ≤ a / b := (ceilDiv_le_iff hb).mpr (Nat.le_of_eq hwhole.symm)
    have hmul := Nat.mul_le_mul_right b hfits
    omega
  · intro hremainder
    refine Nat.lt_of_le_of_ne ((ceilDiv_le_iff hb).mp (Nat.le_refl _)) ?_
    intro hfull
    rw [hfull, Nat.mul_mod_left] at hremainder
    exact hremainder rfl

namespace Geometry

/-- The parity bytes of a region that a word can number are fewer than words can number: there are
    at least nine times as many message bytes, but for those of one round. -/
theorem roundsFor_mul_lt {blockSize roots dataSize : Nat}
    (hword : blockSize < 2 ^ 32) (hroots : roots ≤ maxRoots)
    (hdata : dataSize < wordLimit) :
    roundsFor blockSize roots dataSize * roots * blockSize < wordLimit := by
  have hroots' : roots ≤ 24 := hroots
  have hlimit : wordLimit = 2 ^ 64 := by decide
  have hmessage : 9 * roots ≤ codeWordLength - roots := by
    unfold codeWordLength
    omega
  have hlength : 0 < codeWordLength - roots := by
    unfold codeWordLength
    omega
  have hblocks : dataSize / blockSize * blockSize ≤ dataSize := Nat.div_mul_le_self _ _
  unfold roundsFor
  generalize codeWordLength - roots = length at hmessage hlength ⊢
  generalize dataSize / blockSize = blocks at hblocks ⊢
  have hrounds : ceilDiv blocks length ≤ blocks / length + 1 := by
    rw [ceilDiv_le_iff hlength, Nat.mul_comm]
    exact Nat.le_of_lt (Nat.lt_mul_div_succ blocks hlength)
  have hwhole : blocks / length * (9 * roots) ≤ blocks :=
    Nat.le_trans (Nat.mul_le_mul_left _ hmessage) (Nat.div_mul_le_self _ _)
  generalize blocks / length = whole at hrounds hwhole
  have hninth : 9 * (whole * roots * blockSize) ≤ dataSize :=
    calc 9 * (whole * roots * blockSize) = whole * (9 * roots) * blockSize := by
          rw [Nat.mul_assoc whole, Nat.mul_left_comm, ← Nat.mul_assoc 9, ← Nat.mul_assoc whole]
      _ ≤ blocks * blockSize := Nat.mul_le_mul_right _ hwhole
      _ ≤ dataSize := hblocks
  have hround : roots * blockSize ≤ 24 * 2 ^ 32 :=
    Nat.mul_le_mul hroots' (Nat.le_of_lt hword)
  have hall : ceilDiv blocks length * roots * blockSize ≤
      whole * roots * blockSize + roots * blockSize :=
    calc ceilDiv blocks length * roots * blockSize
        ≤ (whole + 1) * roots * blockSize :=
          Nat.mul_le_mul_right _ (Nat.mul_le_mul_right _ hrounds)
      _ = whole * roots * blockSize + roots * blockSize := by rw [Nat.succ_mul, Nat.add_mul]
  omega

variable {g : Geometry} {l : Verity.Layout}

/-- A symbol of a message: a byte of one of the blocks of a round. -/
structure Place (g : Geometry) where
  round : Fin g.rounds
  block : Fin g.messageLength
  byte : Fin g.blockSize

/-- Where the byte at a place is, from the beginning of the covered region. -/
def Place.offset (p : g.Place) : Nat := g.blockOffset p.round p.block + p.byte

/-- How many bytes the rounds have room for. -/
def capacity (g : Geometry) : Nat := g.rounds * g.messageLength * g.blockSize

namespace Place

theorem offset_eq (p : g.Place) :
    p.offset = (p.round + p.block * g.rounds) * g.blockSize + p.byte := by
  rw [offset, blockOffset_eq]

theorem offset_div (p : g.Place) : p.offset / g.blockSize = p.round + p.block * g.rounds := by
  rw [offset_eq, div_of_block _ p.byte.isLt]

theorem offset_mod (p : g.Place) : p.offset % g.blockSize = p.byte := by
  rw [offset_eq, mod_of_block _ p.byte.isLt]

/-- No byte is at two places: it says itself which byte of which block it is, and the block says
    its round. -/
theorem offset_injective : Function.Injective (offset (g := g)) := by
  intro p q h
  have hbyte : (p.byte : Nat) = q.byte := by rw [← offset_mod, ← offset_mod, h]
  have hindex : (p.round + p.block * g.rounds : Nat) = q.round + q.block * g.rounds := by
    rw [← offset_div, ← offset_div, h]
  have hround : (p.round : Nat) = q.round := by
    have := congrArg (· % g.rounds) hindex
    simpa [Nat.add_mul_mod_self_right, Nat.mod_eq_of_lt] using this
  have hblock : (p.block : Nat) = q.block := by
    rw [hround] at hindex
    exact Nat.eq_of_mul_eq_mul_right p.round.pos (Nat.add_left_cancel hindex)
  cases p
  cases q
  simp_all [Fin.ext_iff]

theorem offset_lt_capacity (p : g.Place) : p.offset < g.capacity := by
  have hindex := blockNumber_lt p.round.isLt p.block.isLt
  have hblock := Nat.mul_le_mul_right g.blockSize hindex
  rw [Nat.succ_mul] at hblock
  rw [offset_eq, capacity]
  have hbyte := p.byte.isLt
  omega

/-- Every byte that there is room for has a place. -/
theorem exists_offset_eq {x : Nat} (hx : x < g.capacity) : ∃ p : g.Place, p.offset = x := by
  have hroom : 0 < g.capacity := Nat.zero_lt_of_lt hx
  unfold capacity at hx hroom
  have hsize : 0 < g.blockSize := Nat.pos_of_mul_pos_left hroom
  have hrounds : 0 < g.rounds := Nat.pos_of_mul_pos_right (Nat.pos_of_mul_pos_right hroom)
  have hindex : x / g.blockSize < g.rounds * g.messageLength := (Nat.div_lt_iff_lt_mul hsize).mpr hx
  have hblock : x / g.blockSize / g.rounds < g.messageLength := Nat.div_lt_of_lt_mul hindex
  refine ⟨⟨⟨_, Nat.mod_lt (x / g.blockSize) hrounds⟩, ⟨_, hblock⟩, ⟨_, Nat.mod_lt x hsize⟩⟩, ?_⟩
  rw [offset_eq, Nat.mul_comm (x / g.blockSize / g.rounds), Nat.mod_add_div, Nat.mul_comm,
    Nat.div_add_mod]

theorem existsUnique_offset_iff {x : Nat} : (∃! p : g.Place, p.offset = x) ↔ x < g.capacity := by
  constructor
  · rintro ⟨p, rfl, -⟩
    exact p.offset_lt_capacity
  · intro hx
    obtain ⟨p, hp⟩ := exists_offset_eq hx
    refine ⟨p, hp, ?_⟩
    rintro q hq
    exact offset_injective (hq.trans hp.symm)

end Place

/-! ## Offsets in words -/

/-- Where the byte at a place is, as a machine works it out. -/
def Place.offsetOnWords (p : g.Place) (o : Overflow) : Option Nat :=
  (g.blockOffsetOnWords o p.round p.block).map (· + p.byte)

/-- A machine finds an offset for every place, and just one place for each of the first `n`
    bytes. -/
structure CoversOnce (g : Geometry) (o : Overflow) (n : Nat) : Prop where
  offset : ∀ p : g.Place, ∃ x, p.offsetOnWords o = some x
  once : ∀ x, x < n → ∃! p : g.Place, p.offsetOnWords o = some x

namespace Place

theorem offsetOnWords_of_fit (h : g.OffsetsFit) (o : Overflow) (p : g.Place) :
    p.offsetOnWords o = some p.offset := by
  unfold offsetOnWords
  rw [h.onWords o p.byte.pos p.round.isLt p.block.isLt]
  rfl

/-- The byte at the beginning of a block is where the block is. -/
theorem offset_eq_blockOffset {p : g.Place} {n : Nat} (h : p.offset = n * g.blockSize) :
    p.offset = g.blockOffset p.round p.block ∧ (p.byte : Nat) = 0 := by
  have hbyte : (p.byte : Nat) = 0 := by rw [← offset_mod, h, Nat.mul_mod_left]
  refine ⟨?_, hbyte⟩
  rw [offset, hbyte, Nat.add_zero]

/-- The first place is at the beginning of the region, whatever becomes of large numbers. -/
theorem offsetOnWords_first (o : Overflow) {p : g.Place} (hround : (p.round : Nat) = 0)
    (hblock : (p.block : Nat) = 0) : p.offsetOnWords o = some p.byte := by
  have hzero : g.blockOffset p.round p.block = 0 := by
    rw [blockOffset_eq, hround, hblock, Nat.zero_mul, Nat.zero_add, Nat.zero_mul]
  unfold offsetOnWords
  rw [blockOffsetOnWords_of_lt o p.byte.pos (by rw [hzero]; decide), hzero]
  exact congrArg some (Nat.zero_add _)

/-- Once a block begins behind the last word, there is a place without an offset, or there are two
    places at one byte of the first block. -/
theorem exists_twice_of_not_fit (h : ¬ g.OffsetsFit) (o : Overflow) :
    (∃ p : g.Place, p.offsetOnWords o = none) ∨
      ∃ p q : g.Place, ∃ x, p ≠ q ∧ x < g.blockSize ∧ p.offsetOnWords o = some x ∧
        q.offsetOnWords o = some x := by
  unfold OffsetsFit at h
  have hpos : 0 < g.blockSize := by
    rcases Nat.eq_zero_or_pos g.blockSize with hzero | hpos
    · rw [hzero, Nat.mul_zero] at h
      exact absurd (by decide) h
    · exact hpos
  -- the first block that does not begin at a word
  have hbelow := (ceilDiv_le_iff hpos).mpr (Nat.not_lt.mp h)
  have hfirst := (ceilDiv_le_iff (n := ceilDiv wordLimit g.blockSize) hpos).mp (Nat.le_refl _)
  have hnear : ceilDiv wordLimit g.blockSize * g.blockSize < wordLimit + g.blockSize := by
    have hle := Nat.div_mul_le_self (wordLimit + g.blockSize - 1) g.blockSize
    unfold ceilDiv
    omega
  generalize ceilDiv wordLimit g.blockSize = n at *
  have hinside : n * g.blockSize < g.capacity := by
    have hn : n ≠ 0 := by
      rintro rfl
      rw [Nat.zero_mul] at hfirst
      exact absurd hfirst (by decide)
    exact (Nat.mul_lt_mul_right hpos).mpr (by omega)
  obtain ⟨p, hp⟩ := exists_offset_eq hinside
  obtain ⟨hoffset, hbyte⟩ := offset_eq_blockOffset hp
  rw [hp] at hoffset
  cases o with
  | breaksDown =>
    refine .inl ⟨p, ?_⟩
    unfold offsetOnWords
    rw [blockOffsetOnWords_breaksDown (by omega)]
    rfl
  | wraps =>
    have hx : n * g.blockSize % wordLimit < g.blockSize := by
      rw [Nat.mod_eq_sub_mod hfirst]
      exact Nat.lt_of_le_of_lt (Nat.mod_le _ _) (by omega)
    refine .inr ⟨p, ⟨⟨0, p.round.pos⟩, ⟨0, p.block.pos⟩, ⟨_, hx⟩⟩, n * g.blockSize % wordLimit, ?_,
      hx, ?_, offsetOnWords_first .wraps rfl rfl⟩
    · intro hsame
      rw [hsame, blockOffset_eq, Nat.zero_mul, Nat.zero_add, Nat.zero_mul] at hoffset
      rw [hoffset] at hfirst
      exact absurd hfirst (by decide)
    · unfold offsetOnWords
      rw [blockOffsetOnWords_wraps, ← hoffset, Option.map_some, hbyte, Nat.add_zero]

end Place

/-! ## The region of a layout -/

/-- The number of rounds of a layout's geometry, and what its parameters are like. -/
theorem rounds_ofLayout (h : ofLayout l = .ok g) :
    g.rounds = ceilDiv (l.fecDataSize / l.blockSize) g.messageLength ∧ 0 < l.blockSize ∧
      0 < g.messageLength := by
  have hmessage : 0 < g.messageLength := by
    have hmax := (madeFor_ofLayout h).le_maxRoots
    unfold messageLength codeWordLength
    unfold maxRoots at hmax
    omega
  unfold ofLayout at h
  split at h
  · cases h
  · split at h
    · cases h
    · rename_i hsize
      dsimp only at h
      split at h
      · cases h
      · cases h
        exact ⟨rfl, Nat.pos_of_ne_zero hsize, hmessage⟩

theorem blockSize_pos_ofLayout (h : ofLayout l = .ok g) : 0 < g.blockSize := by
  rw [(madeFor_ofLayout h).blockSize]
  exact (rounds_ofLayout h).2.1

/-- The rounds have room for the whole blocks of the region, and for more exactly if these leave a
    part of the last round over. -/
theorem capacity_ofLayout (h : ofLayout l = .ok g) : ∃ blocks, g.capacity = blocks * l.blockSize ∧
    l.fecDataSize / l.blockSize ≤ blocks ∧
    (l.fecDataSize / l.blockSize < blocks ↔
      l.fecDataSize / l.blockSize % g.messageLength ≠ 0) := by
  obtain ⟨hrounds, -, hmessage⟩ := rounds_ofLayout h
  refine ⟨g.rounds * g.messageLength, ?_, ?_, ?_⟩
  · rw [capacity, (madeFor_ofLayout h).blockSize]
  · rw [hrounds]
    exact (ceilDiv_le_iff hmessage).mp (Nat.le_refl _)
  · rw [hrounds]
    exact lt_ceilDiv_mul_iff hmessage

/-- The region fits into its rounds unless its whole blocks fill them and bytes are left over. -/
theorem fecDataSize_le_capacity_iff (h : ofLayout l = .ok g) :
    l.fecDataSize ≤ g.capacity ↔
      l.fecDataSize % l.blockSize = 0 ∨ l.fecDataSize / l.blockSize % g.messageLength ≠ 0 := by
  obtain ⟨blocks, hcapacity, hwhole, hmore⟩ := capacity_ofLayout h
  have hcut := Nat.div_add_mod' l.fecDataSize l.blockSize
  have hrest := Nat.mod_lt l.fecDataSize (rounds_ofLayout h).2.1
  have hblocks := Nat.mul_le_mul_right l.blockSize hwhole
  rw [hcapacity, ← hmore]
  constructor
  · intro hfits
    by_contra hfull
    rw [not_or, Nat.not_lt] at hfull
    have hlast := Nat.mul_le_mul_right l.blockSize hfull.2
    omega
  · rintro (haligned | hroom)
    · omega
    · -- room for a block more
      have hblock := Nat.mul_le_mul_right l.blockSize (Nat.succ_le_of_lt hroom)
      rw [Nat.succ_mul] at hblock
      omega

/-- The rounds reach at most one round behind the end of the region, so their blocks begin at words
    where there is room for that. -/
theorem offsetsFit_of_le (h : ofLayout l = .ok g)
    (hroom : l.fecDataSize + codeWordLength * l.blockSize ≤ wordLimit) : g.OffsetsFit := by
  obtain ⟨hrounds, hpos, hmessage⟩ := rounds_ofLayout h
  have hlength : g.messageLength ≤ codeWordLength := Nat.sub_le _ _
  have hceil : g.rounds * g.messageLength ≤ l.fecDataSize / l.blockSize + g.messageLength - 1 := by
    rw [hrounds]
    unfold ceilDiv
    exact Nat.div_mul_le_self _ _
  have hcount : g.rounds * g.messageLength - 1 < l.fecDataSize / l.blockSize + codeWordLength := by
    have hsome : 0 < codeWordLength := by decide
    generalize g.rounds * g.messageLength = blocks at hceil ⊢
    generalize l.fecDataSize / l.blockSize = whole at hceil ⊢
    omega
  unfold OffsetsFit
  rw [(madeFor_ofLayout h).blockSize]
  calc (g.rounds * g.messageLength - 1) * l.blockSize
      < (l.fecDataSize / l.blockSize + codeWordLength) * l.blockSize :=
        (Nat.mul_lt_mul_right hpos).mpr hcount
    _ ≤ l.fecDataSize + codeWordLength * l.blockSize := by
        rw [Nat.add_mul]
        exact Nat.add_le_add_right (Nat.div_mul_le_self _ _) _
    _ ≤ wordLimit := hroom

/-- With offsets at words, a machine finds one place for each byte that there is room for. -/
theorem coversOnce_iff_of_fit (h : g.OffsetsFit) (o : Overflow) (n : Nat) :
    g.CoversOnce o n ↔ n ≤ g.capacity := by
  constructor
  · rintro ⟨-, honce⟩
    by_contra hbehind
    have hone := honce g.capacity (Nat.not_le.mp hbehind)
    simp only [Place.offsetOnWords_of_fit h, Option.some.injEq] at hone
    exact Nat.lt_irrefl _ (Place.existsUnique_offset_iff.mp hone)
  · intro hroom
    refine ⟨fun p => ⟨_, Place.offsetOnWords_of_fit h o p⟩, fun x hx => ?_⟩
    simp only [Place.offsetOnWords_of_fit h, Option.some.injEq]
    exact Place.existsUnique_offset_iff.mpr (Nat.lt_of_lt_of_le hx hroom)

/-- A region that is covered begins its blocks at words. -/
theorem CoversOnce.offsetsFit (h : ofLayout l = .ok g) {o : Overflow}
    (hcovers : g.CoversOnce o l.fecDataSize) : g.OffsetsFit := by
  by_contra hlarge
  rcases Place.exists_twice_of_not_fit hlarge o with ⟨p, hnone⟩ | ⟨p, q, x, hne, hx, hp, hq⟩
  · obtain ⟨x, hx⟩ := hcovers.offset p
    rw [hnone] at hx
    cases hx
  · -- there is a round, so the first block lies inside the region
    have hrounds := p.round.pos
    obtain ⟨hceil, -, hmessage⟩ := rounds_ofLayout h
    have hwhole : 1 ≤ l.fecDataSize / l.blockSize := by
      refine Nat.pos_of_ne_zero fun hzero => ?_
      rw [hceil, hzero, ceilDiv_zero] at hrounds
      exact Nat.lt_irrefl _ hrounds
    have hinside := Nat.mul_le_of_le_div _ _ _ hwhole
    rw [Nat.one_mul, ← (madeFor_ofLayout h).blockSize] at hinside
    exact hne ((hcovers.once x (Nat.lt_of_lt_of_le hx hinside)).unique hp hq)

/-- However a machine treats numbers that are too large: it finds an offset for each place, and one
    place for each byte of the region, exactly if the region ends with a whole block or its whole
    blocks do not fill all rounds, and the last block of all begins at a word.  Under the second
    condition the bytes of whole blocks belong to exactly one code word each in any case; and where
    the whole blocks fill all rounds, no code word has a byte behind them. -/
theorem region_covered_iff (h : ofLayout l = .ok g) (o : Overflow) :
    (g.CoversOnce o l.fecDataSize ↔
      (l.fecDataSize % l.blockSize = 0 ∨
        l.fecDataSize / l.blockSize % (codeWordLength - l.fecRoots) ≠ 0) ∧ g.OffsetsFit) ∧
    (g.OffsetsFit → g.CoversOnce o (l.fecDataSize / l.blockSize * l.blockSize) ∧
      (l.fecDataSize / l.blockSize % (codeWordLength - l.fecRoots) = 0 →
        ∀ (p : g.Place) x, p.offsetOnWords o = some x →
          x < l.fecDataSize / l.blockSize * l.blockSize)) ∧
    (l.fecDataSize + codeWordLength * l.blockSize ≤ wordLimit → g.OffsetsFit) := by
  have hfits := fecDataSize_le_capacity_iff h
  obtain ⟨blocks, hcapacity, hwhole, hmore⟩ := capacity_ofLayout h
  rw [messageLength, (madeFor_ofLayout h).roots] at hfits hmore
  rw [← hfits]
  refine ⟨⟨?_, ?_⟩, fun hwords => ⟨?_, ?_⟩, offsetsFit_of_le h⟩
  · intro hcovers
    have hwords := hcovers.offsetsFit h
    exact ⟨(coversOnce_iff_of_fit hwords o _).mp hcovers, hwords⟩
  · rintro ⟨hroom, hwords⟩
    exact (coversOnce_iff_of_fit hwords o _).mpr hroom
  · rw [coversOnce_iff_of_fit hwords, hcapacity]
    exact Nat.mul_le_mul_right _ hwhole
  · intro hfull p x hx
    rw [Place.offsetOnWords_of_fit hwords, Option.some.injEq] at hx
    have hlast : blocks ≤ l.fecDataSize / l.blockSize := by
      rw [← Nat.not_lt, hmore]
      exact not_not.mpr hfull
    have hoffset := p.offset_lt_capacity
    rw [hcapacity, hx] at hoffset
    exact Nat.lt_of_lt_of_le hoffset (Nat.mul_le_mul_right _ hlast)

/-- A layout with parity bytes for one round of blocks of 4096 bytes. -/
def oneRound (fecDataSize : Nat) : Verity.Layout where
  blockSize := 4096
  hashTreeAlgorithm := "sha256"
  hashTreeSalt := ByteArray.empty
  hashTreeDataOffset := 0
  hashTreeDataSize := 0
  hashTreeOffset := 0
  hashTreeSize := 0
  fecDataOffset := 0
  fecDataSize
  fecOffset := 1040384
  fecSize := 8192
  fecRoots := 2

/-- Ten blocks and a hundred bytes: the round has room for them. -/
theorem region_covered_tenBlocks : ∃ g, ofLayout (oneRound 41060) = .ok g ∧
    ∀ o, g.CoversOnce o 41060 := by
  refine ⟨_, rfl, fun o => ?_⟩
  exact (region_covered_iff (l := oneRound 41060) rfl o).1.mpr ⟨Or.inr (by decide), by decide⟩

/-- With 253 blocks the round is full, and the first of a hundred further bytes is in no code word,
    although the layout is accepted. -/
theorem uncovered_fullRound : ∃ g, ofLayout (oneRound 1036388) = .ok g ∧
    (oneRound 1036388).fecSize ≠ 0 ∧ 1036288 < (oneRound 1036388).fecDataSize ∧
    ∀ o, ∀ p : g.Place, p.offsetOnWords o ≠ some 1036288 := by
  refine ⟨_, rfl, by decide, by decide, fun o p => ?_⟩
  rw [Place.offsetOnWords_of_fit (by decide)]
  exact fun h => Nat.ne_of_lt p.offset_lt_capacity (Option.some.inj h)

/-- Blocks of 2 ^ 31 bytes, and a region that ends where offsets do: the last blocks of the last
    rounds begin behind them. -/
example :
    let g : Geometry := ⟨2 ^ 31, 2, roundsFor (2 ^ 31) 2 (2 ^ 64 - 2 ^ 31), 0, 2 ^ 64 - 2 ^ 31, 0⟩
    g.rounds = 33952311 ∧ g.blockOffset 33952220 252 = 2 ^ 64 ∧ ¬ g.OffsetsFit := by
  decide +kernel

end Geometry

end SlotVerify.Fec
