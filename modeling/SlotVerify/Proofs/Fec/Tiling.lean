import SlotVerify.Proofs.Verity.Footprint
import SlotVerify.Proofs.Verity.Initializing
/-
  The parity bytes of the rounds as a tiling of the region reserved for them.

  1. A geometry is made from numbers that nobody has checked.  What is calculated from them stays a
     word nevertheless (`products_lt`): the region's size bounds the parity bytes, since a round
     covers at least nine times as many bytes as it adds.

  2. Each round has as many parity bytes as any other, and they follow one another.  So a byte
     behind the beginning of the first belongs to the round that division by `roundSize` gives
     (`roundRegion_iff`), which makes the rounds disjoint and leaves no gap between them.

  3. The crux is where the tiles end.  Two checks meet there: a geometry is made only if the rounds
     take up just the reserved size, and a layout is begun only if the reserved region ends at a
     word (`rounds_tile_region`).
-/

namespace SlotVerify.Fec

namespace Geometry

open Verity (wordLimit Layout Writer)

/-- The bytes on the device that a round's parity goes to. -/
def RoundRegion (g : Geometry) (i x : Nat) : Prop :=
  g.roundOffset i ≤ x ∧ x < g.roundOffset i + g.roundSize

/-- Every number on the way to a round's place is a word. -/
structure PlacedInWords (g : Geometry) (i : Nat) : Prop where
  size : g.roots * g.blockSize < wordLimit
  skipped : i * g.roundSize < wordLimit
  offset : g.fecOffset + i * g.roundSize < wordLimit
  last : g.roundOffset i + g.roundSize < wordLimit

/-- Making a geometry: none of the products in the check on the reserved size exceeds a word. -/
theorem products_lt {blockSize roots dataSize : Nat} (hpos : 0 < blockSize)
    (hword : blockSize < 2 ^ 32) (hmin : minRoots ≤ roots) (hmax : roots ≤ maxRoots)
    (hdata : dataSize < wordLimit) :
    roundsFor blockSize roots dataSize < wordLimit ∧
      roundsFor blockSize roots dataSize * roots < wordLimit ∧
      roundsFor blockSize roots dataSize * roots * blockSize < wordLimit := by
  have hall := roundsFor_mul_lt hword hmax hdata
  have hroots : 0 < roots := Nat.lt_of_lt_of_le (by decide) hmin
  have hparity : roundsFor blockSize roots dataSize * roots < wordLimit :=
    Nat.lt_of_le_of_lt (Nat.le_mul_of_pos_right _ hpos) hall
  exact ⟨Nat.lt_of_le_of_lt (Nat.le_mul_of_pos_right _ hroots) hparity, hparity, hall⟩

section Rounds

variable {g : Geometry}

/-- A byte belongs to the round that its distance from the first parity byte gives. -/
theorem roundRegion_iff (hpos : 0 < g.roundSize) {i x : Nat} :
    g.RoundRegion i x ↔ g.fecOffset ≤ x ∧ (x - g.fecOffset) / g.roundSize = i := by
  unfold RoundRegion roundOffset
  rw [Nat.div_eq_iff hpos]
  omega

/-- No byte belongs to two rounds. -/
theorem RoundRegion.unique (hpos : 0 < g.roundSize) {i j x : Nat} (hi : g.RoundRegion i x)
    (hj : g.RoundRegion j x) : i = j := by
  rw [roundRegion_iff hpos] at hi hj
  exact hi.2.symm.trans hj.2

/-- The first `n` rounds leave no byte out. -/
theorem exists_roundRegion_iff (hpos : 0 < g.roundSize) (n : Nat) {x : Nat} :
    (∃ i, i < n ∧ g.RoundRegion i x) ↔ g.fecOffset ≤ x ∧ x < g.fecOffset + n * g.roundSize := by
  constructor
  · rintro ⟨i, hi, hregion⟩
    obtain ⟨hlow, hround⟩ := (roundRegion_iff hpos).mp hregion
    rw [← hround, Nat.div_lt_iff_lt_mul hpos] at hi
    exact ⟨hlow, by omega⟩
  · rintro ⟨hlow, hhigh⟩
    refine ⟨(x - g.fecOffset) / g.roundSize, ?_, (roundRegion_iff hpos).mpr ⟨hlow, rfl⟩⟩
    rw [Nat.div_lt_iff_lt_mul hpos]
    omega

/-- Rounds that end before the limit are placed without exceeding it. -/
theorem placedInWords {i : Nat} (hi : i < g.rounds)
    (hlast : g.fecOffset + g.rounds * g.roundSize < wordLimit) : g.PlacedInWords i := by
  have hend : i * g.roundSize + g.roundSize ≤ g.rounds * g.roundSize := by
    rw [← Nat.succ_mul]
    exact Nat.mul_le_mul_right _ hi
  refine ⟨?_, ?_, ?_, ?_⟩
  · show g.roundSize < wordLimit
    omega
  · omega
  · omega
  · unfold roundOffset
    omega

end Rounds

section Begun

variable {w : Writer} {l : Layout}

/-- A layout with parity bytes that is begun has a geometry, and its parity ends at a word. -/
theorem exists_of_begun (h : (w.init l).2 = .ok ()) (hsome : l.fecSize ≠ 0) :
    ∃ s g, (w.init l).1.session = some s ∧ s.fec = some g ∧ ofLayout l = .ok g ∧
      l.fecOffset + l.fecSize < wordLimit := by
  unfold Writer.init at h ⊢
  cases hnew : Verity.Session.new l w.memory with
  | error f =>
    rw [hnew] at h
    cases h
  | ok s =>
    obtain ⟨rfl, -, hfed⟩ := Verity.Session.fed_new hnew
    rcases Verity.Session.fecGeometry_eq_ok hfed.fec with ⟨hzero, -⟩ | ⟨-, g, hg, hlayout⟩
    · exact absurd hzero hsome
    · exact ⟨s, g, rfl, hg, hlayout, (Verity.Session.regionsFit_of_new hnew).fec⟩

/-- No product in the check on a layout's reserved size exceeds a word.  Once a layout with parity
    bytes is begun, the rounds' shares of them can be placed within words, no two of them have a
    byte in common, and together they are just the reserved region.  Each share is as long as what
    is written to it, however the round came to be read. -/
theorem rounds_tile_region :
    (∀ blockSize roots dataSize, 0 < blockSize → blockSize < 2 ^ 32 → dataSize < wordLimit →
      minRoots ≤ roots → roots ≤ maxRoots → roots < codeWordLength ∧
        roundsFor blockSize roots dataSize < wordLimit ∧
        roundsFor blockSize roots dataSize * roots < wordLimit ∧
        roundsFor blockSize roots dataSize * roots * blockSize < wordLimit) ∧
    ∀ (w : Writer) (l : Layout), (w.init l).2 = .ok () → l.fecSize ≠ 0 →
      ∃ s g code, (w.init l).1.session = some s ∧ s.fec = some g ∧ ofLayout l = .ok g ∧
        Code.ofRoots? g.roots = some code ∧
        (∀ r : Round, r.geometry = g → (r.parity code).size = g.roundSize) ∧
        (∀ i, i < g.rounds → g.PlacedInWords i) ∧
        (∀ i j x, g.RoundRegion i x → g.RoundRegion j x → i = j) ∧
        ∀ x, (∃ i, i < g.rounds ∧ g.RoundRegion i x) ↔ l.FecRegion x := by
  constructor
  · intro blockSize roots dataSize hpos hword hdata hmin hmax
    exact ⟨Nat.lt_of_le_of_lt hmax (by decide), products_lt hpos hword hmin hmax hdata⟩
  · intro w l hinit hsome
    obtain ⟨s, g, hsession, hfec, hlayout, hend⟩ := exists_of_begun hinit hsome
    have hmade := madeFor_ofLayout hlayout
    have hsize : g.rounds * g.roundSize = l.fecSize := hmade.fecSize
    have hpos : 0 < g.roundSize := by
      refine Nat.pos_of_ne_zero fun hzero => hsome ?_
      rw [← hsize, hzero, Nat.mul_zero]
    obtain ⟨code, hcode⟩ := exists_ofRoots? hmade.minRoots_le hmade.le_maxRoots
    obtain ⟨hroots, hmin, -⟩ := Code.of_ofRoots? hcode
    have hrootsPos : 0 < code.roots := by
      rw [hroots]
      exact Nat.lt_of_lt_of_le (by decide) hmin
    refine ⟨s, g, code, hsession, hfec, hlayout, hcode, ?_, ?_, ?_, ?_⟩
    · intro r hr
      exact Round.size_parity_eq_roundSize hrootsPos hroots hr
    · intro i hi
      apply placedInWords hi
      rwa [hsize, hmade.fecOffset]
    · intro i j x hi hj
      exact hi.unique hpos hj
    · intro x
      rw [exists_roundRegion_iff hpos, hsize, hmade.fecOffset]
      rfl

end Begun

/-- Six hundred blocks of 4096 bytes, whose parity takes three rounds and ends at the last word. -/
def threeRounds : Layout where
  blockSize := 4096
  hashTreeAlgorithm := "sha256"
  hashTreeSalt := ByteArray.empty
  hashTreeDataOffset := 0
  hashTreeDataSize := 0
  hashTreeOffset := 0
  hashTreeSize := 0
  fecDataOffset := 0
  fecDataSize := 2457600
  fecOffset := 2 ^ 64 - 1 - 24576
  fecSize := 24576
  fecRoots := 2

/-- The largest region with the most roots in the smallest blocks, and a layout whose parity bytes
    end where offsets do. -/
theorem rounds_tile_threeRounds :
    roundsFor 1 24 (2 ^ 64 - 1) * 24 < wordLimit ∧
      (Writer.fresh.init threeRounds).2 = .ok () ∧ threeRounds.fecSize ≠ 0 ∧
      ∃ g, ofLayout threeRounds = .ok g ∧ g.rounds = 3 ∧
        (∀ i, i < 3 → g.PlacedInWords i) ∧
        (∀ i j x, g.RoundRegion i x → g.RoundRegion j x → i = j) ∧
        ∀ x, (∃ i, i < 3 ∧ g.RoundRegion i x) ↔ threeRounds.FecRegion x := by
  obtain ⟨hproducts, hbegun⟩ := rounds_tile_region
  have hlargest := hproducts 1 24 (2 ^ 64 - 1) (by decide) (by decide) (by decide) (by decide)
    (by decide)
  obtain ⟨s, g, code, -, -, hlayout, -, -, hplaced, hdisjoint, hcover⟩ :=
    hbegun Writer.fresh threeRounds rfl (by decide)
  have hrounds : g.rounds = 3 := by
    cases hlayout
    rfl
  rw [hrounds] at hplaced hcover
  exact ⟨hlargest.2.2.1, rfl, by decide, g, hlayout, hrounds, hplaced, hdisjoint, hcover⟩

end Geometry

end SlotVerify.Fec
