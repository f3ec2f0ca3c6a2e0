import SlotVerify.Fec.Round
import SlotVerify.Proofs.Bytes
/-
  How long parity bytes are, and where they lie.

  A code word's parity has as many bytes as the code has roots (`Code.length_parity`).  A round's
  parity is that of its code words, one after the other (`Round.extract_parity`).
-/

namespace SlotVerify.Fec

theorem length_generator (n : Nat) : (generator n).length = n + 1 := by
  induction n with
  | zero => rfl
  | succ n ih => simp [generator, timesLinear, ih]

theorem length_generatorMultiple (roots : Nat) (b : UInt8) :
    (generatorMultiple roots b).length = roots := by
  simp [generatorMultiple, length_generator]

namespace Code

variable {c : Code}

/-- What an accepted code is like. -/
theorem of_ofRoots? {roots : Nat} (h : ofRoots? roots = some c) :
    c.roots = roots ∧ minRoots ≤ roots ∧ roots ≤ maxRoots := by
  unfold ofRoots? at h
  split at h
  · rename_i hroots
    cases h
    exact ⟨rfl, hroots.1, hroots.2⟩
  · cases h

theorem roots_pos {roots : Nat} (h : ofRoots? roots = some c) : 0 < c.roots := by
  obtain ⟨hroots, hmin, -⟩ := of_ofRoots? h
  rw [hroots]
  exact Nat.lt_of_lt_of_le (by decide) hmin

/-- The table holds the generator's multiples. -/
theorem getD_multiples (c : Code) (b : UInt8) :
    c.multiples.getD b.toNat [] = generatorMultiple c.roots b := by
  have hb : b.toNat < 256 := b.toNat_lt
  rw [c.multiples_eq, Array.getD, dif_pos (by rw [Array.size_ofFn]; exact hb)]
  refine (Array.getElem_ofFn _).trans ?_
  congr 1
  exact UInt8.ofNat_toNat

/-- The register keeps its length. -/
theorem length_step {register : List UInt8} (hpos : 0 < c.roots)
    (h : register.length = c.roots) (m : UInt8) : (c.step register m).length = c.roots := by
  unfold step
  simp only [getD_multiples, List.length_zipWith, List.length_append, List.length_tail, h,
    List.length_cons, List.length_nil, length_generatorMultiple]
  omega

theorem length_foldl_step (hpos : 0 < c.roots) (message : List UInt8) :
    ∀ register : List UInt8, register.length = c.roots →
      (message.foldl c.step register).length = c.roots := by
  induction message with
  | nil =>
    intro register h
    exact h
  | cons m rest ih =>
    intro register h
    exact ih _ (length_step hpos h m)

theorem length_parity (hpos : 0 < c.roots) (message : List UInt8) :
    (c.parity message).length = c.roots :=
  length_foldl_step hpos message _ List.length_replicate

end Code

theorem exists_ofRoots? {roots : Nat} (hmin : minRoots ≤ roots) (hmax : roots ≤ maxRoots) :
    ∃ c, Code.ofRoots? roots = some c := ⟨_, if_pos ⟨hmin, hmax⟩⟩

namespace Geometry

/-- A geometry that was made for a layout: its parity bytes fill the place that the layout gives. -/
structure MadeFor (g : Geometry) (l : Verity.Layout) : Prop where
  blockSize : g.blockSize = l.blockSize
  roots : g.roots = l.fecRoots
  dataOffset : g.dataOffset = l.fecDataOffset
  dataSize : g.dataSize = l.fecDataSize
  fecOffset : g.fecOffset = l.fecOffset
  fecSize : g.rounds * g.roundSize = l.fecSize
  minRoots_le : minRoots ≤ g.roots
  le_maxRoots : g.roots ≤ maxRoots

/-- Where there are parity bytes there is a round. -/
theorem MadeFor.rounds_pos {g : Geometry} {l : Verity.Layout} (h : g.MadeFor l)
    (hsome : l.fecSize ≠ 0) : 0 < g.rounds := by
  refine Nat.pos_of_ne_zero fun hnone => hsome ?_
  rw [← h.fecSize, hnone, Nat.zero_mul]

theorem madeFor_ofLayout {l : Verity.Layout} {g : Geometry} (h : ofLayout l = .ok g) :
    g.MadeFor l := by
  unfold ofLayout at h
  split at h
  · cases h
  · rename_i hroots
    split at h
    · cases h
    · dsimp only at h
      split at h
      · cases h
      · rename_i hsize
        cases h
        refine ⟨rfl, rfl, rfl, rfl, rfl, ?_, ?_, ?_⟩
        · rw [← Decidable.not_not.mp hsize]
          exact (Nat.mul_assoc _ _ _).symm
        · exact Nat.not_lt.mp fun h => hroots (Or.inl h)
        · exact Nat.not_lt.mp fun h => hroots (Or.inr h)

/-- Each round's parity bytes follow those of the round before. -/
theorem roundOffset_succ (g : Geometry) (round : Nat) :
    g.roundOffset (round + 1) = g.roundOffset round + g.roundSize := by
  unfold roundOffset
  rw [Nat.succ_mul, Nat.add_assoc]

theorem roundOffset_le (g : Geometry) {i j : Nat} (h : i ≤ j) :
    g.roundOffset i ≤ g.roundOffset j :=
  Nat.add_le_add_left (Nat.mul_le_mul_right _ h) _

/-- The parity bytes of a code word lie among those of its round. -/
theorem word_le_roundSize (g : Geometry) {k : Nat} (hk : k < g.blockSize) :
    k * g.roots + g.roots ≤ g.roundSize := by
  rw [← Nat.succ_mul, roundSize, Nat.mul_comm g.roots]
  exact Nat.mul_le_mul_right _ hk

end Geometry

namespace Round

variable {r : Round} {c : Code}

theorem size_word_parity (hpos : 0 < c.roots) :
    ∀ p ∈ (List.range r.geometry.blockSize).map fun k => (c.parity (r.message k)).toByteArray,
      p.size = c.roots := by
  intro p hp
  obtain ⟨k, -, rfl⟩ := List.mem_map.mp hp
  rw [List.size_toByteArray]
  exact Code.length_parity hpos _

theorem size_parity (hpos : 0 < c.roots) :
    (r.parity c).size = r.geometry.blockSize * c.roots := by
  unfold parity
  rw [Bytes.size_concat _ (size_word_parity hpos), List.length_map, List.length_range]

/-- The parity bytes of a round fill its share. -/
theorem size_parity_eq_roundSize {g : Geometry} (hpos : 0 < c.roots) (hroots : c.roots = g.roots)
    (hgeometry : r.geometry = g) : (r.parity c).size = g.roundSize := by
  rw [size_parity hpos, hgeometry, hroots]
  exact Nat.mul_comm _ _

/-- The parity bytes of the `k`th code word. -/
theorem extract_parity (hpos : 0 < c.roots) {k : Nat} (hk : k < r.geometry.blockSize) :
    (r.parity c).extract (k * c.roots) (k * c.roots + c.roots) =
      (c.parity (r.message k)).toByteArray := by
  unfold parity
  rw [Bytes.extract_concat _ (size_word_parity hpos) k (by simpa using hk)]
  simp

end Round

end SlotVerify.Fec
