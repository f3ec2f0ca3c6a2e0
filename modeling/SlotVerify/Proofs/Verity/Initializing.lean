import SlotVerify.Proofs.Fec.Coverage
import SlotVerify.Proofs.HashTree.Counting
import SlotVerify.Proofs.Verity.Session
/-
  What beginning a partition makes of an arbitrary layout.

  A layout comes from outside and may hold any values.  The checks on it are made in this order: the
  block size, the ends of the four regions, the tree's algorithm, its size, the builder's own
  checks, the error correction.

  1. Each check is read back as what it asks of the layout (`checkRegions_eq_ok_iff`,
     `treeBuilder_eq_breakdown_iff`).

  2. The crux is the order.  The size of the tree is calculated before the builder refuses blocks
     that hold fewer than two digests, and for such blocks the calculation may have no answer: a
     block smaller than a digest leads to a division by zero, and a block of just one digest to a
     count that does not end as soon as there is more data than a block (`Layout.Uncountable`).

  3. Everything else is answered, by a session or by an error (`init_answered`), and no number on
     the way is more than a word if the layout's own numbers are words.

  A layout whose tree has too narrow blocks is never accepted, but some of these layouts are not
  refused either: beginning them breaks down (`unanswered_of_narrow`).
-/

namespace SlotVerify

namespace HashTree

variable {a : Digest.Algorithm} {blockSize dataSize : Nat}

/-- The size of a tree has no answer if a block is smaller than a digest, or if it holds a single
    one and there is more data than one block. -/
theorem size_eq_error_iff (hpower : isPowerOfTwo blockSize = true) (f : SizeFault) :
    size a blockSize dataSize = .error f ↔
      match f with
      | .divisionByZero => blockSize < slotFor a.digestSize
      | .endless => blockSize = slotFor a.digestSize ∧ blockSize < dataSize := by
  have hslot : 0 < slotFor a.digestSize := Nat.shiftLeft_pos_iff.mpr Nat.one_pos
  have hpos : 0 < blockSize := eq_two_pow_of_isPowerOfTwo hpower ▸ Nat.two_pow_pos _
  have hsingle : Fec.ceilDiv dataSize blockSize ≤ 1 ↔ dataSize ≤ blockSize := by
    rw [Fec.ceilDiv_le_iff hpos, Nat.one_mul]
  unfold size
  dsimp only
  rcases Nat.lt_trichotomy blockSize (slotFor a.digestSize) with hlt | heq | hgt
  · have hnone : blockSize / slotFor a.digestSize = 0 := Nat.div_eq_of_lt hlt
    rw [dif_neg (by omega), if_pos hnone]
    cases f with
    | divisionByZero => exact iff_of_true rfl hlt
    | endless => exact iff_of_false nofun (by omega)
  · have hone : blockSize / slotFor a.digestSize = 1 := by rw [heq, Nat.div_self hslot]
    rw [dif_neg (by omega), if_neg (by omega)]
    by_cases hfew : Fec.ceilDiv dataSize blockSize ≤ 1
    · rw [if_pos hfew]
      cases f with
      | divisionByZero => exact iff_of_false nofun (by omega)
      | endless => exact iff_of_false nofun (by omega)
    · rw [if_neg hfew]
      cases f with
      | divisionByZero => exact iff_of_false nofun (by omega)
      | endless => exact iff_of_true rfl ⟨heq, by omega⟩
  · -- a larger power of two holds two slots
    have htwo : 2 ≤ blockSize / slotFor a.digestSize := by
      obtain ⟨k, hk⟩ := slotFor_dvd hpower (Nat.le_of_lt hgt)
      rw [hk, Nat.mul_div_cancel_left _ hslot]
      rw [hk, Nat.lt_mul_iff_one_lt_right hslot] at hgt
      exact hgt
    rw [dif_pos htwo]
    cases f with
    | divisionByZero => exact iff_of_false nofun (by omega)
    | endless => exact iff_of_false nofun (by omega)

end HashTree

namespace Verity

open HashTree (SizeFault isPowerOfTwo slotFor EndsAfter)

/-- Every region of a layout ends at an offset. -/
structure Layout.RegionsFit (l : Layout) : Prop where
  treeData : l.hashTreeDataOffset + l.hashTreeDataSize < wordLimit
  tree : l.hashTreeOffset + l.hashTreeSize < wordLimit
  fecData : l.fecDataOffset + l.fecDataSize < wordLimit
  fec : l.fecOffset + l.fecSize < wordLimit

/-- The size of a layout's tree is asked for, and has no answer for this reason. -/
structure Layout.Uncountable (l : Layout) (f : SizeFault) : Prop where
  power : isPowerOfTwo l.blockSize = true
  regions : l.RegionsFit
  asked : l.hashTreeSize ≠ 0
  unanswered : ∃ a, Digest.Algorithm.ofName? l.hashTreeAlgorithm = .ok a ∧
    match f with
    | .divisionByZero => l.blockSize < slotFor a.digestSize
    | .endless => l.blockSize = slotFor a.digestSize ∧ l.blockSize < l.hashTreeDataSize

/-- The numbers of a layout that sizes are calculated from are words, and the block size half a
    word. -/
structure Layout.InWords (l : Layout) : Prop where
  blockSize : l.blockSize < 2 ^ 32
  treeData : l.hashTreeDataSize < wordLimit
  fecData : l.fecDataSize < wordLimit

/-- The calculations with a layout that come after its block size has been checked: there is nothing
    else that could be zero and is divided by, and words do not lead to more than words. -/
structure Layout.Calculable (l : Layout) : Prop where
  blockSize_pos : 0 < l.blockSize
  messageLength_pos : l.fecRoots ≤ Fec.maxRoots → 0 < Fec.codeWordLength - l.fecRoots
  treeSize_lt : l.InWords → ∀ a n,
    HashTree.size a l.blockSize l.hashTreeDataSize = .ok n → n < wordLimit
  fecSize_lt : l.InWords → l.fecRoots ≤ Fec.maxRoots →
    Fec.Geometry.roundsFor l.blockSize l.fecRoots l.fecDataSize * l.fecRoots * l.blockSize <
      wordLimit

namespace Session

variable {l : Layout} {f : SizeFault}

/-- A region is passed if its end is an offset. -/
theorem regionEnd_bind_eq_ok_iff {offset size : Nat} {next : Except Error Unit} :
    (regionEnd offset size >>= fun _ => next) = .ok () ↔
      offset + size < wordLimit ∧ next = .ok () := by
  unfold regionEnd
  split
  · rename_i hfits
    exact ⟨fun h => ⟨hfits, h⟩, fun h => h.2⟩
  · rename_i hfits
    exact iff_of_false nofun fun h => hfits h.1

theorem checkRegions_eq_ok_iff :
    checkRegions l = .ok () ↔ isPowerOfTwo l.blockSize = true ∧ l.RegionsFit := by
  unfold checkRegions
  by_cases hpower : isPowerOfTwo l.blockSize = true
  · rw [if_neg (not_not_intro hpower)]
    show (regionEnd l.hashTreeDataOffset l.hashTreeDataSize >>= fun _ =>
      regionEnd l.hashTreeOffset l.hashTreeSize >>= fun _ =>
      regionEnd l.fecDataOffset l.fecDataSize >>= fun _ =>
      regionEnd l.fecOffset l.fecSize >>= fun _ => .ok ()) = .ok () ↔ _
    rw [regionEnd_bind_eq_ok_iff, regionEnd_bind_eq_ok_iff, regionEnd_bind_eq_ok_iff,
      regionEnd_bind_eq_ok_iff]
    constructor
    · rintro ⟨htreeData, htree, hfecData, hfec, -⟩
      exact ⟨hpower, htreeData, htree, hfecData, hfec⟩
    · rintro ⟨-, htreeData, htree, hfecData, hfec⟩
      exact ⟨htreeData, htree, hfecData, hfec, rfl⟩
  · rw [if_pos hpower]
    exact iff_of_false nofun fun h => hpower h.1

/-- A layout that a session was made for has passed the checks on its regions. -/
theorem regionsFit_of_new {s : Session} {memory : Nat} (h : Session.new l memory = .ok s) :
    l.RegionsFit := by
  unfold Session.new at h
  cases hregions : checkRegions l with
  | error e =>
    rw [hregions] at h
    cases h
  | ok _ => exact (checkRegions_eq_ok_iff.mp hregions).2

theorem treeBuilder_eq_breakdown_iff (memory : Nat) :
    treeBuilder l memory = .error (.breakdown f) ↔
    l.hashTreeSize ≠ 0 ∧ ∃ a, Digest.Algorithm.ofName? l.hashTreeAlgorithm = .ok a ∧
      HashTree.size a l.blockSize l.hashTreeDataSize = .error f := by
  unfold treeBuilder
  by_cases hzero : l.hashTreeSize = 0
  · rw [if_pos hzero]
    exact iff_of_false nofun fun h => h.1 hzero
  · rw [if_neg hzero]
    cases hname : Digest.Algorithm.ofName? l.hashTreeAlgorithm with
    | error e =>
      refine iff_of_false nofun ?_
      rintro ⟨-, a, ha, -⟩
      cases ha
    | ok a =>
      dsimp only
      cases hsize : HashTree.size a l.blockSize l.hashTreeDataSize with
      | error f' =>
        constructor
        · intro h
          cases h
          exact ⟨hzero, a, rfl, hsize⟩
        · rintro ⟨-, a', ha, hfault⟩
          cases ha
          rw [hsize] at hfault
          cases hfault
          rfl
      | ok calculated =>
        refine iff_of_false ?_ ?_
        · -- behind the count there are only refusals
          intro h
          dsimp only at h
          split at h
          · cases h
          · split at h <;> cases h
        · rintro ⟨-, a', ha, hfault⟩
          cases ha
          rw [hsize] at hfault
          cases hfault

theorem new_eq_breakdown_iff (memory : Nat) : Session.new l memory = .error (.breakdown f) ↔
    checkRegions l = .ok () ∧ treeBuilder l memory = .error (.breakdown f) := by
  unfold Session.new
  cases hregions : checkRegions l with
  | error e => exact iff_of_false nofun nofun
  | ok _ =>
    cases hbuilder : treeBuilder l memory with
    | error fault =>
      constructor
      · intro h
        cases h
        exact ⟨rfl, rfl⟩
      · rintro ⟨-, h⟩
        cases h
        rfl
    | ok builder =>
      refine iff_of_false ?_ nofun
      cases fecGeometry l with
      | error e => exact nofun
      | ok fec => exact nofun

end Session

section
variable {l : Layout}

/-- Beginning a partition breaks down exactly if the size of its tree has no answer. -/
theorem init_eq_breakdown_iff (w : Writer) (l : Layout) (f : SizeFault) :
    (w.init l).2 = .error (.breakdown f) ↔ l.Uncountable f := by
  have hinit : (w.init l).2 = .error (.breakdown f) ↔
      Session.new l w.memory = .error (.breakdown f) := by
    unfold Writer.init
    cases Session.new l w.memory with
    | ok s => exact iff_of_false nofun nofun
    | error fault =>
      constructor
      · intro h
        exact congrArg _ (Except.error.inj h)
      · intro h
        exact congrArg _ (Except.error.inj h)
  rw [hinit, Session.new_eq_breakdown_iff, Session.checkRegions_eq_ok_iff,
    Session.treeBuilder_eq_breakdown_iff]
  constructor
  · rintro ⟨⟨hpower, hregions⟩, hasked, a, hname, hsize⟩
    exact ⟨hpower, hregions, hasked, a, hname, (HashTree.size_eq_error_iff hpower f).mp hsize⟩
  · rintro ⟨hpower, hregions, hasked, a, hname, hfault⟩
    exact ⟨⟨hpower, hregions⟩, hasked, a, hname, (HashTree.size_eq_error_iff hpower f).mpr hfault⟩

/-- A layout with a tree is only accepted if its blocks hold two digests. -/
theorem two_slots_of_init {w : Writer} (h : (w.init l).2 = .ok ()) (htree : l.hashTreeSize ≠ 0) :
    ∃ a, Digest.Algorithm.ofName? l.hashTreeAlgorithm = .ok a ∧
      2 * slotFor a.digestSize ≤ l.blockSize := by
  obtain ⟨s, _, -, rfl, hfed⟩ := Writer.serves_init h
  cases hbuilder : s.builder with
  | none => exact absurd (hfed.absent.mp hbuilder) htree
  | some b =>
    obtain ⟨a, hname, hformat, -⟩ := (hfed.builder b hbuilder).1.format
    obtain ⟨-, hblock, hslot⟩ := HashTree.Format.of_ofAlgorithm hformat
    refine ⟨a, hname, ?_⟩
    rw [← hblock, ← hslot]
    exact b.format.two_slots

theorem Layout.Uncountable.size_eq {f : SizeFault} (h : l.Uncountable f) {a : Digest.Algorithm}
    (hname : Digest.Algorithm.ofName? l.hashTreeAlgorithm = .ok a) :
    HashTree.size a l.blockSize l.hashTreeDataSize = .error f := by
  obtain ⟨a', hname', hfault⟩ := h.unanswered
  cases hname.symm.trans hname'
  exact (HashTree.size_eq_error_iff h.power f).mpr hfault

theorem Layout.calculable (hpower : isPowerOfTwo l.blockSize = true) : l.Calculable where
  blockSize_pos := HashTree.eq_two_pow_of_isPowerOfTwo hpower ▸ Nat.two_pow_pos _
  messageLength_pos := by
    intro hroots
    exact Nat.sub_pos_of_lt (Nat.lt_of_le_of_lt hroots (by decide))
  treeSize_lt := fun hwords _ _ hsize =>
    HashTree.size_lt hpower hwords.blockSize hwords.treeData hsize
  fecSize_lt := fun hwords hroots =>
    Fec.Geometry.roundsFor_mul_lt hwords.blockSize hroots hwords.fecData

/-- Any layout is answered by a session or by an error, except for those whose tree size cannot be
    calculated.  Blocks that do not hold two digests are not accepted for a tree, and are refused
    but for these exceptions; in them the division is by zero, or counting never ends.  All other
    calculations are fine. -/
theorem init_answered (w : Writer) (l : Layout) :
    (∀ f, (w.init l).2 = .error (.breakdown f) ↔ l.Uncountable f) ∧
    ((∀ f, ¬ l.Uncountable f) →
      (w.init l).2 = .ok () ∨ ∃ e, (w.init l).2 = .error (.rejected e)) ∧
    (∀ a, Digest.Algorithm.ofName? l.hashTreeAlgorithm = .ok a →
      (l.hashTreeSize ≠ 0 → l.blockSize < 2 * slotFor a.digestSize →
        (w.init l).2 ≠ .ok () ∧
          ((∀ f, ¬ l.Uncountable f) → ∃ e, (w.init l).2 = .error (.rejected e))) ∧
      (l.Uncountable .divisionByZero → l.blockSize / slotFor a.digestSize = 0) ∧
      (l.Uncountable .endless → ∀ rounds, ¬ EndsAfter (l.blockSize / slotFor a.digestSize)
        (Fec.ceilDiv l.hashTreeDataSize l.blockSize) rounds)) ∧
    (isPowerOfTwo l.blockSize = true → l.Calculable) := by
  have hbreaks := init_eq_breakdown_iff w l
  have hanswered : (∀ f, ¬ l.Uncountable f) →
      (w.init l).2 = .ok () ∨ ∃ e, (w.init l).2 = .error (.rejected e) := by
    intro hcountable
    cases houtcome : (w.init l).2 with
    | ok _ => exact Or.inl rfl
    | error fault =>
      cases fault with
      | rejected e => exact Or.inr ⟨e, rfl⟩
      | breakdown f => exact absurd ((hbreaks f).mp houtcome) (hcountable f)
  refine ⟨hbreaks, hanswered, ?_, Layout.calculable⟩
  intro a hname
  have hcounts := HashTree.size_counts a l.blockSize l.hashTreeDataSize
  refine ⟨?_, ?_, ?_⟩
  · intro htree hnarrow
    have hrefused : (w.init l).2 ≠ .ok () := by
      intro hok
      obtain ⟨a', hname', htwo⟩ := two_slots_of_init hok htree
      cases hname.symm.trans hname'
      omega
    exact ⟨hrefused, fun hcountable => (hanswered hcountable).resolve_left hrefused⟩
  · intro h
    rw [h.size_eq hname] at hcounts
    exact hcounts
  · intro h
    rw [h.size_eq hname] at hcounts
    exact hcounts.2

end

/-- A block of sixteen bytes with its tree in the next one. -/
def narrowLayout : Layout where
  blockSize := 16
  hashTreeAlgorithm := "sha256"
  hashTreeSalt := ByteArray.empty
  hashTreeDataOffset := 0
  hashTreeDataSize := 16
  hashTreeOffset := 16
  hashTreeSize := 16
  fecDataOffset := 0
  fecDataSize := 0
  fecOffset := 0
  fecSize := 0
  fecRoots := 0

/-- Two blocks of a digest each, with their tree behind them. -/
def singleSlotLayout : Layout :=
  { narrowLayout with
    blockSize := 32, hashTreeDataSize := 64, hashTreeOffset := 64, hashTreeSize := 32 }

theorem ofName?_sha256 : Digest.Algorithm.ofName? "sha256" = .ok .sha256 := by
  have hfound : (Digest.Algorithm.ofName? "sha256").toOption = some .sha256 := by decide +kernel
  cases hname : Digest.Algorithm.ofName? "sha256" with
  | error e =>
    rw [hname] at hfound
    cases hfound
  | ok a =>
    rw [hname] at hfound
    cases hfound
    rfl

/-- Neither layout has blocks that hold two digests, and neither is accepted or refused. -/
theorem unanswered_of_narrow :
    narrowLayout.hashTreeSize ≠ 0 ∧ singleSlotLayout.hashTreeSize ≠ 0 ∧
    Digest.Algorithm.ofName? narrowLayout.hashTreeAlgorithm = .ok .sha256 ∧
    narrowLayout.blockSize < 2 * slotFor Digest.Algorithm.sha256.digestSize ∧
    singleSlotLayout.blockSize < 2 * slotFor Digest.Algorithm.sha256.digestSize ∧
    (Writer.fresh.init narrowLayout).2 = .error (.breakdown .divisionByZero) ∧
    (Writer.fresh.init singleSlotLayout).2 = .error (.breakdown .endless) := by
  refine ⟨by decide, by decide, ofName?_sha256, by decide, by decide, ?_, ?_⟩
  · rw [init_eq_breakdown_iff]
    exact ⟨by decide, ⟨by decide, by decide, by decide, by decide⟩, by decide, .sha256,
      ofName?_sha256, by decide⟩
  · rw [init_eq_breakdown_iff]
    exact ⟨by decide, ⟨by decide, by decide, by decide, by decide⟩, by decide, .sha256,
      ofName?_sha256, by decide⟩

end Verity

end SlotVerify
