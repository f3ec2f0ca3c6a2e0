import Mathlib.Algebra.Group.Nat.Defs
import SlotVerify.HashTree
import SlotVerify.Proofs.Bytes
/-
  Building a tree in pieces.

  A builder that has been fed some data holds the digests of its full blocks and the unfinished
  rest (`Builder.Holds`), however the data was split; a tree that comes out of it is the tree over
  all of the data (`Builder.Holds.build`).  The predicted size is the size of that tree
  (`Format.size_tree`), because a slot divides a block.
-/

namespace SlotVerify

namespace HashTree

/-- A block size is the power of two that its logarithm says. -/
theorem eq_two_pow_of_isPowerOfTwo {n : Nat} (h : isPowerOfTwo n = true) : n = 2 ^ n.log2 := by
  have hshift : 1 <<< n.log2 = n := eq_of_beq h
  rw [Nat.one_shiftLeft] at hshift
  exact hshift.symm

/-- Blocks and slots are powers of two, and of two such the smaller one divides the other. -/
theorem slotFor_dvd {digestSize blockSize : Nat} (hpower : isPowerOfTwo blockSize = true)
    (hle : slotFor digestSize ≤ blockSize) : slotFor digestSize ∣ blockSize := by
  have hblock := eq_two_pow_of_isPowerOfTwo hpower
  generalize blockSize.log2 = m at hblock
  subst hblock
  rw [slotFor, Nat.one_shiftLeft] at hle ⊢
  exact Nat.pow_dvd_pow 2 ((Nat.pow_le_pow_iff_right (by decide)).mp hle)

namespace Format

variable {f : Format}

theorem blockSize_pos (f : Format) : 0 < f.blockSize := by
  have hslot := f.slot_pos
  have htwo := f.two_slots
  omega

theorem entries_empty (f : Format) : f.entries ByteArray.empty = ByteArray.empty := by
  simp [entries, Bytes.pieces, Bytes.concat]

/-- The entries of whole blocks come first. -/
theorem entries_append {a : ByteArray} (b : ByteArray) (h : a.size % f.blockSize = 0) :
    f.entries (a ++ b) = f.entries a ++ f.entries b := by
  unfold entries
  rw [Bytes.pieces_append b f.blockSize_pos h, List.map_append, Bytes.concat_append]

theorem entries_whole (b : ByteArray) :
    f.entries (b.extract 0 (b.size / f.blockSize * f.blockSize)) = f.entries b := by
  unfold entries
  rw [Bytes.pieces_whole b f.blockSize_pos]

/-- What an accepted format is made of. -/
theorem of_ofAlgorithm {a : Digest.Algorithm} {salt : ByteArray} {blockSize : Nat}
    (h : ofAlgorithm a salt blockSize = .ok f) :
    isPowerOfTwo blockSize ∧ f.blockSize = blockSize ∧ f.slot = slotFor a.digestSize := by
  unfold ofAlgorithm at h
  split at h
  · rename_i hblock
    cases h
    exact ⟨hblock.1, rfl, rfl⟩
  · cases h

/-- A block that holds one slot is full of slots. -/
theorem slot_dvd {a : Digest.Algorithm} {salt : ByteArray} {blockSize : Nat}
    (h : ofAlgorithm a salt blockSize = .ok f) : f.slot ∣ f.blockSize := by
  obtain ⟨hpower, hblock, hslot⟩ := of_ofAlgorithm h
  have hholds : f.slot ≤ f.blockSize :=
    Nat.le_trans (Nat.le_mul_of_pos_left _ Nat.two_pos) f.two_slots
  rw [hblock, hslot] at hholds ⊢
  exact slotFor_dvd hpower hholds

end Format

/-! ## The size of a tree -/

theorem ceilDiv_eq_zero_iff {n perBlock : Nat} (h : 0 < perBlock) :
    Fec.ceilDiv n perBlock = 0 ↔ n = 0 := by
  unfold Fec.ceilDiv
  rw [Nat.div_eq_zero_iff_lt h]
  omega

/-- A level of digests takes up a block for every `perBlock` of them. -/
theorem size_padTo_slots {slot perBlock : Nat} (hslot : 0 < slot) (hper : 0 < perBlock)
    {level : ByteArray} {n : Nat} (hsize : level.size = n * slot) :
    (Bytes.padTo (perBlock * slot) level).size =
      Fec.ceilDiv n perBlock * (perBlock * slot) := by
  rw [size_padTo _ _ (Nat.mul_pos hper hslot), hsize]
  congr 1
  unfold Fec.ceilDiv
  -- in slots: less than one slot is lost by the division
  have hsplit : n * slot + perBlock * slot - 1 = (n + perBlock - 1) * slot + (slot - 1) := by
    rw [← Nat.add_mul, Nat.sub_mul, Nat.one_mul]
    have : slot ≤ (n + perBlock) * slot := Nat.le_mul_of_pos_left _ (by omega)
    omega
  rw [hsplit, Nat.mul_comm perBlock slot, ← Nat.div_div_eq_div_mul, Nat.mul_comm _ slot,
    Nat.mul_add_div hslot, Nat.div_eq_of_lt (by omega : slot - 1 < slot), Nat.add_zero]

/-- All levels together are as many blocks as counted. -/
theorem Format.size_concat_levels (f : Format) {perBlock : Nat} (hper : 2 ≤ perBlock)
    (hblock : f.blockSize = perBlock * f.slot) (n : Nat) :
    ∀ level : ByteArray, level.size = n * f.slot →
      (Bytes.concat (f.levels level)).size = blocksAbove perBlock hper n * f.blockSize := by
  have hslot := f.slot_pos
  have hb := f.blockSize_pos
  -- by induction on the number of digests: the level above has fewer of them
  induction n using Nat.strongRecOn with
  | ind n ih =>
    intro level hsize
    have hpadded := size_padTo_slots hslot (by omega : 0 < perBlock) hsize
    rw [← hblock] at hpadded
    have hlevel : level.size = 0 ↔ n = 0 := by
      rw [hsize, Nat.mul_eq_zero]
      omega
    have hone : (Bytes.padTo f.blockSize level).size = f.blockSize ↔
        Fec.ceilDiv n perBlock = 1 := by
      rw [hpadded]
      constructor
      · intro h
        exact Nat.eq_of_mul_eq_mul_right hb (by rw [h, Nat.one_mul])
      · intro h
        rw [h, Nat.one_mul]
    have hceil : Fec.ceilDiv n perBlock = 0 ↔ n = 0 := ceilDiv_eq_zero_iff (by omega)
    rw [Format.levels, blocksAbove]
    by_cases hzero : n = 0
    · rw [dif_pos (hlevel.mpr hzero), if_pos (by omega), hceil.mpr hzero]
      simp [Bytes.concat]
    · rw [dif_neg (fun h => hzero (hlevel.mp h))]
      by_cases hsingle : Fec.ceilDiv n perBlock = 1
      · rw [dif_pos (hone.mpr hsingle), if_pos (by omega), hsingle]
        simp [Bytes.concat, hone.mpr hsingle]
      · have hmany : ¬ Fec.ceilDiv n perBlock ≤ 1 := by omega
        rw [dif_neg (fun h => hsingle (hone.mp h)), if_neg hmany]
        have hnext : (f.entries (Bytes.padTo f.blockSize level)).size =
            Fec.ceilDiv n perBlock * f.slot := by
          rw [Format.size_entries, hpadded, Nat.mul_div_cancel _ hb]
        have hlt : Fec.ceilDiv n perBlock < n := by
          have hdecr := f.size_entries_padTo_lt level (fun h => hzero (hlevel.mp h))
            (fun h => hsingle (hone.mp h))
          rw [hnext, hsize] at hdecr
          exact Nat.lt_of_mul_lt_mul_right hdecr
        rw [Bytes.concat_append, ByteArray.size_append, ih _ hlt _ hnext, Bytes.concat_cons,
          ByteArray.size_append, hpadded, Nat.add_mul]
        simp [Bytes.concat]
        omega

/-- The predicted size is the size of the tree. -/
theorem Format.size_tree {f : Format} {a : Digest.Algorithm} {salt : ByteArray}
    {blockSize dataSize size : Nat} (hformat : Format.ofAlgorithm a salt blockSize = .ok f)
    (hdata : dataSize % blockSize = 0) (hsize : HashTree.size a blockSize dataSize = .ok size)
    {leaves : ByteArray} (hleaves : leaves.size = dataSize / blockSize * f.slot) :
    (f.tree leaves).bytes.size = size := by
  obtain ⟨-, hblock, hslot⟩ := Format.of_ofAlgorithm hformat
  obtain ⟨perBlock, hper⟩ := Format.slot_dvd hformat
  rw [Nat.mul_comm] at hper
  have htwo : 2 ≤ perBlock := by
    have h := f.two_slots
    rw [hper] at h
    exact Nat.le_of_mul_le_mul_right h f.slot_pos
  have hquotient : blockSize / slotFor a.digestSize = perBlock := by
    rw [← hblock, ← hslot, hper, Nat.mul_div_cancel _ f.slot_pos]
  have hpos : 0 < blockSize := hblock ▸ f.blockSize_pos
  have hblocks : Fec.ceilDiv dataSize blockSize = dataSize / blockSize := by
    have hmul : dataSize = dataSize / blockSize * blockSize := by
      have := Nat.div_add_mod dataSize blockSize
      rw [Nat.mul_comm]
      omega
    unfold Fec.ceilDiv
    generalize dataSize / blockSize = q at hmul
    rw [hmul, Nat.add_sub_assoc hpos, Nat.mul_comm, Nat.mul_add_div hpos,
      Nat.div_eq_of_lt (by omega), Nat.add_zero]
  unfold HashTree.size at hsize
  simp only [hquotient, hblocks] at hsize
  rw [dif_pos htwo] at hsize
  have hlevels := f.size_concat_levels htwo hper _ leaves hleaves
  show (Bytes.concat (f.levels leaves)).size = size
  rw [hlevels, hblock]
  exact Except.ok.inj hsize

/-! ## Builders -/

namespace Builder

variable {b b' : Builder} {data : ByteArray}

/-- The builder has been fed exactly this data. -/
structure Holds (b : Builder) (data : ByteArray) : Prop where
  hashed : b.hashed = data.size
  pending : b.pending =
    data.extract (data.size / b.format.blockSize * b.format.blockSize) data.size
  leaves : b.leaves = b.format.entries data

/-- A new builder, and what it has been made for. -/
theorem holds_new {a : Digest.Algorithm} {blockSize dataSize memory : Nat} {salt : ByteArray}
    (h : Builder.new a blockSize salt dataSize memory = .ok b) :
    b.Holds ByteArray.empty ∧ b.dataSize = dataSize ∧ dataSize % blockSize = 0 ∧
      Format.ofAlgorithm a salt blockSize = .ok b.format := by
  unfold Builder.new at h
  cases hformat : Format.ofAlgorithm a salt blockSize with
  | error e =>
    rw [hformat] at h
    cases h
  | ok f =>
    rw [hformat] at h
    replace h : (if dataSize % blockSize ≠ 0 then
        Except.error (Verity.Error.unalignedDataSize dataSize blockSize)
      else if memory < dataSize / blockSize * f.slot then
        .error .memoryAllocationFailure
      else .ok (⟨f, dataSize, 0, ByteArray.empty, ByteArray.empty⟩ : Builder)) = .ok b := h
    split at h
    · cases h
    · rename_i haligned
      split at h
      · cases h
      · cases h
        refine ⟨⟨rfl, ?_, ?_⟩, rfl, Decidable.not_not.mp haligned, rfl⟩
        · simp
        · exact f.entries_empty.symm

/-- Feeding more data is having been fed all of it. -/
theorem Holds.update (hb : b.Holds data) {more : ByteArray} (h : b.update more = .ok b') :
    b'.Holds (data ++ more) ∧ b'.format = b.format ∧ b'.dataSize = b.dataSize := by
  have hpos := b.format.blockSize_pos
  have hle : data.size / b.format.blockSize * b.format.blockSize ≤ data.size :=
    Nat.div_mul_le_self _ _
  -- what waits and the new data together are what follows the blocks hashed so far
  have hwaiting : b.pending ++ more =
      (data ++ more).extract (data.size / b.format.blockSize * b.format.blockSize)
        (data ++ more).size := by
    rw [hb.pending]
    exact Bytes.extract_rest_append more hle
  have hwhole : (data ++ more).extract 0 (data.size / b.format.blockSize * b.format.blockSize) =
      data.extract 0 (data.size / b.format.blockSize * b.format.blockSize) := by
    rw [ByteArray.extract_append, Nat.zero_sub, Nat.sub_eq_zero_of_le hle, ByteArray.extract_same,
      ByteArray.append_empty]
  have hentries := b.format.entries_whole data
  generalize data.size / b.format.blockSize = q at hle hwaiting hwhole hentries
  have htotal : q * b.format.blockSize ≤ (data ++ more).size := by
    rw [ByteArray.size_append]
    omega
  unfold Builder.update at h
  split at h
  · cases h
  · cases h
    refine ⟨⟨?_, ?_, ?_⟩, rfl, rfl⟩
    · show b.hashed + more.size = (data ++ more).size
      rw [hb.hashed, ByteArray.size_append]
    · show (b.pending ++ more).extract ((b.pending ++ more).size / b.format.blockSize *
        b.format.blockSize) (b.pending ++ more).size = (data ++ more).extract _ _
      rw [hwaiting, ByteArray.size_extract, Nat.min_self, Bytes.div_eq_add_div_sub hpos htotal,
        ByteArray.extract_extract, Nat.add_mul, Nat.add_sub_cancel' htotal, Nat.min_self]
    · show b.leaves ++ b.format.entries (b.pending ++ more) = b.format.entries (data ++ more)
      have hprefix : ((data ++ more).extract 0 (q * b.format.blockSize)).size %
          b.format.blockSize = 0 := by
        rw [ByteArray.size_extract, Nat.min_eq_left htotal, Nat.sub_zero, Nat.mul_mod_left]
      have hsplit : (data ++ more).extract 0 (q * b.format.blockSize) ++
          (data ++ more).extract (q * b.format.blockSize) (data ++ more).size = data ++ more := by
        rw [ByteArray.extract_append_extract, Nat.zero_min, Nat.max_eq_right htotal,
          ByteArray.extract_zero_size]
      rw [hb.leaves, hwaiting, ← hentries, ← hwhole, ← Format.entries_append _ hprefix, hsplit]

/-- A tree that comes out is the tree over everything that was fed, and nothing is missing. -/
theorem Holds.build {tree : Tree} (hb : b.Holds data) (h : b.build = .ok tree) :
    data.size = b.dataSize ∧ tree = b.format.tree (b.format.entries data) := by
  unfold Builder.build at h
  split at h
  · cases h
  · rename_i hcomplete
    cases h
    rw [hb.leaves]
    refine ⟨?_, rfl⟩
    rw [← hb.hashed]
    omega

/-- Once all data has been fed, the tree comes out. -/
theorem Holds.build_eq (hb : b.Holds data) (hsize : data.size = b.dataSize)
    (haligned : b.dataSize % b.format.blockSize = 0) :
    b.build = .ok (b.format.tree (b.format.entries data)) := by
  have hpending : b.pending.size = 0 := by
    rw [hb.pending, ByteArray.size_extract, Nat.min_self, hsize]
    have := Nat.div_add_mod b.dataSize b.format.blockSize
    rw [Nat.mul_comm] at this
    omega
  unfold Builder.build
  rw [if_neg, hb.leaves]
  rw [hb.hashed, hsize, hpending]
  omega

/-! ## Pieces on offer -/

/-- Offers a piece; a builder that refuses it stays as it is. -/
def accept (b : Builder) (piece : ByteArray) : Builder :=
  match b.update piece with
  | .ok b' => b'
  | .error _ => b

/-- Offers one piece after the other. -/
def offer (b : Builder) (pieces : List ByteArray) : Builder := pieces.foldl accept b

/-- The data with the next piece, if there is still room for all of it. -/
def takeIn (capacity : Nat) (data piece : ByteArray) : ByteArray :=
  if data.size + piece.size ≤ capacity then data ++ piece else data

/-- What is taken of the pieces where there is room for `capacity` bytes. -/
def taken (capacity : Nat) (pieces : List ByteArray) : ByteArray :=
  pieces.foldl (takeIn capacity) ByteArray.empty

theorem size_takeIn_le {capacity : Nat} (h : data.size ≤ capacity) (piece : ByteArray) :
    (takeIn capacity data piece).size ≤ capacity := by
  unfold takeIn
  split
  · rw [ByteArray.size_append]
    assumption
  · exact h

/-- A piece is refused exactly if there is no room for it. -/
theorem Holds.update_eq (hb : b.Holds data) (hle : data.size ≤ b.dataSize) (piece : ByteArray) :
    b.update piece =
      if data.size + piece.size ≤ b.dataSize then .ok (b.accept piece)
      else .error .dataOverflow := by
  have hhashed := hb.hashed
  unfold Builder.accept Builder.update
  split
  · rw [if_neg (by omega)]
  · rw [if_pos (by omega)]

/-- One piece: it is taken if there is room for it. -/
theorem Holds.accept (hb : b.Holds data) (hle : data.size ≤ b.dataSize) (piece : ByteArray) :
    (b.accept piece).Holds (takeIn b.dataSize data piece) ∧
      (b.accept piece).format = b.format ∧ (b.accept piece).dataSize = b.dataSize := by
  have hupdate := hb.update_eq hle piece
  unfold takeIn
  by_cases hfits : data.size + piece.size ≤ b.dataSize
  · rw [if_pos hfits] at hupdate ⊢
    exact hb.update hupdate
  · rw [if_neg hfits] at hupdate ⊢
    have hsame : b.accept piece = b := by
      unfold Builder.accept
      rw [hupdate]
    rw [hsame]
    exact ⟨hb, rfl, rfl⟩

/-- All pieces: the builder holds what there was room for. -/
theorem Holds.foldl_accept (pieces : List ByteArray) :
    ∀ {b : Builder} {data : ByteArray}, b.Holds data → data.size ≤ b.dataSize →
      (b.offer pieces).Holds (pieces.foldl (takeIn b.dataSize) data) ∧
        (pieces.foldl (takeIn b.dataSize) data).size ≤ b.dataSize ∧
        (b.offer pieces).format = b.format ∧ (b.offer pieces).dataSize = b.dataSize := by
  induction pieces with
  | nil =>
    intro b data hb hle
    exact ⟨hb, hle, rfl, rfl⟩
  | cons piece rest ih =>
    intro b data hb hle
    obtain ⟨hholds, hformat, hsize⟩ := hb.accept hle piece
    have hrest := ih hholds (by rw [hsize]; exact size_takeIn_le hle piece)
    rw [hformat, hsize] at hrest
    exact hrest

/-- A new builder that has been offered pieces. -/
theorem holds_offer {a : Digest.Algorithm} {blockSize dataSize memory : Nat} {salt : ByteArray}
    (h : Builder.new a blockSize salt dataSize memory = .ok b) (pieces : List ByteArray) :
    (b.offer pieces).Holds (taken dataSize pieces) ∧ (taken dataSize pieces).size ≤ dataSize ∧
      (b.offer pieces).format = b.format ∧ (b.offer pieces).dataSize = dataSize := by
  obtain ⟨hempty, hsize, -, -⟩ := holds_new h
  have hall := hempty.foldl_accept pieces (Nat.zero_le _)
  rw [hsize] at hall
  exact hall

/-- If what a builder without data has taken is all of it, the tree over it comes out. -/
theorem Holds.build_of_taken (hempty : b.Holds ByteArray.empty)
    (haligned : b.dataSize % b.format.blockSize = 0) {pieces : List ByteArray}
    (hcomplete : (taken b.dataSize pieces).size = b.dataSize) :
    (b.offer pieces).build =
      .ok (b.format.tree (b.format.entries (taken b.dataSize pieces))) := by
  obtain ⟨hholds, -, hformat, hsize⟩ := hempty.foldl_accept pieces (Nat.zero_le _)
  have hbuild := hholds.build_eq (hcomplete.trans hsize.symm)
    (by rw [hsize, hformat]; exact haligned)
  rw [hformat] at hbuild
  exact hbuild

theorem build_of_taken {a : Digest.Algorithm} {blockSize dataSize memory : Nat} {salt : ByteArray}
    (h : Builder.new a blockSize salt dataSize memory = .ok b) {pieces : List ByteArray}
    (hcomplete : (taken dataSize pieces).size = dataSize) :
    (b.offer pieces).build =
      .ok (b.format.tree (b.format.entries (taken dataSize pieces))) := by
  obtain ⟨hempty, rfl, haligned, hof⟩ := holds_new h
  obtain ⟨-, hblock, -⟩ := Format.of_ofAlgorithm hof
  exact hempty.build_of_taken (by rw [hblock]; exact haligned) hcomplete

end Builder

end HashTree

end SlotVerify
