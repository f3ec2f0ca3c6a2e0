import SlotVerify.Proofs.Verity.Finalizing
/-
  Writing metadata a second time.

  The metadata of a layout is determined by the image that it was written into: every byte that may
  differ belongs to the tree or to the parity bytes of one code word (`Layout.Written.unique`).  And
  an image that has got its metadata already is one that the same metadata was written into, because
  neither the tree nor the data under error correction is touched by parity bytes
  (`Layout.Written.again`).  So writing it a second time changes nothing (`Layout.Written.stable`).
-/

namespace SlotVerify

/-- Images that agree outside a region and inside it are the same. -/
theorem Bytes.SameBut.ext {region : Nat → Prop} {image a b : ByteArray}
    (ha : Bytes.SameBut region image a) (hb : Bytes.SameBut region image b)
    (h : ∀ x, region x → Bytes.at0 b x = Bytes.at0 a x) : b = a := by
  refine Bytes.ext_at0 (hb.size.trans ha.size.symm) fun x _ => ?_
  by_cases hx : region x
  · exact h x hx
  · rw [ha.at0 x hx, hb.at0 x hx]

/-- Equal stretches have equal bytes. -/
theorem Bytes.at0_of_extract_eq {a b : ByteArray} {start stop x : Nat}
    (h : b.extract start stop = a.extract start stop) (hlow : start ≤ x) (hhigh : x < stop) :
    Bytes.at0 b x = Bytes.at0 a x := by
  have hbyte : Bytes.at0 (b.extract start stop) (x - start) =
      Bytes.at0 (a.extract start stop) (x - start) := by
    rw [h]
  rwa [Bytes.at0_extract, Bytes.at0_extract, Nat.add_sub_cancel' hlow, if_pos hhigh,
    if_pos hhigh] at hbyte

namespace Verity

open Fec

variable {l : Layout} {tree before image after : ByteArray}

/-- A byte of the error correction belongs to a code word. -/
theorem exists_word {g : Geometry} (hgeometry : Geometry.ofLayout l = .ok g) (hpos : 0 < l.fecRoots)
    {x : Nat} (hx : l.FecRegion x) : ∃ i k, i < g.rounds ∧ k < l.blockSize ∧
      l.fecOffset + i * l.fecRoots * l.blockSize + k * l.fecRoots ≤ x ∧
      x < l.fecOffset + i * l.fecRoots * l.blockSize + k * l.fecRoots + l.fecRoots := by
  obtain ⟨hlow, hhigh⟩ := hx
  have hmade := Geometry.madeFor_ofLayout hgeometry
  have hsize : x - l.fecOffset < g.rounds * (l.fecRoots * l.blockSize) := by
    have := hmade.fecSize
    unfold Geometry.roundSize at this
    rw [hmade.roots, hmade.blockSize] at this
    omega
  have hround : 0 < l.fecRoots * l.blockSize := by
    refine Nat.pos_of_ne_zero fun hzero => ?_
    rw [hzero, Nat.mul_zero] at hsize
    exact Nat.not_lt_zero _ hsize
  -- the round, the word in the round, and the byte in the word
  have hplace := Nat.div_add_mod' (x - l.fecOffset) (l.fecRoots * l.blockSize)
  have hword := Nat.div_add_mod' ((x - l.fecOffset) % (l.fecRoots * l.blockSize)) l.fecRoots
  have hrest := Nat.mod_lt (x - l.fecOffset) hround
  have hbyte := Nat.mod_lt ((x - l.fecOffset) % (l.fecRoots * l.blockSize)) hpos
  refine ⟨(x - l.fecOffset) / (l.fecRoots * l.blockSize),
    (x - l.fecOffset) % (l.fecRoots * l.blockSize) / l.fecRoots,
    (Nat.div_lt_iff_lt_mul hround).mpr hsize,
    (Nat.div_lt_iff_lt_mul hpos).mpr (Nat.mul_comm _ _ ▸ hrest), ?_, ?_⟩
  · rw [Nat.mul_assoc]
    omega
  · rw [Nat.mul_assoc]
    omega

/-- The parity bytes of a layout are determined by the image that they were computed from. -/
theorem Layout.Encoded.unique (h : l.Encoded before image) (h' : l.Encoded before after) :
    after = image := by
  refine h.sameBut.ext h'.sameBut fun x hx => ?_
  have hsome : l.fecSize ≠ 0 := by
    obtain ⟨hlow, hhigh⟩ := hx
    omega
  obtain ⟨g, code, hgeometry, hcode, hparity⟩ := h.parity hsome
  obtain ⟨g', code', hgeometry', hcode', hparity'⟩ := h'.parity hsome
  cases hgeometry.symm.trans hgeometry'
  cases hcode.symm.trans hcode'
  have hpos : 0 < l.fecRoots := Nat.lt_of_lt_of_le (by decide) (Code.of_ofRoots? hcode).2.1
  obtain ⟨i, k, hi, hk, hlow, hhigh⟩ := exists_word hgeometry hpos hx
  exact Bytes.at0_of_extract_eq ((hparity' i k hi hk).trans (hparity i k hi hk).symm) hlow hhigh

/-- The metadata of a layout is determined by its tree and the image that it was written into. -/
theorem Layout.Written.unique (h : l.Written tree before image) (h' : l.Written tree before after) :
    after = image :=
  h.encoded.unique h'.encoded

/-- Metadata that is in place was written into the image as it is now. -/
theorem Layout.Written.again (h : l.Written tree before image) (hplaced : l.Placed before.size)
    (hsize : tree.size = l.hashTreeSize) : l.Written tree image image := by
  have hsame : Bytes.overwrite image l.hashTreeOffset tree = image := by
    by_cases hzero : l.hashTreeSize = 0
    · rw [ByteArray.size_eq_zero_iff.mp (hsize.trans hzero), Bytes.overwrite_empty]
    · have hfits := hplaced.tree hzero
      refine Bytes.overwrite_extract ?_ ?_
      · rw [hsize, h.sameBut.size]
        exact hfits
      · rw [hsize]
        exact h.tree_eq
  refine ⟨h.tree_eq, ?_, .refl _ _⟩
  rw [hsame]
  refine ⟨fun hsome => ?_, .refl _ _⟩
  obtain ⟨g, code, hgeometry, hcode, hparity⟩ := h.encoded.parity hsome
  refine ⟨g, code, hgeometry, hcode, fun i k hi hk => ?_⟩
  have hmade := Geometry.madeFor_ofLayout hgeometry
  -- the data under error correction has not changed since
  rw [hparity i k hi hk, Geometry.message_congr fun x hx => (h.encoded.sameBut.at0 _ ?_).symm]
  intro hfec
  refine hplaced.fec_fecData _ hfec ⟨?_, ?_⟩
  · rw [hmade.dataOffset]
    exact Nat.le_add_right _ _
  · rw [← hmade.dataOffset, ← hmade.dataSize]
    exact Nat.add_lt_add_left hx _

/-- Writing the same metadata a second time changes nothing. -/
theorem Layout.Written.stable (h : l.Written tree before image) (hplaced : l.Placed before.size)
    (hsize : tree.size = l.hashTreeSize) (h' : l.Written tree image after) : after = image :=
  (h.again hplaced hsize).unique h'

/-- There is one tree for each content of the tree's data. -/
theorem Layout.TreeFor.unique {contents contents' tree' : ByteArray} (h : l.TreeFor contents tree)
    (h' : l.TreeFor contents' tree')
    (hsame : l.hashTreeSize ≠ 0 → l.treeData contents' = l.treeData contents) : tree' = tree := by
  by_cases hzero : l.hashTreeSize = 0
  · rw [ByteArray.size_eq_zero_iff.mp (h.size.trans hzero),
      ByteArray.size_eq_zero_iff.mp (h'.size.trans hzero)]
  · obtain ⟨a, format, hname, hformat, htree⟩ := h.isTree hzero
    obtain ⟨a', format', hname', hformat', htree'⟩ := h'.isTree hzero
    cases hname.symm.trans hname'
    cases hformat.symm.trans hformat'
    rw [htree, htree', hsame hzero]

end Verity

end SlotVerify
