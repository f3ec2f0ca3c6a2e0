import SlotVerify.Proofs.HashTree.Building
/-
  The levels of a finished tree.

  Counted from the data up, the levels over some data are a sequence: level zero is the data, and
  each level above is made of the digests of the blocks below (`Format.level`).  The tree keeps the
  first so many levels above the data, the last of them being the first of a single block; how many
  that are depends on the number of data blocks alone (`Format.exists_depth`).

  The crux is a view of one level byte by byte (`Format.at0_above`): byte `x` of slot `i` is byte
  `x` of the digest of block `i` below, and everything behind the last slot is zero.  What a level
  consists of (`Summarizes`) and, in the other direction, what a level says about the one below both
  come out of it.

  Main result: however the data is cut into pieces, and whatever else is offered in between, a
  builder takes just the pieces that fit, and what it builds is the tree of these levels
  (`build_offer`).
-/

namespace SlotVerify

namespace HashTree

/-! ## Counting blocks -/

/-- Blocks of each level over so many blocks of data, the data first: `perBlock` blocks of a level
    need one block above. -/
def blocksAt (perBlock blocks : Nat) : Nat → Nat
  | 0 => blocks
  | l + 1 => Fec.ceilDiv (blocksAt perBlock blocks l) perBlock

/-- The levels over the first level above the data are the levels from there on. -/
theorem blocksAt_ceilDiv (perBlock blocks : Nat) (l : Nat) :
    blocksAt perBlock (Fec.ceilDiv blocks perBlock) l = blocksAt perBlock blocks (l + 1) := by
  induction l with
  | zero => rfl
  | succ l ih =>
    show Fec.ceilDiv _ perBlock = Fec.ceilDiv _ perBlock
    rw [ih]

/-- Where one block is not enough, the level above has fewer blocks. -/
theorem ceilDiv_lt {n perBlock : Nat} (h : 2 ≤ perBlock) (hzero : n ≠ 0)
    (hone : Fec.ceilDiv n perBlock ≠ 1) : Fec.ceilDiv n perBlock < n := by
  unfold Fec.ceilDiv at hone ⊢
  have hmany : n ≠ 1 := by
    rintro rfl
    rw [Nat.add_sub_cancel_left, Nat.div_self (by omega)] at hone
    exact hone rfl
  obtain ⟨p, rfl⟩ := Nat.exists_eq_add_of_le h
  obtain ⟨k, rfl⟩ := Nat.exists_eq_add_of_le (show 2 ≤ n by omega)
  have hproduct : (2 + k) * (2 + p) = 4 + 2 * p + 2 * k + k * p := by
    simp only [Nat.add_mul, Nat.mul_add]
    omega
  rw [Nat.div_lt_iff_lt_mul (by omega), hproduct]
  omega

/-- So many blocks of data have so many levels above them: the top one is the first of a single
    block. -/
structure IsDepth (perBlock blocks depth : Nat) : Prop where
  zero_iff : depth = 0 ↔ blocks = 0
  top_iff : ∀ l, l < depth → (blocksAt perBlock blocks (l + 1) = 1 ↔ l + 1 = depth)

namespace IsDepth

variable {perBlock n depth : Nat}

theorem zero (perBlock : Nat) : IsDepth perBlock 0 0 :=
  ⟨Iff.rfl, fun l hl => absurd hl (Nat.not_lt_zero l)⟩

theorem one (hzero : n ≠ 0) (hsingle : Fec.ceilDiv n perBlock = 1) : IsDepth perBlock n 1 := by
  refine ⟨iff_of_false Nat.one_ne_zero hzero, ?_⟩
  intro l hl
  obtain rfl : l = 0 := by omega
  exact iff_of_true hsingle rfl

/-- A level of several blocks is not the top one. -/
theorem succ (h : IsDepth perBlock (Fec.ceilDiv n perBlock) depth) (hzero : n ≠ 0)
    (habove : Fec.ceilDiv n perBlock ≠ 0) (hmany : Fec.ceilDiv n perBlock ≠ 1) :
    IsDepth perBlock n (depth + 1) := by
  refine ⟨iff_of_false (Nat.succ_ne_zero depth) hzero, ?_⟩
  have hdepth : depth ≠ 0 := fun hnone => habove (h.zero_iff.mp hnone)
  intro l hl
  cases l with
  | zero => exact iff_of_false hmany (by omega)
  | succ l =>
    rw [← blocksAt_ceilDiv, h.top_iff l (by omega)]
    omega

theorem le {depth' : Nat} (h : IsDepth perBlock n depth) (h' : IsDepth perBlock n depth') :
    depth' ≤ depth := by
  refine Nat.not_lt.mp fun hlt => ?_
  cases depth with
  | zero =>
    have hnone := h'.zero_iff.mpr (h.zero_iff.mp rfl)
    omega
  | succ l =>
    have hsingle := (h.top_iff l (Nat.lt_succ_self l)).mpr rfl
    have htop := (h'.top_iff l (by omega)).mp hsingle
    omega

/-- The number of data blocks leaves no choice. -/
theorem unique {depth' : Nat} (h : IsDepth perBlock n depth) (h' : IsDepth perBlock n depth') :
    depth = depth' :=
  Nat.le_antisymm (h'.le h) (h.le h')

end IsDepth

namespace Format

/-! ## One level -/

/-- A format whose digests have one length and fit into their slots, which fill a block. -/
structure Uniform (f : Format) (digestSize : Nat) : Prop where
  size_digest : ∀ block, (f.digest block).size = digestSize
  digestSize_le : digestSize ≤ f.slot
  slot_dvd : f.slot ∣ f.blockSize

/-- The level over what lies below: the digests of its blocks, in whole blocks. -/
def above (f : Format) (below : ByteArray) : ByteArray :=
  Bytes.padTo f.blockSize (f.entries below)

/-- The `i`th block. -/
def block (f : Format) (below : ByteArray) (i : Nat) : ByteArray :=
  Bytes.slice below (i * f.blockSize) f.blockSize

variable {f : Format} {below : ByteArray} {i x : Nat}

/-- A level byte by byte: a digest in each slot. -/
theorem at0_above (f : Format) (hi : i < below.size / f.blockSize) (hx : x < f.slot) :
    Bytes.at0 (f.above below) (i * f.slot + x) = Bytes.at0 (f.digest (f.block below i)) x := by
  have hsize : ∀ p ∈ (Bytes.pieces f.blockSize below).map f.entry, p.size = f.slot := by
    intro p hp
    obtain ⟨b, -, rfl⟩ := List.mem_map.mp hp
    exact Bytes.size_fit _ _
  have hlength : i < ((Bytes.pieces f.blockSize below).map f.entry).length := by
    rw [List.length_map, Bytes.length_pieces]
    exact hi
  have hslot : (f.entries below).extract (i * f.slot) (i * f.slot + f.slot) =
      f.entry (f.block below i) := by
    unfold entries
    rw [Bytes.extract_concat _ hsize i hlength]
    simp only [Bytes.pieces, List.getElem_map, List.getElem_range]
    rfl
  have hbyte := congrArg (fun b => Bytes.at0 b x) hslot
  dsimp only [entry] at hbyte
  rw [Bytes.at0_extract, if_pos (by omega), Bytes.at0_fit, if_pos hx] at hbyte
  unfold above Bytes.padTo
  rw [Bytes.at0_append_zeros]
  exact hbyte

/-- Behind the last slot there are zeros. -/
theorem at0_above_rest (f : Format) (hx : below.size / f.blockSize * f.slot ≤ x) :
    Bytes.at0 (f.above below) x = 0 := by
  unfold above Bytes.padTo
  rw [Bytes.at0_append_zeros]
  apply Bytes.at0_of_size_le
  rw [size_entries]
  exact hx

end Format

/-- `level` is made of the digests of the blocks below: the digest of each block at the beginning
    of its slot, and zeros everywhere else. -/
structure Summarizes (digest : ByteArray → ByteArray) (digestSize slot blockSize : Nat)
    (below level : ByteArray) : Prop where
  digest_eq : ∀ i, i < below.size / blockSize →
    level.extract (i * slot) (i * slot + digestSize) =
      digest (below.extract (i * blockSize) (i * blockSize + blockSize))
  padding : ∀ i x, i < below.size / blockSize → digestSize ≤ x → x < slot →
    Bytes.at0 level (i * slot + x) = 0
  rest : ∀ x, below.size / blockSize * slot ≤ x → Bytes.at0 level x = 0

namespace Format

variable {f : Format} {digestSize : Nat}

/-- The slots of all blocks below lie inside the level. -/
theorem slots_le_size_above (f : Format) (below : ByteArray) :
    below.size / f.blockSize * f.slot ≤ (f.above below).size := by
  unfold above Bytes.padTo
  rw [ByteArray.size_append, size_entries]
  exact Nat.le_add_right _ _

theorem summarizes_above (h : f.Uniform digestSize) (below : ByteArray) :
    Summarizes f.digest digestSize f.slot f.blockSize below (f.above below) := by
  have hfits := h.digestSize_le
  refine ⟨?_, ?_, fun x hx => f.at0_above_rest hx⟩
  · intro i hi
    have hinside := f.slots_le_size_above below
    have hlast := Nat.mul_le_mul_right f.slot hi
    rw [Nat.succ_mul] at hlast
    have hsize := h.size_digest (f.block below i)
    show _ = f.digest (f.block below i)
    refine Bytes.ext_at0 ?_ ?_
    · rw [ByteArray.size_extract, hsize]
      omega
    · intro x hx
      rw [ByteArray.size_extract] at hx
      rw [Bytes.at0_extract, if_pos (by omega), f.at0_above hi (by omega)]
  · intro i x hi hlow hhigh
    rw [f.at0_above hi hhigh]
    apply Bytes.at0_of_size_le
    rw [h.size_digest]
    exact hlow

/-! ## All levels -/

/-- The levels from the data up; the data is level zero. -/
def level (f : Format) (data : ByteArray) : Nat → ByteArray
  | 0 => data
  | l + 1 => f.above (f.level data l)

/-- The levels over the first level above the data are the levels from there on. -/
theorem level_above (f : Format) (data : ByteArray) (l : Nat) :
    f.level (f.above data) l = f.level data (l + 1) := by
  induction l with
  | zero => rfl
  | succ l ih =>
    show f.above _ = f.above _
    rw [ih]

variable {perBlock n : Nat} {data : ByteArray}

theorem size_above (hper : 0 < perBlock) (hblock : f.blockSize = perBlock * f.slot)
    (hdata : data.size = n * f.blockSize) :
    (f.above data).size = Fec.ceilDiv n perBlock * f.blockSize := by
  have hentries : (f.entries data).size = n * f.slot := by
    rw [size_entries, hdata, Nat.mul_div_cancel _ f.blockSize_pos]
  have hpadded := size_padTo_slots f.slot_pos hper hentries
  rw [← hblock] at hpadded
  exact hpadded

theorem size_level (hper : 0 < perBlock) (hblock : f.blockSize = perBlock * f.slot)
    (hdata : data.size = n * f.blockSize) (l : Nat) :
    (f.level data l).size = blocksAt perBlock n l * f.blockSize := by
  induction l with
  | zero => exact hdata
  | succ l ih => exact size_above hper hblock ih

/-- The levels up to the given one, top level first. -/
def levelsUpTo (f : Format) (data : ByteArray) (depth : Nat) : List ByteArray :=
  ((List.range depth).map fun l => f.level data (l + 1)).reverse

theorem levelsUpTo_succ (f : Format) (data : ByteArray) (depth : Nat) :
    f.levelsUpTo data (depth + 1) = f.levelsUpTo (f.above data) depth ++ [f.above data] := by
  unfold levelsUpTo
  rw [List.range_succ_eq_map, List.map_cons, List.reverse_cons, List.map_map]
  congr 2
  apply List.map_congr_left
  intro l _
  exact (f.level_above data (l + 1)).symm

theorem headD_levelsUpTo (f : Format) (data : ByteArray) (depth : Nat) (default : ByteArray) :
    (f.levelsUpTo data depth).headD default =
      if depth = 0 then default else f.level data depth := by
  cases depth with
  | zero => rfl
  | succ depth =>
    unfold levelsUpTo
    rw [List.range_succ, List.map_append, List.reverse_append, if_neg (Nat.succ_ne_zero depth)]
    rfl

/-- The recursion on levels, by the number of blocks below. -/
theorem levels_entries (hper : 0 < perBlock) (hblock : f.blockSize = perBlock * f.slot)
    (hdata : data.size = n * f.blockSize) :
    f.levels (f.entries data) =
      if n = 0 then []
      else if Fec.ceilDiv n perBlock = 1 then [f.above data]
      else f.levels (f.entries (f.above data)) ++ [f.above data] := by
  have hb := f.blockSize_pos
  have hnone : (f.entries data).size = 0 ↔ n = 0 := by
    have hslot := f.slot_pos
    rw [size_entries, hdata, Nat.mul_div_cancel _ hb, Nat.mul_eq_zero]
    omega
  have hsingle : (Bytes.padTo f.blockSize (f.entries data)).size = f.blockSize ↔
      Fec.ceilDiv n perBlock = 1 := by
    show (f.above data).size = f.blockSize ↔ _
    rw [size_above hper hblock hdata]
    exact Nat.mul_eq_right (Nat.ne_of_gt hb)
  rw [levels]
  by_cases hzero : n = 0
  · rw [dif_pos (hnone.mpr hzero), if_pos hzero]
  · rw [dif_neg fun h => hzero (hnone.mp h), if_neg hzero]
    by_cases hone : Fec.ceilDiv n perBlock = 1
    · rw [dif_pos (hsingle.mpr hone), if_pos hone]
      rfl
    · rw [dif_neg fun h => hone (hsingle.mp h), if_neg hone]
      rfl

/-- How many levels there are depends on the number of data blocks alone. -/
theorem exists_depth (f : Format) (hper : 2 ≤ perBlock) (hblock : f.blockSize = perBlock * f.slot)
    (n : Nat) : ∃ depth, IsDepth perBlock n depth ∧ ∀ data : ByteArray,
      data.size = n * f.blockSize → f.levels (f.entries data) = f.levelsUpTo data depth := by
  have hpos : 0 < perBlock := by omega
  -- by induction on the number of blocks: the level above the data has fewer of them
  induction n using Nat.strongRecOn with
  | ind n ih =>
    by_cases hzero : n = 0
    · subst hzero
      refine ⟨0, .zero perBlock, ?_⟩
      intro data hdata
      rw [levels_entries hpos hblock hdata, if_pos rfl]
      rfl
    · by_cases hsingle : Fec.ceilDiv n perBlock = 1
      · refine ⟨1, .one hzero hsingle, ?_⟩
        intro data hdata
        rw [levels_entries hpos hblock hdata, if_neg hzero, if_pos hsingle]
        rfl
      · obtain ⟨depth, hdepth, hlevels⟩ := ih _ (ceilDiv_lt hper hzero hsingle)
        have habove : Fec.ceilDiv n perBlock ≠ 0 := by
          rw [ne_eq, ceilDiv_eq_zero_iff hpos]
          exact hzero
        refine ⟨depth + 1, hdepth.succ hzero habove hsingle, ?_⟩
        intro data hdata
        rw [levels_entries hpos hblock hdata, if_neg hzero, if_neg hsingle, levelsUpTo_succ,
          hlevels _ (size_above hpos hblock hdata)]

end Format

/-! ## The tree -/

/-- A tree that is made of these levels over some data, counted from the data up: each level says
    what is below it, they are stored top level first, and the top block gives the root digest.
    Without data there are no levels, and a zero block takes the place of the top one. -/
structure Tree.MadeOf (tree : Tree) (digest : ByteArray → ByteArray)
    (digestSize slot blockSize : Nat) (data : ByteArray) (depth : Nat) (level : Nat → ByteArray) :
    Prop where
  data_eq : level 0 = data
  size_level : ∀ l, l ≤ depth →
    (level l).size = blocksAt (blockSize / slot) (data.size / blockSize) l * blockSize
  summarizes : ∀ l, l < depth →
    Summarizes digest digestSize slot blockSize (level l) (level (l + 1))
  isDepth : IsDepth (blockSize / slot) (data.size / blockSize) depth
  bytes_eq : tree.bytes = Bytes.concat ((List.range depth).map fun l => level (l + 1)).reverse
  rootDigest_eq :
    tree.rootDigest = digest (if depth = 0 then Bytes.zeros blockSize else level depth)

namespace Format

variable {f : Format} {digestSize : Nat}

/-- A block is filled by two slots at least. -/
theorem Uniform.perBlock (h : f.Uniform digestSize) :
    2 ≤ f.blockSize / f.slot ∧ f.blockSize = f.blockSize / f.slot * f.slot := by
  refine ⟨(Nat.le_div_iff_mul_le f.slot_pos).mpr f.two_slots, ?_⟩
  exact (Nat.div_mul_cancel h.slot_dvd).symm

/-- All trees over so many blocks of data have the same number of levels. -/
theorem Uniform.exists_madeOf (h : f.Uniform digestSize) (blocks : Nat) :
    ∃ depth, ∀ data : ByteArray, data.size = blocks * f.blockSize →
      (f.tree (f.entries data)).MadeOf f.digest digestSize f.slot f.blockSize data depth
        (f.level data) := by
  obtain ⟨hper, hblock⟩ := h.perBlock
  obtain ⟨depth, hdepth, hlevels⟩ := f.exists_depth hper hblock blocks
  refine ⟨depth, ?_⟩
  intro data hdata
  have hblocks : data.size / f.blockSize = blocks := by
    rw [hdata, Nat.mul_div_cancel _ f.blockSize_pos]
  refine ⟨rfl, ?_, fun l _ => summarizes_above h _, ?_, ?_, ?_⟩
  · intro l _
    rw [hblocks]
    exact size_level (by omega) hblock hdata l
  · rw [hblocks]
    exact hdepth
  · show Bytes.concat (f.levels (f.entries data)) = _
    rw [hlevels data hdata]
    rfl
  · show f.digest ((f.levels (f.entries data)).headD _) = _
    rw [hlevels data hdata, headD_levelsUpTo]

theorem digest_ofAlgorithm {a : Digest.Algorithm} {salt : ByteArray} {blockSize : Nat}
    (h : ofAlgorithm a salt blockSize = .ok f) :
    f.digest = fun block => a.digest (salt ++ block) := by
  unfold ofAlgorithm at h
  split at h
  · cases h
    rfl
  · cases h

theorem digestSize_le_slotFor (a : Digest.Algorithm) : a.digestSize ≤ slotFor a.digestSize := by
  cases a <;> decide

theorem uniform_ofAlgorithm {a : Digest.Algorithm} {salt : ByteArray} {blockSize : Nat}
    (h : ofAlgorithm a salt blockSize = .ok f) : f.Uniform a.digestSize := by
  refine ⟨?_, ?_, slot_dvd h⟩
  · intro block
    rw [digest_ofAlgorithm h]
    exact Digest.size_digest a _
  · rw [(of_ofAlgorithm h).2.2]
    exact digestSize_le_slotFor a

/-- The tree over whole blocks of data is made of the levels over them. -/
theorem exists_madeOf_ofAlgorithm {a : Digest.Algorithm} {salt : ByteArray} {blockSize : Nat}
    (h : ofAlgorithm a salt blockSize = .ok f) {data : ByteArray}
    (haligned : data.size % blockSize = 0) :
    ∃ depth level, (f.tree (f.entries data)).MadeOf (fun block => a.digest (salt ++ block))
      a.digestSize (slotFor a.digestSize) blockSize data depth level := by
  obtain ⟨-, hblock, hslot⟩ := of_ofAlgorithm h
  have hwhole : data.size = data.size / blockSize * f.blockSize := by
    rw [hblock, Nat.div_mul_cancel (Nat.dvd_of_mod_eq_zero haligned)]
  obtain ⟨depth, hmade⟩ := (uniform_ofAlgorithm h).exists_madeOf (data.size / blockSize)
  replace hmade := hmade data hwhole
  rw [hslot, hblock, digest_ofAlgorithm h] at hmade
  exact ⟨depth, _, hmade⟩

end Format

namespace Builder

/-- One more piece is taken if there is still room for all of it, and refused otherwise. -/
theorem update_offer {a : Digest.Algorithm} {blockSize dataSize memory : Nat}
    {salt : ByteArray} {b : Builder} (hnew : Builder.new a blockSize salt dataSize memory = .ok b)
    (pieces : List ByteArray) (piece : ByteArray) :
    if (taken dataSize pieces).size + piece.size ≤ dataSize then
      (b.offer pieces).update piece = .ok (b.offer (pieces ++ [piece])) ∧
        taken dataSize (pieces ++ [piece]) = taken dataSize pieces ++ piece
    else
      (b.offer pieces).update piece = .error .dataOverflow ∧
        b.offer (pieces ++ [piece]) = b.offer pieces ∧
        taken dataSize (pieces ++ [piece]) = taken dataSize pieces := by
  obtain ⟨hholds, hle, -, hsize⟩ := holds_offer hnew pieces
  have hupdate := hholds.update_eq (by rw [hsize]; exact hle) piece
  have hoffer : b.offer (pieces ++ [piece]) = (b.offer pieces).accept piece := by
    unfold offer
    rw [List.foldl_append]
    rfl
  have htaken : taken dataSize (pieces ++ [piece]) =
      takeIn dataSize (taken dataSize pieces) piece := by
    unfold taken
    rw [List.foldl_append]
    rfl
  rw [hsize] at hupdate
  rw [hoffer, htaken]
  unfold takeIn
  split
  · rename_i hfits
    rw [if_pos hfits] at hupdate
    exact ⟨hupdate, rfl⟩
  · rename_i hfits
    rw [if_neg hfits] at hupdate
    refine ⟨hupdate, ?_, rfl⟩
    unfold accept
    rw [hupdate]

/-- Whatever a new builder is offered, it takes exactly the pieces for which there is still room and
    is left alone by the others; it builds a tree exactly if what it has taken is all of the data,
    and that tree is made of the levels over the data. -/
theorem build_offer {a : Digest.Algorithm} {blockSize dataSize memory : Nat}
    {salt : ByteArray} {b : Builder} (hnew : Builder.new a blockSize salt dataSize memory = .ok b)
    (pieces : List ByteArray) :
    (∀ piece : ByteArray,
      if (taken dataSize pieces).size + piece.size ≤ dataSize then
        (b.offer pieces).update piece = .ok (b.offer (pieces ++ [piece])) ∧
          taken dataSize (pieces ++ [piece]) = taken dataSize pieces ++ piece
      else
        (b.offer pieces).update piece = .error .dataOverflow ∧
          b.offer (pieces ++ [piece]) = b.offer pieces ∧
          taken dataSize (pieces ++ [piece]) = taken dataSize pieces) ∧
    if (taken dataSize pieces).size = dataSize then
      ∃ tree depth level, (b.offer pieces).build = .ok tree ∧
        tree.MadeOf (fun block => a.digest (salt ++ block)) a.digestSize (slotFor a.digestSize)
          blockSize (taken dataSize pieces) depth level
    else
      (b.offer pieces).build = .error (.incompleteData (taken dataSize pieces).size dataSize) := by
  refine ⟨update_offer hnew pieces, ?_⟩
  obtain ⟨hholds, -, -, hsize⟩ := holds_offer hnew pieces
  obtain ⟨-, -, haligned, hof⟩ := holds_new hnew
  split
  · rename_i hcomplete
    have hwhole : (taken dataSize pieces).size % blockSize = 0 := by
      rw [hcomplete]
      exact haligned
    obtain ⟨depth, level, hmade⟩ := Format.exists_madeOf_ofAlgorithm hof hwhole
    exact ⟨_, depth, level, build_of_taken hnew hcomplete, hmade⟩
  · rename_i hmissing
    unfold build
    rw [if_pos (Or.inl (by rw [hholds.hashed, hsize]; exact hmissing)), hholds.hashed, hsize]

/-- Three blocks, of which the middle one is offered twice: together with the first, and once more
    with too much behind it. -/
def threeBlocks : List ByteArray := [Bytes.zeros 100, Bytes.zeros 100, Bytes.zeros 92]

/-- Two levels: the leaves of three blocks need two blocks. -/
theorem build_offer_threeBlocks : ∃ b tree level,
    Builder.new .sha1 64 (Bytes.zeros 8) 192 = .ok b ∧
    (b.offer threeBlocks).build = .ok tree ∧
    tree.MadeOf (fun block => Digest.Algorithm.digest .sha1 (Bytes.zeros 8 ++ block)) 20 32 64
      (taken 192 threeBlocks) 2 level := by
  obtain ⟨b, hnew⟩ : ∃ b, Builder.new .sha1 64 (Bytes.zeros 8) 192 = .ok b := ⟨_, rfl⟩
  have hoffer := (build_offer hnew threeBlocks).2
  rw [if_pos (by decide)] at hoffer
  obtain ⟨tree, depth, level, hbuild, hmade⟩ := hoffer
  have htwo : IsDepth 2 3 2 := ⟨by decide, by decide⟩
  obtain rfl : depth = 2 := hmade.isDepth.unique htwo
  exact ⟨b, tree, level, hnew, hbuild, hmade⟩

end Builder

end HashTree

end SlotVerify
