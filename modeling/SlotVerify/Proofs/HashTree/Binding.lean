import SlotVerify.Proofs.HashTree.Levels
/-
  What a root digest says about the data.

  Two trees with one root digest are over the same data, or two different blocks that were hashed
  for them have one digest.  Nothing is assumed of the digest function but that its digests have one
  length: a collision is not excluded, it is shown.

  The step is between two neighbouring levels (`Format.Uniform.eq_or_collide`): where the levels
  above agree, each block below has the same digest in both trees, so the blocks agree or collide.
  Since the number of blocks fixes the number of levels, both trees are walked down from the top in
  step, to the data (`Format.Uniform.eq_or_exists_collide`).

  Main result: `Builder.eq_or_collide_of_rootDigest_eq`.
-/

namespace SlotVerify

namespace HashTree

/-- Two different blocks, one from each list, with the same digest. -/
def Collide (digest : ByteArray → ByteArray) (blocks blocks' : List ByteArray) : Prop :=
  ∃ x ∈ blocks, ∃ y ∈ blocks', x ≠ y ∧ digest x = digest y

theorem Collide.mono {digest : ByteArray → ByteArray} {blocks blocks' more more' : List ByteArray}
    (h : Collide digest blocks blocks') (hmore : ∀ x ∈ blocks, x ∈ more)
    (hmore' : ∀ y ∈ blocks', y ∈ more') : Collide digest more more' := by
  obtain ⟨x, hx, y, hy, hne, hdigest⟩ := h
  exact ⟨x, hmore x hx, y, hmore' y hy, hne, hdigest⟩

/-- All blocks that are hashed for a tree: those of the data and those of its levels. -/
def hashedBlocks (blockSize : Nat) (data : ByteArray) (tree : Tree) : List ByteArray :=
  Bytes.pieces blockSize data ++ Bytes.pieces blockSize tree.bytes

theorem size_of_mem_hashedBlocks {blockSize : Nat} {data : ByteArray} {tree : Tree} {x : ByteArray}
    (h : x ∈ hashedBlocks blockSize data tree) : x.size = blockSize := by
  rcases List.mem_append.mp h with hdata | htree
  · exact Bytes.size_of_mem_pieces hdata
  · exact Bytes.size_of_mem_pieces htree

namespace Format

variable {f : Format} {digestSize n : Nat}

theorem block_mem_pieces {below : ByteArray} {i : Nat} (h : i < below.size / f.blockSize) :
    f.block below i ∈ Bytes.pieces f.blockSize below :=
  List.mem_map.mpr ⟨i, List.mem_range.mpr h, rfl⟩

/-- A level says what the digests of the blocks below are. -/
theorem Uniform.digest_block_eq (h : f.Uniform digestSize) {below below' : ByteArray}
    (hsize : below.size = below'.size) (heq : f.above below = f.above below') {i : Nat}
    (hi : i < below.size / f.blockSize) :
    f.digest (f.block below i) = f.digest (f.block below' i) := by
  refine Bytes.ext_at0 ?_ ?_
  · rw [h.size_digest, h.size_digest]
  · intro x hx
    rw [h.size_digest] at hx
    have hslot : x < f.slot := Nat.lt_of_lt_of_le hx h.digestSize_le
    rw [← f.at0_above hi hslot, heq, f.at0_above (by rw [← hsize]; exact hi) hslot]

/-- One level down: what is below agrees, or two blocks of it collide. -/
theorem Uniform.eq_or_collide (h : f.Uniform digestSize) {below below' : ByteArray}
    (hsize : below.size = n * f.blockSize) (hsize' : below'.size = n * f.blockSize)
    (heq : f.above below = f.above below') :
    below = below' ∨
      Collide f.digest (Bytes.pieces f.blockSize below) (Bytes.pieces f.blockSize below') := by
  have hb := f.blockSize_pos
  by_cases hblocks : ∀ i, i < n → f.block below i = f.block below' i
  · exact Or.inl (Bytes.ext_slice hb hsize hsize' hblocks)
  · obtain ⟨i, hi, hne⟩ : ∃ i, i < n ∧ f.block below i ≠ f.block below' i := by
      simpa using hblocks
    have hbelow : i < below.size / f.blockSize := by
      rw [hsize, Nat.mul_div_cancel _ hb]
      exact hi
    have hbelow' : i < below'.size / f.blockSize := by
      rw [hsize', Nat.mul_div_cancel _ hb]
      exact hi
    exact Or.inr ⟨_, block_mem_pieces hbelow, _, block_mem_pieces hbelow', hne,
      h.digest_block_eq (hsize.trans hsize'.symm) heq hbelow⟩

/-- From a level down to the data. -/
theorem Uniform.eq_or_exists_collide (h : f.Uniform digestSize) {data data' : ByteArray}
    (hsize : data.size = n * f.blockSize) (hsize' : data'.size = n * f.blockSize) (l : Nat)
    (heq : f.level data l = f.level data' l) :
    data = data' ∨ ∃ k, k < l ∧ Collide f.digest (Bytes.pieces f.blockSize (f.level data k))
      (Bytes.pieces f.blockSize (f.level data' k)) := by
  obtain ⟨hper, hblock⟩ := h.perBlock
  have hpos : 0 < f.blockSize / f.slot := by omega
  -- by induction on the level: a collision anywhere ends the way down
  induction l with
  | zero => exact Or.inl heq
  | succ l ih =>
    rcases h.eq_or_collide (size_level hpos hblock hsize l) (size_level hpos hblock hsize' l) heq
      with hlower | hcollide
    · rcases ih hlower with hdata | ⟨k, hk, hcollide⟩
      · exact Or.inl hdata
      · exact Or.inr ⟨k, Nat.lt_succ_of_lt hk, hcollide⟩
    · exact Or.inr ⟨l, Nat.lt_succ_self l, hcollide⟩

end Format

namespace Tree.MadeOf

variable {tree : Tree} {digest : ByteArray → ByteArray} {digestSize slot blockSize depth : Nat}
  {data : ByteArray} {level : Nat → ByteArray}

/-- The blocks of every level are among those that are hashed for the tree. -/
theorem mem_hashedBlocks (h : tree.MadeOf digest digestSize slot blockSize data depth level)
    (hb : 0 < blockSize) {k : Nat} (hk : k ≤ depth) {x : ByteArray}
    (hx : x ∈ Bytes.pieces blockSize (level k)) : x ∈ hashedBlocks blockSize data tree := by
  unfold hashedBlocks
  rw [List.mem_append]
  cases k with
  | zero =>
    rw [h.data_eq] at hx
    exact Or.inl hx
  | succ k =>
    right
    rw [h.bytes_eq]
    refine Bytes.mem_pieces_concat hb ?_ ?_ hx
    · intro part hpart
      obtain ⟨l, hl, rfl⟩ := List.mem_map.mp (List.mem_reverse.mp hpart)
      rw [h.size_level _ (List.mem_range.mp hl), Nat.mul_mod_left]
    · exact List.mem_reverse.mpr (List.mem_map.mpr ⟨k, List.mem_range.mpr hk, rfl⟩)

/-- The top level is a single block. -/
theorem size_top (h : tree.MadeOf digest digestSize slot blockSize data depth level)
    (hdepth : depth ≠ 0) : (level depth).size = blockSize := by
  obtain ⟨l, rfl⟩ := Nat.exists_eq_succ_of_ne_zero hdepth
  rw [h.size_level _ (Nat.le_refl _), (h.isDepth.top_iff l (Nat.lt_succ_self l)).mpr rfl,
    Nat.one_mul]

theorem top_mem_hashedBlocks (h : tree.MadeOf digest digestSize slot blockSize data depth level)
    (hb : 0 < blockSize) (hdepth : depth ≠ 0) : level depth ∈ hashedBlocks blockSize data tree := by
  have hsize := h.size_top hdepth
  refine h.mem_hashedBlocks hb (Nat.le_refl depth) ?_
  rw [← hsize] at hb ⊢
  exact Bytes.mem_pieces_self hb

/-- Only the tree over no data has no levels. -/
theorem data_eq_empty (h : tree.MadeOf digest digestSize slot blockSize data 0 level)
    (hwhole : data.size % blockSize = 0) : data = ByteArray.empty := by
  have hblocks := h.isDepth.zero_iff.mp rfl
  have hsize := Nat.div_add_mod data.size blockSize
  rw [hblocks, hwhole, Nat.mul_zero] at hsize
  exact ByteArray.size_eq_zero_iff.mp hsize.symm

end Tree.MadeOf

/-- Two trees over as many blocks with one root digest are over the same data, or blocks that were
    hashed for them collide. -/
theorem Format.Uniform.eq_or_collide_of_root {f : Format} {digestSize n : Nat}
    (h : f.Uniform digestSize) {data data' : ByteArray} (hsize : data.size = n * f.blockSize)
    (hsize' : data'.size = n * f.blockSize)
    (hroot : (f.tree (f.entries data)).rootDigest = (f.tree (f.entries data')).rootDigest) :
    data = data' ∨
      Collide f.digest (hashedBlocks f.blockSize data (f.tree (f.entries data)))
        (hashedBlocks f.blockSize data' (f.tree (f.entries data'))) := by
  have hb := f.blockSize_pos
  obtain ⟨depth, hmade⟩ := h.exists_madeOf n
  have hfirst := hmade data hsize
  have hsecond := hmade data' hsize'
  by_cases hnone : depth = 0
  · subst hnone
    left
    rw [hfirst.data_eq_empty (by rw [hsize, Nat.mul_mod_left]),
      hsecond.data_eq_empty (by rw [hsize', Nat.mul_mod_left])]
  · have htop := hfirst.rootDigest_eq.symm.trans (hroot.trans hsecond.rootDigest_eq)
    rw [if_neg hnone, if_neg hnone] at htop
    by_cases heq : f.level data depth = f.level data' depth
    · rcases h.eq_or_exists_collide hsize hsize' depth heq with hdata | ⟨k, hk, hcollide⟩
      · exact Or.inl hdata
      · exact Or.inr (hcollide.mono (fun _ => hfirst.mem_hashedBlocks hb (Nat.le_of_lt hk))
          fun _ => hsecond.mem_hashedBlocks hb (Nat.le_of_lt hk))
    · exact Or.inr ⟨_, hfirst.top_mem_hashedBlocks hb hnone, _,
        hsecond.top_mem_hashedBlocks hb hnone, heq, htop⟩

namespace Builder

/-- The builder with another digest function. -/
def withDigest (b : Builder) (digest : ByteArray → ByteArray) : Builder :=
  { b with format := { b.format with digest } }

variable {a : Digest.Algorithm} {blockSize dataSize memory : Nat} {salt : ByteArray}
  {b : Builder}

/-- The digest function of a new builder is the salted one of its algorithm. -/
theorem withDigest_salted (hnew : Builder.new a blockSize salt dataSize memory = .ok b) :
    b.withDigest (fun block => a.digest (salt ++ block)) = b := by
  obtain ⟨-, -, -, hof⟩ := holds_new hnew
  unfold withDigest
  rw [← Format.digest_ofAlgorithm hof]

/-- A new builder builds the tree over all of the data, whatever its digest function. -/
theorem build_withDigest (hnew : Builder.new a blockSize salt dataSize memory = .ok b)
    (digest : ByteArray → ByteArray) {pieces : List ByteArray}
    (hcomplete : (taken dataSize pieces).size = dataSize) :
    ((b.withDigest digest).offer pieces).build =
      .ok ((b.withDigest digest).format.tree
        ((b.withDigest digest).format.entries (taken dataSize pieces))) := by
  obtain ⟨hempty, rfl, haligned, hof⟩ := holds_new hnew
  obtain ⟨-, hblock, -⟩ := Format.of_ofAlgorithm hof
  have hstart : (b.withDigest digest).Holds ByteArray.empty := by
    refine ⟨hempty.hashed, hempty.pending, ?_⟩
    show b.leaves = _
    rw [hempty.leaves, Format.entries_empty, Format.entries_empty]
  have haligned' : (b.withDigest digest).dataSize % (b.withDigest digest).format.blockSize = 0 := by
    show b.dataSize % b.format.blockSize = 0
    rw [hblock]
    exact haligned
  exact hstart.build_of_taken haligned' hcomplete

/-- The root digest binds the data, for any hash function whose digests have the algorithm's
    length, of which the algorithm's own is the one that a new builder comes with: data of one size
    with one root digest is the same, or two different blocks that were hashed for the two trees
    have the same salted hash. -/
theorem eq_or_collide_of_rootDigest_eq (hnew : Builder.new a blockSize salt dataSize memory = .ok b)
    {hash : ByteArray → ByteArray} (hhash : ∀ message, (hash message).size = a.digestSize)
    {data data' : ByteArray} (hdata : data.size = dataSize) (hdata' : data'.size = dataSize)
    {pieces pieces' : List ByteArray} (hpieces : taken dataSize pieces = data)
    (hpieces' : taken dataSize pieces' = data') :
    (b.withDigest fun block => a.digest (salt ++ block)) = b ∧ ∃ tree tree',
      ((b.withDigest fun block => hash (salt ++ block)).offer pieces).build = .ok tree ∧
      ((b.withDigest fun block => hash (salt ++ block)).offer pieces').build = .ok tree' ∧
      (tree.rootDigest = tree'.rootDigest → data = data' ∨
        ∃ x ∈ hashedBlocks blockSize data tree, ∃ y ∈ hashedBlocks blockSize data' tree',
          x.size = blockSize ∧ y.size = blockSize ∧ x ≠ y ∧
            hash (salt ++ x) = hash (salt ++ y)) := by
  subst hpieces hpieces'
  obtain ⟨-, -, haligned, hof⟩ := holds_new hnew
  obtain ⟨-, hblock, -⟩ := Format.of_ofAlgorithm hof
  refine ⟨withDigest_salted hnew, _, _, build_withDigest hnew _ hdata,
    build_withDigest hnew _ hdata', ?_⟩
  intro hroot
  have huniform := Format.uniform_ofAlgorithm hof
  have hsalted : (b.withDigest fun block => hash (salt ++ block)).format.Uniform a.digestSize :=
    ⟨fun _ => hhash _, huniform.digestSize_le, huniform.slot_dvd⟩
  have hwhole : dataSize = dataSize / blockSize * b.format.blockSize := by
    rw [hblock, Nat.div_mul_cancel (Nat.dvd_of_mod_eq_zero haligned)]
  rcases hsalted.eq_or_collide_of_root (hdata.trans hwhole) (hdata'.trans hwhole) hroot
    with heq | ⟨x, hx, y, hy, hne, hdigest⟩
  · exact Or.inl heq
  · change x ∈ hashedBlocks b.format.blockSize _ _ at hx
    change y ∈ hashedBlocks b.format.blockSize _ _ at hy
    rw [hblock] at hx hy
    exact Or.inr ⟨x, hx, y, hy, size_of_mem_hashedBlocks hx, size_of_mem_hashedBlocks hy, hne,
      hdigest⟩

/-- Two blocks, of which the second ends in this byte. -/
def endingIn (last : UInt8) : List ByteArray := [Bytes.zeros 127, ⟨#[last]⟩]

/-- A hash that keeps the beginning of the message only: the ends of the data do not count, and the
    blocks that differ there collide. -/
theorem eq_or_collide_of_rootDigest_eq_prefix : ∃ b tree tree',
    Builder.new .sha1 64 (Bytes.zeros 8) 128 = .ok b ∧
    ((b.withDigest fun block => Bytes.fit 20 (Bytes.zeros 8 ++ block)).offer (endingIn 0)).build =
      .ok tree ∧
    ((b.withDigest fun block => Bytes.fit 20 (Bytes.zeros 8 ++ block)).offer (endingIn 1)).build =
      .ok tree' ∧
    tree.rootDigest = tree'.rootDigest ∧
    ∃ x ∈ hashedBlocks 64 (taken 128 (endingIn 0)) tree,
      ∃ y ∈ hashedBlocks 64 (taken 128 (endingIn 1)) tree', x ≠ y ∧
        Bytes.fit 20 (Bytes.zeros 8 ++ x) = Bytes.fit 20 (Bytes.zeros 8 ++ y) := by
  obtain ⟨b, hnew⟩ : ∃ b, Builder.new .sha1 64 (Bytes.zeros 8) 128 = .ok b := ⟨_, rfl⟩
  have hsize : (taken 128 (endingIn 0)).size = 128 := by decide +kernel
  have hsize' : (taken 128 (endingIn 1)).size = 128 := by decide +kernel
  obtain ⟨-, tree, tree', htree, htree', hbinds⟩ :=
    eq_or_collide_of_rootDigest_eq hnew (fun message => Bytes.size_fit 20 message) hsize hsize' rfl
      rfl
  have hroot : tree.rootDigest = tree'.rootDigest := by
    have hboth : (((b.withDigest fun block => Bytes.fit 20 (Bytes.zeros 8 ++ block)).offer
        (endingIn 0)).build.map Tree.rootDigest).toOption =
      (((b.withDigest fun block => Bytes.fit 20 (Bytes.zeros 8 ++ block)).offer
        (endingIn 1)).build.map Tree.rootDigest).toOption := by
      cases hnew
      decide +kernel
    rw [htree, htree'] at hboth
    exact Option.some.inj hboth
  refine ⟨b, tree, tree', hnew, htree, htree', hroot, ?_⟩
  rcases hbinds hroot with heq | ⟨x, hx, y, hy, -, -, hne, hhash⟩
  · exact absurd heq (by decide +kernel)
  · exact ⟨x, hx, y, hy, hne, hhash⟩

end Builder

end HashTree

end SlotVerify
