import SlotVerify.Proofs.Fec.Gathering
import SlotVerify.Proofs.Rig.Device
import SlotVerify.Proofs.Verity.Stream
/-
  What a finalization leaves on a device.

  On a device that carries out everything, a finalization succeeds and leaves exactly the metadata
  that its layout specifies (`finalize_written`): the tree over the data that was fed, and for
  every code word of every round the parity bytes of its message, read from the image with the tree
  in place.  The message does not depend on how the reads were cut (`yields_gatherRound`).  The
  rounds go through one invariant, `Geometry.Encoded`: so many rounds are in place, and nothing else
  has changed.  A later round sees the same data as the first one, because parity bytes never lie
  on the data that they cover.
-/

namespace SlotVerify

open Device Fec
open Verification (OpenedDevice)

namespace Fec.Geometry

variable {g : Geometry} {code : Code} {before image : ByteArray} {n : Nat}

/-- The parity bytes of the first `n` rounds are in place, and nothing else has changed. -/
structure Encoded (g : Geometry) (code : Code) (before : ByteArray) (n : Nat)
    (after : ByteArray) : Prop where
  sameBut : Bytes.SameBut (fun x => g.roundOffset 0 ≤ x ∧ x < g.roundOffset n) before after
  parity : ∀ i k, i < n → k < g.blockSize →
    after.extract (g.roundOffset i + k * g.roots) (g.roundOffset i + (k * g.roots + g.roots)) =
      (code.parity (g.message before i k)).toByteArray

theorem encoded_zero (g : Geometry) (code : Code) (before : ByteArray) :
    g.Encoded code before 0 before :=
  ⟨.refl _ _, fun _ _ hi => absurd hi (Nat.not_lt_zero _)⟩

/-- The next round: what is in place stays there. -/
theorem Encoded.write (h : g.Encoded code before n image) {parity : ByteArray}
    (hsize : parity.size = g.roundSize) (hfits : g.roundOffset (n + 1) ≤ image.size)
    (hparity : ∀ k, k < g.blockSize → parity.extract (k * g.roots) (k * g.roots + g.roots) =
      (code.parity (g.message before n k)).toByteArray) :
    g.Encoded code before (n + 1) (Bytes.overwrite image (g.roundOffset n) parity) := by
  have hnext := g.roundOffset_succ n
  have hfirst := g.roundOffset_le (Nat.zero_le n)
  have hinside : g.roundOffset n + parity.size ≤ image.size := by omega
  have hwritten : Bytes.SameBut (fun x => g.roundOffset n ≤ x ∧ x < g.roundOffset (n + 1)) image
      (Bytes.overwrite image (g.roundOffset n) parity) :=
    .overwrite hinside fun x hlow hhigh => ⟨hlow, by omega⟩
  constructor
  · refine (h.sameBut.mono ?_).trans (hwritten.mono ?_)
    · rintro x ⟨hlow, hhigh⟩
      exact ⟨hlow, by omega⟩
    · rintro x ⟨hlow, hhigh⟩
      exact ⟨by omega, hhigh⟩
  · intro i k hi hk
    have hword := g.word_le_roundSize hk
    rcases Nat.lt_or_eq_of_le (Nat.lt_succ_iff.mp hi) with hold | rfl
    · -- an earlier round lies in front of what is written now
      have hbelow := g.roundOffset_le (show i + 1 ≤ n from hold)
      have hround := g.roundOffset_succ i
      rw [hwritten.extract_eq (by omega) (fun x _ hhigh hx => by omega)]
      exact h.parity i k hold hk
    · rw [Bytes.extract_overwrite hinside _ (by omega)]
      exact hparity k hk

/-- In the covered data nothing has changed, so the messages are the same. -/
theorem Encoded.message_eq (h : g.Encoded code before n image)
    (hapart : ∀ x, x < g.dataSize →
      ¬ (g.roundOffset 0 ≤ g.dataOffset + x ∧ g.dataOffset + x < g.roundOffset n))
    (round k : Nat) : g.message image round k = g.message before round k :=
  message_congr (fun x hx => h.sameBut.at0 _ (hapart x hx)) round k

end Fec.Geometry

namespace Verity

open DeviceRoutine

variable {d : OpenedDevice} {image : ByteArray}

/-- However the reads are cut, a round comes to hold its blocks. -/
theorem yields_gatherRound (r : Round)
    (hinside : r.geometry.dataOffset + r.geometry.dataSize ≤ image.size)
    (hgathered : r.Gathered image) :
    (gatherRound r).Yields d (fun r' after => after = image ∧ r'.geometry = r.geometry ∧
      r'.index = r.index ∧ r'.Gathered image ∧ r'.nextRead = none) image := by
  induction r using gatherRound.induct with
  | case1 r hread =>
    rw [gatherRound_of_none hread]
    exact yields_done ⟨rfl, rfl, rfl, hgathered, hread⟩
  | case2 r offset length hread ih =>
    rw [gatherRound_of_some hread]
    obtain ⟨j, filled, -, -, hlength, -, hoffset, hdata⟩ := Round.nextRead_eq_some hread
    refine yields_read ?_
    intro n hn hsize hsome
    -- the region lies inside the image, so there is something to read
    have hcut : (image.extract offset (offset + n)).size = n := Bytes.size_slice_of_le hsize
    have hpos : n ≠ 0 := by
      intro hzero
      have := hsome hzero
      omega
    rw [← hcut] at hpos
    dsimp only
    rw [if_neg hpos]
    exact ih _ hpos hinside (hgathered.gather hread hn (by omega))

/-- The rounds from `index` on. -/
theorem yields_writeRounds {g : Geometry} {code : Code} {before : ByteArray}
    (hwritable : d.writable = true) (hpos : 0 < code.roots) (hroots : code.roots = g.roots)
    (hrounds : 0 < g.rounds) (hdata : g.dataOffset + g.dataSize ≤ before.size) {total : Nat}
    (hsize : g.roundOffset total ≤ before.size)
    (hapart : ∀ x, x < g.dataSize →
      ¬ (g.roundOffset 0 ≤ g.dataOffset + x ∧ g.dataOffset + x < g.roundOffset total))
    (n : Nat) : ∀ {index : Nat} {image : ByteArray}, index + n = total →
      g.Encoded code before index image →
      (writeRounds g code n index).Yields d (fun _ after => g.Encoded code before total after)
        image := by
  induction n with
  | zero =>
    rintro index image rfl h
    exact yields_done h
  | succ n ih =>
    intro index image hindex h
    have hnext := g.roundOffset_succ index
    have hlast : g.roundOffset (index + 1) ≤ g.roundOffset total := g.roundOffset_le (by omega)
    have himage := h.sameBut.size
    refine Yields.andThen ((yields_gatherRound (Round.start g index) ?_
      (Round.gathered_start g index)).mono ?_)
    · rw [himage]
      exact hdata
    · rintro r image' ⟨rfl, hgeometry, hround, hgathered, hread⟩
      change r.geometry = g at hgeometry
      change r.index = index at hround
      have hparity := Round.size_parity_eq_roundSize hpos hroots hgeometry
      refine Yields.andThen (yields_write hwritable (by omega) ?_)
      refine ih (by omega) (h.write hparity (by omega) ?_)
      -- what was gathered is what the image before the first round has to give
      intro k hk
      rw [← hgeometry] at hk
      rw [← hroots, Round.extract_parity hpos hk,
        hgathered.message_eq (by rw [hgeometry]; exact hrounds) hread hk, hgeometry, hround]
      refine congrArg (fun message => (code.parity message).toByteArray)
        (h.message_eq ?_ index k)
      rintro x hx ⟨hlow, hhigh⟩
      exact hapart x hx ⟨hlow, by omega⟩

/-! ## The whole finalization -/

/-- The regions of a layout lie inside an image, and the parity bytes lie apart from the tree and
    from the data that they cover.  A region that the layout does not have may be anywhere. -/
structure Layout.Placed (l : Layout) (size : Nat) : Prop where
  tree : l.hashTreeSize ≠ 0 → l.hashTreeOffset + l.hashTreeSize ≤ size
  fecData : l.fecSize ≠ 0 → l.fecDataOffset + l.fecDataSize ≤ size
  fec : l.fecSize ≠ 0 → l.fecOffset + l.fecSize ≤ size
  fec_tree : ∀ x, l.FecRegion x → ¬ l.TreeRegion x
  fec_fecData : ∀ x, l.FecRegion x → ¬ (l.fecDataOffset ≤ x ∧ x < l.fecDataOffset + l.fecDataSize)

/-- The parity bytes of a layout are in place, computed from the image before, and nothing else has
    changed. -/
structure Layout.Encoded (l : Layout) (before after : ByteArray) : Prop where
  parity : l.fecSize ≠ 0 → ∃ g code, Geometry.ofLayout l = .ok g ∧
    Code.ofRoots? l.fecRoots = some code ∧
    ∀ i k, i < g.rounds → k < l.blockSize →
      after.extract (l.fecOffset + i * l.fecRoots * l.blockSize + k * l.fecRoots)
          (l.fecOffset + i * l.fecRoots * l.blockSize + k * l.fecRoots + l.fecRoots) =
        (code.parity (g.message before i k)).toByteArray
  sameBut : Bytes.SameBut l.FecRegion before after

/-- The metadata of a layout is in place: the tree, and the parity bytes computed from the image
    with the tree; nothing else has changed. -/
structure Layout.Written (l : Layout) (tree before after : ByteArray) : Prop where
  tree_eq : after.extract l.hashTreeOffset (l.hashTreeOffset + l.hashTreeSize) = tree
  encoded : l.Encoded (Bytes.overwrite before l.hashTreeOffset tree) after
  sameBut : Bytes.SameBut l.Metadata before after

variable {l : Layout}

/-- All rounds of a layout's error correction. -/
theorem encoded_of_rounds {g : Geometry} {code : Code} {before after : ByteArray}
    (hgeometry : Geometry.ofLayout l = .ok g) (hcode : Code.ofRoots? l.fecRoots = some code)
    (h : g.Encoded code before g.rounds after) : l.Encoded before after := by
  have hmade := Geometry.madeFor_ofLayout hgeometry
  refine ⟨fun _ => ⟨g, code, hgeometry, hcode, ?_⟩, h.sameBut.mono ?_⟩
  · intro i k hi hk
    have hparity := h.parity i k hi (by rw [hmade.blockSize]; exact hk)
    unfold Geometry.roundOffset Geometry.roundSize at hparity
    rw [hmade.fecOffset, hmade.roots, hmade.blockSize, ← Nat.mul_assoc, ← Nat.add_assoc] at hparity
    exact hparity
  · rintro x ⟨hlow, hhigh⟩
    have hoffset := hmade.fecOffset
    have hsize := hmade.fecSize
    unfold Geometry.roundOffset at hlow hhigh
    exact ⟨by omega, by omega⟩

namespace Finalization

variable {f : Finalization}

theorem yields_writeTree (hwritable : d.writable = true) (hplaced : l.Placed image.size)
    {tree : ByteArray} (hsize : tree.size = l.hashTreeSize)
    (htree : f.tree = if l.hashTreeSize = 0 then none else some (l.hashTreeOffset, tree)) :
    f.writeTree.Yields d (fun _ after => after = Bytes.overwrite image l.hashTreeOffset tree)
      image := by
  unfold writeTree
  rw [htree]
  by_cases hzero : l.hashTreeSize = 0
  · have hempty : tree = ByteArray.empty := ByteArray.size_eq_zero_iff.mp (hsize.trans hzero)
    rw [if_pos hzero, hempty, Bytes.overwrite_empty]
    exact yields_done rfl
  · have hinside := hplaced.tree hzero
    rw [if_neg hzero]
    dsimp only
    rw [if_neg (by omega)]
    exact yields_write hwritable (by omega) rfl

theorem yields_writeFec (hwritable : d.writable = true) (hplaced : l.Placed image.size)
    (hfec : Session.fecGeometry l = .ok f.fec) :
    f.writeFec.Yields d (fun _ after => l.Encoded image after) image := by
  unfold writeFec
  rcases Session.fecGeometry_eq_ok hfec with ⟨hzero, hnone⟩ | ⟨hzero, g, hsome, hgeometry⟩
  · rw [hnone]
    exact yields_done ⟨fun hsome => absurd hzero hsome, .refl _ _⟩
  · rw [hsome]
    dsimp only
    have hmade := Geometry.madeFor_ofLayout hgeometry
    obtain ⟨code, hcode⟩ := exists_ofRoots? hmade.minRoots_le hmade.le_maxRoots
    have hpos := Code.roots_pos hcode
    have hroots := (Code.of_ofRoots? hcode).1
    have hrounds := hmade.rounds_pos hzero
    have hdata := hplaced.fecData hzero
    have hfits := hplaced.fec hzero
    have hoffset := hmade.fecOffset
    have hsize := hmade.fecSize
    rw [hcode]
    rw [← hmade.dataOffset, ← hmade.dataSize] at hdata
    rw [hmade.roots] at hcode
    refine (yields_writeRounds hwritable hpos hroots hrounds hdata ?_ ?_ g.rounds
      (Nat.zero_add _) (g.encoded_zero code image)).mono
        fun _ after h => encoded_of_rounds hgeometry hcode h
    · unfold Geometry.roundOffset
      omega
    · unfold Geometry.roundOffset
      rintro x hx ⟨hlow, hhigh⟩
      refine hplaced.fec_fecData (g.dataOffset + x) ⟨by omega, by omega⟩ ⟨?_, ?_⟩
      · rw [hmade.dataOffset]
        exact Nat.le_add_right _ _
      · rw [← hmade.dataOffset, ← hmade.dataSize]
        exact Nat.add_lt_add_left hx _

/-- The whole of it: the tree is written before the parity bytes are computed, and stays. -/
theorem yields_routine (hwritable : d.writable = true) (hplaced : l.Placed image.size)
    {tree : ByteArray} (hsize : tree.size = l.hashTreeSize)
    (htree : f.tree = if l.hashTreeSize = 0 then none else some (l.hashTreeOffset, tree))
    (hfec : Session.fecGeometry l = .ok f.fec) :
    f.routine.Yields d (fun _ after => l.Written tree image after) image := by
  have hfits : l.hashTreeSize ≠ 0 → l.hashTreeOffset + tree.size ≤ image.size := by
    rw [hsize]
    exact hplaced.tree
  refine Yields.andThen ((yields_writeTree hwritable hplaced hsize htree).mono ?_)
  -- from here on the image is the one with the tree in place
  rintro - treed rfl
  have htreed : Bytes.SameBut l.TreeRegion image
      (Bytes.overwrite image l.hashTreeOffset tree) := by
    by_cases hzero : l.hashTreeSize = 0
    · rw [ByteArray.size_eq_zero_iff.mp (hsize.trans hzero), Bytes.overwrite_empty]
      exact .refl _ _
    · refine .overwrite (hfits hzero) fun x hlow hhigh => ⟨hlow, ?_⟩
      rwa [hsize] at hhigh
  have hplaced' := hplaced
  rw [← htreed.size] at hplaced'
  refine Yields.andThen ((yields_writeFec hwritable hplaced' hfec).mono ?_)
  intro _ after hencoded
  refine yields_sync ⟨?_, hencoded, ?_⟩
  · by_cases hzero : l.hashTreeSize = 0
    · rw [hzero, Nat.add_zero, ByteArray.extract_same,
        ByteArray.size_eq_zero_iff.mp (hsize.trans hzero)]
    · -- the parity bytes are elsewhere, so the tree is still there
      rw [hencoded.sameBut.extract_eq (by rw [htreed.size]; exact hplaced.tree hzero)
        (fun x hlow hhigh hx => hplaced.fec_tree x hx ⟨hlow, hhigh⟩), ← hsize]
      exact Bytes.extract_overwrite_self (hfits hzero)
  · exact (htreed.mono fun _ => Or.inl).trans (hencoded.sameBut.mono fun _ => Or.inr)

end Finalization

/-- There is memory for the blocks of a round. -/
def Layout.FitsMemory (l : Layout) (memory : Nat) : Prop :=
  l.fecSize ≠ 0 → (codeWordLength - l.fecRoots) * l.blockSize ≤ memory

/-- The error correction is handed out unless a round's blocks do not fit into memory. -/
theorem heldFec_cases {fec : Option Geometry} (hfec : Session.fecGeometry l = .ok fec)
    (memory : Nat) : Writer.heldFec memory fec = .ok fec ∧ l.FitsMemory memory ∨
      Writer.heldFec memory fec = .error .memoryAllocationFailure ∧ l.fecSize ≠ 0 ∧
        memory < (codeWordLength - l.fecRoots) * l.blockSize := by
  rcases Session.fecGeometry_eq_ok hfec with ⟨hzero, rfl⟩ | ⟨hzero, g, rfl, hgeometry⟩
  · exact Or.inl ⟨rfl, fun hsome => absurd hzero hsome⟩
  · have hmade := Geometry.madeFor_ofLayout hgeometry
    have hblocks : g.messageLength * g.blockSize =
        (codeWordLength - l.fecRoots) * l.blockSize := by
      rw [Geometry.messageLength, hmade.roots, hmade.blockSize]
    unfold Writer.heldFec
    dsimp only
    split
    · rename_i hlimit
      rw [hblocks] at hlimit
      exact Or.inr ⟨rfl, hzero, hlimit⟩
    · rename_i hlimit
      rw [hblocks] at hlimit
      exact Or.inl ⟨rfl, fun _ => Nat.not_lt.mp hlimit⟩

/-- Finalizing an accepted stream that covers the tree's data succeeds on a device that carries out
    everything, and leaves exactly the specified metadata on it; only memory for the blocks of a
    round can be missing beforehand. -/
theorem finalize_written {P : Type} {r : Rig P} (hoffers : r.Offers d image)
    (hwritable : d.writable = true) (hplaced : l.Placed image.size) (w : Writer)
    (hinit : (w.init l).2 = .ok ()) {stream : List (Nat × ByteArray)}
    (hstream : ((w.init l).1.updates stream).2 = .ok ())
    (hcovers : l.hashTreeSize ≠ 0 →
      l.hashTreeDataOffset + l.hashTreeDataSize ≤ (contentsOf stream).size) :
    match ((w.init l).1.updates stream).1.finalize.2 with
    | .ok f => ∃ tree after, l.TreeFor (contentsOf stream) tree ∧
        ((f.routine.on P d).run Rig.host r).2 = some (.ok ()) ∧
        ((f.routine.on P d).run Rig.host r).1.image? (Rig.imagePath d) = some after ∧
        l.Written tree image after
    | .error e => e = .memoryAllocationFailure ∧ l.fecSize ≠ 0 ∧
        w.memory < (codeWordLength - l.fecRoots) * l.blockSize := by
  have hfed := (Writer.streams_init hinit).updates hstream
  rw [ByteArray.empty_append] at hfed
  obtain ⟨tree, fec, htree, hfec, hfinal⟩ := hfed.finalize hcovers
  rw [Writer.memory_updates, Writer.memory_init] at hfinal
  rw [hfinal]
  rcases heldFec_cases hfec w.memory with ⟨hheld, -⟩ | ⟨hheld, hlimit⟩
  · rw [hheld]
    have hyields := Finalization.yields_routine (f := ⟨_, fec⟩) hwritable hplaced htree.size rfl
      hfec
    obtain ⟨_, after, hrun, hwritten, hafter⟩ := hyields.run hoffers
    exact ⟨tree, after, htree, hrun, hafter.image?, hwritten⟩
  · rw [hheld]
    exact ⟨rfl, hlimit⟩

/-- Success can be decided where errors cannot be compared. -/
theorem eq_ok_of_isOk {ε : Type} {outcome : Except ε Unit} (h : outcome.isOk = true) :
    outcome = .ok () := by
  cases outcome with
  | ok _ => rfl
  | error e => cases h

/-- A block of data, its tree in the next block, and parity bytes of both. -/
def blockLayout : Layout where
  blockSize := 64
  hashTreeAlgorithm := "sha256"
  hashTreeSalt := ByteArray.empty
  hashTreeDataOffset := 0
  hashTreeDataSize := 64
  hashTreeOffset := 64
  hashTreeSize := 64
  fecDataOffset := 0
  fecDataSize := 128
  fecOffset := 128
  fecSize := 128
  fecRoots := 2

/-- Its device, opened for writing. -/
def blockDevice : OpenedDevice := ⟨.direct, "/dev/boot", true⟩

/-- The device delivers seven bytes at a time. -/
def blockRig : Rig Nat where
  images := [("/dev/boot", Bytes.zeros 256)]
  readLimit := some 7

/-- The block, in two pieces. -/
def blockStream : List (Nat × ByteArray) := [(0, Bytes.zeros 40), (40, Bytes.zeros 24)]

/-- Tree and parity bytes of a block of zeros. -/
theorem finalize_written_block : ∃ f tree after,
    ((Writer.fresh.init blockLayout).1.updates blockStream).1.finalize.2 = .ok f ∧
    blockLayout.TreeFor (contentsOf blockStream) tree ∧
    ((f.routine.on Nat blockDevice).run Rig.host blockRig).2 = some (.ok ()) ∧
    ((f.routine.on Nat blockDevice).run Rig.host blockRig).1.image? "/dev/boot" = some after ∧
    blockLayout.Written tree (Bytes.zeros 256) after := by
  have hoffers : blockRig.Offers blockDevice (Bytes.zeros 256) :=
    ⟨⟨rfl, rfl, rfl, by decide⟩, rfl⟩
  have hplaced : blockLayout.Placed (Bytes.zeros 256).size := by
    rw [Bytes.size_zeros]
    refine ⟨by decide, by decide, by decide, ?_, ?_⟩
    · rintro x ⟨hlow, -⟩ ⟨-, hhigh⟩
      exact absurd hlow (Nat.not_le.mpr hhigh)
    · rintro x ⟨hlow, -⟩ ⟨-, hhigh⟩
      exact absurd hlow (Nat.not_le.mpr hhigh)
  have hinit : (Writer.fresh.init blockLayout).2 = .ok () := eq_ok_of_isOk (by decide +kernel)
  have hstream : ((Writer.fresh.init blockLayout).1.updates blockStream).2 = .ok () :=
    eq_ok_of_isOk (by decide +kernel)
  have hwritten := finalize_written hoffers rfl hplaced .fresh hinit hstream (by decide)
  split at hwritten
  · rename_i f hf
    obtain ⟨tree, after, htree, hrun, hafter, hmetadata⟩ := hwritten
    exact ⟨f, tree, after, hf, htree, hrun, hafter, hmetadata⟩
  · exact absurd hwritten.2.2 (by decide)

end Verity

end SlotVerify
