import SlotVerify.Proofs.HashTree.Counting
import SlotVerify.Proofs.Verity.Session
/-
  A writer that is fed a whole stream.

  An accepted stream begins at offset zero and has no gaps, so what a writer has taken is the
  concatenation of the pieces, and what it holds for the tree is the stretch of it that the tree
  covers (`Writer.Streams`).

  How such a writer answers depends on the contents taken alone: it takes data that continues them
  and refuses all else (`Writer.Streams.update_eq`), and finalizing gives the tree over the stretch
  (`Layout.tree?`), if that is complete, and is an error otherwise (`Writer.Streams.finalize_eq`).
-/

namespace SlotVerify.Verity

variable {w : Writer} {l : Layout} {contents : ByteArray}

/-- Feeds a writer piece by piece; a refusal ends it. -/
def Writer.updates : Writer → List (Nat × ByteArray) → Writer × Except Error Unit
  | w, [] => (w, .ok ())
  | w, (offset, data) :: rest =>
    match w.update offset data with
    | (w, .ok ()) => w.updates rest
    | (w, .error e) => (w, .error e)

@[simp] theorem Writer.memory_updates (stream : List (Nat × ByteArray)) :
    ∀ w : Writer, (w.updates stream).1.memory = w.memory := by
  induction stream with
  | nil => exact fun w => rfl
  | cons piece rest ih =>
    intro w
    have hstep := w.memory_update piece.1 piece.2
    unfold Writer.updates
    split
    · rename_i w' hupdate
      rw [hupdate] at hstep
      exact (ih w').trans hstep
    · rename_i w' e hupdate
      rw [hupdate] at hstep
      exact hstep

/-- The pieces of a stream, one after the other. -/
def contentsOf (stream : List (Nat × ByteArray)) : ByteArray :=
  Bytes.concat (stream.map (·.2))

/-- The part of a stream that a layout's tree covers. -/
def Layout.treeData (l : Layout) (contents : ByteArray) : ByteArray :=
  contents.extract l.hashTreeDataOffset (l.hashTreeDataOffset + l.hashTreeDataSize)

/-- The tree of a layout over some data. -/
def Layout.IsTree (l : Layout) (data tree : ByteArray) : Prop :=
  ∃ a format, Digest.Algorithm.ofName? l.hashTreeAlgorithm = .ok a ∧
    HashTree.Format.ofAlgorithm a l.hashTreeSalt l.blockSize = .ok format ∧
    tree = (format.tree (format.entries data)).bytes

/-- The tree that a layout gets for a stream with these contents; it is empty where the layout has
    none. -/
structure Layout.TreeFor (l : Layout) (contents tree : ByteArray) : Prop where
  size : tree.size = l.hashTreeSize
  isTree : l.hashTreeSize ≠ 0 → l.IsTree (l.treeData contents) tree

/-- The tree of a layout for a stream with these contents: there is none if the layout has no place
    for it, or if some of its data is missing. -/
def Layout.tree? (l : Layout) (contents : ByteArray) : Option HashTree.Tree :=
  if l.hashTreeSize = 0 ∨ contents.size < l.hashTreeDataOffset + l.hashTreeDataSize then none
  else
    match Digest.Algorithm.ofName? l.hashTreeAlgorithm with
    | .error _ => none
    | .ok a =>
      match HashTree.Format.ofAlgorithm a l.hashTreeSalt l.blockSize with
      | .error _ => none
      | .ok format => some (format.tree (format.entries (l.treeData contents)))

/-- The part of new data that the tree covers continues what it covers so far. -/
theorem treeData_append (l : Layout) (contents more : ByteArray) :
    l.treeData contents ++ Session.covered l contents.size more =
      l.treeData (contents ++ more) := by
  unfold Layout.treeData Session.covered
  dsimp only
  generalize l.hashTreeDataOffset = start
  generalize l.hashTreeDataSize = size
  have hfirst : max contents.size start - contents.size = start - contents.size := by omega
  have hlast : min (contents.size + more.size) (start + size) - contents.size =
      min more.size (start + size - contents.size) := by omega
  rw [ByteArray.extract_append, hfirst, hlast, Bytes.extract_min]

theorem size_treeData (l : Layout) (contents : ByteArray) :
    (l.treeData contents).size =
      min (l.hashTreeDataOffset + l.hashTreeDataSize) contents.size - l.hashTreeDataOffset := by
  unfold Layout.treeData
  rw [ByteArray.size_extract]

/-- A tree covers no more than its data. -/
theorem size_treeData_le (l : Layout) (contents : ByteArray) :
    (l.treeData contents).size ≤ l.hashTreeDataSize := by
  rw [size_treeData]
  omega

/-- It covers all of it in contents that go as far. -/
theorem size_treeData_of_le
    (hcovers : l.hashTreeDataOffset + l.hashTreeDataSize ≤ contents.size) :
    (l.treeData contents).size = l.hashTreeDataSize := by
  rw [size_treeData]
  omega

namespace Writer

/-- The writer has taken a stream with these contents. -/
def Streams (w : Writer) (l : Layout) (contents : ByteArray) : Prop :=
  ∃ s, w.session = some s ∧ s.layout = l ∧ s.nextOffset = contents.size ∧
    s.Fed (l.treeData contents)

theorem streams_init (h : (w.init l).2 = .ok ()) : (w.init l).1.Streams l ByteArray.empty := by
  unfold init at h ⊢
  split at h
  · rename_i s hnew
    obtain ⟨hlayout, hoffset, hfed⟩ := Session.fed_new hnew
    refine ⟨s, rfl, hlayout, hoffset, ?_⟩
    have hempty : l.treeData ByteArray.empty = ByteArray.empty := by
      unfold Layout.treeData
      rw [ByteArray.extract_eq_empty_iff, ByteArray.size_empty]
      omega
    rw [hempty]
    exact hfed
  · cases h

theorem Streams.update (h : w.Streams l contents) (offset : Nat) (data : ByteArray)
    (hok : (w.update offset data).2 = .ok ()) :
    (w.update offset data).1.Streams l (contents ++ data) := by
  obtain ⟨s, hsession, rfl, hnext, hfed⟩ := h
  have hupdate := hfed.update offset data
  unfold Writer.update at hok ⊢
  simp only [hsession] at hok ⊢
  rw [hok] at hupdate
  obtain ⟨hlayout, rfl, hnext', hfed'⟩ := hupdate
  refine ⟨_, rfl, hlayout, ?_, ?_⟩
  · rw [hnext', hnext, ByteArray.size_append]
  · rw [hnext, treeData_append] at hfed'
    rw [hnext]
    exact hfed'

/-- The builder of a tree has room for the tree's part of any data that continues the stream. -/
theorem Streams.builder_update {s : Session} {b : HashTree.Builder}
    (hfed : s.Fed (l.treeData contents)) (hlayout : s.layout = l) (hbuilder : s.builder = some b)
    (data : ByteArray) :
    ∃ b', b.update (Session.covered l contents.size data) = .ok b' := by
  subst hlayout
  obtain ⟨hmade, hholds⟩ := hfed.builder b hbuilder
  have hle := size_treeData_le s.layout contents
  have hroom := size_treeData_le s.layout (contents ++ data)
  rw [← treeData_append, ByteArray.size_append] at hroom
  rw [← hmade.dataSize] at hle hroom
  exact ⟨_, by rw [hholds.update_eq hle, if_pos hroom]⟩

/-- Why data at an offset is refused where so much has been taken. -/
def refusal (taken offset : Nat) : Error :=
  if offset = taken then .dataOverflow else .nonSequentialUpdate offset taken

/-- Data that continues the stream is taken, as long as its end is an offset at all; other data is
    refused, and nothing changes. -/
theorem Streams.update_eq (h : w.Streams l contents) (offset : Nat) (data : ByteArray) :
    if offset = contents.size ∧ offset + data.size < wordLimit then
      (w.update offset data).2 = .ok () ∧ (w.update offset data).1.Streams l (contents ++ data)
    else w.update offset data = (w, .error (refusal contents.size offset)) := by
  have hstep := h.update offset data
  obtain ⟨s, hsession, hlayout, hnext, hfed⟩ := h
  have hsame : ({ w with session := some s } : Writer) = w := by rw [← hsession]
  unfold Writer.update Session.update at hstep ⊢
  simp only [hsession, hnext] at hstep ⊢
  by_cases hoffset : offset = contents.size
  · by_cases hword : offset + data.size < wordLimit
    · rw [if_pos ⟨hoffset, hword⟩]
      rw [if_neg (not_not_intro hoffset), if_neg (Nat.not_le.mpr hword)] at hstep ⊢
      refine (fun hok => ⟨hok, hstep hok⟩) ?_
      cases hbuilder : s.builder with
      | none => rfl
      | some b =>
        obtain ⟨b', hb'⟩ := Streams.builder_update hfed hlayout hbuilder data
        dsimp only
        rw [hlayout, hoffset, hb']
    · rw [if_neg fun h => hword h.2, if_neg (not_not_intro hoffset),
        if_pos (Nat.not_lt.mp hword), refusal, if_pos hoffset, hsame]
  · rw [if_neg fun h => hoffset h.1, if_pos hoffset, refusal, if_neg hoffset, hsame]

/-- Data that continues the stream is taken. -/
theorem Streams.update_next (h : w.Streams l contents) (data : ByteArray)
    (hword : contents.size + data.size < wordLimit) :
    (w.update contents.size data).2 = .ok () := by
  have hstep := h.update_eq contents.size data
  rw [if_pos ⟨rfl, hword⟩] at hstep
  exact hstep.1

/-- An accepted stream is taken as a whole. -/
theorem Streams.updates {stream : List (Nat × ByteArray)} :
    ∀ {w : Writer} {contents : ByteArray}, w.Streams l contents →
      (w.updates stream).2 = .ok () →
      (w.updates stream).1.Streams l (contents ++ contentsOf stream) := by
  induction stream with
  | nil =>
    intro w contents h _
    have hempty : contents ++ contentsOf [] = contents := ByteArray.append_empty
    rw [hempty]
    exact h
  | cons piece rest ih =>
    obtain ⟨offset, data⟩ := piece
    intro w contents h hok
    have hcontents : contents ++ contentsOf ((offset, data) :: rest) =
        contents ++ data ++ contentsOf rest := by
      unfold contentsOf
      rw [List.map_cons, Bytes.concat_cons, ByteArray.append_assoc]
    have hupdate := h.update offset data
    rw [hcontents]
    unfold Writer.updates at hok ⊢
    generalize w.update offset data = updated at hok hupdate
    obtain ⟨w', outcome⟩ := updated
    cases outcome with
    | ok _ => exact ih (hupdate rfl) hok
    | error e => cases hok

/-- A layout with a tree has data for it. -/
theorem treeDataSize_ne_zero {b : HashTree.Builder} (hmade : b.MadeFor l)
    (htree : l.hashTreeSize ≠ 0) : l.hashTreeDataSize ≠ 0 := by
  obtain ⟨a, -, -, hsize⟩ := hmade.format
  intro hnone
  rw [hnone] at hsize
  exact htree (HashTree.size_zero hsize)

/-- What finalizing does: with a tree whose data is not complete it is an error; otherwise the
    tree, if there is one, and the error correction are handed out, if there is memory for a round,
    and the root digest of the tree takes the place of the last one. -/
theorem Streams.finalize_eq (h : w.Streams l contents) :
    ∃ fec, Session.fecGeometry l = .ok fec ∧ w.finalize =
      if l.hashTreeSize ≠ 0 ∧ contents.size < l.hashTreeDataOffset + l.hashTreeDataSize then
        ({ w with session := none },
          .error (.incompleteData (l.treeData contents).size l.hashTreeDataSize))
      else
        ({ w with
            session := none,
            lastRootDigest := ((l.tree? contents).map (·.rootDigest)).or w.lastRootDigest },
          (heldFec w.memory fec).map fun fec =>
            ⟨(l.tree? contents).map fun tree => (l.hashTreeOffset, tree.bytes), fec⟩) := by
  obtain ⟨s, hsession, rfl, -, hfed⟩ := h
  refine ⟨s.fec, hfed.fec, ?_⟩
  unfold Writer.finalize Layout.tree?
  simp only [hsession]
  cases hbuilder : s.builder with
  | none =>
    have hzero := hfed.absent.mp hbuilder
    rw [if_neg fun h => h.1 hzero, if_pos (Or.inl hzero)]
    rfl
  | some b =>
    obtain ⟨hmade, hholds⟩ := hfed.builder b hbuilder
    have htree : s.layout.hashTreeSize ≠ 0 := by
      intro hzero
      rw [hfed.absent.mpr hzero] at hbuilder
      cases hbuilder
    have hsome := treeDataSize_ne_zero hmade htree
    have hdata := size_treeData s.layout contents
    dsimp only
    by_cases hmissing :
        contents.size < s.layout.hashTreeDataOffset + s.layout.hashTreeDataSize
    · have hpart : (s.layout.treeData contents).size ≠ s.layout.hashTreeDataSize := by omega
      have hbuild : b.build = .error (.incompleteData (s.layout.treeData contents).size
          s.layout.hashTreeDataSize) := by
        unfold HashTree.Builder.build
        rw [hholds.hashed, hmade.dataSize, if_pos (Or.inl hpart)]
      rw [hbuild, if_pos ⟨htree, hmissing⟩]
    · have hwhole := size_treeData_of_le (Nat.not_lt.mp hmissing)
      have haligned : b.dataSize % b.format.blockSize = 0 := by
        rw [hmade.dataSize, hmade.blockSize_eq]
        exact hmade.aligned
      obtain ⟨a, hname, hformat, -⟩ := hmade.format
      rw [hholds.build_eq (hwhole.trans hmade.dataSize.symm) haligned,
        if_neg fun h => hmissing h.2, if_neg (not_or_intro htree hmissing), hname]
      dsimp only
      rw [hformat]
      rfl

/-- The tree of a stream that covers its data. -/
theorem Streams.exists_tree (h : w.Streams l contents) (htree : l.hashTreeSize ≠ 0)
    (hcovers : l.hashTreeDataOffset + l.hashTreeDataSize ≤ contents.size) :
    ∃ a format, Digest.Algorithm.ofName? l.hashTreeAlgorithm = .ok a ∧
      HashTree.Format.ofAlgorithm a l.hashTreeSalt l.blockSize = .ok format ∧
      l.hashTreeDataSize % l.blockSize = 0 ∧
      HashTree.size a l.blockSize l.hashTreeDataSize = .ok l.hashTreeSize ∧
      l.tree? contents = some (format.tree (format.entries (l.treeData contents))) := by
  obtain ⟨s, -, rfl, -, hfed⟩ := h
  cases hbuilder : s.builder with
  | none => exact absurd (hfed.absent.mp hbuilder) htree
  | some b =>
    obtain ⟨hmade, -⟩ := hfed.builder b hbuilder
    obtain ⟨a, hname, hformat, hsize⟩ := hmade.format
    refine ⟨a, b.format, hname, hformat, hmade.aligned, hsize, ?_⟩
    unfold Layout.tree?
    rw [if_neg (not_or_intro htree (Nat.not_lt.mpr hcovers)), hname]
    dsimp only
    rw [hformat]

/-- What finalizing hands out for a stream that covers the tree's data: the tree over that data, and
    the error correction if there is memory for it. -/
theorem Streams.finalize (h : w.Streams l contents)
    (hcovers : l.hashTreeSize ≠ 0 →
      l.hashTreeDataOffset + l.hashTreeDataSize ≤ contents.size) :
    ∃ tree fec, l.TreeFor contents tree ∧ Session.fecGeometry l = .ok fec ∧
      w.finalize.2 = (heldFec w.memory fec).map fun fec =>
        ⟨if l.hashTreeSize = 0 then none else some (l.hashTreeOffset, tree), fec⟩ := by
  obtain ⟨fec, hfec, hfinal⟩ := h.finalize_eq
  rw [if_neg fun h => Nat.not_le.mpr h.2 (hcovers h.1)] at hfinal
  by_cases htree : l.hashTreeSize = 0
  · have hnone : l.tree? contents = none := if_pos (Or.inl htree)
    refine ⟨ByteArray.empty, fec, ⟨htree.symm, fun hsome => absurd htree hsome⟩, hfec, ?_⟩
    rw [hfinal, hnone, if_pos htree]
    rfl
  · obtain ⟨a, format, hname, hformat, haligned, hsize, hsome⟩ :=
      h.exists_tree htree (hcovers htree)
    have hdata := size_treeData_of_le (hcovers htree)
    refine ⟨_, fec, ⟨?_, fun _ => ⟨a, format, hname, hformat, rfl⟩⟩, hfec, ?_⟩
    · apply HashTree.Format.size_tree hformat haligned hsize
      rw [HashTree.Format.size_entries, hdata, (HashTree.Format.of_ofAlgorithm hformat).2.1]
    · rw [hfinal, hsome, if_neg htree]
      rfl

end Writer

end SlotVerify.Verity
