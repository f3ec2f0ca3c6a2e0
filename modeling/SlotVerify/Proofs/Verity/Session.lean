import SlotVerify.Verity.Writer
import SlotVerify.Proofs.HashTree.Building
/-
  A partition in the writer, from its beginning to its finalization.

  `Session.Fed` says what a session holds once a stretch of the tree's data has been fed: a builder
  made for the layout that holds just these bytes, and the geometry of the layout.  Beginning a
  session establishes it with no data (`Session.fed_new`), every update extends it by the part of
  the new data that the tree covers (`Session.Fed.update_ok`), a refused one leaves it alone
  (`Session.Fed.update_error`).  What finalizing hands out therefore fits the layout
  (`Writer.Serves.finalize_fits`).
-/

namespace SlotVerify

/-- A builder that was made for the tree of a layout. -/
structure HashTree.Builder.MadeFor (b : HashTree.Builder) (l : Verity.Layout) : Prop where
  format : ∃ a, Digest.Algorithm.ofName? l.hashTreeAlgorithm = .ok a ∧
    HashTree.Format.ofAlgorithm a l.hashTreeSalt l.blockSize = .ok b.format ∧
    HashTree.size a l.blockSize l.hashTreeDataSize = .ok l.hashTreeSize
  dataSize : b.dataSize = l.hashTreeDataSize
  aligned : l.hashTreeDataSize % l.blockSize = 0

namespace HashTree.Builder.MadeFor

variable {b : HashTree.Builder} {l : Verity.Layout}

theorem blockSize_eq (h : b.MadeFor l) : b.format.blockSize = l.blockSize := by
  obtain ⟨a, -, hformat, -⟩ := h.format
  exact (Format.of_ofAlgorithm hformat).2.1

/-- The tree over all of the data has the size that the layout gives for it. -/
theorem size_tree (h : b.MadeFor l) {data : ByteArray} (hsize : data.size = l.hashTreeDataSize) :
    (b.format.tree (b.format.entries data)).bytes.size = l.hashTreeSize := by
  obtain ⟨a, -, hformat, hpredicted⟩ := h.format
  apply Format.size_tree hformat h.aligned hpredicted
  rw [Format.size_entries, hsize, h.blockSize_eq]

end HashTree.Builder.MadeFor

namespace Verity

/-- What is to be written takes up the places that a layout provides. -/
structure Finalization.Fits (f : Finalization) (l : Layout) : Prop where
  tree : ∀ offset bytes, f.tree = some (offset, bytes) →
    offset = l.hashTreeOffset ∧ bytes.size = l.hashTreeSize
  fec : ∀ g, f.fec = some g → l.fecSize ≠ 0 ∧ Fec.Geometry.ofLayout l = .ok g

namespace Session

variable {s s' : Session} {l : Layout} {data : ByteArray}

/-- The session holds these bytes of the tree's data. -/
structure Fed (s : Session) (data : ByteArray) : Prop where
  builder : ∀ b, s.builder = some b → b.MadeFor s.layout ∧ b.Holds data
  absent : s.builder = none ↔ s.layout.hashTreeSize = 0
  fec : fecGeometry s.layout = .ok s.fec

/-- The builder of a layout, if it has one, is made for it and empty. -/
theorem treeBuilder_eq_ok {memory : Nat} {builder : Option HashTree.Builder}
    (h : treeBuilder l memory = .ok builder) :
    (∀ b, builder = some b → b.MadeFor l ∧ b.Holds ByteArray.empty) ∧
      (builder = none ↔ l.hashTreeSize = 0) := by
  unfold treeBuilder at h
  split at h
  · rename_i hzero
    cases h
    refine ⟨?_, iff_of_true rfl hzero⟩
    intro b hb
    cases hb
  · rename_i hsome
    split at h
    · cases h
    · rename_i a hname
      split at h
      · cases h
      · rename_i calculated hsize
        split at h
        · cases h
        · rename_i hcalculated
          split at h
          · cases h
          · rename_i b hnew
            cases h
            obtain ⟨hholds, hdata, haligned, hformat⟩ := HashTree.Builder.holds_new hnew
            constructor
            · intro b' hb'
              cases hb'
              rw [Decidable.not_not.mp hcalculated] at hsize
              exact ⟨⟨⟨a, hname, hformat, hsize⟩, hdata, haligned⟩, hholds⟩
            · exact iff_of_false nofun hsome

/-- A layout has a geometry if it has a place for parity bytes. -/
theorem fecGeometry_eq_ok {fec : Option Fec.Geometry} (h : fecGeometry l = .ok fec) :
    l.fecSize = 0 ∧ fec = none ∨
      l.fecSize ≠ 0 ∧ ∃ g, fec = some g ∧ Fec.Geometry.ofLayout l = .ok g := by
  unfold fecGeometry at h
  split at h
  · rename_i hzero
    cases h
    exact Or.inl ⟨hzero, rfl⟩
  · rename_i hsome
    cases hlayout : Fec.Geometry.ofLayout l with
    | error e =>
      rw [hlayout] at h
      cases h
    | ok g =>
      rw [hlayout] at h
      cases h
      exact Or.inr ⟨hsome, g, rfl, rfl⟩

/-- Opens a session: nothing has been fed. -/
theorem fed_new {memory : Nat} (h : Session.new l memory = .ok s) :
    s.layout = l ∧ s.nextOffset = 0 ∧ s.Fed ByteArray.empty := by
  unfold Session.new at h
  cases hregions : (checkRegions l).mapError InitFault.rejected with
  | error e =>
    rw [hregions] at h
    cases h
  | ok _ =>
    cases hbuilder : treeBuilder l memory with
    | error e =>
      rw [hregions, hbuilder] at h
      cases h
    | ok builder =>
      cases hfec : fecGeometry l with
      | error e =>
        rw [hregions, hbuilder, hfec] at h
        cases h
      | ok fec =>
        rw [hregions, hbuilder, hfec] at h
        cases h
        obtain ⟨hmade, habsent⟩ := treeBuilder_eq_ok hbuilder
        exact ⟨rfl, rfl, hmade, habsent, hfec⟩

/-- What an update does: it is refused and nothing that was fed changes, or it is taken and the
    tree's part of it is fed. -/
theorem Fed.update (h : s.Fed data) (offset : Nat) (more : ByteArray) :
    (s.update offset more).1.layout = s.layout ∧
      match (s.update offset more).2 with
      | .ok () => offset = s.nextOffset ∧
        (s.update offset more).1.nextOffset = offset + more.size ∧
        (s.update offset more).1.Fed (data ++ covered s.layout offset more)
      | .error _ => (s.update offset more).1.Fed data := by
  unfold Session.update
  by_cases hoffset : offset = s.nextOffset
  · by_cases hword : wordLimit ≤ offset + more.size
    · rw [if_neg (Decidable.not_not.mpr hoffset), if_pos hword]
      exact ⟨rfl, h⟩
    · rw [if_neg (Decidable.not_not.mpr hoffset), if_neg hword]
      dsimp only
      cases hbuilder : s.builder with
      | none =>
        refine ⟨rfl, hoffset, rfl, ?_, iff_of_true rfl (h.absent.mp hbuilder), h.fec⟩
        intro b hb
        cases hb
      | some b =>
        obtain ⟨hmade, hholds⟩ := h.builder b hbuilder
        have hsome : s.layout.hashTreeSize ≠ 0 := by
          intro hzero
          rw [h.absent.mpr hzero] at hbuilder
          cases hbuilder
        dsimp only
        cases hupdate : b.update (covered s.layout offset more) with
        | error e =>
          -- the offset has moved on, the builder has not
          refine ⟨rfl, ?_, iff_of_false nofun hsome, h.fec⟩
          intro b' hb'
          exact h.builder b' (hbuilder.trans hb')
        | ok b' =>
          obtain ⟨hholds', hformat, hdata⟩ := hholds.update hupdate
          refine ⟨rfl, hoffset, rfl, ?_, iff_of_false nofun hsome, h.fec⟩
          intro b'' hb''
          cases hb''
          refine ⟨⟨?_, ?_, hmade.aligned⟩, hholds'⟩
          · rw [hformat]
            exact hmade.format
          · rw [hdata]
            exact hmade.dataSize
  · rw [if_pos hoffset]
    exact ⟨rfl, h⟩

/-- The geometry that a partition has been given is that of its layout. -/
theorem Fed.geometry {s : Session} {data : ByteArray} (h : s.Fed data) {g : Fec.Geometry}
    (hg : s.fec = some g) : s.layout.fecSize ≠ 0 ∧ Fec.Geometry.ofLayout s.layout = .ok g := by
  rcases fecGeometry_eq_ok h.fec with ⟨-, hnone⟩ | ⟨hsize, g', hsome, hlayout⟩
  · rw [hg] at hnone
    cases hnone
  · rw [hg] at hsome
    cases hsome
    exact ⟨hsize, hlayout⟩

end Session

namespace Writer

variable {w : Writer} {l : Layout}

/-! ### Memory -/

@[simp] theorem memory_init (w : Writer) (l : Layout) : (w.init l).1.memory = w.memory := by
  unfold init
  split <;> rfl

@[simp] theorem memory_update (w : Writer) (offset : Nat) (data : ByteArray) :
    (w.update offset data).1.memory = w.memory := by
  unfold Writer.update
  split <;> rfl

@[simp] theorem memory_finalize (w : Writer) : w.finalize.1.memory = w.memory := by
  unfold finalize
  cases w.session with
  | none => rfl
  | some s =>
    dsimp only
    cases s.builder with
    | none => rfl
    | some b =>
      dsimp only
      cases b.build with
      | error e => rfl
      | ok tree => rfl

/-! ### Partitions -/

/-- The writer is in the middle of a partition with this layout. -/
def Serves (w : Writer) (l : Layout) : Prop :=
  ∃ s data, w.session = some s ∧ s.layout = l ∧ s.Fed data

theorem serves_init (h : (w.init l).2 = .ok ()) : (w.init l).1.Serves l := by
  unfold init at h ⊢
  split at h
  · rename_i s hnew
    obtain ⟨hlayout, -, hfed⟩ := Session.fed_new hnew
    exact ⟨s, ByteArray.empty, rfl, hlayout, hfed⟩
  · cases h

/-- Updates, taken or refused, stay with the partition. -/
theorem Serves.update (h : w.Serves l) (offset : Nat) (data : ByteArray) :
    (w.update offset data).1.Serves l := by
  obtain ⟨s, fed, hsession, hlayout, hfed⟩ := h
  have hupdate := hfed.update offset data
  unfold Writer.update
  simp only [hsession]
  cases houtcome : (s.update offset data).2 with
  | ok _ =>
    rw [houtcome] at hupdate
    exact ⟨_, _, rfl, hupdate.1.trans hlayout, hupdate.2.2.2⟩
  | error e =>
    rw [houtcome] at hupdate
    exact ⟨_, _, rfl, hupdate.1.trans hlayout, hupdate.2⟩

/-- The writer is in the middle of a partition. -/
def Engaged (w : Writer) : Prop := ∃ l, w.Serves l

theorem Engaged.update (h : w.Engaged) (offset : Nat) (data : ByteArray) :
    (w.update offset data).1.Engaged := by
  obtain ⟨l, hserves⟩ := h
  exact ⟨l, hserves.update offset data⟩

theorem heldFec_eq_ok {memory : Nat} {fec held : Option Fec.Geometry}
    (h : heldFec memory fec = .ok held) : held = fec := by
  unfold heldFec at h
  split at h
  · cases h
    rfl
  · split at h
    · cases h
    · cases h
      rfl

theorem eq_of_heldFec_map {memory : Nat} {fec : Option Fec.Geometry}
    {make : Option Fec.Geometry → Finalization} {f : Finalization}
    (h : (heldFec memory fec).map make = .ok f) : f = make fec := by
  cases hheld : heldFec memory fec with
  | error e =>
    rw [hheld] at h
    cases h
  | ok held =>
    rw [hheld] at h
    cases h
    rw [heldFec_eq_ok hheld]

/-- What finalizing hands out is the error correction of the partition, and the tree if there is a
    builder of one. -/
theorem finalize_eq_ok {s : Session} (hsession : w.session = some s) {f : Finalization}
    (hf : w.finalize.2 = .ok f) :
    f.fec = s.fec ∧ (s.builder = none ∧ f.tree = none ∨ ∃ b tree, s.builder = some b ∧
      b.build = .ok tree ∧ f.tree = some (s.layout.hashTreeOffset, tree.bytes)) := by
  unfold finalize at hf
  simp only [hsession] at hf
  cases hbuilder : s.builder with
  | none =>
    simp only [hbuilder] at hf
    obtain rfl := eq_of_heldFec_map hf
    exact ⟨rfl, .inl ⟨rfl, rfl⟩⟩
  | some b =>
    simp only [hbuilder] at hf
    cases hbuild : b.build with
    | error e =>
      rw [hbuild] at hf
      cases hf
    | ok tree =>
      simp only [hbuild] at hf
      obtain rfl := eq_of_heldFec_map hf
      exact ⟨rfl, .inr ⟨b, tree, rfl, hbuild, rfl⟩⟩

/-- What finalizing hands out fits the layout. -/
theorem Serves.finalize_fits (h : w.Serves l) {f : Finalization} (hf : w.finalize.2 = .ok f) :
    f.Fits l := by
  obtain ⟨s, data, hsession, rfl, hfed⟩ := h
  obtain ⟨hfec, htree⟩ := finalize_eq_ok hsession hf
  refine ⟨?_, fun g hg => hfed.geometry (hfec ▸ hg)⟩
  intro offset bytes heq
  rcases htree with ⟨-, hnone⟩ | ⟨b, tree, hbuilder, hbuild, hsome⟩
  · rw [hnone] at heq
    cases heq
  · rw [hsome] at heq
    cases heq
    obtain ⟨hmade, hholds⟩ := hfed.builder b hbuilder
    obtain ⟨hsize, rfl⟩ := hholds.build hbuild
    exact ⟨rfl, hmade.size_tree (hsize.trans hmade.dataSize)⟩

/-- A routine that is handed out is that of a finalization. -/
theorem finalize_of_routine {t : DeviceRoutine Unit}
    (h : .ok t = w.finalize.2.map Finalization.routine) :
    ∃ f, w.finalize.2 = .ok f ∧ t = f.routine := by
  cases hfinalize : w.finalize.2 with
  | error e =>
    rw [hfinalize] at h
    cases h
  | ok f =>
    rw [hfinalize] at h
    exact ⟨f, rfl, Except.ok.inj h⟩

end Writer

end Verity

end SlotVerify
