import SlotVerify.Proofs.Routine.Passage
import SlotVerify.Proofs.Verity.Footprint
/-
  A finalization writes all of the metadata.

  A finalization asks for no write outside the regions of its layout.  Conversely, one that comes to
  its end has written every byte of them, whatever it was answered on its way
  (`Finalization.Full.covers_routine`): the tree at once, and the parity bytes round by round, where
  each round's share begins at the end of the one before.
-/

namespace SlotVerify

open Device

/-- Some write on the way covers a byte. -/
def Wrote {I : Interface} (es : List (Happening I)) (x : Nat) : Prop :=
  ∃ d offset data outcome, .served d (.write offset data) outcome ∈ es ∧
    offset ≤ x ∧ x < offset + data.size

theorem Wrote.mono {I : Interface} {es es' : List (Happening I)} {x : Nat}
    (h : ∀ e ∈ es, e ∈ es') : Wrote es x → Wrote es' x := by
  rintro ⟨d, offset, data, outcome, hmem, hx⟩
  exact ⟨d, offset, data, outcome, h _ hmem, hx⟩

/-- On another interface the same bytes are written. -/
theorem Wrote.onDevice {I J : Interface} {noCalls : I.Call → Empty} {device : I.Device → J.Device}
    {es : List (Happening I)} {x : Nat} :
    Wrote es x → Wrote (es.map (·.onDevice noCalls device)) x := by
  rintro ⟨d, offset, data, outcome, hmem, hx⟩
  exact ⟨device d, offset, data, outcome, List.mem_map_of_mem hmem, hx⟩

namespace Verity

open Routine Fec DeviceRoutine

/-- Every passage that succeeds has written all bytes of a region. -/
def DeviceRoutine.Covers {α : Type} (region : Nat → Prop) (t : DeviceRoutine α) : Prop :=
  ∀ es a, t.Reaches es (.done (.ok a)) → ∀ x, region x → Wrote es x

namespace DeviceRoutine

variable {α β : Type} {region : Nat → Prop}

/-- A passage through a sequence that succeeds has come through both parts. -/
theorem reaches_andThen_ok {t : DeviceRoutine α} {f : α → DeviceRoutine β}
    {es : List (Happening Interface.deviceOnly)} {b : β}
    (h : (t.andThen f).Reaches es (.done (.ok b))) :
    ∃ es₁ a es₂, es = es₁ ++ es₂ ∧ t.Reaches es₁ (.done (.ok a)) ∧
      (f a).Reaches es₂ (.done (.ok b)) := by
  rcases reaches_bind t h with ⟨t', -, hleft, hdone⟩ | ⟨es₁, outcome, es₂, rfl, ht, hf⟩
  · exact absurd hdone.symm (hleft.bind _ _)
  · cases outcome with
    | error e => cases (reaches_done hf).2
    | ok a => exact ⟨es₁, a, es₂, rfl, ht, hf⟩

theorem Covers.andThen {t : DeviceRoutine α} {f : α → DeviceRoutine β} (ht : t.Covers region) :
    (t.andThen f).Covers region := by
  intro es b h x hx
  obtain ⟨es₁, a, es₂, rfl, hfirst, -⟩ := reaches_andThen_ok h
  exact (ht es₁ a hfirst x hx).mono fun _ => List.mem_append_left es₂

theorem covers_andThen {ok : α → Prop} {t : DeviceRoutine α} {f : α → DeviceRoutine β}
    (ht : t.Only (fun _ => True) (fun _ _ => True) (OnSuccess ok))
    (hf : ∀ a, ok a → (f a).Covers region) : (t.andThen f).Covers region := by
  intro es b h x hx
  obtain ⟨es₁, a, es₂, rfl, hfirst, hsecond⟩ := reaches_andThen_ok h
  have hok : ok a := (Only.reaches hfirst ht).2
  exact (hf a hok es₂ b hsecond x hx).mono fun _ => List.mem_append_right es₁

theorem covers_write (offset : Nat) (data : ByteArray) :
    (write offset data).Covers fun x => offset ≤ x ∧ x < offset + data.size := by
  intro es a h x hx
  cases h with
  | request outcome _ => exact ⟨(), offset, data, outcome, List.mem_cons_self, hx⟩

end DeviceRoutine

/-- The rounds from `index` on write their shares. -/
theorem covers_writeRounds {g : Geometry} {code : Code} (hpos : 0 < code.roots)
    (hroots : code.roots = g.roots) (n : Nat) :
    ∀ index, (writeRounds g code n index).Covers fun x =>
      g.roundOffset index ≤ x ∧ x < g.roundOffset (index + n) := by
  induction n with
  | zero =>
    rintro index es a - x ⟨hlow, hhigh⟩
    exact absurd hhigh (Nat.not_lt.mpr hlow)
  | succ n ih =>
    intro index
    have hnext := g.roundOffset_succ index
    have hgather := (writesIn_gatherRound (fun _ => True) (Round.start g index)).mono
      (fun _ => id) (fun _ _ _ => trivial) (fun _ => id)
    refine covers_andThen hgather ?_
    rintro r ⟨hgeometry, -⟩
    have hsize := Round.size_parity_eq_roundSize hpos hroots hgeometry
    rintro es b h x ⟨hlow, hhigh⟩
    obtain ⟨es₁, a, es₂, rfl, hwrite, hrest⟩ := reaches_andThen_ok h
    -- a byte belongs to this round or to a later one
    rcases Nat.lt_or_ge x (g.roundOffset (index + 1)) with hround | hround
    · refine (covers_write _ _ es₁ a hwrite x ⟨hlow, ?_⟩).mono fun _ => List.mem_append_left es₂
      omega
    · refine (ih (index + 1) es₂ b hrest x ⟨hround, ?_⟩).mono fun _ => List.mem_append_right es₁
      rwa [Nat.add_right_comm, Nat.add_assoc]

/-- What is to be written has all the parts that a layout provides places for. -/
structure Finalization.Full (f : Finalization) (l : Layout) : Prop extends f.Fits l where
  has_tree : f.tree = none → l.hashTreeSize = 0
  has_fec : f.fec = none → l.fecSize = 0

namespace Finalization

variable {f : Finalization} {l : Layout}

theorem Full.covers_writeTree (h : f.Full l) : f.writeTree.Covers l.TreeRegion := by
  unfold writeTree
  split
  · rename_i offset bytes htree
    obtain ⟨rfl, hsize⟩ := h.tree offset bytes htree
    split
    · rename_i hzero
      rintro es a - x ⟨hlow, hhigh⟩
      omega
    · unfold Layout.TreeRegion
      rw [← hsize]
      exact covers_write l.hashTreeOffset bytes
  · rename_i hnone
    have hzero := h.has_tree hnone
    rintro es a - x ⟨hlow, hhigh⟩
    omega

theorem Full.covers_writeFec (h : f.Full l) : f.writeFec.Covers l.FecRegion := by
  unfold writeFec
  split
  · rename_i g hfec
    obtain ⟨-, hlayout⟩ := h.fec g hfec
    have hmade := Geometry.madeFor_ofLayout hlayout
    have hoffset := hmade.fecOffset
    have hsize := hmade.fecSize
    split
    · rename_i code hcode
      have hpos := Code.roots_pos hcode
      have hroots := (Code.of_ofRoots? hcode).1
      rintro es a hreaches x ⟨hlow, hhigh⟩
      refine covers_writeRounds hpos hroots g.rounds 0 es a hreaches x ⟨?_, ?_⟩
      · unfold Geometry.roundOffset
        omega
      · unfold Geometry.roundOffset
        rw [Nat.zero_add]
        omega
    · intro es a hreaches
      cases (reaches_done hreaches).2
  · rename_i hnone
    have hzero := h.has_fec hnone
    rintro es a - x ⟨hlow, hhigh⟩
    omega

/-- What is full and comes to its end has written all metadata. -/
theorem Full.covers_routine (h : f.Full l) : f.routine.Covers l.Metadata := by
  intro es b hreaches x hx
  obtain ⟨es₁, a, es₂, rfl, htree, hrest⟩ := reaches_andThen_ok hreaches
  rcases hx with hx | hx
  · exact (h.covers_writeTree es₁ a htree x hx).mono fun _ => List.mem_append_left es₂
  · exact (h.covers_writeFec.andThen es₂ b hrest x hx).mono fun _ => List.mem_append_right es₁

end Finalization

/-- What a writer hands out in the middle of a partition is full. -/
theorem Writer.Serves.finalize_full {w : Writer} {l : Layout} (h : w.Serves l) {f : Finalization}
    (hf : w.finalize.2 = .ok f) : f.Full l := by
  suffices hparts : (f.tree = none → l.hashTreeSize = 0) ∧ (f.fec = none → l.fecSize = 0) from
    ⟨h.finalize_fits hf, hparts.1, hparts.2⟩
  obtain ⟨s, data, hsession, rfl, hfed⟩ := h
  obtain ⟨hfec, htree⟩ := finalize_eq_ok hsession hf
  constructor
  · intro hnone
    rcases htree with ⟨hbuilder, -⟩ | ⟨b, tree, -, -, hsome⟩
    · exact hfed.absent.mp hbuilder
    · rw [hnone] at hsome
      cases hsome
  · intro hnone
    rw [hfec] at hnone
    rcases Session.fecGeometry_eq_ok hfed.fec with ⟨hzero, -⟩ | ⟨-, g, hsome, -⟩
    · exact hzero
    · rw [hnone] at hsome
      cases hsome

end Verity

end SlotVerify
