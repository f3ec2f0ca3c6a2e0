import SlotVerify.Proofs.Routine.Meets
import SlotVerify.Proofs.Fec.Parity
import SlotVerify.Proofs.Verity.Session
/-
  Where a finalization writes.

  `Layout.Metadata` is the set of bytes that a layout reserves for its tree and its parity bytes.
  Whatever a device answers, a finalization that fits the layout asks for no write outside it
  (`Finalization.Fits.only_routine`): the tree has exactly the reserved size, and a round's parity
  has exactly the round's share of the reserved parity bytes, however the round came to be read.
-/

namespace SlotVerify

/-- A request changes no byte outside a region. -/
def Device.Request.WritesIn (region : Nat → Prop) : Device.Request → Prop
  | .write offset data => ∀ x, offset ≤ x → x < offset + data.size → region x
  | .read .. | .sync => True

theorem Device.Request.WritesIn.mono {region region' : Nat → Prop} (h : ∀ x, region x → region' x)
    {q : Device.Request} (hq : q.WritesIn region) : q.WritesIn region' := by
  cases q with
  | read offset length => trivial
  | write offset data => exact fun x hlow hhigh => h x (hq x hlow hhigh)
  | sync => trivial

namespace Verity

/-- The bytes of the tree's region. -/
def Layout.TreeRegion (l : Layout) (x : Nat) : Prop :=
  l.hashTreeOffset ≤ x ∧ x < l.hashTreeOffset + l.hashTreeSize

/-- The bytes of the region of the error correction. -/
def Layout.FecRegion (l : Layout) (x : Nat) : Prop :=
  l.fecOffset ≤ x ∧ x < l.fecOffset + l.fecSize

/-- The bytes reserved for metadata. -/
def Layout.Metadata (l : Layout) (x : Nat) : Prop := l.TreeRegion x ∨ l.FecRegion x

/-- A routine on one device that changes no byte outside a region. -/
abbrev DeviceRoutine.WritesIn {α : Type} (region : Nat → Prop) (okResult : Except Error α → Prop)
    (t : DeviceRoutine α) : Prop :=
  t.Only (fun _ => True) (fun _ q => q.WritesIn region) okResult

namespace DeviceRoutine

variable {α β : Type} {region : Nat → Prop}

/-- What holds of a result, should there be one. -/
def OnSuccess (ok : α → Prop) : Except Error α → Prop
  | .ok a => ok a
  | .error _ => True

theorem writesIn_mono {region' : Nat → Prop} {okResult : Except Error α → Prop}
    {t : DeviceRoutine α} (hsub : ∀ x, region x → region' x) (h : t.WritesIn region okResult) :
    t.WritesIn region' okResult :=
  Routine.Only.mono (fun _ => id) (fun _ _ hq => hq.mono hsub) (fun _ => id) h

theorem writesIn_andThen {ok : α → Prop} {okResult : Except Error β → Prop}
    {t : DeviceRoutine α} {f : α → DeviceRoutine β} (ht : t.WritesIn region (OnSuccess ok))
    (herror : ∀ e, okResult (.error e)) (hf : ∀ a, ok a → (f a).WritesIn region okResult) :
    (t.andThen f).WritesIn region okResult := by
  apply Routine.only_bind ht
  intro outcome hok
  cases outcome with
  | ok a => exact hf a hok
  | error e => exact herror e

theorem writesIn_write {offset : Nat} {data : ByteArray}
    (h : ∀ x, offset ≤ x → x < offset + data.size → region x) :
    (write offset data).WritesIn region (OnSuccess fun _ => True) := by
  refine ⟨h, ?_⟩
  rintro (e | a) <;> trivial

end DeviceRoutine

open Fec DeviceRoutine

theorem gatherRound_of_none {r : Round} (h : r.nextRead = none) :
    gatherRound r = .done (.ok r) := by
  rw [gatherRound]
  split
  · rfl
  · rename_i hread
    rw [h] at hread
    cases hread

theorem gatherRound_of_some {r : Round} {offset length : Nat}
    (h : r.nextRead = some (offset, length)) :
    gatherRound r = Routine.read (I := Interface.deviceOnly) () offset length fun
      | .error e => .done (.error (.io e))
      | .ok bytes =>
        if bytes.size = 0 then .done (.error (.unexpectedEnd offset))
        else gatherRound (r.gather bytes) := by
  rw [gatherRound]
  split
  · rename_i hread
    rw [h] at hread
    cases hread
  · rename_i hread
    rw [h] at hread
    cases hread
    rfl

/-- A round is gathered without a write, and stays the round that it is. -/
theorem writesIn_gatherRound (region : Nat → Prop) (r : Round) :
    (gatherRound r).WritesIn region
      (OnSuccess fun r' => r'.geometry = r.geometry ∧ r'.index = r.index) := by
  induction r using gatherRound.induct with
  | case1 r hread =>
    rw [gatherRound_of_none hread]
    exact ⟨rfl, rfl⟩
  | case2 r offset length hread ih =>
    rw [gatherRound_of_some hread]
    refine ⟨trivial, ?_⟩
    rintro (e | bytes)
    · trivial
    · dsimp only [Except.map]
      split
      · trivial
      · rename_i hsome
        exact ih _ hsome

/-- The rounds from `index` on write their own shares of the parity bytes. -/
theorem writesIn_writeRounds {g : Geometry} {code : Code} (hpos : 0 < code.roots)
    (hroots : code.roots = g.roots) {region : Nat → Prop} (n : Nat) :
    ∀ index, (∀ x, g.roundOffset index ≤ x → x < g.roundOffset (index + n) → region x) →
      (writeRounds g code n index).WritesIn region (OnSuccess fun _ => True) := by
  induction n with
  | zero =>
    intro index _
    trivial
  | succ n ih =>
    intro index hregion
    have hnext := g.roundOffset_succ index
    have hlast : g.roundOffset (index + 1) ≤ g.roundOffset (index + (n + 1)) :=
      g.roundOffset_le (by omega)
    have hfirst : g.roundOffset index ≤ g.roundOffset (index + 1) := by omega
    refine writesIn_andThen (writesIn_gatherRound region (Round.start g index))
      (fun _ => trivial) ?_
    rintro r ⟨hgeometry, -⟩
    refine writesIn_andThen (writesIn_write ?_) (fun _ => trivial) ?_
    · -- however the round was read, its parity has the length of its share
      intro x hlow hhigh
      apply hregion x hlow
      have hsize := Round.size_parity_eq_roundSize hpos hroots hgeometry
      omega
    · rintro - -
      refine ih (index + 1) ?_
      intro x hlow hhigh
      refine hregion x (Nat.le_trans hfirst hlow) ?_
      rwa [Nat.add_right_comm, Nat.add_assoc] at hhigh

namespace Finalization

variable {f : Finalization} {l : Layout}

theorem Fits.writesIn_writeTree (h : f.Fits l) :
    f.writeTree.WritesIn l.TreeRegion (OnSuccess fun _ => True) := by
  unfold writeTree
  split
  · rename_i offset bytes htree
    obtain ⟨rfl, hsize⟩ := h.tree offset bytes htree
    split
    · trivial
    · apply writesIn_write
      intro x hlow hhigh
      rw [hsize] at hhigh
      exact ⟨hlow, hhigh⟩
  · trivial

theorem Fits.writesIn_writeFec (h : f.Fits l) :
    f.writeFec.WritesIn l.FecRegion (OnSuccess fun _ => True) := by
  unfold writeFec
  split
  · rename_i g hfec
    obtain ⟨-, hlayout⟩ := h.fec g hfec
    have hmade := Geometry.madeFor_ofLayout hlayout
    have hoffset := hmade.fecOffset
    have hsize := hmade.fecSize
    split
    · rename_i code hcode
      have hpos := Code.roots_pos hcode
      have hroots := (Code.of_ofRoots? hcode).1
      apply writesIn_writeRounds hpos hroots
      intro x hlow hhigh
      unfold Geometry.roundOffset at hlow hhigh
      rw [Nat.zero_add] at hhigh
      exact ⟨by omega, by omega⟩
    · trivial
  · trivial

/-- What fits a layout writes only where the layout has its metadata. -/
theorem Fits.only_routine (h : f.Fits l) :
    f.routine.WritesIn l.Metadata fun _ => True := by
  refine writesIn_andThen (writesIn_mono (fun _ => Or.inl) h.writesIn_writeTree)
    (fun _ => trivial) ?_
  rintro - -
  refine writesIn_andThen (writesIn_mono (fun _ => Or.inr) h.writesIn_writeFec)
    (fun _ => trivial) ?_
  rintro - -
  exact ⟨trivial, fun _ => trivial⟩

end Finalization

end Verity

end SlotVerify
