import SlotVerify.Proofs.HashTree.Counting
import SlotVerify.Proofs.Verity.Extent
/-
  A finalization never writes where it has been before.

  A passage is fresh if no write in it covers a byte that has been asked for earlier, to be read or
  to be written (`Fresh`).  What such a passage has read or written is still there at its end, which
  is what a second run needs.

  A finalization is fresh if the regions of its layout come in their order
  (`Finalization.Full.fresh_routine`): the tree is written first, the parity bytes lie behind it and
  behind the data that they cover, and the shares of the rounds follow one another.
-/

namespace SlotVerify

open Device

/-- A byte is asked for, to be read or to be written. -/
def Device.Request.Concerns : Request → Nat → Prop
  | .read offset length, x => offset ≤ x ∧ x < offset + length
  | .write offset data, x => offset ≤ x ∧ x < offset + data.size
  | .sync, _ => False

section

variable {I J : Interface} {L : Type} {place : I.Device → L} {es es' : List (Happening I)}

/-- The second one writes to no byte that the first one has asked for; `place` says where a device
    keeps its bytes. -/
def Happening.SparedBy (place : I.Device → L) : Happening I → Happening I → Prop
  | .served d q _, .served d' q' _ => place d' = place d → q'.WritesIn fun x => ¬ q.Concerns x
  | _, _ => True

/-- No write covers a byte that has been asked for before. -/
def Fresh (place : I.Device → L) (es : List (Happening I)) : Prop :=
  es.Pairwise (Happening.SparedBy place)

/-- All that is asked for lies in a region. -/
abbrev AsksIn (place : I.Device → L) (region : L → Nat → Prop) (es : List (Happening I)) : Prop :=
  ∀ e ∈ es, e.Permitted (fun _ => True) fun d q => ∀ x, q.Concerns x → region (place d) x

/-- All that is written lies in a region. -/
abbrev PutsIn (place : I.Device → L) (region : L → Nat → Prop) (es : List (Happening I)) : Prop :=
  ∀ e ∈ es, e.Permitted (fun _ => True) fun d q => q.WritesIn (region (place d))

theorem Device.Request.writesIn_true (q : Request) : q.WritesIn fun _ => True := by
  cases q with
  | write offset data => exact fun _ _ _ => trivial
  | _ => trivial

theorem PutsIn.mono {region region' : L → Nat → Prop} (hsub : ∀ l x, region l x → region' l x)
    (h : PutsIn place region es) : PutsIn place region' es :=
  fun e he => (h e he).mono (fun _ => id) fun d _ => Request.WritesIn.mono (hsub (place d))

/-- What comes later writes elsewhere. -/
theorem Fresh.append (asked written : L → Nat → Prop) (h : Fresh place es) (h' : Fresh place es')
    (hasks : AsksIn place asked es) (hwrites : PutsIn place written es')
    (hapart : ∀ l x, asked l x → ¬ written l x) : Fresh place (es ++ es') := by
  refine List.pairwise_append.mpr ⟨h, h', fun e he e' he' => ?_⟩
  have hfirst := hasks e he
  have hsecond := hwrites e' he'
  match e, e' with
  | .served d q _, .served d' q' _ =>
    intro hplace
    refine Request.WritesIn.mono (fun x hx hconcerns => ?_) hsecond
    exact hapart _ x (hfirst x hconcerns) (hplace ▸ hx)
  | .called .., _ => trivial
  | .paused, _ => trivial
  | .served .., .called .. => trivial
  | .served .., .paused => trivial

/-- Without a write there is nothing to spare. -/
theorem fresh_of_reads (h : PutsIn place (fun _ _ => False) es) : Fresh place es := by
  refine List.pairwise_of_forall_mem_list ?_
  intro e _ e' he'
  have hnone := h e' he'
  match e, e' with
  | .served .., .served .. => exact fun _ => Request.WritesIn.mono (fun _ => False.elim) hnone
  | .called .., _ => trivial
  | .paused, _ => trivial
  | .served .., .called .. => trivial
  | .served .., .paused => trivial

/-- Nothing that comes later writes. -/
theorem Fresh.append_reads (h : Fresh place es) (h' : PutsIn place (fun _ _ => False) es') :
    Fresh place (es ++ es') :=
  h.append (fun _ _ => True) (fun _ _ => False) (fresh_of_reads h')
    (fun e _ => e.permitted_true.mono (fun _ => id) fun _ _ _ _ _ => trivial) h' fun _ _ _ => id

/-- Nothing has been asked for before. -/
theorem Fresh.after_calls (h' : Fresh place es')
    (hcalls : ∀ e ∈ es, e.Permitted (fun _ => True) fun _ _ => False) : Fresh place (es ++ es') :=
  (fresh_of_reads fun e he => (hcalls e he).mono (fun _ => id) fun _ _ => False.elim).append
    (fun _ _ => False) (fun _ _ => True) h'
    (fun e he => (hcalls e he).mono (fun _ => id) fun _ _ => False.elim)
    (fun e _ => e.permitted_true.mono (fun _ => id) fun _ q _ => q.writesIn_true)
    fun _ _ => False.elim

/-- The same on a device of another interface. -/
theorem Fresh.onDevice {L' : Type} {place' : J.Device → L'} {noCalls : I.Call → Empty}
    {device : I.Device → J.Device}
    (hplace : ∀ d d', place' (device d') = place' (device d) → place d' = place d)
    (h : Fresh place es) : Fresh place' (es.map (·.onDevice noCalls device)) := by
  refine List.pairwise_map.mpr (h.imp fun {e e'} hspared => ?_)
  match e, e' with
  | .served d q _, .served d' q' _ => exact fun hsame => hspared (hplace d d' hsame)
  | .called c _, _ => exact nomatch noCalls c
  | .paused, _ => trivial
  | .served .., .called c _ => exact nomatch noCalls c
  | .served .., .paused => trivial

end

/-- The bytes that error correction covers. -/
def Fec.Geometry.Covered (g : Geometry) (x : Nat) : Prop :=
  g.dataOffset ≤ x ∧ x < g.dataOffset + g.dataSize

namespace Verity

open Routine Fec DeviceRoutine

namespace DeviceRoutine

variable {α β : Type}

/-- Every passage is fresh; there is only one device. -/
def IsFresh (t : DeviceRoutine α) : Prop :=
  ∀ es u, t.Reaches es u → Fresh (fun _ => ()) es

/-- A routine on one device that asks for nothing outside a region. -/
abbrev AsksIn (region : Nat → Prop) (okResult : Except Error α → Prop) (t : DeviceRoutine α) :
    Prop :=
  t.Only (fun _ => True) (fun _ q => ∀ x, q.Concerns x → region x) okResult

theorem isFresh_of_reads {t : DeviceRoutine α} {okResult : Except Error α → Prop}
    (h : t.WritesIn (fun _ => False) okResult) : t.IsFresh :=
  fun _ _ hreaches => fresh_of_reads (h.reaches hreaches).1

theorem isFresh_done (outcome : Except Error α) : IsFresh (.done outcome) := by
  intro es u h
  obtain ⟨rfl, -⟩ := reaches_done h
  exact .nil

theorem asksIn_write {region : Nat → Prop} {offset : Nat} {data : ByteArray}
    (h : ∀ x, offset ≤ x → x < offset + data.size → region x) :
    (write offset data).AsksIn region (OnSuccess fun _ => True) := by
  refine ⟨fun x hx => h x hx.1 hx.2, ?_⟩
  rintro (e | a) <;> trivial

theorem isFresh_write (offset : Nat) (data : ByteArray) : (write offset data).IsFresh := by
  intro es u h
  cases h with
  | refl => exact .nil
  | request outcome h =>
    obtain ⟨rfl, -⟩ := reaches_done h
    exact List.pairwise_singleton _ _

/-- The second part writes where the first one has not been. -/
theorem isFresh_andThen (asked written : Nat → Prop) {ok : α → Prop} {t : DeviceRoutine α}
    {f : α → DeviceRoutine β} (ht : t.IsFresh) (hasks : t.AsksIn asked (OnSuccess ok))
    (hf : ∀ a, ok a → (f a).IsFresh)
    (hwrites : ∀ a, ok a → (f a).WritesIn written (OnSuccess fun _ => True))
    (hapart : ∀ x, asked x → ¬ written x) : (t.andThen f).IsFresh := by
  intro es u h
  rcases reaches_bind t h with ⟨t', ht', -, -⟩ | ⟨es₁, outcome, es₂, rfl, hfirst, hsecond⟩
  · exact ht es t' ht'
  · obtain ⟨hasked, hok⟩ := hasks.reaches hfirst
    cases outcome with
    | error e =>
      obtain ⟨rfl, -⟩ := reaches_done hsecond
      rw [List.append_nil]
      exact ht es₁ _ hfirst
    | ok a =>
      have hok : ok a := hok
      exact (ht es₁ _ hfirst).append (fun _ => asked) (fun _ => written)
        (hf a hok es₂ u hsecond) hasked ((hwrites a hok).reaches hsecond).1 fun _ => hapart

end DeviceRoutine

/-! ## The rounds -/

/-- A round is gathered from the bytes that error correction covers. -/
theorem asksIn_gatherRound (r : Round) :
    (gatherRound r).AsksIn r.geometry.Covered
      (OnSuccess fun r' => r'.geometry = r.geometry ∧ r'.index = r.index) := by
  induction r using gatherRound.induct with
  | case1 r hread =>
    rw [gatherRound_of_none hread]
    exact ⟨rfl, rfl⟩
  | case2 r offset length hread ih =>
    obtain ⟨j, filled, -, -, -, -, hoffset, hinside⟩ := Round.nextRead_eq_some hread
    rw [gatherRound_of_some hread]
    refine ⟨?_, ?_⟩
    · rintro x ⟨hlow, hhigh⟩
      exact ⟨by omega, by omega⟩
    · rintro (e | bytes)
      · trivial
      · dsimp only [Except.map]
        split
        · trivial
        · rename_i hsome
          exact ih _ hsome

/-- The rounds from `index` on: the covered bytes lie in front of all shares, and each share lies in
    front of the next one. -/
theorem isFresh_writeRounds {g : Geometry} {code : Code} (hpos : 0 < code.roots)
    (hroots : code.roots = g.roots) (hbehind : g.dataOffset + g.dataSize ≤ g.fecOffset) (n : Nat) :
    ∀ index, (writeRounds g code n index).IsFresh := by
  induction n with
  | zero => exact fun _ => isFresh_done _
  | succ n ih =>
    intro index
    have hnext := g.roundOffset_succ index
    have hfirst : g.fecOffset ≤ g.roundOffset index := Nat.le_add_right _ _
    have hlater : (writeRounds g code n (index + 1)).WritesIn
        (fun x => g.roundOffset (index + 1) ≤ x) (OnSuccess fun _ => True) :=
      writesIn_writeRounds hpos hroots n (index + 1) fun _ hlow _ => hlow
    -- gathering asks for covered bytes, and from here on only this share and later ones are written
    refine isFresh_andThen g.Covered (fun x => g.roundOffset index ≤ x)
      (isFresh_of_reads (writesIn_gatherRound _ (Round.start g index)))
      (asksIn_gatherRound (Round.start g index)) ?_ ?_ ?_
    -- a share ends where the next one begins
    · rintro r ⟨hgeometry, -⟩
      have hsize := Round.size_parity_eq_roundSize hpos hroots hgeometry
      exact isFresh_andThen (fun x => x < g.roundOffset (index + 1)) _ (isFresh_write _ _)
        (asksIn_write fun x _ hhigh => by omega) (fun _ _ => ih (index + 1)) (fun _ _ => hlater)
        fun x hx => Nat.not_le.mpr hx
    · rintro r ⟨hgeometry, -⟩
      refine writesIn_andThen (writesIn_write fun x hlow _ => hlow) (fun _ => trivial) ?_
      rintro - -
      exact writesIn_mono (fun x hx => by omega) hlater
    · rintro x ⟨-, hhigh⟩
      show ¬ g.roundOffset index ≤ x
      change x < g.dataOffset + g.dataSize at hhigh
      omega

/-! ## The whole finalization -/

/-- The regions of a layout come in their order: the data of the tree, the tree, and the parity
    bytes, which lie behind the data that they cover as well. -/
structure Layout.Ordered (l : Layout) : Prop where
  data_tree : l.hashTreeSize ≠ 0 → l.hashTreeDataOffset + l.hashTreeDataSize ≤ l.hashTreeOffset
  tree_fec : l.hashTreeSize ≠ 0 → l.fecSize ≠ 0 → l.hashTreeOffset + l.hashTreeSize ≤ l.fecOffset
  data_fec : l.fecSize ≠ 0 → l.fecDataOffset + l.fecDataSize ≤ l.fecOffset

namespace Finalization

variable {f : Finalization} {l : Layout}

theorem isFresh_writeTree (f : Finalization) : f.writeTree.IsFresh := by
  unfold writeTree
  split
  · split
    · exact isFresh_done _
    · exact isFresh_write _ _
  · exact isFresh_done _

theorem Fits.asksIn_writeTree (h : f.Fits l) :
    f.writeTree.AsksIn l.TreeRegion (OnSuccess fun _ => True) := by
  unfold writeTree
  split
  · rename_i offset bytes htree
    obtain ⟨rfl, hsize⟩ := h.tree offset bytes htree
    split
    · trivial
    · exact asksIn_write fun x hlow hhigh => ⟨hlow, by omega⟩
  · trivial

theorem Fits.isFresh_writeFec (h : f.Fits l) (hordered : l.Ordered) : f.writeFec.IsFresh := by
  unfold writeFec
  split
  · rename_i g hfec
    obtain ⟨hsome, hlayout⟩ := h.fec g hfec
    have hmade := Geometry.madeFor_ofLayout hlayout
    have hbehind := hordered.data_fec hsome
    rw [← hmade.dataOffset, ← hmade.dataSize, ← hmade.fecOffset] at hbehind
    split
    · rename_i code hcode
      have hpos := Code.roots_pos hcode
      have hroots := (Code.of_ofRoots? hcode).1
      exact isFresh_writeRounds hpos hroots hbehind g.rounds 0
    · exact isFresh_done _
  · exact isFresh_done _

/-- What fits a layout with its regions in order never writes where it has been before. -/
theorem Fits.isFresh_routine (h : f.Fits l) (hordered : l.Ordered) : f.routine.IsFresh := by
  have hsync : sync.WritesIn (fun _ => False) (OnSuccess fun _ => True) := by
    refine ⟨trivial, ?_⟩
    rintro (e | a) <;> trivial
  have hapart : ∀ x, l.TreeRegion x → ¬ l.FecRegion x := by
    rintro x ⟨hlow, hhigh⟩ ⟨hlow', hhigh'⟩
    have := hordered.tree_fec (by omega) (by omega)
    omega
  -- the tree is written before anything is read, so it is enough that the parity bytes are apart
  refine isFresh_andThen l.TreeRegion l.FecRegion f.isFresh_writeTree h.asksIn_writeTree ?_ ?_
    hapart
  · rintro - -
    have hasks : f.writeFec.AsksIn (fun _ => True) (OnSuccess fun _ => True) := by
      refine f.writeFec.only_true.mono (fun _ => id) (fun _ _ _ _ _ => trivial) ?_
      rintro (e | a) _ <;> trivial
    exact isFresh_andThen _ (fun _ => False) (h.isFresh_writeFec hordered) hasks
      (fun _ _ => isFresh_of_reads hsync) (fun _ _ => hsync) fun _ _ => id
  · rintro - -
    refine writesIn_andThen h.writesIn_writeFec (fun _ => trivial) fun _ _ => ?_
    exact writesIn_mono (fun _ => False.elim) hsync

end Finalization

/-! ## Metadata at offset zero -/

/-- Nothing covers no data. -/
theorem fecSize_eq_zero {l : Layout} {g : Geometry} (h : Geometry.ofLayout l = .ok g)
    (hnone : l.fecDataSize = 0) : l.fecSize = 0 := by
  obtain ⟨hrounds, -, -⟩ := Geometry.rounds_ofLayout h
  rw [hnone, Nat.zero_div, ceilDiv_zero] at hrounds
  rw [← (Geometry.madeFor_ofLayout h).fecSize, hrounds, Nat.zero_mul]

/-- If a writer begins a layout with its regions in order, no metadata is at offset zero: there is
    data in front of it. -/
theorem Layout.Ordered.offset_ne_zero {w : Writer} {l : Layout} (hordered : l.Ordered)
    (hinit : (w.init l).2 = .ok ()) :
    (l.hashTreeSize ≠ 0 → l.hashTreeOffset ≠ 0) ∧ (l.fecSize ≠ 0 → l.fecOffset ≠ 0) := by
  unfold Writer.init at hinit
  split at hinit
  · rename_i s hnew
    obtain ⟨rfl, -, hfed⟩ := Session.fed_new hnew
    constructor
    · intro hsome hzero
      cases hbuilder : s.builder with
      | none => exact hsome (hfed.absent.mp hbuilder)
      | some b =>
        obtain ⟨a, -, -, hsize⟩ := (hfed.builder b hbuilder).1.format
        have hbefore := hordered.data_tree hsome
        have hnone : s.layout.hashTreeDataSize = 0 := by omega
        rw [hnone] at hsize
        exact hsome (HashTree.size_zero hsize)
    · intro hsome hzero
      rcases Session.fecGeometry_eq_ok hfed.fec with ⟨hnone, -⟩ | ⟨-, g, -, hlayout⟩
      · exact hsome hnone
      · have hbefore := hordered.data_fec hsome
        exact hsome (fecSize_eq_zero hlayout (by omega))
  · cases hinit

end Verity

end SlotVerify
