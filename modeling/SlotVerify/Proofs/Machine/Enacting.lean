import SlotVerify.Proofs.Machine.Invariant
import SlotVerify.Proofs.Fec.Coverage
import SlotVerify.Proofs.Routine.Polls
import SlotVerify.Proofs.Verity.Footprint
/-
  Machines that go on as routines do.

  A routine is a tree and a machine goes from state to state.  `Enacts` says that a turn and a
  routine between two polls do the same from here on: the same calls and requests, whatever they are
  answered with, the same waiting and giving way, and the same result.  What a machine merely works
  out, going on to its next state, takes no step of the routine.  A machine is told whether a
  request that fails is handed back, and the routine is not: so either way it has to do the same.

  1. A machine that enacts a routine is polled as the routine is (`Enacts.poll`).

  2. A machine inside another one is polled by it.  What the inner one enacts, the outer one enacts
     while it is at work (`Enacts.within`), and then goes on with the result.

  3. The first such machine is the writing of the metadata (`Finalizing.exists_does_routine`).  Here
     the encoder mirrors the round that the routine gathers, read by read and round by round.
-/

namespace SlotVerify

open Device Verification

theorem Verity.DeviceRoutine.andThen_assoc {α β γ : Type} (t : DeviceRoutine α)
    (f : α → DeviceRoutine β) (g : β → DeviceRoutine γ) :
    (t.andThen f).andThen g = t.andThen fun a => (f a).andThen g := by
  refine (Routine.bind_assoc t _ _).trans (congrArg _ (funext ?_))
  rintro (e | a) <;> rfl

namespace Machine

variable {P σ τ α β W : Type}

/-- A turn of a machine and a routine that do the same. -/
inductive Enacts (turn : σ → Turn P (σ × After α)) :
    Turn P (σ × After α) → Suspended (interface P) α → Prop
  /-- The machine goes on, and nobody notices. -/
  | again {s : σ} {rest : Suspended (interface P) α} (h : Enacts turn (turn s) rest) :
      Enacts turn (.ret (s, .again)) rest
  | ready (s : σ) (a : α) : Enacts turn (.ret (s, .ready a)) (.ready (.done a))
  | call {c : Call P} {next : c.Answer → Turn P (σ × After α)}
      {next' : c.Answer → Routine (interface P) α}
      (h : ∀ x, Enacts turn (next x) (.ready (next' x))) :
      Enacts turn (.call c next) (.ready (ask c next'))
  | submit {d : OpenedDevice} {r : Request} {next : Placement r Nat → Turn P (σ × After α)}
      {next' : Except IoError r.Reply → Routine (interface P) α}
      (hreturned : ∀ buffer e, Enacts turn (next (.returned buffer e)) (.ready (next' (.error e))))
      (hrefused : ∀ e, Enacts turn (next (.refused e)) (.ready (next' (.error e))))
      (htaken : ∀ polls, Enacts turn (next (.taken polls)) (.waiting d r polls next')) :
      Enacts turn (.submit d r next) (.ready (.request d r next'))
  | complete {d : OpenedDevice} {r : Request} {next : Completion r → Turn P (σ × After α)}
      {next' : Except IoError r.Reply → Routine (interface P) α}
      (h : ∀ x, Enacts turn (next x) (.ready (next' x.outcome))) :
      Enacts turn (.complete d r next) (.waiting d r 0 next')
  /-- The machine finds its future pending. -/
  | wait {s : σ} {d : OpenedDevice} {r : Request} {polls : Nat}
      {next' : Except IoError r.Reply → Routine (interface P) α}
      (h : Enacts turn (turn s) (.waiting d r polls next')) :
      Enacts turn (.ret (s, .pending)) (.waiting d r (polls + 1) next')
  | pause {s : σ} {next' : Routine (interface P) α} (h : Enacts turn (turn s) (.ready next')) :
      Enacts turn (.ret (s, .pending)) (.ready (.pause next'))
  | broken : Enacts turn .broken (.ready .broken)

variable {turn : σ → Turn P (σ × After α)}

/-! ## Polls -/

/-- In this host a turn comes, through others that follow it at once, to this one. -/
inductive Comes (turn : σ → Turn P (σ × After α)) (host : Host (interface P) W) :
    Turn P (σ × After α) → W → Turn P (σ × After α) → W → Prop
  | here (t : Turn P (σ × After α)) (w : W) : Comes turn host t w t w
  | again {s : σ} {w w' : W} {t : Turn P (σ × After α)} (h : Comes turn host (turn s) w t w') :
      Comes turn host (.ret (s, .again)) w t w'
  | call {c : Call P} {next : c.Answer → Turn P (σ × After α)} {w w' : W}
      {t : Turn P (σ × After α)}
      (h : Comes turn host (next (host.answer w c).2) (host.answer w c).1 t w') :
      Comes turn host (.call c next) w t w'
  | submit {d : OpenedDevice} {r : Request} {next : Placement r Nat → Turn P (σ × After α)}
      {w w' : W} {t : Turn P (σ × After α)}
      (h : Comes turn host (next (host.place w d r).2) (host.place w d r).1 t w') :
      Comes turn host (.submit d r next) w t w'
  | complete {d : OpenedDevice} {r : Request} {next : Completion r → Turn P (σ × After α)}
      {w w' : W} {t : Turn P (σ × After α)}
      (h : Comes turn host (next (host.finish w d r).2) (host.finish w d r).1 t w') :
      Comes turn host (.complete d r next) w t w'

/-- Where a poll of a machine comes to that enacts a routine, by how the poll of the routine
    ends. -/
def Arrives (turn : σ → Turn P (σ × After α)) (host : Host (interface P) W)
    (t : Turn P (σ × After α)) (w : W) : W × Ending (interface P) Unit α → Prop
  | (w', .finished a) => ∃ s, Comes turn host t w (.ret (s, .ready a)) w'
  | (w', .interrupted _ rest) =>
    ∃ s, Comes turn host t w (.ret (s, .pending)) w' ∧ Enacts turn (turn s) rest
  | (w', .broken) => Comes turn host t w .broken w'

/-- Steps in front of a poll belong to it. -/
theorem Arrives.mono {host : Host (interface P) W} {t t' : Turn P (σ × After α)} {w w' : W}
    (hcomes : ∀ {u v}, Comes turn host t' w' u v → Comes turn host t w u v) :
    ∀ {ending : W × Ending (interface P) Unit α},
      Arrives turn host t' w' ending → Arrives turn host t w ending
  | (_, .finished _), ⟨s, h⟩ => ⟨s, hcomes h⟩
  | (_, .interrupted _ _), ⟨s, h, hrest⟩ => ⟨s, hcomes h, hrest⟩
  | (_, .broken), h => hcomes h

/-- A machine is polled as the routine is that it enacts. -/
theorem Enacts.poll (host : Host (interface P) W) {t : Turn P (σ × After α)}
    {rest : Suspended (interface P) α} (h : Enacts turn t rest) :
    ∀ w, Arrives turn host t w (rest.poll host w) := by
  induction h with
  | again h ih => exact fun w => (ih w).mono .again
  | ready s a => exact fun w => ⟨s, .here _ w⟩
  | call h ih => exact fun w => (ih _ _).mono .call
  | @submit d r next next' hreturned hrefused htaken ihreturned ihrefused ihtaken =>
    intro w
    have hsubmit : ∀ {w' placement}, host.place w d r = (w', placement) → ∀ {u v},
        Comes turn host (next placement) w' u v → Comes turn host (.submit d r next) w u v := by
      intro w' placement heq u v h
      refine .submit ?_
      rwa [heq]
    show Arrives turn host _ w
      ((Routine.request (I := interface P) d r next').drive host (fun w => (w, some ())) w)
    unfold Routine.drive Host.submit
    cases heq : host.place w d r with
    | mk w' placement =>
      cases placement with
      | taken polls => exact (ihtaken polls w').mono (hsubmit heq)
      | returned buffer e => exact (ihreturned buffer e w').mono (hsubmit heq)
      | refused e => exact (ihrefused e w').mono (hsubmit heq)
  | complete h ih => exact fun w => (ih _ _).mono .complete
  | @wait s d r polls next' h ih => exact fun w => ⟨s, .here _ w, h⟩
  | @pause s next' h ih => exact fun w => ⟨s, .here _ w, h⟩
  | broken => exact fun w => .here _ w

/-! ## A machine inside another one -/

/-- What is left to do has such a result, if it has one. -/
def Results (ok : α → Prop) : Suspended (interface P) α → Prop
  | .ready t => t.Only (fun _ => True) (fun _ _ => True) ok
  | .waiting _ _ _ next => ∀ x, (next x).Only (fun _ => True) (fun _ _ => True) ok

/-- While the inner machine is at work, the outer one enacts what the inner one does; it goes on
    with the result. -/
theorem Enacts.within {outer : τ → Turn P (τ × After β)} (ok : α → Prop) (around : σ → τ)
    {after : σ × After α → Turn P (τ × After β)} {f : α → Routine (interface P) β}
    (hturn : ∀ s, outer (around s) = (turn s).bind after)
    (hagain : ∀ s, after (s, .again) = .ret (around s, .again))
    (hpending : ∀ s, after (s, .pending) = .ret (around s, .pending))
    (hready : ∀ s a, ok a → Enacts outer (after (s, .ready a)) (.ready (f a)))
    {t : Turn P (σ × After α)} {rest : Suspended (interface P) α} (h : Enacts turn t rest)
    (hresults : Results ok rest) : Enacts outer (t.bind after) (rest.bind f) := by
  induction h with
  | @again s rest h ih =>
    show Enacts outer (after (s, .again)) _
    rw [hagain]
    have hnext := ih hresults
    rw [← hturn] at hnext
    exact .again hnext
  | ready s a => exact hready s a hresults
  | call h ih => exact .call fun x => ih x (hresults.2 x)
  | submit hreturned hrefused htaken ihreturned ihrefused ihtaken =>
    exact .submit (fun buffer e => ihreturned buffer e (hresults.2 _))
      (fun e => ihrefused e (hresults.2 _)) fun polls => ihtaken polls hresults.2
  | complete h ih => exact .complete fun x => ih x (hresults _)
  | @wait s d r polls next' h ih =>
    show Enacts outer (after (s, .pending)) _
    rw [hpending]
    have hnext := ih hresults
    rw [← hturn] at hnext
    exact .wait hnext
  | @pause s next' h ih =>
    show Enacts outer (after (s, .pending)) _
    rw [hpending]
    have hnext := ih hresults
    rw [← hturn] at hnext
    exact .pause hnext
  | broken => exact .broken

/-- A request, from its submission to its answer; meanwhile the machine keeps the future. -/
theorem enacts_request {d : OpenedDevice} {r : Request}
    {next : Placement r IoFuture → Turn P (σ × After α)}
    {next' : Except IoError r.Reply → Routine (interface P) α} (waiting : IoFuture → σ)
    {polled : IoFuture → IoFuture × Option (Completion r) → Turn P (σ × After α)}
    (hreturned : ∀ buffer e, Enacts turn (next (.returned buffer e)) (.ready (next' (.error e))))
    (hrefused : ∀ e, Enacts turn (next (.refused e)) (.ready (next' (.error e))))
    (htaken : ∀ fut, next (.taken fut) = .ret (waiting fut, .again))
    (hturn : ∀ fut, turn (waiting fut) = (fut.poll d r).bind (polled fut))
    (hpending : ∀ fut fut', polled fut (fut', none) = .ret (waiting fut', .pending))
    (hanswered : ∀ fut fut' x, Enacts turn (polled fut (fut', some x)) (.ready (next' x.outcome))) :
    Enacts turn (.start d r next) (.ready (.request d r next')) := by
  have hall : ∀ polls, Enacts turn (turn (waiting (.of d polls))) (.waiting d r polls next') := by
    intro polls
    induction polls with
    | zero =>
      rw [hturn, IoFuture.poll_of_zero]
      exact .complete fun x => hanswered _ _ x
    | succ polls ih =>
      rw [hturn, IoFuture.poll_of_succ]
      show Enacts turn (polled _ (.of d polls, none)) _
      rw [hpending]
      exact .wait ih
  refine .submit hreturned hrefused fun polls => ?_
  show Enacts turn (next (.taken (.of d polls))) _
  rw [htaken]
  exact .again (hall polls)

/-! ## The writing of the metadata -/

namespace Finalizing

open Fec (Encoder Geometry Round)
open Verity (DeviceRoutine Finalization Layout gatherRound writeRounds gatherRound_of_none
  gatherRound_of_some)

/-- A routine of the metadata on its device. -/
abbrev on (P : Type) (d : OpenedDevice) (t : DeviceRoutine α) :
    Routine (interface P) (Except Verity.Error α) :=
  Routine.onDevice (J := interface P) id (fun _ => d) t

/-- From a state on, the machine on this device does what the routine does. -/
abbrev Does (P : Type) (d : OpenedDevice) (f : Finalizing) (t : DeviceRoutine Unit) : Prop :=
  Enacts (P := P) (Finalizing.turn d) (f.turn d) (.ready (on P d t))

variable {d : OpenedDevice}

theorem does_sync (f : Finalizing) : Does P d { f with state := .prepareSync } .sync := by
  unfold Does Finalizing.turn DeviceRoutine.sync
  dsimp only
  refine enacts_request (fun fut => { f with state := .syncing fut }) (fun _ e => .ready _ _)
    (fun e => .ready _ _) (fun _ => rfl) (fun _ => rfl) (fun _ _ => rfl) ?_
  rintro fut fut' (a | ⟨_, e⟩ | e)
  · exact .ready _ _
  · exact .ready _ _
  · exact .ready _ _

variable {tree : Option (Nat × ByteArray)}

/-- Reads what is missing of a round, and goes on from there. -/
theorem does_gatherRound {g : Geometry} {code : Fec.Code} {index : Nat} (hrounds : 0 < g.rounds)
    (hpos : 0 < g.blockSize) {rest : Round → DeviceRoutine Unit}
    (hrest : ∀ {e r}, e.Mirrors r → e.code = code → r.geometry = g → r.index = index →
      r.nextRead = none → Does P d ⟨tree, some e, .prepareRead⟩ (rest r)) (r : Round) :
    ∀ {e : Encoder}, e.Mirrors r → e.code = code → r.geometry = g → r.index = index →
      Does P d ⟨tree, some e, .prepareRead⟩ ((gatherRound r).andThen rest) := by
  induction r using Verity.gatherRound.induct with
  | case1 r hread =>
    intro e hmirrors hcode hgeometry hindex
    rw [gatherRound_of_none hread]
    exact hrest hmirrors hcode hgeometry hindex hread
  | case2 r offset length hread ih =>
    rintro e hmirrors rfl rfl rfl
    have hasked : e.nextRead.2 = some (offset, length) :=
      (hmirrors.nextRead hrounds hpos).1.trans hread
    rw [gatherRound_of_some hread]
    show Enacts _ (prepare d ⟨tree, some e, .prepareRead⟩ e) _
    unfold prepare
    rw [hasked]
    refine enacts_request (fun fut => ⟨tree, some e.nextRead.1, .reading offset length fut⟩)
      (fun _ e => .ready _ _) (fun e => .ready _ _) (fun _ => rfl) (fun _ => rfl) (fun _ _ => rfl)
      ?_
    rintro fut fut' (bytes | ⟨_, e⟩ | e)
    rotate_left
    · exact .ready _ _
    · exact .ready _ _
    · have hsize : (bytes.extract 0 length).size ≤ length := by
        rw [ByteArray.size_extract]
        omega
      show Enacts (Finalizing.turn d) (fill _ offset (bytes.extract 0 length))
        (.ready (on P d (DeviceRoutine.andThen (if (bytes.extract 0 length).size = 0 then
          .done (.error (.unexpectedEnd offset))
          else gatherRound (r.gather (bytes.extract 0 length))) rest)))
      generalize bytes.extract 0 length = chunk at hsize
      unfold fill
      by_cases hsome : chunk.size = 0
      · rw [if_pos hsome, if_pos hsome]
        exact .ready _ _
      · obtain ⟨e', hput, hcode, hmirrors'⟩ := hmirrors.completeRead hrounds hpos hasked hsize
        rw [if_neg hsome, if_neg hsome]
        dsimp only
        rw [hput]
        exact .again (ih chunk hsome hmirrors' hcode rfl rfl)

/-- Writes the parity bytes of a round that has been gathered, and goes on from there. -/
theorem does_writeParity {e : Encoder} {r : Round} (hmirrors : e.Mirrors r)
    (hrounds : 0 < r.geometry.rounds) (hpos : 0 < r.geometry.blockSize) (hread : r.nextRead = none)
    {rest : DeviceRoutine Unit}
    (hrest : ∀ state, Enacts (Finalizing.turn d) (nextRound ⟨tree, some e.nextRead.1, state⟩)
      (.ready (on P d rest))) :
    Does P d ⟨tree, some e, .prepareRead⟩
      ((DeviceRoutine.write (r.geometry.roundOffset r.index) (r.parity e.code)).andThen
        fun _ => rest) := by
  have hasked : e.nextRead.2 = none := (hmirrors.nextRead hrounds hpos).1.trans hread
  show Enacts _ (prepare d ⟨tree, some e, .prepareRead⟩ e) _
  unfold prepare DeviceRoutine.write
  rw [hasked, ← hmirrors.parity_eq, ← hmirrors.geometry, ← hmirrors.index, ← e.parity_nextRead]
  refine enacts_request (fun fut => ⟨tree, some e.nextRead.1,
    .writingRound (e.geometry.roundOffset e.round) e.nextRead.1.parity fut⟩)
    (fun _ e => .ready _ _) (fun e => .ready _ _) (fun _ => rfl) (fun _ => rfl) (fun _ _ => rfl) ?_
  rintro fut fut' (a | ⟨_, e⟩ | e)
  · exact hrest _
  · exact .ready _ _
  · exact .ready _ _

/-- Reads and writes one round, and goes on from there. -/
theorem does_round {g : Geometry} {code : Fec.Code} {index : Nat} (hrounds : 0 < g.rounds)
    (hpos : 0 < g.blockSize) {rest : DeviceRoutine Unit}
    (hrest : ∀ (e : Encoder) state, e.Whole → e.geometry = g → e.code = code → e.round = index →
      Enacts (Finalizing.turn d) (nextRound ⟨tree, some e, state⟩) (.ready (on P d rest)))
    {e : Encoder} (hstart : e.Mirrors (Round.start g index)) (hcode : e.code = code) :
    Does P d ⟨tree, some e, .prepareRead⟩
      ((gatherRound (Round.start g index)).andThen fun r =>
        (DeviceRoutine.write (g.roundOffset index) (r.parity code)).andThen fun _ => rest) := by
  refine does_gatherRound hrounds hpos ?_ _ hstart hcode rfl rfl
  clear hstart hcode e
  rintro e r hmirrors rfl rfl rfl hread
  refine does_writeParity hmirrors hrounds hpos hread fun state => ?_
  obtain ⟨hgeometry, hcode, hround, -⟩ := e.nextRead_keeps
  exact hrest _ state hmirrors.whole.nextRead (hgeometry.trans hmirrors.geometry) hcode
    (hround.trans hmirrors.index)

/-- Writes the rounds from one on, by induction on how many there are behind it, and makes the
    device durable. -/
theorem does_writeRounds {g : Geometry} {code : Fec.Code} (hrounds : 0 < g.rounds)
    (hpos : 0 < g.blockSize) (n : Nat) :
    ∀ {index : Nat} {e : Encoder}, index + (n + 1) = g.rounds → e.Mirrors (Round.start g index) →
      e.code = code → Does P d ⟨tree, some e, .prepareRead⟩
        ((writeRounds g code (n + 1) index).andThen fun _ => .sync) := by
  induction n with
  | zero =>
    intro index e hn hstart hcode
    rw [writeRounds, DeviceRoutine.andThen_assoc]
    simp only [DeviceRoutine.andThen_assoc]
    refine does_round hrounds hpos ?_ hstart hcode
    rintro e state - rfl - rfl
    have hlast : e.advance.2 = false := decide_eq_false (by omega)
    unfold nextRound
    dsimp only
    rw [hlast]
    exact .again (does_sync _)
  | succ n ih =>
    intro index e hn hstart hcode
    rw [writeRounds, DeviceRoutine.andThen_assoc]
    simp only [DeviceRoutine.andThen_assoc]
    refine does_round hrounds hpos ?_ hstart hcode
    rintro e state hwhole rfl rfl rfl
    have hmore : e.advance.2 = true := decide_eq_true (by omega)
    unfold nextRound
    dsimp only
    rw [hmore]
    exact .again (ih (by omega) (Encoder.mirrors_advance hwhole) rfl)

/-- Writes the tree, if there is anything of it, and goes on from there. -/
theorem does_writeTree (f : Finalization) {encoder : Option Encoder} {rest : DeviceRoutine Unit}
    (hrest : Does P d ⟨none, encoder, .prepareRead⟩ rest) :
    Does P d ⟨f.tree, encoder, .init⟩ (f.writeTree.andThen fun _ => rest) := by
  obtain ⟨tree, fec⟩ := f
  unfold Does Finalizing.turn Finalization.writeTree
  dsimp only
  cases tree with
  | none => exact .again hrest
  | some placed =>
    obtain ⟨offset, bytes⟩ := placed
    dsimp only
    by_cases hempty : bytes.size = 0
    · rw [if_pos hempty, if_pos hempty]
      exact .again hrest
    · rw [if_neg hempty, if_neg hempty]
      refine enacts_request (fun fut => ⟨none, encoder, .writingTree offset bytes fut⟩)
        (fun _ e => .ready _ _) (fun e => .ready _ _) (fun _ => rfl) (fun _ => rfl)
        (fun _ _ => rfl) ?_
      rintro fut fut' (a | ⟨_, e⟩ | e)
      · exact .again hrest
      · exact .ready _ _
      · exact .ready _ _

/-- Where a finalization fits a layout, there is an encoder for it, and it writes the parity
    bytes. -/
theorem exists_does_writeFec {f : Finalization} {l : Layout} (hfits : f.Fits l) :
    ∃ encoder, ofFinalization f = .ok ⟨f.tree, encoder, .init⟩ ∧
      Does P d ⟨none, encoder, .prepareRead⟩ (f.writeFec.andThen fun _ => .sync) := by
  have hfec := hfits.fec
  obtain ⟨tree, fec⟩ := f
  unfold ofFinalization Finalization.writeFec
  cases fec with
  | none => exact ⟨none, rfl, .again (does_sync _)⟩
  | some g =>
    obtain ⟨hsome, hlayout⟩ := hfec g rfl
    have hmade := Geometry.madeFor_ofLayout hlayout
    obtain ⟨code, hcode⟩ := Fec.exists_ofRoots? hmade.minRoots_le hmade.le_maxRoots
    have hpos := Geometry.blockSize_pos_ofLayout hlayout
    obtain ⟨n, hn⟩ := Nat.exists_eq_succ_of_ne_zero (Nat.ne_of_gt (hmade.rounds_pos hsome))
    dsimp only
    rw [hcode, hn]
    refine ⟨some (Encoder.start g code), rfl, ?_⟩
    exact does_writeRounds (hn ▸ Nat.succ_pos n) hpos n (by rw [hn, Nat.zero_add])
      (Encoder.mirrors_start code 0 rfl) rfl

/-- The machine that is made for a finalization does what the finalization's routine does. -/
theorem exists_does_routine {f : Finalization} {l : Layout} (hfits : f.Fits l) :
    ∃ m, ofFinalization f = .ok m ∧ Does P d m f.routine := by
  obtain ⟨encoder, hmade, hfec⟩ := exists_does_writeFec (P := P) (d := d) hfits
  exact ⟨_, hmade, does_writeTree f hfec⟩

end Finalizing

end Machine

end SlotVerify
