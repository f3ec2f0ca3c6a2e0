import Mathlib.Data.List.Induction
import SlotVerify.Proofs.Routine.Record
/-
  A routine that is polled again and again.

  Its surroundings may change before each poll (`Host.polls`).  Whatever they do, it is over after
  some polls (`Host.exists_over`): this is an induction on the routine, and for a pending request on
  the polls for which it is pending.

  A poll that does not bring it to an end is not wasted: it ends where the routine gives way, or it
  is one of those that a request has been pending for (`Suspended.waits_drive`).  A routine that is
  `Steady` never gives way of its own and never breaks down.
-/

namespace SlotVerify

open Device

variable {I J : Interface} {α β ρ W : Type}

/-- There is nothing left to poll. -/
def Ending.Over : Ending I ρ α → Prop
  | .interrupted .. => False
  | .finished _ | .broken => True

instance : DecidablePred (Ending.Over (I := I) (ρ := ρ) (α := α))
  | .interrupted .. => .isFalse id
  | .finished _ | .broken => .isTrue trivial

/-- One more poll, unless it is over; the world may have changed before. -/
def Ending.poll (host : Host I W) : W × Ending I Unit α → (W → W) → W × Ending I Unit α
  | (w, .interrupted _ rest), change => rest.poll host (change w)
  | (w, ending), change => (change w, ending)

/-- A routine polled behind each of these changes, with the record of its dealings. -/
def Host.polls (host : Host I W) (t : Routine I α) (w : W) (changes : List (W → W)) :
    (W × List (Dealing I)) × Ending I Unit α :=
  changes.foldl (fun state change => Ending.poll host.recorded state (Prod.map change id))
    ((w, []), .interrupted () (.ready t))

theorem Host.polls_append_singleton (host : Host I W) (t : Routine I α) (w : W)
    (changes : List (W → W)) (change : W → W) :
    host.polls t w (changes ++ [change]) =
      Ending.poll host.recorded (host.polls t w changes) (Prod.map change id) :=
  List.foldl_append

/-! ## Ends -/

/-- Polled again and again, it ends. -/
def Suspended.Ends (host : Host I W) (rest : Suspended I α) : Prop :=
  ∀ (changes : Nat → W → W) (w : W), ∃ n,
    (((List.range n).map changes).foldl (Ending.poll host) (w, .interrupted () rest)).2.Over

/-- What is left at the end of a poll, if anything, ends. -/
def Ending.LeavesEnding (host : Host I W) : W × Ending I Unit α → Prop
  | (_, .interrupted _ rest) => rest.Ends host
  | _ => True

/-- A poll of what is left. -/
theorem Suspended.ends_of_poll {host : Host I W} {rest : Suspended I α}
    (h : ∀ w, Ending.LeavesEnding host (rest.poll host w)) : rest.Ends host := by
  intro changes w
  have hfirst : ∀ n, ((List.range (n + 1)).map changes).foldl (Ending.poll host)
      (w, .interrupted () rest) = ((List.range n).map fun k => changes (k + 1)).foldl
        (Ending.poll host) (rest.poll host (changes 0 w)) := by
    intro n
    rw [List.range_succ_eq_map, List.map_cons, List.map_map]
    rfl
  have hpoll := h (changes 0 w)
  cases hlast : rest.poll host (changes 0 w) with
  | mk w' ending =>
    rw [hlast] at hpoll hfirst
    cases ending with
    | interrupted _ rest' =>
      obtain ⟨n, hn⟩ := hpoll (fun k => changes (k + 1)) w'
      exact ⟨n + 1, hfirst n ▸ hn⟩
    | finished a => exact ⟨1, hfirst 0 ▸ trivial⟩
    | broken => exact ⟨1, hfirst 0 ▸ trivial⟩

/-- By induction on the routine, and on the polls of a pending request. -/
theorem Routine.leavesEnding_drive (host : Host I W) (t : Routine I α) :
    ∀ w, Ending.LeavesEnding host (t.drive host (giveWay ()) w) := by
  induction t with
  | done a => exact fun _ => trivial
  | call c next ih => exact fun w => ih _ _
  | request d r next ih =>
    have hdue : ∀ w, Ending.LeavesEnding host
        ((next (host.complete w d r).2).drive host (giveWay ()) (host.complete w d r).1) :=
      fun w => ih _ _
    have hends : ∀ polls, (Suspended.waiting d r polls next).Ends host := by
      intro polls
      induction polls with
      | zero => exact Suspended.ends_of_poll hdue
      | succ polls ihp => exact Suspended.ends_of_poll fun _ => ihp
    intro w
    rw [drive]
    obtain ⟨w', outcome⟩ := host.submit w d r
    cases outcome with
    | error e => exact ih _ _
    | ok polls =>
      cases polls with
      | zero => exact hdue _
      | succ polls => exact hends polls
  | pause next ih => exact fun _ => Suspended.ends_of_poll ih
  | broken => exact fun _ => trivial

/-- Polled often enough, a routine is over, whatever its surroundings do. -/
theorem Host.exists_over (host : Host I W) (t : Routine I α) (w : W) (changes : Nat → W → W) :
    ∃ n, (host.polls t w ((List.range n).map changes)).2.Over := by
  have hends : (Suspended.ready t).Ends host.recorded :=
    Suspended.ends_of_poll (t.leavesEnding_drive host.recorded)
  obtain ⟨n, hn⟩ := hends (fun k => Prod.map (changes k) id) (w, [])
  refine ⟨n, ?_⟩
  unfold Host.polls
  rw [List.foldl_map] at hn ⊢
  exact hn

/-! ## Waiting -/

/-- For how many polls a request was found pending when it was submitted. -/
def Dealing.wait : Dealing I → Nat
  | .submitted _ _ (.ok polls) => polls
  | .submitted _ _ (.error _) | .called .. | .completed .. => 0

/-- All the polls for which requests were found pending. -/
def waits : List (Dealing I) → Nat
  | [] => 0
  | d :: ds => d.wait + waits ds

theorem waits_append (first second : List (Dealing I)) :
    waits (first ++ second) = waits first + waits second := by
  induction first with
  | nil => exact (Nat.zero_add _).symm
  | cons d ds ih =>
    rw [List.cons_append, waits, waits, ih]
    exact (Nat.add_assoc ..).symm

namespace Suspended

/-- The further polls for which a request is pending. -/
def pending : Suspended I α → Nat
  | .ready _ => 0
  | .waiting _ _ polls _ => polls

/-- The polls, this one included, that end in the same way before a request is due. -/
def due : Suspended I α → Nat
  | .ready _ => 0
  | .waiting _ _ polls _ => polls + 1

end Suspended

/-- What a poll has added to the waiting: nothing, or the polls of the request that it ends at. -/
def Ending.WaitsFrom (record : List (Dealing I)) (last : (W × List (Dealing I)) × Ending I ρ α) :
    Prop :=
  ∀ why rest, last.2 = .interrupted why rest → waits last.1.2 = waits record + rest.due

theorem Ending.WaitsFrom.of_append {record ds : List (Dealing I)}
    {last : (W × List (Dealing I)) × Ending I ρ α} (h : WaitsFrom (record ++ ds) last)
    (hds : waits ds = 0) : WaitsFrom record last := by
  intro why rest hlast
  rw [h why rest hlast, waits_append, hds, Nat.add_zero]

/-- A poll in which a request is submitted: it is refused, or carried out at once, or pending. -/
theorem Routine.drive_request (host : Host I W) (why : ρ) (d : I.Device) (r : Request)
    (next : Except IoError r.Reply → Routine I α) (w : W) (record : List (Dealing I)) :
    (Routine.request d r next).drive host.recorded (giveWay why) (w, record) =
      match host.submit w d r with
      | (w, .error e) =>
        (next (.error e)).drive host.recorded (giveWay why)
          (w, record ++ [.submitted d r (.error e)])
      | (w, .ok 0) =>
        (next (host.complete w d r).2).drive host.recorded (giveWay why)
          ((host.complete w d r).1,
            record ++ [.submitted d r (.ok 0), .completed d r (host.complete w d r).2])
      | (w, .ok (polls + 1)) =>
        ((w, record ++ [.submitted d r (.ok (polls + 1))]),
          .interrupted why (.waiting d r polls next)) := by
  have hsubmit : host.recorded.submit (w, record) d r =
    (((host.submit w d r).1, record ++ [.submitted d r (host.submit w d r).2]),
      (host.submit w d r).2) := rfl
  rw [drive, hsubmit]
  obtain ⟨w', _ | _ | polls⟩ := host.submit w d r
  · rfl
  · have hcomplete : host.recorded.complete (w', record ++ [.submitted d r (.ok 0)]) d r =
      (((host.complete w' d r).1,
        record ++ [.submitted d r (.ok 0), .completed d r (host.complete w' d r).2]),
        (host.complete w' d r).2) := by
      show (((host.complete w' d r).1, record ++ [_] ++ [_]), _) = _
      rw [List.append_assoc]
      rfl
    show (next (host.recorded.complete (w', record ++ [.submitted d r (.ok 0)]) d r).2).drive
      host.recorded (giveWay why)
        (host.recorded.complete (w', record ++ [.submitted d r (.ok 0)]) d r).1 = _
    rw [hcomplete]
  · rfl

/-- By induction on the routine. -/
theorem Routine.waitsFrom_drive (host : Host I W) (why : ρ) (t : Routine I α) :
    ∀ w record,
      Ending.WaitsFrom record (t.drive host.recorded (giveWay why) (w, record)) := by
  induction t with
  | done a => exact fun _ _ _ _ => nofun
  | call c next ih =>
    intro w record
    have hnext := ih (host.answer w c).2 (host.answer w c).1
      (record ++ [.called c (host.answer w c).2])
    exact hnext.of_append rfl
  | request d r next ih =>
    intro w record
    rw [drive_request]
    match host.submit w d r with
    | (w', .error e) => exact (ih _ w' (record ++ [.submitted d r (.error e)])).of_append rfl
    | (w', .ok 0) => exact (ih _ _ (record ++ [_, _])).of_append rfl
    | (w', .ok (polls + 1)) =>
      rintro _ _ ⟨⟩
      exact waits_append record _
  | pause next ih =>
    rintro w record _ _ ⟨⟩
    rfl
  | broken => exact fun _ _ _ _ => nofun

/-- A poll that is not the last one ends where the routine gives way, or it is one of those that a
    request is pending for. -/
theorem Suspended.waits_drive (host : Host I W) (why : ρ) (rest : Suspended I α) (w : W)
    (record : List (Dealing I)) {why' : ρ} {rest' : Suspended I α}
    (h : (rest.drive host.recorded (giveWay why) (w, record)).2 = .interrupted why' rest') :
    waits (rest.drive host.recorded (giveWay why) (w, record)).1.2 + rest.pending =
      waits record + rest'.due := by
  cases rest with
  | ready next => exact next.waitsFrom_drive host why w record _ _ h
  | waiting d r polls next =>
    cases polls with
    | zero =>
      have hnext := (next (host.complete w d r).2).waitsFrom_drive host why
        (host.complete w d r).1 (record ++ [.completed d r (host.complete w d r).2])
      exact hnext.of_append rfl _ _ h
    | succ polls =>
      cases h
      rfl

/-! ## Steady routines -/

namespace Routine

/-- It never gives way, and never breaks down. -/
def Steady : Routine I α → Prop
  | .done _ => True
  | .call _ next => ∀ x, (next x).Steady
  | .request _ _ next => ∀ x, (next x).Steady
  | .pause _ | .broken => False

theorem steady_bind {t : Routine I α} {f : α → Routine I β} (ht : t.Steady)
    (hf : ∀ a, (f a).Steady) : (t.bind f).Steady := by
  induction t with
  | done a => exact hf a
  | call c next ih => exact fun x => ih x (ht x)
  | request d r next ih => exact fun x => ih x (ht x)
  | pause next => exact ht.elim
  | broken => exact ht.elim

theorem Steady.onDevice {noCalls : I.Call → Empty} {device : I.Device → J.Device}
    {t : Routine I α} (h : t.Steady) : (t.onDevice noCalls device).Steady := by
  induction t with
  | done a => trivial
  | call c next ih => exact nomatch noCalls c
  | request d r next ih => exact fun x => ih x (h x)
  | pause next => exact h.elim
  | broken => exact h.elim

theorem Steady.reaches {t u : Routine I α} {es : List (Happening I)} (h : t.Reaches es u)
    (ht : t.Steady) : u.Steady := by
  induction h with
  | refl t => exact ht
  | call answer _ ih => exact ih (ht answer)
  | request outcome _ ih => exact ih (ht outcome)
  | pause _ _ => exact ht.elim

end Routine

end SlotVerify
