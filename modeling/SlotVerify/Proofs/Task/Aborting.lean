import SlotVerify.Task.Abort
import SlotVerify.Task.Loop
/-
  An abort is not missed.

  Two sides share a flag and a place for a waker.  The observer's polls leave the waker first and
  look at the flag then; a call that aborts sets the flag, takes the waker, and calls the waker when
  the place is free for others again.  Each of these is one step, and the steps of the observer and
  of any number of callers come in any order (`Parties.Step`).

  1. The waker left last is in its place, or in the hands of a caller who has taken it and will call
     it next, or it has been called (`Fair.waker`).
  2. The crux is the look at the flag: if it shows nothing, then nobody has taken anything, so
     whoever comes first finds the waker in its place (`Fair.warned`).
  3. Where taking the waker and calling it are one step, no waker is in anybody's hands
     (`Parties.ReachedAtOnce.reached`).  Where they are two, a call may be finished while another
     one still has the waker in its hands.

  Main result: `Parties.Reached.seen_or_woken`.
-/

namespace SlotVerify.Task

/-- What the parties do. -/
inductive AbortEvent (W : Type) where
  /-- The observer leaves a waker. -/
  | registered (w : W)
  /-- The observer looks at the flag. -/
  | checked (aborted : Bool)
  /-- A caller sets the flag. -/
  | flagged (caller : Nat)
  /-- A caller takes the waker, if there is one. -/
  | took (caller : Nat) (waker : Option W)
  /-- A caller calls the waker that it has taken, if there was one, and is finished. -/
  | finished (caller : Nat) (woken : Option W)
deriving DecidableEq, Repr

/-- An observer and those who call for an abort. -/
structure Parties (W : Type) where
  shared : AbortState W := {}
  /-- Whether the observer has left its waker and has not looked at the flag yet. -/
  between : Bool := false
  /-- The callers that have set the flag and have not taken the waker. -/
  calling : List Nat := []
  /-- The callers that have taken what was there and have not called it, each with what it was. -/
  waking : List (Nat × Option W) := []
  /-- What has happened, the latest first. -/
  journal : List (AbortEvent W) := []

variable {W : Type}

/-- What the observer has seen when it looked at the flag last. -/
def lastCheck (journal : List (AbortEvent W)) : Option Bool :=
  journal.findSome? fun
    | .checked aborted => some aborted
    | _ => none

/-- The waker left last, and what has happened since. -/
def lastRegistered : List (AbortEvent W) → Option (W × List (AbortEvent W))
  | [] => none
  | .registered w :: _ => some (w, [])
  | ev :: rest => (lastRegistered rest).map fun (w, since) => (w, ev :: since)

/-- A call has finished. -/
def Finished (journal : List (AbortEvent W)) : Prop :=
  ∃ caller woken, .finished caller woken ∈ journal

/-- Somebody has called this waker. -/
def Woke (journal : List (AbortEvent W)) (w : W) : Prop :=
  ∃ caller, .finished caller (some w) ∈ journal

namespace Parties

/-- A caller has taken this waker and will call it next. -/
def InHand (m : Parties W) (w : W) : Prop := ∃ caller, (caller, some w) ∈ m.waking

/-! ## Steps -/

/-- The observer leaves a waker. -/
def register [DecidableEq W] (m : Parties W) (w : W) : Parties W :=
  { m with
    shared := m.shared.register w
    between := true
    journal := .registered w :: m.journal }

/-- The observer looks at the flag. -/
def check (m : Parties W) : Parties W :=
  { m with
    between := false
    journal := .checked m.shared.aborted :: m.journal }

/-- A caller sets the flag. -/
def setFlag (m : Parties W) (caller : Nat) : Parties W :=
  { m with
    shared := m.shared.setFlag
    calling := caller :: m.calling
    journal := .flagged caller :: m.journal }

/-- A caller takes the waker, if there is one. -/
def takeWaker (m : Parties W) (caller : Nat) : Parties W :=
  { m with
    shared := m.shared.takeWaker.1
    calling := m.calling.erase caller
    waking := (caller, m.shared.takeWaker.2) :: m.waking
    journal := .took caller m.shared.takeWaker.2 :: m.journal }

/-- A caller calls what it has taken. -/
def wake [DecidableEq W] (m : Parties W) (caller : Nat) (taken : Option W) : Parties W :=
  { m with
    waking := m.waking.erase (caller, taken)
    journal := .finished caller taken :: m.journal }

variable [DecidableEq W]

/-- The steps, which any party may take that is where it can. -/
inductive Step (m : Parties W) : Parties W → Prop where
  | register (w : W) (h : m.between = false) : m.Step (m.register w)
  | check (h : m.between = true) : m.Step m.check
  | setFlag (caller : Nat) (h : caller ∉ m.calling) : m.Step (m.setFlag caller)
  | takeWaker (caller : Nat) (h : caller ∈ m.calling) : m.Step (m.takeWaker caller)
  | wake (caller : Nat) (taken : Option W) (h : (caller, taken) ∈ m.waking) :
      m.Step (m.wake caller taken)

/-- What the parties come to, in any order of their steps. -/
inductive Reached : Parties W → Prop where
  | start : Reached {}
  | step {m m' : Parties W} (h : Reached m) (hstep : m.Step m') : Reached m'

/-- What they come to if nothing comes between the taking of a waker and the call of it. -/
inductive ReachedAtOnce : Parties W → Prop where
  | start : ReachedAtOnce {}
  | step {m m' : Parties W} (h : ReachedAtOnce m) (hstep : m.Step m')
      (hwaking : m'.waking = m.waking) : ReachedAtOnce m'
  | takeAndWake {m : Parties W} (caller : Nat) (h : ReachedAtOnce m)
      (hcaller : caller ∈ m.calling) :
      ReachedAtOnce ((m.takeWaker caller).wake caller m.shared.waker)

theorem ReachedAtOnce.reached {m : Parties W} (h : ReachedAtOnce m) :
    Reached m ∧ m.waking = [] := by
  induction h with
  | start => exact ⟨.start, rfl⟩
  | step _ hstep hwaking ih => exact ⟨ih.1.step hstep, hwaking.trans ih.2⟩
  | @takeAndWake m caller _ hcaller ih =>
    obtain ⟨hreached, hnone⟩ := ih
    have htaken := hreached.step (.takeWaker caller hcaller)
    refine ⟨htaken.step (.wake caller _ List.mem_cons_self), ?_⟩
    show ((caller, m.shared.waker) :: m.waking).erase (caller, m.shared.waker) = []
    rw [List.erase_cons_head, hnone]

end Parties

/-! ## What each step preserves -/

variable {ev : AbortEvent W} {journal since : List (AbortEvent W)} {w : W}

theorem lastCheck_cons (h : ∀ aborted, ev ≠ .checked aborted) :
    lastCheck (ev :: journal) = lastCheck journal := by
  cases ev with
  | checked aborted => exact absurd rfl (h aborted)
  | registered _ | flagged _ | took _ _ | finished _ _ => rfl

/-- What happens after a waker has been left comes on top of what has happened since. -/
theorem exists_of_lastRegistered_cons (h : ∀ w, ev ≠ .registered w)
    (hlast : lastRegistered (ev :: journal) = some (w, since)) :
    ∃ rest, lastRegistered journal = some (w, rest) ∧ since = ev :: rest := by
  cases ev with
  | registered w' => exact absurd rfl (h w')
  | checked _ | flagged _ | took _ _ | finished _ _ =>
    obtain ⟨⟨w', rest⟩, hrest, heq⟩ := Option.map_eq_some_iff.1 hlast
    obtain ⟨rfl, rfl⟩ := Prod.mk.inj heq
    exact ⟨rest, hrest, rfl⟩

theorem Woke.cons (h : Woke journal w) (ev : AbortEvent W) : Woke (ev :: journal) w :=
  h.imp fun _ hmem => List.mem_cons_of_mem ev hmem

theorem finished_cons (h : ∀ caller woken, ev ≠ .finished caller woken) :
    Finished (ev :: journal) ↔ Finished journal := by
  simp only [Finished, List.mem_cons]
  exact exists₂_congr fun caller woken => or_iff_right (h caller woken).symm

namespace Parties

variable {m m' : Parties W}

/-- Somebody has come to the place of the waker and has taken what was there. -/
def Taken (m : Parties W) : Prop := m.waking ≠ [] ∨ Finished m.journal

/-- The waker is in somebody's hands, or it has been called since. -/
def Caught (m : Parties W) (w : W) (since : List (AbortEvent W)) : Prop :=
  m.InHand w ∨ Woke since w

/-- The flag is set before anything is taken; the waker left last is in its place until it is
    caught; and when the observer is done with its two steps, it has seen the flag or its waker is
    caught, unless nobody has taken anything. -/
structure Fair (m : Parties W) : Prop where
  aborted : m.calling ≠ [] ∨ m.Taken → m.shared.aborted = true
  waker : ∀ {w : W} {since : List (AbortEvent W)}, lastRegistered m.journal = some (w, since) →
    m.shared.waker = some w ∨ m.Caught w since
  warned : m.between = false → ∀ {w : W} {since : List (AbortEvent W)},
    lastRegistered m.journal = some (w, since) →
      lastCheck m.journal = some true ∨ m.Caught w since ∨ ¬ m.Taken

/-- What else happens lets a caught waker go on only by calling it. -/
theorem Caught.cons (h : m.Caught w since) (ev : AbortEvent W)
    (hwaking : ∀ caller, (caller, some w) ∈ m.waking →
      (caller, some w) ∈ m'.waking ∨ ev = .finished caller (some w)) :
    m'.Caught w (ev :: since) := by
  rcases h with ⟨caller, hhand⟩ | hwoke
  · rcases hwaking caller hhand with hhand | rfl
    · exact .inl ⟨caller, hhand⟩
    · exact .inr ⟨caller, List.mem_cons_self⟩
  · exact .inr (hwoke.cons ev)

/-- The waker left last is still in its place, or caught, after a step that leaves it there. -/
theorem Fair.waker_cons (h : m.Fair) (hev : ∀ w, ev ≠ .registered w)
    (hwaking : m'.waking = m.waking)
    (hlast : lastRegistered (ev :: m.journal) = some (w, since)) :
    m.shared.waker = some w ∨ m'.Caught w since := by
  obtain ⟨rest, hrest, rfl⟩ := exists_of_lastRegistered_cons hev hlast
  exact (h.waker hrest).imp_right fun hcaught =>
    hcaught.cons ev fun _ hhand => .inl (hwaking ▸ hhand)

theorem Fair.check (h : m.Fair) : m.check.Fair := by
  have htaken : m.check.Taken → m.Taken := Or.imp_right (finished_cons (by simp)).mp
  refine ⟨fun hcall => h.aborted (hcall.imp_right htaken), h.waker_cons (by simp) rfl,
    fun _ {w since} hlast => ?_⟩
  -- a flag that is not set tells that nobody has taken anything yet
  cases haborted : m.shared.aborted with
  | true => exact .inl (congrArg some haborted)
  | false =>
    refine .inr (.inr fun hchecked => ?_)
    rw [h.aborted (.inr (htaken hchecked))] at haborted
    cases haborted

theorem Fair.setFlag (h : m.Fair) (caller : Nat) : (m.setFlag caller).Fair := by
  refine ⟨fun _ => rfl, h.waker_cons (by simp) rfl, fun hbetween {w since} hlast => ?_⟩
  obtain ⟨rest, hrest, rfl⟩ := exists_of_lastRegistered_cons (by simp) hlast
  have hbefore := h.warned hbetween hrest
  refine .imp (lastCheck_cons (by simp)).trans (.imp (fun hcaught => ?_) ?_) hbefore
  · exact hcaught.cons _ fun _ => .inl
  · exact mt (Or.imp_right (finished_cons (by simp)).mp)

theorem Fair.takeWaker (h : m.Fair) {caller : Nat} (hcaller : caller ∈ m.calling) :
    (m.takeWaker caller).Fair := by
  have haborted := h.aborted (.inl (List.ne_nil_of_mem hcaller))
  -- whoever takes something first finds the waker that was left last
  have hcaught : ∀ {w : W} {since : List (AbortEvent W)},
      lastRegistered (m.takeWaker caller).journal = some (w, since) →
        (m.takeWaker caller).Caught w since := by
    intro w since hlast
    obtain ⟨rest, hrest, rfl⟩ := exists_of_lastRegistered_cons (by simp) hlast
    rcases h.waker hrest with hwaker | hcaught
    · exact .inl ⟨caller, hwaker ▸ List.mem_cons_self⟩
    · exact hcaught.cons _ fun _ hhand => .inl (List.mem_cons_of_mem _ hhand)
  exact ⟨fun _ => haborted, fun hlast => .inr (hcaught hlast),
    fun _ {_ _} hlast => .inr (.inl (hcaught hlast))⟩

variable [DecidableEq W]

theorem Fair.register (h : m.Fair) (w : W) : (m.register w).Fair := by
  refine ⟨fun hcall => ?_, fun {w' since} hlast => ?_, fun hbetween => by cases hbetween⟩
  · refine AbortState.aborted_register.trans (h.aborted (hcall.imp_right ?_))
    exact Or.imp_right (finished_cons (by simp)).mp
  · obtain ⟨rfl, -⟩ := Prod.mk.inj (Option.some.inj hlast)
    exact .inl AbortState.waker_register

theorem Fair.wake (h : m.Fair) {caller : Nat} {taken : Option W}
    (htaken : (caller, taken) ∈ m.waking) : (m.wake caller taken).Fair := by
  have haborted := h.aborted (.inr (.inl (List.ne_nil_of_mem htaken)))
  have hcaught : ∀ {w : W} {since : List (AbortEvent W)}, m.Caught w since →
      (m.wake caller taken).Caught w (.finished caller taken :: since) := by
    intro w since hcaught
    refine hcaught.cons _ fun caller' hhand => ?_
    by_cases hsame : (caller', some w) = (caller, taken)
    · obtain ⟨rfl, rfl⟩ := Prod.mk.inj hsame
      exact .inr rfl
    · exact .inl ((List.mem_erase_of_ne hsame).mpr hhand)
  refine ⟨fun _ => haborted, fun {w since} hlast => ?_, fun hbetween {w since} hlast => ?_⟩
  · obtain ⟨rest, hrest, rfl⟩ := exists_of_lastRegistered_cons (by simp) hlast
    exact (h.waker hrest).imp_right hcaught
  · obtain ⟨rest, hrest, rfl⟩ := exists_of_lastRegistered_cons (by simp) hlast
    rcases h.warned hbetween hrest with hseen | hbefore | hnone
    · exact .inl ((lastCheck_cons (by simp)).trans hseen)
    · exact .inr (.inl (hcaught hbefore))
    · exact absurd (.inl (List.ne_nil_of_mem htaken)) hnone

theorem Fair.step (h : m.Fair) (hstep : m.Step m') : m'.Fair := by
  cases hstep with
  | register w _ => exact h.register w
  | check _ => exact h.check
  | setFlag caller _ => exact h.setFlag caller
  | takeWaker caller hcaller => exact h.takeWaker hcaller
  | wake caller taken htaken => exact h.wake htaken

theorem Reached.fair (h : Reached m) : m.Fair := by
  induction h with
  | start =>
    exact ⟨by simp [Taken, Finished], by simp [lastRegistered], by simp [lastRegistered]⟩
  | step _ hstep ih => exact ih.step hstep

/-- Once a call has finished, an observer that has polled and is not in the middle of its two steps
    has seen the flag when it looked last, or the waker that it has left last has been called since,
    or somebody is about to call it. -/
theorem Reached.seen_or_woken (h : Reached m) (hfinished : Finished m.journal)
    (hbetween : m.between = false) (hlast : lastRegistered m.journal = some (w, since)) :
    lastCheck m.journal = some true ∨ Woke since w ∨ m.InHand w := by
  rcases h.fair.warned hbetween hlast with hseen | hcaught | hnone
  · exact .inl hseen
  · exact .inr hcaught.symm
  · exact absurd (.inr hfinished) hnone

end Parties

end SlotVerify.Task
