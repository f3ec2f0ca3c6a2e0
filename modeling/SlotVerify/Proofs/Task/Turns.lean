import SlotVerify.Proofs.Task.Numbering
import Mathlib.Data.List.Basic
/-
  In which order a run polls.

  1. `polls` lists the polls of a run, each with the loop as it was at the beginning of the turn;
     they are the polls that the run adds to the journal (`begun_turns`).
  2. `Between x z y` says that going up from `x`, and round to the lowest number, `z` comes before
     `y`; from `x` back to `x` everything else is between.
  3. The crux is one turn (`not_between_nextRunnable`): behind the task polled last, no task that is
     ready comes before the one whose turn it is.  The tasks that are ready may be others at each
     turn, and the one polled last may be gone; only the order of the numbers is needed.
  4. What is between two polls and stays ready is met on the way from one to the other
     (`met_between`): at each turn either it is polled, or it is still ahead.
-/

namespace SlotVerify.Task

open Loop

variable {T S V : Type} {b : Behavior T S V} {l : Loop T S V}

/-- A queued task can be polled. -/
def Loop.Ready (l : Loop T S V) (id : TaskId) : Prop :=
  ∃ e ∈ l.entries, e.id = id ∧ e.runnable = true

instance (l : Loop T S V) (id : TaskId) : Decidable (l.Ready id) :=
  inferInstanceAs (Decidable (∃ e ∈ l.entries, e.id = id ∧ e.runnable = true))

/-- The polls of at most `n` turns, with the loop before each of them. -/
def polls (b : Behavior T S V) : (n : Nat) → (last : Option TaskId) → Loop T S V →
    List (Loop T S V × TaskId)
  | 0, _, _ => []
  | n + 1, last, l =>
    match turn b last l with
    | .over _ => []
    | .polled id l' => (l, id) :: polls b n (some id) l'

/-- These are the polls of a run, in order. -/
theorem begun_turns {n : Nat} {last : Option TaskId} {l' : Loop T S V} {allDone : Bool}
    (hrun : turns b n last l = some (l', allDone)) :
    begun l'.journal = ((polls b n last l).map (·.2)).reverse ++ begun l.journal := by
  induction n generalizing l last with
  | zero => simp [turns] at hrun
  | succ n ih =>
    cases hnext : l.nextRunnable last with
    | none =>
      simp only [turns, turn, hnext, Option.some.injEq, Prod.mk.injEq] at hrun
      rw [← hrun.1]
      simp [polls, turn, hnext]
    | some next =>
      simp only [turns, turn, hnext] at hrun
      simp [polls, turn, hnext, ih hrun, begun_pollTask]

/-- On the way up from `x`, and round to the lowest number, `z` comes before `y`. -/
def Between (x z y : Nat) : Prop := x < z ∧ z < y ∨ y ≤ x ∧ (x < z ∨ z < y)

theorem between_self {x z : Nat} : Between x z x ↔ z ≠ x := by
  unfold Between
  omega

/-- What is ahead stays ahead until it is met. -/
theorem Between.ahead {x z y w : Nat} (h : Between x z y) (hw : ¬ Between x z w) (hne : z ≠ w) :
    Between w z y := by
  unfold Between at *
  omega

/-! ## One turn -/

/-- The first runnable task of a part of the queue that is in order is the lowest one. -/
theorem le_of_firstRunnable {entries : List (Entry T)}
    (hsorted : (entries.map (·.id)).Pairwise (· < ·)) {id : TaskId} {t : T}
    (h : firstRunnable entries = some (id, t)) {e : Entry T} (he : e ∈ entries)
    (hrun : e.runnable = true) (htask : e.task ≠ none) : id ≤ e.id := by
  obtain ⟨front, a, back, heq, ha, hfront⟩ := List.findSome?_eq_some_iff.1 h
  have hid : a.id = id := by
    by_cases hrun : a.runnable = true
    · rw [if_pos hrun, Option.map_eq_some_iff] at ha
      obtain ⟨t', -, hpair⟩ := ha
      exact (Prod.mk.inj hpair).1
    · rw [if_neg hrun] at ha
      exact absurd ha (Option.some_ne_none _).symm
  subst heq
  rcases List.mem_append.1 he with hmem | hmem
  · have hnone := hfront e hmem
    rw [if_pos hrun, Option.map_eq_none_iff] at hnone
    exact absurd hnone htask
  · rw [List.map_append, List.map_cons, List.pairwise_append, List.pairwise_cons] at hsorted
    rcases List.mem_cons.1 hmem with rfl | hback
    · exact Nat.le_of_eq hid.symm
    · have hlt := hsorted.2.1.1 e.id (List.mem_map_of_mem hback)
      exact Nat.le_of_lt (hid ▸ hlt)

/-- No task that is ready comes between the one polled last and the one whose turn it is. -/
theorem not_between_nextRunnable (hsorted : l.ids.Pairwise (· < ·))
    (htasks : ∀ e ∈ l.entries, e.task ≠ none) {last id z : TaskId} {t : T}
    (h : l.nextRunnable (some last) = some (id, t)) (hz : l.Ready z) : ¬ Between last z id := by
  obtain ⟨e, he, rfl, hrun⟩ := hz
  rcases (Option.orElse_eq_some _ _ _).1 h with hbehind | ⟨hnone, hfirst⟩
  · obtain ⟨a, ha, hid, -⟩ := mem_of_firstRunnable hbehind
    have hlast : last < id := hid ▸ of_decide_eq_true (List.mem_filter.1 ha).2
    have hup : ∀ e ∈ l.entries, e.runnable = true → last < e.id → id ≤ e.id := by
      intro e he hrun hlt
      have hpart : (l.entries.filter (last < ·.id)).map (·.id) |>.Pairwise (· < ·) :=
        hsorted.sublist (List.filter_sublist.map _)
      exact le_of_firstRunnable hpart hbehind
        (List.mem_filter.2 ⟨he, decide_eq_true hlt⟩) hrun (htasks e he)
    have hle := hup e he hrun
    rintro (⟨hlt, hbefore⟩ | ⟨hround, -⟩)
    · exact Nat.lt_irrefl _ (Nat.lt_of_lt_of_le hbefore (hle hlt))
    · exact Nat.lt_irrefl _ (Nat.lt_of_lt_of_le hlast hround)
  · have hbelow : ∀ e ∈ l.entries, e.runnable = true → ¬ last < e.id := by
      intro e he hrun hlt
      have hmem : e ∈ l.entries.filter (last < ·.id) :=
        List.mem_filter.2 ⟨he, decide_eq_true hlt⟩
      exact htasks e he (firstRunnable_eq_none.1 hnone e hmem hrun)
    have hle : id ≤ e.id := le_of_firstRunnable hsorted hfirst he hrun (htasks e he)
    have hnot := hbelow e he hrun
    rintro (⟨hlt, -⟩ | ⟨-, hlt | hbefore⟩)
    · exact hnot hlt
    · exact hnot hlt
    · exact Nat.lt_irrefl _ (Nat.lt_of_lt_of_le hbefore hle)

/-! ## A run -/

/-- The polls behind the first one, if there is one. -/
theorem polls_cons {n : Nat} {last : Option TaskId} {m : Loop T S V} {id : TaskId}
    {rest : List (Loop T S V × TaskId)} (h : polls b n last l = (m, id) :: rest) :
    m = l ∧ ∃ n' t, l.nextRunnable last = some (id, t) ∧
      rest = polls b n' (some id) (pollTask b id t l) := by
  cases n with
  | zero => simp [polls] at h
  | succ n =>
    cases hnext : l.nextRunnable last with
    | none => simp [polls, turn, hnext] at h
    | some next =>
      simp only [polls, turn, hnext, List.cons.injEq, Prod.mk.injEq] at h
      obtain ⟨⟨rfl, rfl⟩, rfl⟩ := h
      exact ⟨rfl, n, next.2, rfl, rfl⟩

/-- On the way from the task polled last to a later poll, what is between and stays ready is met. -/
theorem met_between {n : Nat} {x y z : TaskId} (h : Reached b .idle l) {j : Nat}
    {m : Loop T S V} (hj : (polls b n (some x) l)[j]? = some (m, y)) (hz : Between x z y)
    (hready : ∀ k m' w, k ≤ j → (polls b n (some x) l)[k]? = some (m', w) → m'.Ready z) :
    ∃ k m', k < j ∧ (polls b n (some x) l)[k]? = some (m', z) := by
  -- by induction on the turns in between: each polls `z`, or leaves it ahead of what it polls
  induction j generalizing n l x with
  | zero =>
    obtain ⟨rest, hpolls⟩ : ∃ rest, polls b n (some x) l = (m, y) :: rest := by
      cases hpolls : polls b n (some x) l with
      | nil => simp [hpolls] at hj
      | cons first rest => exact ⟨rest, by simpa [hpolls] using hj⟩
    obtain ⟨rfl, _, t, hnext, -⟩ := polls_cons hpolls
    exact absurd hz (not_between_nextRunnable h.course.numbered.sorted h.course.task_of_idle hnext
      (hready 0 m y (Nat.le_refl _) hj))
  | succ j ih =>
    cases hpolls : polls b n (some x) l with
    | nil => simp [hpolls] at hj
    | cons first rest =>
      obtain ⟨m₀, w⟩ := first
      obtain ⟨rfl, n', t, hnext, hrest⟩ := polls_cons hpolls
      have hahead : ¬ Between x z w :=
        not_between_nextRunnable h.course.numbered.sorted h.course.task_of_idle hnext
          (hready 0 m₀ w (Nat.zero_le _) (by rw [hpolls]; rfl))
      by_cases hmet : z = w
      · exact ⟨0, m₀, Nat.succ_pos j, by rw [hmet]; rfl⟩
      · have hj' : (polls b n' (some w) (pollTask b w t m₀))[j]? = some (m, y) := by
          rw [← hrest]
          simpa [hpolls] using hj
        have hready' : ∀ k m' w', k ≤ j →
            (polls b n' (some w) (pollTask b w t m₀))[k]? = some (m', w') → m'.Ready z := by
          intro k m' w' hk hget
          refine hready (k + 1) m' w' (Nat.succ_le_succ hk) ?_
          rw [hpolls, List.getElem?_cons_succ, hrest]
          exact hget
        obtain ⟨k, m', hk, hget⟩ :=
          ih (h.pollTask hnext) hj' (hz.ahead hahead hmet) hready'
        refine ⟨k + 1, m', Nat.succ_lt_succ hk, ?_⟩
        rw [List.getElem?_cons_succ, hrest]
        exact hget

/-- Behind any of its polls, a run goes on as one that has polled this task last. -/
theorem drop_polls {n : Nat} {last : Option TaskId} (h : Reached b .idle l) {i : Nat}
    {m : Loop T S V} {x : TaskId} (hi : (polls b n last l)[i]? = some (m, x)) :
    ∃ n' l', Reached b .idle l' ∧ (polls b n last l).drop (i + 1) = polls b n' (some x) l' := by
  induction i generalizing n last l with
  | zero =>
    obtain ⟨rest, hpolls⟩ : ∃ rest, polls b n last l = (m, x) :: rest := by
      cases hpolls : polls b n last l with
      | nil => simp [hpolls] at hi
      | cons first rest => exact ⟨rest, by simpa [hpolls] using hi⟩
    obtain ⟨rfl, n', t, hnext, hrest⟩ := polls_cons hpolls
    exact ⟨n', _, h.pollTask hnext, by rw [hpolls]; exact hrest⟩
  | succ i ih =>
    cases hpolls : polls b n last l with
    | nil => simp [hpolls] at hi
    | cons first rest =>
      obtain ⟨m₀, w⟩ := first
      obtain ⟨rfl, n', t, hnext, rfl⟩ := polls_cons hpolls
      rw [hpolls, List.getElem?_cons_succ] at hi
      exact ih (h.pollTask hnext) hi

/-- The queue is at all times in the order of posting, and a run goes round in it: a task that is
    queued and runnable at every turn behind a poll of `x` up to a later poll of `y` is polled in
    between if it comes before `y` on the way up from `x`; every other such task is polled between
    two polls of `x`.  These polls are those that the journal of the run tells of, in their
    order. -/
theorem polled_in_turn (b : Behavior T S V) :
    (∀ (p : Phase) (l : Loop T S V), Reached b p l → l.ids.Pairwise (· < ·)) ∧
    (∀ (n : Nat) (l l' : Loop T S V) (allDone : Bool), run b n l = some (l', allDone) →
      begun l'.journal = ((polls b n none l).map (·.2)).reverse ++ begun l.journal) ∧
    ∀ l : Loop T S V, Reached b .idle l →
      ∀ (n i j : Nat) (x y z : TaskId) (m m' : Loop T S V), i < j →
        (polls b n none l)[i]? = some (m, x) →
        (polls b n none l)[j]? = some (m', y) →
        (∀ k w mk, i < k → k ≤ j → (polls b n none l)[k]? = some (mk, w) → mk.Ready z) →
        (Between x z y ∨ x = y ∧ z ≠ x) →
        ∃ k mk, i < k ∧ k < j ∧ (polls b n none l)[k]? = some (mk, z) := by
  refine ⟨fun p l h => h.course.numbered.sorted, fun n l l' allDone hrun => begun_turns hrun, ?_⟩
  intro l h n i j x y z m m' hij hi hj hready hway
  have hz : Between x z y := by
    rcases hway with hz | ⟨rfl, hne⟩
    · exact hz
    · exact between_self.2 hne
  -- behind its poll of `x` the run is one of its own, with the positions moved
  obtain ⟨n', l', hl', hdrop⟩ := drop_polls h hi
  have hget : ∀ k, (polls b n' (some x) l')[k]? = (polls b n none l)[i + 1 + k]? := by
    intro k
    rw [← hdrop, List.getElem?_drop]
  obtain ⟨d, rfl⟩ : ∃ d, j = i + 1 + d := ⟨j - (i + 1), by omega⟩
  rw [← hget] at hj
  have hready' : ∀ k mk w, k ≤ d → (polls b n' (some x) l')[k]? = some (mk, w) → mk.Ready z := by
    intro k mk w hk hat
    exact hready (i + 1 + k) w mk (by omega) (by omega) (hget k ▸ hat)
  obtain ⟨k, mk, hk, hmet⟩ := met_between hl' hj hz hready'
  exact ⟨i + 1 + k, mk, by omega, by omega, hget k ▸ hmet⟩

/-- A task that wakes itself in each of its polls and never ends. -/
def restless : Behavior Unit Unit Unit where
  poll self _ := .call (.wake (.task self)) fun _ => .done (.pending ())
  destroyed _ s := (s, [])

/-- Three restless tasks. -/
def threeRestless : Loop Unit Unit Unit := ((((Loop.empty ()).post ()).1.post ()).1.post ()).1

theorem reached_threeRestless : Reached restless .idle threeRestless :=
  (((Reached.empty ()).answered (.post ())).answered (.post ())).answered (.post ())

/-- The second of three restless tasks is polled between the first two polls of the first one. -/
theorem polled_in_turn_restless :
    ((polls restless 5 none threeRestless).map (·.2) = [0, 1, 2, 0, 1] ∧
      ∀ m ∈ polls restless 5 none threeRestless, m.1.Ready 1) ∧
    ∃ k mk, 0 < k ∧ k < 3 ∧ (polls restless 5 none threeRestless)[k]? = some (mk, 1) := by
  have hready : ∀ m ∈ polls restless 5 none threeRestless, m.1.Ready 1 := by decide
  refine ⟨⟨by decide, hready⟩, ?_⟩
  exact (polled_in_turn restless).2.2 threeRestless reached_threeRestless 5 0 3 0 0 1 _ _
    (by decide) rfl rfl (fun k w mk _ _ hk => hready _ (List.mem_of_getElem? hk))
    (.inr ⟨rfl, by decide⟩)

end SlotVerify.Task
