import Mathlib.Data.List.TakeWhile
import SlotVerify.Text.Blank
/-
  What trimming leaves of a text.

  `Encloses s word` says that a text is a word with blanks around it; `trim s` is such a word
  (`encloses_trim`).  Which of them is taken makes no difference: all words that a text encloses are
  trimmed to the same (`Encloses.trim_eq`).  So a word without blanks is what its texts are trimmed
  to, and one that begins with something else than a blank loses blanks at its end only
  (`trim_append`).
-/

namespace SlotVerify.Text

/-- Nothing but blanks. -/
def Blanks (s : List Char) : Prop := ∀ c ∈ s, isBlank c = true

/-- No blank at all. -/
def Unblank (s : List Char) : Prop := ∀ c ∈ s, isBlank c = false

instance : DecidablePred Blanks := fun s => List.decidableBAll (fun c => isBlank c = true) s

instance : DecidablePred Unblank := fun s => List.decidableBAll (fun c => isBlank c = false) s

/-- A text is a word with blanks around it. -/
def Encloses (s word : List Char) : Prop :=
  ∃ before after, s = before ++ (word ++ after) ∧ Blanks before ∧ Blanks after

variable {s t word : List Char}

theorem blanks_takeWhile (s : List Char) : Blanks (s.takeWhile isBlank) :=
  fun _ hc => List.mem_takeWhile_imp hc

theorem Blanks.reverse (h : Blanks s) : Blanks s.reverse :=
  fun c hc => h c (List.mem_reverse.mp hc)

theorem Blanks.append (hs : Blanks s) (ht : Blanks t) : Blanks (s ++ t) := by
  intro c hc
  rcases List.mem_append.mp hc with hc | hc
  · exact hs c hc
  · exact ht c hc

theorem Unblank.reverse (h : Unblank s) : Unblank s.reverse :=
  fun c hc => h c (List.mem_reverse.mp hc)

theorem Unblank.dropWhile_eq (h : Unblank s) : s.dropWhile isBlank = s := by
  cases s with
  | nil => rfl
  | cons c s => rw [List.dropWhile_cons, if_neg (by simp [h c List.mem_cons_self])]

/-! ## Either end -/

theorem trimStart_append (h : Blanks t) (s : List Char) : trimStart (t ++ s) = trimStart s :=
  List.dropWhile_append_of_pos h

theorem trimEnd_append (h : Blanks t) (s : List Char) : trimEnd (s ++ t) = trimEnd s := by
  show ((s ++ t).reverse.dropWhile isBlank).reverse = (s.reverse.dropWhile isBlank).reverse
  rw [List.reverse_append, List.dropWhile_append_of_pos h.reverse]

theorem exists_trimEnd_append (s : List Char) : ∃ after, s = trimEnd s ++ after ∧ Blanks after := by
  refine ⟨(s.reverse.takeWhile isBlank).reverse, ?_, (blanks_takeWhile _).reverse⟩
  show s = (s.reverse.dropWhile isBlank).reverse ++ _
  rw [← List.reverse_append, List.takeWhile_append_dropWhile, List.reverse_reverse]

/-- Blanks at the end stay behind the rest unless there is nothing else. -/
theorem trimStart_append_blanks (s : List Char) (h : Blanks t) :
    trimStart (s ++ t) = trimStart s ++ t ∨ trimStart s = [] ∧ trimStart (s ++ t) = [] := by
  show (s ++ t).dropWhile isBlank = s.dropWhile isBlank ++ t ∨
    s.dropWhile isBlank = [] ∧ (s ++ t).dropWhile isBlank = []
  rw [List.dropWhile_append]
  by_cases hs : s.dropWhile isBlank = []
  · right
    rw [if_pos (by simp [hs])]
    exact ⟨hs, List.dropWhile_eq_nil_iff.mpr h⟩
  · left
    rw [if_neg (by simpa using hs)]

/-! ## Both ends -/

theorem encloses_trim (s : List Char) : Encloses s (trim s) := by
  obtain ⟨after, hafter, hblanks⟩ := exists_trimEnd_append (trimStart s)
  refine ⟨s.takeWhile isBlank, after, ?_, blanks_takeWhile s, hblanks⟩
  show s = s.takeWhile isBlank ++ (trimEnd (trimStart s) ++ after)
  rw [← hafter]
  exact List.takeWhile_append_dropWhile.symm

/-- Blanks around a word do not matter. -/
theorem Encloses.trim_eq (h : Encloses s word) : trim s = trim word := by
  obtain ⟨before, after, rfl, hbefore, hafter⟩ := h
  show trimEnd (trimStart (before ++ (word ++ after))) = trimEnd (trimStart word)
  rw [trimStart_append hbefore]
  rcases trimStart_append_blanks word hafter with hword | ⟨hword, hall⟩
  · rw [hword, trimEnd_append hafter]
  · rw [hword, hall]

theorem Unblank.trim_eq (h : Unblank word) : trim word = word := by
  show ((word.dropWhile isBlank).reverse.dropWhile isBlank).reverse = word
  rw [h.dropWhile_eq, h.reverse.dropWhile_eq, List.reverse_reverse]

/-- What begins with something else than a blank loses blanks at its end only. -/
theorem trim_append (hword : word ≠ []) (h : Unblank word) (s : List Char) :
    trim (word ++ s) = word ++ trimEnd s := by
  have hstart : trimStart (word ++ s) = word ++ s := by
    cases word with
    | nil => exact absurd rfl hword
    | cons c word =>
      show (c :: (word ++ s)).dropWhile isBlank = _
      rw [List.dropWhile_cons, if_neg (by simp [h c List.mem_cons_self]), List.cons_append]
  show ((trimStart (word ++ s)).reverse.dropWhile isBlank).reverse =
    word ++ (s.reverse.dropWhile isBlank).reverse
  rw [hstart, List.reverse_append, List.dropWhile_append]
  by_cases hs : s.reverse.dropWhile isBlank = []
  · rw [if_pos (by simp [hs]), h.reverse.dropWhile_eq, hs, List.reverse_reverse,
      List.reverse_nil, List.append_nil]
  · rw [if_neg (by simpa using hs), List.reverse_append, List.reverse_reverse]

end SlotVerify.Text
