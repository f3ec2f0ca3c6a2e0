import Mathlib.Data.Nat.Digits.Lemmas
import SlotVerify.CommandLine.Value
import SlotVerify.Proofs.Text.Trimming
/-
  The texts that are sizes.

  1. **Specification** — `SizeSpelled t n` is the grammar: digits, a unit behind them, and blanks
     around either.  The number is the digits' value in base ten times the bytes in the unit, as a
     natural number of any size.

  2. **Reading** — `sizeOfText` takes a text apart from the left.  The crux is that it finds the
     parts that the text was put together from (`SizeSpelled.parts`): blanks are no digits and a
     unit is neither, so the digits end where the first other character stands, and what trimming
     leaves of the rest is the unit.

  3. **Limits** — the number is checked twice, by itself and times the unit.  A unit has a byte at
     least, so the first check refuses nothing that passes the second (`sizeOfText_eq_ok_iff`).
-/

namespace SlotVerify.CommandLine

open Text
open Verity (wordLimit)

/-- What the values of digits stand for to a base, the most significant first. -/
def placeValue (base : Nat) (places : List Nat) : Nat := Nat.ofDigits base places.reverse

/-- What decimal digits stand for. -/
def numeral (digits : List Char) : Nat :=
  placeValue 10 (digits.map fun c => c.toNat - '0'.toNat)

/-- The letter of a unit, or none, and the bytes in the unit. -/
inductive UnitSpelled : List Char → Nat → Prop where
  | unspoken : UnitSpelled [] 1
  | byte : UnitSpelled ['B'] 1
  | kibi : UnitSpelled ['K'] (2 ^ 10)
  | mebi : UnitSpelled ['M'] (2 ^ 20)
  | gibi : UnitSpelled ['G'] (2 ^ 30)

/-- The texts of a number of bytes. -/
inductive SizeSpelled : List Char → Nat → Prop where
  | parts {before digits between letter after : List Char} {unit : Nat} (hbefore : Blanks before)
      (hsome : digits ≠ []) (hdigits : ∀ c ∈ digits, c.isDigit = true) (hbetween : Blanks between)
      (hunit : UnitSpelled letter unit) (hafter : Blanks after) :
      SizeSpelled (before ++ digits ++ between ++ letter ++ after) (numeral digits * unit)

theorem placeValue_cons (base v : Nat) (places : List Nat) :
    placeValue base (v :: places) = placeValue base places + base ^ places.length * v := by
  unfold placeValue
  rw [List.reverse_cons, Nat.ofDigits_append, List.length_reverse, Nat.ofDigits_singleton]

theorem decimal_eq_numeral (digits : List Char) : decimal digits = numeral digits := by
  suffices hall : ∀ n, digits.foldl (fun n c => 10 * n + (c.toNat - '0'.toNat)) n =
      10 ^ digits.length * n + numeral digits by
    have hzero := hall 0
    rwa [Nat.mul_zero, Nat.zero_add] at hzero
  -- by induction on the digits, for every number in front of them
  induction digits with
  | nil => intro n; simp [numeral, placeValue]
  | cons c digits ih =>
    intro n
    have hcons : numeral (c :: digits) =
        numeral digits + 10 ^ digits.length * (c.toNat - '0'.toNat) := by
      unfold numeral
      rw [List.map_cons, placeValue_cons, List.length_map]
    rw [List.foldl_cons, ih, hcons, List.length_cons, Nat.pow_succ]
    ring

namespace UnitSpelled

variable {letter : List Char} {unit : Nat}

theorem unit?_eq (h : UnitSpelled letter unit) : unit? letter = some unit := by
  cases h <;> rfl

theorem pos (h : UnitSpelled letter unit) : 0 < unit := by
  cases h <;> decide

/-- A unit has no blank and no digit. -/
theorem unblank (h : UnitSpelled letter unit) : Unblank letter := by
  cases h <;> decide

theorem not_isDigit (h : UnitSpelled letter unit) : ∀ c ∈ letter, c.isDigit = false := by
  have hall : (letter.all fun c => !c.isDigit) = true := by cases h <;> rfl
  intro c hc
  simpa using List.all_eq_true.mp hall c hc

end UnitSpelled

theorem unitSpelled_of_unit? {letter : List Char} {unit : Nat} (h : unit? letter = some unit) :
    UnitSpelled letter unit := by
  unfold unit? at h
  split at h
  · cases h; exact .unspoken
  · cases h; exact .byte
  · cases h; exact .kibi
  · cases h; exact .mebi
  · cases h; exact .gibi
  · cases h

/-- No character is both. -/
theorem isDigit_of_isBlank {c : Char} (h : isBlank c = true) : c.isDigit = false := by
  unfold isBlank at h
  simp only [Char.isDigit, Bool.and_eq_false_iff, decide_eq_false_iff_not, Bool.or_eq_true,
    Bool.and_eq_true, decide_eq_true_eq, beq_iff_eq, UInt32.le_iff_toNat_le] at h ⊢
  change _ ∨ ¬ c.toNat ≤ 57
  change ¬ 48 ≤ c.toNat ∨ _
  omega

theorem isBlank_of_isDigit {c : Char} (h : c.isDigit = true) : isBlank c = false := by
  cases hblank : isBlank c with
  | false => rfl
  | true =>
    rw [isDigit_of_isBlank hblank] at h
    cases h

/-- The digits end where another character stands. -/
theorem takeWhile_isDigit {digits rest : List Char} (hdigits : ∀ c ∈ digits, c.isDigit = true)
    (hrest : ∀ c ∈ rest, c.isDigit = false) :
    (digits ++ rest).takeWhile Char.isDigit = digits ∧
      (digits ++ rest).dropWhile Char.isDigit = rest := by
  rw [List.takeWhile_append_of_pos hdigits, List.dropWhile_append_of_pos hdigits]
  cases rest with
  | nil => simp
  | cons c rest => simp [hrest c List.mem_cons_self]

/-- A text is taken apart into the parts that it was put together from. -/
theorem SizeSpelled.parts_trim {t : List Char} {n : Nat} (h : SizeSpelled t n) :
    ∃ unit, UnitSpelled (trim ((trim t).dropWhile Char.isDigit)) unit ∧
      (trim t).takeWhile Char.isDigit ≠ [] ∧
      n = numeral ((trim t).takeWhile Char.isDigit) * unit := by
  obtain @⟨before, digits, between, letter, after, unit, hbefore, hsome, hdigits, hbetween, hunit,
    hafter⟩ := h
  have hunblank : Unblank digits := fun c hc => isBlank_of_isDigit (hdigits c hc)
  have hword : trim (before ++ digits ++ between ++ letter ++ after) =
      digits ++ trimEnd (between ++ letter) := by
    have hencloses : Encloses (before ++ digits ++ between ++ letter ++ after)
        (digits ++ (between ++ letter)) := ⟨before, after, by simp, hbefore, hafter⟩
    rw [hencloses.trim_eq, trim_append hsome hunblank]
  obtain ⟨behind, hbehind, hblanks⟩ := exists_trimEnd_append (between ++ letter)
  have hrest : ∀ c ∈ trimEnd (between ++ letter), c.isDigit = false := by
    intro c hc
    have hmem : c ∈ between ++ letter := by
      rw [hbehind]
      exact List.mem_append_left _ hc
    rcases List.mem_append.mp hmem with hc | hc
    · exact isDigit_of_isBlank (hbetween c hc)
    · exact hunit.not_isDigit c hc
  have hletter : trim (trimEnd (between ++ letter)) = letter := by
    have htrimmed : Encloses (between ++ letter) (trimEnd (between ++ letter)) :=
      ⟨[], behind, hbehind, nofun, hblanks⟩
    have hencloses : Encloses (between ++ letter) letter :=
      ⟨between, [], by simp, hbetween, nofun⟩
    rw [← htrimmed.trim_eq, hencloses.trim_eq, hunit.unblank.trim_eq]
  obtain ⟨htake, hdrop⟩ := takeWhile_isDigit hdigits hrest
  rw [hword, htake, hdrop, hletter]
  exact ⟨unit, hunit, hsome, rfl⟩

/-- What is left of a text stands in it. -/
theorem sizeSpelled_of_parts {t : List Char} {unit : Nat}
    (hunit : UnitSpelled (trim ((trim t).dropWhile Char.isDigit)) unit)
    (hsome : (trim t).takeWhile Char.isDigit ≠ []) :
    SizeSpelled t (numeral ((trim t).takeWhile Char.isDigit) * unit) := by
  obtain ⟨before, after, ht, hbefore, hafter⟩ := encloses_trim t
  obtain ⟨between, behind, hrest, hbetween, hbehind⟩ :=
    encloses_trim ((trim t).dropWhile Char.isDigit)
  have hwhole : t = before ++ (trim t).takeWhile Char.isDigit ++ between ++
      trim ((trim t).dropWhile Char.isDigit) ++ (behind ++ after) := by
    calc t = before ++ (trim t ++ after) := ht
      _ = before ++ (((trim t).takeWhile Char.isDigit ++ (trim t).dropWhile Char.isDigit) ++
            after) := by rw [List.takeWhile_append_dropWhile]
      _ = before ++ (((trim t).takeWhile Char.isDigit ++
            (between ++ (trim ((trim t).dropWhile Char.isDigit) ++ behind))) ++ after) := by
          rw [← hrest]
      _ = _ := by simp
  have hspelled := SizeSpelled.parts hbefore hsome (fun c hc => List.mem_takeWhile_imp hc) hbetween
    hunit (hbehind.append hafter)
  rwa [← hwhole] at hspelled

/-- Exactly the texts of sizes are read, each as the number of bytes that it stands for, unless that
    is too large for a word; and no text stands for two numbers. -/
theorem sizeOfText_eq_ok_iff (s : String) :
    (∀ n, sizeOfText s = .ok n ↔ SizeSpelled s.toList n ∧ n < 2 ^ 64) ∧
      ∀ m n, SizeSpelled s.toList m → SizeSpelled s.toList n → m = n := by
  have hlimit : wordLimit = 2 ^ 64 := by decide
  constructor
  · intro n
    unfold sizeOfText
    simp only [decimal_eq_numeral, hlimit]
    constructor
    · intro h
      split at h
      · cases h
      · rename_i unit hunit
        split at h
        · cases h
        · rename_i hnumber
          rw [not_or] at hnumber
          split at h
          · cases h
          · rename_i hproduct
            cases h
            exact ⟨sizeSpelled_of_parts (unitSpelled_of_unit? hunit) hnumber.1,
              Nat.not_le.mp hproduct⟩
    · rintro ⟨hspelled, hsmall⟩
      obtain ⟨unit, hunit, hsome, rfl⟩ := hspelled.parts_trim
      have hnumber : numeral ((trim s.toList).takeWhile Char.isDigit) < 2 ^ 64 :=
        Nat.lt_of_le_of_lt (Nat.le_mul_of_pos_right _ hunit.pos) hsmall
      rw [hunit.unit?_eq]
      dsimp only
      rw [if_neg (not_or.mpr ⟨hsome, Nat.not_le.mpr hnumber⟩), if_neg (Nat.not_le.mpr hsmall)]
  · intro m n hm hn
    obtain ⟨unit, hunit, -, rfl⟩ := hm.parts_trim
    obtain ⟨unit', hunit', -, rfl⟩ := hn.parts_trim
    have hsame : unit = unit' := Option.some.inj (hunit.unit?_eq.symm.trans hunit'.unit?_eq)
    rw [hsame]

/-- Blanks around the number and its unit; and the largest number of bytes that a unit of them
    takes beyond a word. -/
theorem sizeOfText_eq_ok_iff_mebi :
    sizeOfText " 02 M" = .ok (2 ^ 21) ∧ SizeSpelled "18446744073709551615K".toList
      (18446744073709551615 * 2 ^ 10) ∧ ∀ n, sizeOfText "18446744073709551615K" ≠ .ok n := by
  have hmebi : SizeSpelled " 02 M".toList (2 ^ 21) :=
    @SizeSpelled.parts [' '] ['0', '2'] [' '] _ [] _ (by decide) (by decide)
      (List.all_eq_true.mp (by decide)) (by decide) .mebi nofun
  have hlarge : SizeSpelled "18446744073709551615K".toList (18446744073709551615 * 2 ^ 10) :=
    @SizeSpelled.parts [] "18446744073709551615".toList [] _ [] _ nofun (by decide)
      (List.all_eq_true.mp (by decide)) nofun .kibi nofun
  refine ⟨((sizeOfText_eq_ok_iff _).1 _).mpr ⟨hmebi, by decide⟩, hlarge, ?_⟩
  intro n h
  obtain ⟨hspelled, hsmall⟩ := ((sizeOfText_eq_ok_iff _).1 n).mp h
  rw [(sizeOfText_eq_ok_iff _).2 _ _ hspelled hlarge] at hsmall
  exact absurd hsmall (by decide)

end SlotVerify.CommandLine
