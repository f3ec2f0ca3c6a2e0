import Mathlib.Data.List.TakeWhile
import SlotVerify.Proofs.JsonText.Grammar
/-
  Reading white space, strings, numbers and words.

  For each of them two facts.

  1. **Completeness.**  In front of a spelling, the reader takes the spelling and leaves the rest
     (`readString_spelled`, `readNumber_spelled`, `readWord_append`).  A number ends only where the
     text does not go on with it (`Stops`).
  2. **Soundness.**  What was read without a problem was a spelling (`readString_sound`,
     `readNumber_sound`, `readWord_sound`).
-/

namespace SlotVerify.JsonText

/-! ## White space -/

@[simp] theorem skipSpace_blank {w : Text} (hw : Blank w) (s : Text) :
    skipSpace (w ++ s) = skipSpace s :=
  List.dropWhile_append_of_pos hw

theorem skipSpace_cons {b : UInt8} (hb : isSpace b = false) (s : Text) :
    skipSpace (b :: s) = b :: s :=
  List.dropWhile_cons_of_neg (by simp [hb])

/-- What is skipped is white space. -/
theorem blank_skipped (s : Text) : ∃ w, Blank w ∧ s = w ++ skipSpace s :=
  ⟨s.takeWhile isSpace, fun _ hb => List.mem_takeWhile_imp hb,
    List.takeWhile_append_dropWhile.symm⟩

theorem blank_of_skipSpace {s : Text} (h : skipSpace s = []) : Blank s := by
  obtain ⟨w, hw, hs⟩ := blank_skipped s
  rw [h, List.append_nil] at hs
  exact hs ▸ hw

theorem skipSpace_of_blank {s : Text} (h : Blank s) : skipSpace s = [] :=
  List.dropWhile_eq_nil_iff.mpr h

/-! ## Strings -/

theorem readString_piece {p : Piece} {s : Text} (h : p.Spelled s) (rest : Text) :
    readString (s ++ rest) = withPiece p (readString rest) := by
  cases h with
  | @plain b printable notQuote notBackslash =>
    rw [List.singleton_append, readString.eq_6, if_neg (by simpa using printable)]
    · exact notQuote
    · exact fun h _ => notBackslash h
    · exact fun _ _ _ _ _ h _ => notBackslash h
    · exact fun _ _ h _ => notBackslash h
  | @escape e b stands =>
    have hletter : e ≠ 0x75 := by
      rintro rfl
      cases stands
    show readString (0x5c :: e :: rest) = _
    rw [readString.eq_5, if_neg (by simpa using hletter), stands]
    exact fun _ _ _ _ _ h _ => hletter h
  | @unit a b c d u stands =>
    show readString (0x5c :: 0x75 :: a :: b :: c :: d :: rest) = _
    rw [readString, stands]

theorem readString_spelled {pieces : List Piece} {t : Text} (h : PiecesSpelled pieces t)
    (rest : Text) : readString (t ++ 0x22 :: rest) = (⟨pieces, none⟩, rest) := by
  induction h with
  | nil => rw [List.nil_append, readString]
  | cons head _ ih =>
    rw [List.append_assoc, readString_piece head, ih]
    rfl

/-- A string that was read to its closing quote was spelled by what has been read. -/
def StringSound (s : Text) (r : RawString × Text) : Prop :=
  r.1.problem = none → ∃ t, PiecesSpelled r.1.pieces t ∧ s = t ++ 0x22 :: r.2

theorem StringSound.withPiece {p : Piece} {head s : Text} {r : RawString × Text}
    (hp : p.Spelled head) (h : StringSound s r) : StringSound (head ++ s) (withPiece p r) := by
  intro hnone
  obtain ⟨t, ht, rfl⟩ := h hnone
  exact ⟨head ++ t, .cons hp ht, by rw [List.append_assoc]; rfl⟩

theorem StringSound.endString (s : Text) (p : Problem) : StringSound s (endString p) :=
  fun h => nomatch h

theorem readString_sound (s : Text) : StringSound s (readString s) := by
  fun_induction readString s with
  | case1 | case3 | case5 | case6 | case8 | case9 => exact .endString _ _
  | case2 rest => exact fun _ => ⟨[], .nil, rfl⟩
  | case4 a b c d rest u stands ih => exact .withPiece (.unit stands) ih
  | case7 e rest _ _ b stands ih => exact .withPiece (.escape stands) ih
  | case10 b rest notQuote notLast _ notBackslash printable ih =>
    refine .withPiece (.plain (by simpa using printable) notQuote ?_) ih
    rintro rfl
    cases rest with
    | nil => exact notLast rfl rfl
    | cons e rest => exact notBackslash e rest rfl rfl

/-- The same for a string with its quotes, of which the first has been read. -/
theorem readString_quoted {s : Text} {name : RawString} {rest : Text}
    (h : readString s = (name, rest)) (hproblem : name.problem = none) :
    ∃ t, name.Spelled (0x22 :: t) ∧ s = t ++ rest := by
  have hsound := readString_sound s
  rw [h] at hsound
  obtain ⟨t, ht, rfl⟩ := hsound hproblem
  refine ⟨t ++ [0x22], ?_, by simp⟩
  cases name
  cases hproblem
  exact .quoted ht

/-! ## Numbers -/

/-- The text does not go on with a number. -/
def Stops (s : Text) : Prop :=
  ∀ b, s.head? = some b → isDigit b = false ∧ b ≠ 0x2e ∧ ¬IsExponentSign b

theorem stops_nil : Stops [] := by simp [Stops]

theorem stops_cons {b : UInt8} (h : isDigit b = false ∧ b ≠ 0x2e ∧ ¬IsExponentSign b) (s : Text) :
    Stops (b :: s) := by
  intro c hc
  obtain rfl : b = c := by simpa using hc
  exact h

theorem takeWhile_digits {ds s : Text} (hd : ∀ b ∈ ds, isDigit b = true)
    (hs : ∀ b, s.head? = some b → isDigit b = false) : (ds ++ s).takeWhile isDigit = ds := by
  rw [List.takeWhile_append_of_pos hd]
  cases s with
  | nil => simp
  | cons b s => simp [hs b rfl]

theorem dropWhile_digits {ds s : Text} (hd : ∀ b ∈ ds, isDigit b = true)
    (hs : ∀ b, s.head? = some b → isDigit b = false) : (ds ++ s).dropWhile isDigit = s := by
  rw [List.dropWhile_append_of_pos hd]
  cases s with
  | nil => rfl
  | cons b s => simp [hs b rfl]

/-- Reads the digits of an exponent whose letter and sign have been read. -/
theorem readExponent_digits {n : RawNumber} {e : UInt8} {s digits rest : Text} {negative : Bool}
    (he : IsExponentSign e) (hsign : (s.head? == some 0x2d) = negative)
    (htail : (if negative || s.head? == some 0x2b then s.tail else s) = digits ++ rest)
    (hd : Digits digits) (hrest : ∀ b, rest.head? = some b → isDigit b = false) :
    readExponent n (e :: s) = (.number { n with exponent := some (negative, digits) }, rest) := by
  have hletter : (e == 0x65 || e == 0x45) = true := by simpa [IsExponentSign] using he
  simp only [readExponent, hletter, hsign, htail, takeWhile_digits hd.2 hrest,
    dropWhile_digits hd.2 hrest, if_true]
  rw [if_neg (by simpa using hd.1)]

theorem readExponent_spelled {n : RawNumber} {e : Option (Bool × Text)} {t rest : Text}
    (h : ExponentSpelled e t) (hstop : Stops rest) (hnone : n.exponent = none) :
    readExponent n (t ++ rest) = (.number { n with exponent := e }, rest) := by
  have hrest : ∀ b, rest.head? = some b → isDigit b = false := fun b hb => (hstop b hb).1
  cases h with
  | absent =>
    rw [List.nil_append, show { n with exponent := none } = n by rw [← hnone]]
    cases rest with
    | nil => rfl
    | cons b rest =>
      rw [readExponent, if_neg (by simpa [IsExponentSign] using (hstop b rfl).2.2)]
  | @unsigned _ digits he hd =>
    obtain ⟨d, ds, rfl⟩ := List.exists_cons_of_ne_nil hd.1
    have hdigit : isDigit d = true := hd.2 d List.mem_cons_self
    have hminus : d ≠ 0x2d := by
      rintro rfl
      cases hdigit
    have hplus : d ≠ 0x2b := by
      rintro rfl
      cases hdigit
    exact readExponent_digits he (by simpa using hminus) (by simp [hplus]) hd hrest
  | plus he hd => exact readExponent_digits he (by rfl) (by rfl) hd hrest
  | minus he hd => exact readExponent_digits he (by rfl) (by rfl) hd hrest

theorem readFraction_spelled {n : RawNumber} {f : Option Text} {t s : Text}
    (h : FractionSpelled f t) (hs : ∀ b, s.head? = some b → isDigit b = false ∧ b ≠ 0x2e)
    (hnone : n.fraction = none) :
    readFraction n (t ++ s) = readExponent { n with fraction := f } s := by
  cases h with
  | absent =>
    rw [List.nil_append, show { n with fraction := none } = n by rw [← hnone]]
    cases s with
    | nil => rfl
    | cons b s => rw [readFraction, if_neg (by simpa using (hs b rfl).2)]
  | @present digits hd =>
    have hdigit : ∀ b, s.head? = some b → isDigit b = false := fun b hb => (hs b hb).1
    rw [List.cons_append, readFraction, if_pos (by rfl), takeWhile_digits hd.2 hdigit,
      dropWhile_digits hd.2 hdigit, if_neg (by simpa using hd.1)]

theorem ExponentSpelled.stops {e : Option (Bool × Text)} {t rest : Text}
    (h : ExponentSpelled e t) (hstop : Stops rest) (b : UInt8) (hb : (t ++ rest).head? = some b) :
    isDigit b = false ∧ b ≠ 0x2e := by
  have hletter : ∀ {l s}, IsExponentSign l → (l :: s : Text).head? = some b →
      isDigit b = false ∧ b ≠ 0x2e := by
    rintro l s hl hs
    obtain rfl : l = b := by simpa using hs
    obtain rfl | rfl := hl <;> decide
  cases h with
  | absent => exact ⟨(hstop b hb).1, (hstop b hb).2.1⟩
  | unsigned he | plus he | minus he => exact hletter he hb

theorem FractionSpelled.stops {f : Option Text} {t s : Text} (h : FractionSpelled f t)
    (hs : ∀ b, s.head? = some b → isDigit b = false ∧ b ≠ 0x2e) (b : UInt8)
    (hb : (t ++ s).head? = some b) : isDigit b = false := by
  cases h with
  | absent => exact (hs b hb).1
  | present =>
    obtain rfl : 0x2e = b := by simpa using hb
    rfl

theorem readNumber_spelled {n : RawNumber} {t rest : Text} (h : n.Unsigned t)
    (hstop : Stops rest) : readNumber n.negative (t ++ rest) = (.number n, rest) := by
  obtain ⟨hwhole, hzero, hf, he⟩ := h
  rename_i f e
  have hexponent := he.stops hstop
  have hfraction := hf.stops hexponent
  obtain ⟨d, ds, hds⟩ := List.exists_cons_of_ne_nil hwhole.1
  have hlead : (d == 0x30 && !ds.isEmpty) = false := by
    by_cases hd : d = 0x30
    · have := hzero (by rw [hds, hd]; rfl)
      rw [hds] at this
      simp_all
    · simp [hd]
  rw [List.append_assoc, List.append_assoc, readNumber, takeWhile_digits hwhole.2 hfraction,
    dropWhile_digits hwhole.2 hfraction, hds]
  simp only [hlead, Bool.false_eq_true, if_false]
  rw [readFraction_spelled hf hexponent rfl, readExponent_spelled he hstop rfl, ← hds]

theorem endNumber_skip (s : Text) : (endNumber s).1.skip ≠ none := by
  rw [endNumber]
  split <;> simp [Value.skip]

/-- The digits in front, if there are any. -/
theorem digits_takeWhile {s : Text} (h : (s.takeWhile isDigit).isEmpty = false) :
    Digits (s.takeWhile isDigit) ∧ s = s.takeWhile isDigit ++ s.dropWhile isDigit :=
  ⟨⟨by simpa using h, fun _ hb => List.mem_takeWhile_imp hb⟩,
    List.takeWhile_append_dropWhile.symm⟩

/-- The sign between the letter of an exponent and its digits. -/
theorem exponentSign_cases (s : Text) :
    ∃ sign, s = sign ++ (if s.head? == some 0x2d || s.head? == some 0x2b then s.tail else s) ∧
      ∀ {e digits}, IsExponentSign e → Digits digits →
        ExponentSpelled (some (s.head? == some 0x2d, digits)) (e :: (sign ++ digits)) := by
  cases s with
  | nil => exact ⟨[], rfl, fun he hd => .unsigned he hd⟩
  | cons b s =>
    by_cases hminus : b = 0x2d
    · subst hminus
      exact ⟨[0x2d], rfl, fun he hd => .minus he hd⟩
    by_cases hplus : b = 0x2b
    · subst hplus
      exact ⟨[0x2b], rfl, fun he hd => .plus he hd⟩
    have hsign : ((b :: s).head? == some 0x2d) = false := by simpa using hminus
    refine ⟨[], by simp [hminus, hplus], fun he hd => ?_⟩
    rw [hsign]
    exact .unsigned he hd

theorem readExponent_sound {n : RawNumber} {s : Text} (hnone : n.exponent = none)
    (h : (readExponent n s).1.skip = none) :
    ∃ e t, (readExponent n s).1 = .number { n with exponent := e } ∧ ExponentSpelled e t ∧
      s = t ++ (readExponent n s).2 := by
  have habsent : n = { n with exponent := none } := by rw [← hnone]
  cases s with
  | nil => exact ⟨none, [], congrArg _ habsent, .absent, rfl⟩
  | cons e rest =>
    rw [readExponent] at h ⊢
    by_cases hletter : (e == 0x65 || e == 0x45) = true
    · have he : IsExponentSign e := by simpa [IsExponentSign] using hletter
      obtain ⟨sign, hrest, hspelled⟩ := exponentSign_cases rest
      simp only [hletter, if_true] at h ⊢
      -- the text behind the sign
      generalize (if rest.head? == some 0x2d || rest.head? == some 0x2b then rest.tail else rest)
        = s at h hrest ⊢
      by_cases hdigits : (s.takeWhile isDigit).isEmpty = true
      · rw [if_pos hdigits] at h
        exact absurd h (endNumber_skip s)
      · rw [if_neg hdigits]
        obtain ⟨hd, hsplit⟩ := digits_takeWhile (by simpa using hdigits)
        refine ⟨_, _, rfl, hspelled he hd, ?_⟩
        rw [List.cons_append, List.append_assoc, ← hsplit, ← hrest]
    · rw [if_neg hletter]
      exact ⟨none, [], congrArg _ habsent, .absent, rfl⟩

theorem readFraction_sound {n : RawNumber} {s : Text} (hf : n.fraction = none)
    (he : n.exponent = none) (h : (readFraction n s).1.skip = none) :
    ∃ f e t t', (readFraction n s).1 = .number { n with fraction := f, exponent := e } ∧
      FractionSpelled f t ∧ ExponentSpelled e t' ∧ s = t ++ (t' ++ (readFraction n s).2) := by
  have habsent : n = { n with fraction := none } := by rw [← hf]
  cases s with
  | nil =>
    refine ⟨none, none, [], [], ?_, .absent, .absent, rfl⟩
    rw [readFraction, ← hf, ← he]
  | cons p rest =>
    rw [readFraction] at h ⊢
    split at h
    · rename_i hp
      obtain rfl : p = 0x2e := by simpa using hp
      rw [if_pos hp]
      dsimp only at h ⊢
      split at h
      · exact absurd h (endNumber_skip _)
      · rename_i hdigits
        rw [if_neg hdigits]
        obtain ⟨hd, hsplit⟩ := digits_takeWhile (by simpa using hdigits)
        obtain ⟨e, t, hv, ht, hs⟩ := readExponent_sound (n := { n with fraction := some _ }) he h
        refine ⟨_, e, _, t, hv, .present hd, ht, ?_⟩
        rw [List.cons_append, ← hs, ← hsplit]
    · rename_i hp
      rw [if_neg hp]
      obtain ⟨e, t, hv, ht, hs⟩ := readExponent_sound he h
      exact ⟨none, e, [], t, by rw [hv, ← hf], .absent, ht, hs⟩

theorem readNumber_sound {negative : Bool} {s rest : Text} {v : Value}
    (h : readNumber negative s = (v, rest)) (hskip : v.skip = none) :
    ∃ n t, v = .number n ∧ n.negative = negative ∧ n.Unsigned t ∧ s = t ++ rest := by
  rw [readNumber] at h
  cases hds : s.takeWhile isDigit with
  | nil =>
    rw [hds] at h
    have hnone := endNumber_skip s
    rw [show endNumber s = (v, rest) from h] at hnone
    exact absurd hskip hnone
  | cons d digits =>
    simp only [hds] at h
    split at h
    · obtain ⟨rfl, -⟩ := Prod.mk.inj h
      cases hskip
    · rename_i hlead
      obtain ⟨hd, hsplit⟩ := digits_takeWhile (s := s) (by rw [hds]; rfl)
      rw [hds] at hd hsplit
      obtain ⟨f, e, t, t', hv, hf, he, hs⟩ := readFraction_sound
        (n := { negative, whole := d :: digits }) rfl rfl (by rw [h]; exact hskip)
      rw [h] at hv hs
      refine ⟨_, _, hv, rfl, .parts hd ?_ hf he, ?_⟩
      · intro hhead
        obtain rfl : d = 0x30 := by simpa using hhead
        obtain rfl : digits = [] := by simpa using hlead
        rfl
      · rw [List.append_assoc, List.append_assoc, ← hs]
        exact hsplit

/-! ## Words -/

theorem readWord_append (v : Value) (word s : Text) : readWord v word (word ++ s) = (v, s) := by
  induction word with
  | nil => rfl
  | cons w word ih => simp [readWord, ih]

theorem readWord_sound {v v' : Value} {word s rest : Text} (h : readWord v word s = (v', rest))
    (hskip : v'.skip = none) : v' = v ∧ s = word ++ rest := by
  induction word generalizing s with
  | nil =>
    obtain ⟨rfl, rfl⟩ := Prod.mk.inj h
    exact ⟨rfl, rfl⟩
  | cons w word ih =>
    cases s with
    | nil =>
      obtain ⟨rfl, -⟩ := Prod.mk.inj h
      cases hskip
    | cons b s =>
      rw [readWord] at h
      split at h
      · rename_i hb
        obtain rfl : w = b := by simpa using hb
        obtain ⟨hv, hs⟩ := ih h
        exact ⟨hv, congrArg _ hs⟩
      · obtain ⟨rfl, -⟩ := Prod.mk.inj h
        cases hskip

end SlotVerify.JsonText
