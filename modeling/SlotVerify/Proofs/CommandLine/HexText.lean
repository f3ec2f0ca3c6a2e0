import SlotVerify.Proofs.Bytes
import SlotVerify.Proofs.CommandLine.Sizes
/-
  The texts that are byte strings.

  1. **Digits** — a `HexDigit` is one of the sixteen digits in either case, with its value.  Pairs
     of digits are read into bytes exactly if the digits' values are the bytes' halves in order
     (`ofHexDigits?_eq_some_iff`), so nothing but an even number of digits is ever read.

  2. **Numbers** — as a number to the base 256 the bytes are what their halves are to the base 16
     (`placeValue_halves`), and a zero in front changes neither.  So a text of any number of digits
     is read as a byte string of that value (`exists_bytesOfText`).

  3. **Parity** — whether the digits are an odd number is found out before they are looked at.  It
     makes no difference that characters may take several bytes: a text in which one does is refused
     either way (`bytesOfText_eq_of_bytes`).
-/

namespace SlotVerify.CommandLine

open Text Bytes

/-- A digit to the base sixteen, in either case, and its value. -/
def HexDigit (c : Char) (v : Nat) : Prop :=
  v < 16 ∧ (c = v.digitChar ∨ c = v.digitChar.toUpper)

instance (c : Char) (v : Nat) : Decidable (HexDigit c v) :=
  inferInstanceAs (Decidable (v < 16 ∧ (c = v.digitChar ∨ c = v.digitChar.toUpper)))

/-- Digits and their values. -/
abbrev HexDigits (digits : List Char) (values : List Nat) : Prop :=
  List.Forall₂ HexDigit digits values

/-- The halves of bytes, each byte's high one first. -/
def halves (bytes : List UInt8) : List Nat := bytes.flatMap fun b => [b.toNat / 16, b.toNat % 16]

/-- Digits, completed by a zero in front where a count is odd. -/
def completed (count : Nat) (digits : List Char) : List Char :=
  if count % 2 = 0 then digits else '0' :: digits

/-! ## Digits -/

theorem hexValue?_ascii : ∀ n : Fin 128, ∀ v, hexValue? (Char.ofNat n) = some v →
    HexDigit (Char.ofNat n) v := by
  have hall : ∀ n : Fin 128, (hexValue? (Char.ofNat n)).all fun v =>
      decide (HexDigit (Char.ofNat n) v) := by decide
  intro n v h
  have hn := hall n
  rw [h] at hn
  simpa using hn

theorem hexValue?_digitChar : ∀ v : Fin 16, hexValue? (v : Nat).digitChar = some v ∧
    hexValue? (v : Nat).digitChar.toUpper = some v := by decide

/-- The digits are those that have a value. -/
theorem hexValue?_eq_some_iff {c : Char} {v : Nat} : hexValue? c = some v ↔ HexDigit c v := by
  constructor
  · intro h
    have hascii : c.toNat < 128 := by
      unfold hexValue? at h
      simp only [Char.le_def, UInt32.le_iff_toNat_le] at h
      change c.val.toNat < 128
      split at h
      · rename_i hdigit
        exact Nat.lt_of_le_of_lt hdigit.2 (by decide)
      · split at h
        · rename_i hlower
          exact Nat.lt_of_le_of_lt hlower.2 (by decide)
        · split at h
          · rename_i hupper
            exact Nat.lt_of_le_of_lt hupper.2 (by decide)
          · cases h
    have hc := hexValue?_ascii ⟨c.toNat, hascii⟩ v
    rw [Char.ofNat_toNat] at hc
    exact hc h
  · rintro ⟨hv, rfl | rfl⟩
    · exact (hexValue?_digitChar ⟨v, hv⟩).1
    · exact (hexValue?_digitChar ⟨v, hv⟩).2

theorem HexDigit.unblank {c : Char} {v : Nat} (h : HexDigit c v) : isBlank c = false := by
  have hall : ∀ v : Fin 16, isBlank (v : Nat).digitChar = false ∧
      isBlank (v : Nat).digitChar.toUpper = false := by decide
  obtain ⟨hv, rfl | rfl⟩ := h
  · exact (hall ⟨v, hv⟩).1
  · exact (hall ⟨v, hv⟩).2

theorem HexDigits.unblank {digits : List Char} {values : List Nat} (h : HexDigits digits values) :
    Unblank digits := by
  induction h with
  | nil => exact nofun
  | cons hc _ ih => exact List.forall_mem_cons.mpr ⟨hc.unblank, ih⟩

theorem HexDigits.lt {digits : List Char} {values : List Nat} (h : HexDigits digits values) :
    ∀ v ∈ values, v < 16 := by
  induction h with
  | nil => exact nofun
  | cons hc _ ih => exact List.forall_mem_cons.mpr ⟨hc.1, ih⟩

/-- Pairs of digits are read into bytes, and nothing else is. -/
theorem ofHexDigits?_eq_some_iff (digits : List Char) (bytes : List UInt8) :
    ofHexDigits? digits = some bytes ↔ HexDigits digits (halves bytes) := by
  induction digits using ofHexDigits?.induct generalizing bytes with
  | case1 =>
    cases bytes with
    | nil => simp [ofHexDigits?, halves]
    | cons b bytes => simp [ofHexDigits?, halves]
  | case2 c =>
    cases bytes with
    | nil => simp [ofHexDigits?, halves]
    | cons b bytes => simp [ofHexDigits?, halves]
  | case3 hi lo rest ih =>
    have hread : ofHexDigits? (hi :: lo :: rest) = some bytes ↔
        ∃ h l rest', hexValue? hi = some h ∧ hexValue? lo = some l ∧
          ofHexDigits? rest = some rest' ∧ bytes = UInt8.ofNat (16 * h + l) :: rest' := by
      simp only [ofHexDigits?, Option.bind_eq_bind, Option.bind_eq_some_iff, Option.pure_def,
        Option.some.injEq]
      constructor
      · rintro ⟨h, hh, l, hl, rest', hrest, rfl⟩
        exact ⟨h, l, rest', hh, hl, hrest, rfl⟩
      · rintro ⟨h, l, rest', hh, hl, hrest, rfl⟩
        exact ⟨h, hh, l, hl, rest', hrest, rfl⟩
    rw [hread]
    constructor
    · rintro ⟨h, l, rest', hh, hl, hrest, rfl⟩
      have hh' := hexValue?_eq_some_iff.mp hh
      have hl' := hexValue?_eq_some_iff.mp hl
      have hbyte : (UInt8.ofNat (16 * h + l)).toNat = 16 * h + l := by
        rw [UInt8.toNat_ofNat', Nat.mod_eq_of_lt]
        have := hh'.1
        have := hl'.1
        omega
      have hhigh : (16 * h + l) / 16 = h := by
        have := hl'.1
        omega
      have hlow : (16 * h + l) % 16 = l := by
        have := hl'.1
        omega
      refine List.Forall₂.cons ?_ (List.Forall₂.cons ?_ ((ih rest').mp hrest))
      · rw [hbyte, hhigh]
        exact hh'
      · rw [hbyte, hlow]
        exact hl'
    · intro hdigits
      cases bytes with
      | nil => cases hdigits
      | cons b bytes =>
        obtain _ | ⟨hhi, hdigits⟩ := hdigits
        obtain _ | ⟨hlo, hdigits⟩ := hdigits
        refine ⟨_, _, bytes, hexValue?_eq_some_iff.mpr hhi, hexValue?_eq_some_iff.mpr hlo,
          (ih bytes).mpr hdigits, ?_⟩
        rw [Nat.div_add_mod, UInt8.ofNat_toNat]

/-! ## Numbers -/

theorem length_halves (bytes : List UInt8) : (halves bytes).length = 2 * bytes.length := by
  induction bytes with
  | nil => rfl
  | cons b bytes ih =>
    show (halves bytes).length + 2 = _
    rw [ih, List.length_cons]
    omega

/-- A number can be read off the halves of its bytes. -/
theorem placeValue_halves (bytes : List UInt8) :
    placeValue 16 (halves bytes) = placeValue 256 (bytes.map UInt8.toNat) := by
  induction bytes with
  | nil => rfl
  | cons b bytes ih =>
    show placeValue 16 (b.toNat / 16 :: b.toNat % 16 :: halves bytes) = _
    have hpower : 16 ^ (halves bytes).length = 256 ^ bytes.length := by
      rw [length_halves, Nat.pow_mul]
    rw [placeValue_cons, placeValue_cons, List.map_cons, placeValue_cons, ih, List.length_map,
      List.length_cons, Nat.pow_succ, hpower]
    have hbyte := Nat.div_add_mod b.toNat 16
    calc placeValue 256 (bytes.map UInt8.toNat) + 256 ^ bytes.length * (b.toNat % 16) +
          256 ^ bytes.length * 16 * (b.toNat / 16)
        = placeValue 256 (bytes.map UInt8.toNat) +
            256 ^ bytes.length * (16 * (b.toNat / 16) + b.toNat % 16) := by ring
      _ = _ := by rw [hbyte]

/-- Any halves of bytes, an even number of them, are the halves of some bytes. -/
theorem exists_halves_eq : ∀ values : List Nat, (∀ v ∈ values, v < 16) →
    values.length % 2 = 0 → ∃ bytes, halves bytes = values
  | [], _, _ => ⟨[], rfl⟩
  | [_], _, heven => by cases heven
  | h :: l :: values, hsmall, heven => by
    obtain ⟨hh, hsmall⟩ := List.forall_mem_cons.mp hsmall
    obtain ⟨hl, hsmall⟩ := List.forall_mem_cons.mp hsmall
    have hrest : values.length % 2 = 0 := by
      rw [List.length_cons, List.length_cons] at heven
      omega
    obtain ⟨bytes, rfl⟩ := exists_halves_eq values hsmall hrest
    refine ⟨UInt8.ofNat (16 * h + l) :: bytes, ?_⟩
    show (UInt8.ofNat (16 * h + l)).toNat / 16 :: (UInt8.ofNat (16 * h + l)).toNat % 16 ::
      halves bytes = _
    rw [UInt8.toNat_ofNat', Nat.mod_eq_of_lt (by omega), show (16 * h + l) / 16 = h by omega,
      show (16 * h + l) % 16 = l by omega]

/-! ## Texts -/

variable {s : String} {digits : List Char} {values : List Nat}

theorem hexDigit_zero : HexDigit '0' 0 := by decide

/-- A zero in front leaves the number alone and makes the digits an even number. -/
theorem HexDigits.completed (h : HexDigits digits values) :
    ∃ values', HexDigits (completed digits.length digits) values' ∧
      placeValue 16 values' = placeValue 16 values ∧
      values'.length = 2 * ((digits.length + 1) / 2) := by
  have hlength := h.length_eq
  unfold CommandLine.completed
  split
  · exact ⟨values, h, rfl, by omega⟩
  · refine ⟨0 :: values, List.Forall₂.cons hexDigit_zero h, ?_, ?_⟩
    · rw [placeValue_cons, Nat.mul_zero, Nat.add_zero]
    · rw [List.length_cons]
      omega

theorem hexDigits_of_completed {count : Nat} (h : HexDigits (completed count digits) values) :
    ∃ values', HexDigits digits values' := by
  unfold completed at h
  split at h
  · exact ⟨values, h⟩
  · obtain _ | ⟨-, h⟩ := h
    exact ⟨_, h⟩

theorem bytesOfText_eq_ok_iff {b : ByteArray} :
    bytesOfText s = .ok b ↔ ∃ bytes, b = bytes.toByteArray ∧
      HexDigits (completed (trim s.toList).length (trim s.toList)) (halves bytes) := by
  unfold bytesOfText
  simp only [← ofHexDigits?_eq_some_iff]
  rw [← completed]
  cases ofHexDigits? (completed (trim s.toList).length (trim s.toList)) with
  | some bytes =>
    constructor
    · intro h
      cases h
      exact ⟨bytes, rfl, rfl⟩
    · rintro ⟨bytes', rfl, h⟩
      cases h
      rfl
  | none =>
    constructor
    · intro h
      cases h
    · rintro ⟨bytes, -, h⟩
      cases h

/-- Digits in a text, however many, are read as a byte string of their value. -/
theorem exists_bytesOfText (henclosed : Encloses s.toList digits)
    (hdigits : HexDigits digits values) :
    ∃ b, bytesOfText s = .ok b ∧ b.size = (digits.length + 1) / 2 ∧
      placeValue 256 (b.data.toList.map UInt8.toNat) = placeValue 16 values := by
  have htrim : trim s.toList = digits := henclosed.trim_eq.trans hdigits.unblank.trim_eq
  obtain ⟨values', hcompleted, hvalue, hlength⟩ := hdigits.completed
  obtain ⟨bytes, rfl⟩ := exists_halves_eq values' hcompleted.lt (by omega)
  refine ⟨bytes.toByteArray, ?_, ?_, ?_⟩
  · rw [bytesOfText_eq_ok_iff, htrim]
    exact ⟨bytes, rfl, hcompleted⟩
  · rw [length_halves] at hlength
    rw [List.size_toByteArray]
    omega
  · rw [List.data_toByteArray, List.toList_toArray, ← placeValue_halves, hvalue]

/-- A text that is read consists of digits. -/
theorem exists_hexDigits_of_bytesOfText {b : ByteArray} (h : bytesOfText s = .ok b) :
    ∃ values, HexDigits (trim s.toList) values := by
  obtain ⟨bytes, -, hdigits⟩ := bytesOfText_eq_ok_iff.mp h
  exact hexDigits_of_completed hdigits

/-- A text without other characters than digits is as many bytes long as it has characters. -/
theorem HexDigits.size_utf8Encode (h : HexDigits digits values) :
    digits.utf8Encode.size = digits.length := by
  have hsmall : ∀ v : Fin 16, (String.utf8EncodeChar (v : Nat).digitChar).length = 1 ∧
      (String.utf8EncodeChar (v : Nat).digitChar.toUpper).length = 1 := by decide
  unfold List.utf8Encode
  rw [List.size_toByteArray]
  induction h with
  | nil => rfl
  | cons hc _ ih =>
    rw [List.flatMap_cons, List.length_append, ih, List.length_cons, Nat.add_comm]
    obtain ⟨hv, rfl | rfl⟩ := hc
    · rw [(hsmall ⟨_, hv⟩).1]
    · rw [(hsmall ⟨_, hv⟩).2]

/-- The parity may as well be that of the text's length in bytes. -/
theorem ofHexDigits?_completed (digits : List Char) :
    ofHexDigits? (completed digits.utf8Encode.size digits) =
      ofHexDigits? (completed digits.length digits) := by
  by_cases hdigits : ∃ values, HexDigits digits values
  · obtain ⟨values, h⟩ := hdigits
    rw [h.size_utf8Encode]
  · have hnone : ∀ count, ofHexDigits? (completed count digits) = none := by
      intro count
      rw [Option.eq_none_iff_forall_ne_some]
      intro bytes h
      rw [ofHexDigits?_eq_some_iff] at h
      exact hdigits (hexDigits_of_completed h)
    rw [hnone, hnone]

/-- A text is read exactly if it is digits with blanks around them, none at all or any number of
    them, and then as the bytes whose number is that of the digits, two digits to a byte.  So the
    digits of any byte string, each in either case, give the byte string back.  Whether a zero has
    to be put in front may be told by the text's length in bytes as well. -/
theorem bytesOfText_of_digits (s : String) :
    ((∃ b, bytesOfText s = .ok b) ↔
      ∃ digits values, Encloses s.toList digits ∧ HexDigits digits values) ∧
    (∀ digits values, Encloses s.toList digits → HexDigits digits values →
      ∃ b, bytesOfText s = .ok b ∧ b.size = (digits.length + 1) / 2 ∧
        placeValue 256 (b.data.toList.map UInt8.toNat) = placeValue 16 values) ∧
    (∀ (b : ByteArray) digits, Encloses s.toList digits →
      HexDigits digits (halves b.data.toList) → bytesOfText s = .ok b) ∧
    bytesOfText s =
      match ofHexDigits? (completed (trim s.toList).utf8Encode.size (trim s.toList)) with
      | some bytes => .ok bytes.toByteArray
      | none => .error .invalidHexDigit := by
  refine ⟨⟨?_, ?_⟩, ?_, ?_, ?_⟩
  · rintro ⟨b, h⟩
    obtain ⟨values, hdigits⟩ := exists_hexDigits_of_bytesOfText h
    exact ⟨trim s.toList, values, encloses_trim _, hdigits⟩
  · rintro ⟨digits, values, henclosed, hdigits⟩
    obtain ⟨b, h, -⟩ := exists_bytesOfText henclosed hdigits
    exact ⟨b, h⟩
  · intro digits values henclosed hdigits
    exact exists_bytesOfText henclosed hdigits
  · intro b digits henclosed hdigits
    have htrim : trim s.toList = digits := henclosed.trim_eq.trans hdigits.unblank.trim_eq
    have heven : completed digits.length digits = digits := by
      unfold completed
      rw [if_pos]
      rw [hdigits.length_eq, length_halves]
      omega
    rw [bytesOfText_eq_ok_iff, htrim, heven]
    exact ⟨b.data.toList, (toByteArray_toList b).symm, hdigits⟩
  · rw [ofHexDigits?_completed]
    rfl

/-- Three digits in mixed cases, with a blank behind them, are two bytes; four are just
    themselves. -/
theorem bytesOfText_of_digits_mixed :
    (∃ b, bytesOfText "aBc " = .ok b ∧ b.size = 2 ∧
      placeValue 256 (b.data.toList.map UInt8.toNat) = 0xabc) ∧
    bytesOfText "aB01" = .ok [0xab, 0x01].toByteArray := by
  have henclosed : Encloses "aBc ".toList ['a', 'B', 'c'] :=
    ⟨[], [' '], rfl, nofun, by decide⟩
  have hdigits : HexDigits ['a', 'B', 'c'] [10, 11, 12] :=
    .cons (by decide) (.cons (by decide) (.cons (by decide) .nil))
  have hhalves : HexDigits ['a', 'B', '0', '1'] (halves [0xab, 0x01]) :=
    .cons (by decide) (.cons (by decide) (.cons (by decide) (.cons (by decide) .nil)))
  obtain ⟨-, hnumber, -⟩ := bytesOfText_of_digits "aBc "
  obtain ⟨-, -, hbytes, -⟩ := bytesOfText_of_digits "aB01"
  refine ⟨hnumber _ _ henclosed hdigits, hbytes _ ['a', 'B', '0', '1'] ?_ ?_⟩
  · exact ⟨[], [], rfl, nofun, nofun⟩
  · simpa using hhalves

end SlotVerify.CommandLine
