import SlotVerify.JsonText.Writer
import SlotVerify.Proofs.Bytes
import SlotVerify.Proofs.JsonText.Records
/-
  Strings and numbers as they are written.

  1. **Strings.**  Each character is written as something that spells pieces which stand for the
     character's bytes (`Stands`), in one of three ways: by itself, by a letter behind a backslash,
     or by its number.  The crux is that no byte of a character beyond ASCII can be taken for a
     quote, a backslash or a control character (`utf8EncodeChar_cases`).
  2. **Numbers.**  The decimal digits have no zero in front and give the number back, by the
     recursion that takes the last digit off (`decimal_toDigits`).
-/

namespace SlotVerify.JsonText

/-! ## Bytes of a text -/

/-- The UTF-8 bytes of a text. -/
def bytes (s : String) : Text := s.toUTF8.data.toList

@[simp] theorem bytes_append (s t : String) : bytes (s ++ t) = bytes s ++ bytes t := by
  simp [bytes, String.toByteArray_append]

theorem bytes_eq (s : String) : bytes s = s.toList.flatMap String.utf8EncodeChar := by
  rw [bytes, String.toUTF8_eq_toByteArray, ← String.utf8Encode_toList, List.utf8Encode,
    List.data_toByteArray]

theorem bytes_toString (c : Char) : bytes c.toString = String.utf8EncodeChar c := by
  rw [bytes_eq, Char.toString_eq_singleton, String.toList_singleton, List.flatMap_singleton]

/-- A text comes back from its bytes. -/
theorem fromUTF8?_bytes (s : String) : String.fromUTF8? (bytes s).toByteArray = some s := by
  have hvalid : s.toUTF8.IsValidUTF8 := s.isValidUTF8
  rw [bytes, Bytes.toByteArray_toList, String.fromUTF8?, dif_pos hvalid]
  rfl

/-- A character is one ASCII byte, or none of its bytes is ASCII. -/
theorem utf8EncodeChar_cases (c : Char) :
    (c.toNat < 0x80 ∧ String.utf8EncodeChar c = [UInt8.ofNat c.toNat]) ∨
      (0x80 ≤ c.toNat ∧ ∀ b ∈ String.utf8EncodeChar c, 0x80 ≤ b) := by
  have hval : c.val.toNat = c.toNat := rfl
  rw [String.utf8EncodeChar.eq_1, hval]
  split
  · exact .inl ⟨by omega, rfl⟩
  · refine .inr ⟨by omega, ?_⟩
    split
    · simp [UInt8.le_iff_toNat_le]
      omega
    split
    · simp [UInt8.le_iff_toNat_le]
      omega
    · simp [UInt8.le_iff_toNat_le]
      omega

/-! ## Strings -/

/-- Pieces of a string that stand for a character, and how they are written. -/
structure Stands (c : Char) (pieces : List Piece) (t : Text) : Prop where
  spelled : PiecesSpelled pieces t
  bytes : ∀ rest, pieceBytes none (pieces ++ rest) =
    (pieceBytes none rest).map (String.utf8EncodeChar c ++ ·)

theorem pieceBytes_bytes (bs : List UInt8) (rest : List Piece) :
    pieceBytes none (bs.map .byte ++ rest) = (pieceBytes none rest).map (bs ++ ·) := by
  induction bs with
  | nil => cases h : pieceBytes none rest <;> simp [h, Except.map]
  | cons b bs ih =>
    rw [List.map_cons, List.cons_append, pieceBytes, ih]
    cases pieceBytes none rest <;> rfl

theorem pieceBytes_unit {u : Nat} (hhigh : isHighHalf u = false) (hlow : isLowHalf u = false)
    (rest : List Piece) :
    pieceBytes none (.unit u :: rest) = (pieceBytes none rest).map (utf8 u ++ ·) := by
  cases rest with
  | nil => simp [pieceBytes, hhigh, hlow]
  | cons p rest =>
    cases p with
    | byte b =>
      simp only [pieceBytes, hhigh, hlow, Bool.or_false, Bool.false_eq_true, if_false]
      cases pieceBytes none rest <;> rfl
    | unit => simp [pieceBytes, hhigh, hlow]

/-- A character with a letter, behind a backslash. -/
theorem stands_escape {c : Char} {e : UInt8}
    (hascii : String.utf8EncodeChar c = [UInt8.ofNat c.toNat])
    (hletter : escaped? e = some (UInt8.ofNat c.toNat)) :
    Stands c [.byte (UInt8.ofNat c.toNat)] [0x5c, e] where
  spelled := .cons (.escape hletter) .nil
  bytes rest := by
    rw [hascii]
    exact pieceBytes_bytes [_] rest

theorem spelled_bytes {bs : List UInt8} (h : ∀ b ∈ bs, 0x20 ≤ b ∧ b ≠ 0x22 ∧ b ≠ 0x5c) :
    PiecesSpelled (bs.map .byte) bs := by
  induction bs with
  | nil => exact .nil
  | cons b bs ih =>
    rw [List.forall_mem_cons] at h
    obtain ⟨⟨printable, notQuote, notBackslash⟩, hrest⟩ := h
    exact .cons (.plain printable notQuote notBackslash) (ih hrest)

/-- A character by itself. -/
theorem stands_plain {c : Char} (hprintable : 0x20 ≤ c.toNat) (hquote : c ≠ '"')
    (hbackslash : c ≠ '\\') :
    Stands c ((String.utf8EncodeChar c).map .byte) (String.utf8EncodeChar c) where
  spelled := by
    refine spelled_bytes fun b hb => ?_
    simp only [UInt8.le_iff_toNat_le, ne_eq, ← UInt8.toNat_inj]
    obtain ⟨hascii, hbytes⟩ | ⟨_, hbytes⟩ := utf8EncodeChar_cases c
    · obtain rfl : b = UInt8.ofNat c.toNat := by simpa [hbytes] using hb
      have hquote' : c.toNat ≠ 0x22 := fun h => hquote (Char.toNat_inj.mp h)
      have hbackslash' : c.toNat ≠ 0x5c := fun h => hbackslash (Char.toNat_inj.mp h)
      have hbyte : (UInt8.ofNat c.toNat).toNat = c.toNat := by
        rw [UInt8.toNat_ofNat']
        omega
      rw [hbyte]
      exact ⟨hprintable, hquote', hbackslash'⟩
    · have hhigh := UInt8.le_iff_toNat_le.mp (hbytes b hb)
      change 0x80 ≤ b.toNat at hhigh
      change 0x20 ≤ b.toNat ∧ ¬b.toNat = 0x22 ∧ ¬b.toNat = 0x5c
      omega
  bytes rest := pieceBytes_bytes _ rest

theorem utf8EncodeChar_hexDigit :
    ∀ n < 16, String.utf8EncodeChar (hexDigit n) = [UInt8.ofNat (hexDigit n).toNat] := by
  decide

theorem hexUnit?_control : ∀ n < 32,
    hexUnit? 0x30 0x30 (UInt8.ofNat (hexDigit (n / 16)).toNat)
      (UInt8.ofNat (hexDigit (n % 16)).toNat) = some n := by
  decide

/-- A control character by its number. -/
theorem stands_control {c : Char} (hcontrol : c.toNat < 0x20) :
    Stands c [.unit c.toNat] (bytes ("\\u00" ++ ((hexDigit (c.toNat / 16)).toString ++
      (hexDigit (c.toNat % 16)).toString))) where
  spelled := by
    rw [bytes_append, bytes_append, bytes_toString, bytes_toString,
      utf8EncodeChar_hexDigit _ (by omega), utf8EncodeChar_hexDigit _ (by omega)]
    have hspelled := PiecesSpelled.cons (.unit (hexUnit?_control c.toNat hcontrol)) .nil
    exact hspelled
  bytes rest := by
    have hhigh : isHighHalf c.toNat = false := by simp [isHighHalf]; omega
    have hlow : isLowHalf c.toNat = false := by simp [isLowHalf]; omega
    rw [List.singleton_append, pieceBytes_unit hhigh hlow, utf8, Char.ofNat_toNat]

theorem stands_writeChar (c : Char) : ∃ pieces, Stands c pieces (bytes (writeChar c)) := by
  rw [writeChar]
  split
  · subst c
    exact ⟨_, stands_escape (e := 0x22) (by rfl) (by rfl)⟩
  split
  · subst c
    exact ⟨_, stands_escape (e := 0x5c) (by rfl) (by rfl)⟩
  split
  · subst c
    exact ⟨_, stands_escape (e := 0x62) (by rfl) (by rfl)⟩
  split
  · subst c
    exact ⟨_, stands_escape (e := 0x66) (by rfl) (by rfl)⟩
  split
  · subst c
    exact ⟨_, stands_escape (e := 0x6e) (by rfl) (by rfl)⟩
  split
  · subst c
    exact ⟨_, stands_escape (e := 0x72) (by rfl) (by rfl)⟩
  split
  · subst c
    exact ⟨_, stands_escape (e := 0x74) (by rfl) (by rfl)⟩
  split
  · rename_i hcontrol
    exact ⟨_, stands_control hcontrol⟩
  · rename_i hquote hbackslash _ _ _ _ _ hcontrol
    rw [bytes_toString]
    exact ⟨_, stands_plain (by omega) hquote hbackslash⟩

theorem PiecesSpelled.append {ps qs : List Piece} {s t : Text} (h : PiecesSpelled ps s)
    (h' : PiecesSpelled qs t) : PiecesSpelled (ps ++ qs) (s ++ t) := by
  induction h with
  | nil => exact h'
  | cons head _ ih =>
    rw [List.append_assoc]
    exact .cons head ih

theorem pieces_writeChars (cs : List Char) :
    ∃ pieces, PiecesSpelled pieces (cs.flatMap fun c => bytes (writeChar c)) ∧
      pieceBytes none pieces = .ok (cs.flatMap String.utf8EncodeChar) := by
  induction cs with
  | nil => exact ⟨[], .nil, rfl⟩
  | cons c cs ih =>
    obtain ⟨front, hfront⟩ := stands_writeChar c
    obtain ⟨back, hback, hbytes⟩ := ih
    refine ⟨front ++ back, hfront.spelled.append hback, ?_⟩
    rw [hfront.bytes, hbytes]
    rfl

theorem bytes_foldl (cs : List Char) (acc : String) :
    bytes (cs.foldl (fun acc c => acc ++ writeChar c) acc) =
      bytes acc ++ cs.flatMap fun c => bytes (writeChar c) := by
  induction cs generalizing acc with
  | nil => simp
  | cons c cs ih => simp [ih]

/-- A text as it is written spells a string that is the text. -/
theorem spelled_writeText (s : String) :
    ∃ raw : RawString, raw.Spelled (bytes (writeText s)) ∧ raw.text = .ok s := by
  obtain ⟨pieces, hspelled, hbytes⟩ := pieces_writeChars s.toList
  refine ⟨⟨pieces, none⟩, ?_, ?_⟩
  · rw [writeText, bytes_append, bytes_foldl]
    exact .quoted hspelled
  · simp only [RawString.text, hbytes, ← bytes_eq, fromUTF8?_bytes]

/-! ## Numbers and truth values -/

/-- A decimal digit as a byte. -/
def digitByte (c : Char) : UInt8 := UInt8.ofNat c.toNat

theorem isDigit_digitByte : ∀ d < 10, isDigit (digitByte d.digitChar) = true := by decide

theorem digitByte_value : ∀ d < 10, (digitByte d.digitChar).toNat - 0x30 = d := by decide

theorem utf8EncodeChar_digitChar :
    ∀ d < 10, String.utf8EncodeChar d.digitChar = [digitByte d.digitChar] := by decide

/-- Digits without a zero in front that write a number down. -/
structure Decimal (n : Nat) (t : Text) : Prop where
  digits : Digits t
  noLeadingZero : t.head? = some 0x30 → t = [0x30]
  value : ofDigits t = n

theorem decimal_digit {d : Nat} (h : d < 10) : Decimal d [digitByte d.digitChar] where
  digits := ⟨by simp, by simpa using isDigit_digitByte d h⟩
  noLeadingZero hhead := by simpa using hhead
  value := by simp [ofDigits, digitByte_value d h]

/-- One more digit behind a number that is not zero. -/
theorem Decimal.append {n d : Nat} {t : Text} (ht : Decimal n t) (hn : 0 < n) (hd : d < 10) :
    Decimal (n * 10 + d) (t ++ [digitByte d.digitChar]) where
  digits := by
    refine ⟨by simp, List.forall_mem_append.mpr ⟨ht.digits.2, ?_⟩⟩
    simpa using isDigit_digitByte d hd
  noLeadingZero hhead := by
    rw [List.head?_append_of_ne_nil _ ht.digits.1] at hhead
    have hvalue := ht.value
    rw [ht.noLeadingZero hhead] at hvalue
    exact absurd (show 0 = n from hvalue) hn.ne
  value := by
    have hvalue := ht.value
    rw [ofDigits] at hvalue ⊢
    rw [List.foldl_append, hvalue, List.foldl_cons, List.foldl_nil, digitByte_value d hd]

theorem decimal_toDigits (n : Nat) :
    Decimal n ((Nat.toDigits 10 n).flatMap String.utf8EncodeChar) := by
  induction n using Nat.strongRecOn with
  | ind n ih =>
    rw [Nat.toDigits_eq_if (by omega)]
    split
    · rename_i hn
      rw [List.flatMap_singleton, utf8EncodeChar_digitChar n hn]
      exact decimal_digit hn
    · have hlast : n % 10 < 10 := Nat.mod_lt _ (by omega)
      have hfront := (ih (n / 10) (by omega)).append (by omega) hlast
      rw [Nat.div_add_mod' n 10] at hfront
      rwa [List.flatMap_append, List.flatMap_singleton, utf8EncodeChar_digitChar _ hlast]

/-- A number as it is written spells a number that is the same. -/
theorem spelled_writeNat (n : Nat) :
    ∃ raw : RawNumber, raw.Spelled (bytes (writeNat n)) ∧ raw.nat? = some n := by
  have hdecimal := decimal_toDigits n
  rw [← Nat.toList_repr, ← bytes_eq] at hdecimal
  refine ⟨{ whole := bytes (writeNat n) }, .positive rfl ?_, ?_⟩
  · have hparts := RawNumber.Unsigned.parts (n := { whole := bytes (writeNat n) }) hdecimal.digits
      hdecimal.noLeadingZero .absent .absent
    simpa using hparts
  · exact congrArg some hdecimal.value

theorem spelled_writeBool (b : Bool) : (Value.bool b).Spelled (bytes (writeBool b)) := by
  cases b with
  | true => exact .isTrue
  | false => exact .isFalse

end SlotVerify.JsonText
