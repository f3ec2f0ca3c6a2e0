import SlotVerify.Proofs.Bytes
import SlotVerify.Text.Base64
/-
  Base64 gives bytes back.

  1. **Digits.**  Below 64, `digit` and `value?` are inverse to each other, and no digit is the `=`
     that closes a rest.
  2. **Groups.**  `decode` goes by `=` signs where `encode` goes by the number of bytes that are
     left.  The crux is that the two agree: the last character of a full group is a digit, so it
     is never taken for the end.
  3. **Texts.**  `decode_encode` by the recursion of `encode`, one case for each length of the last
     group, and `ofText?_text` for strings.
-/

namespace SlotVerify.Text.Base64

/-! ## Digits -/

theorem value?_digit : ∀ n < 64, value? (digit n) = some n := by decide

theorem digit_ne_equals : ∀ n < 64, digit n ≠ '=' := by decide

/-! ## Groups -/

/-- A group whose last character is no `=` stands for three bytes. -/
theorem decode_group {p q r s : Nat} (hp : p < 64) (hq : q < 64) (hr : r < 64) (hs : s < 64)
    (rest : List Char) :
    decode (digit p :: digit q :: digit r :: digit s :: rest) =
      (decode rest).map fun bytes =>
        let n := ((p * 64 + q) * 64 + r) * 64 + s
        UInt8.ofNat (n / 65536) :: UInt8.ofNat (n / 256) :: UInt8.ofNat n :: bytes := by
  have hend := digit_ne_equals s hs
  rw [decode]
  · simp only [value?_digit, hp, hq, hr, hs]
    cases decode rest <;> rfl
  · intro _ h _
    exact hend h
  · intro h _
    exact hend h

/-- One `=` leaves two bytes. -/
theorem decode_two {p q r : Nat} (hp : p < 64) (hq : q < 64) (hr : r < 64) (hrest : r % 4 = 0) :
    decode [digit p, digit q, digit r, '='] =
      some [UInt8.ofNat (((p * 64 + q) * 64 + r) / 1024),
        UInt8.ofNat (((p * 64 + q) * 64 + r) / 4)] := by
  have hzero : ((p * 64 + q) * 64 + r) % 4 = 0 := by omega
  rw [decode]
  · simp [value?_digit, hp, hq, hr, hzero]
  · exact digit_ne_equals r hr

/-- Two `=` leave one byte. -/
theorem decode_one {p q : Nat} (hp : p < 64) (hq : q < 64) (hrest : q % 16 = 0) :
    decode [digit p, digit q, '=', '='] = some [UInt8.ofNat ((p * 64 + q) / 16)] := by
  have hzero : (p * 64 + q) % 16 = 0 := by omega
  simp [decode, value?_digit, hp, hq, hzero]

/-! ## Texts -/

/-- A byte is the number that its group holds at its place. -/
private theorem byte_eq {b : UInt8} {n : Nat} (h : n % 256 = b.toNat) : UInt8.ofNat n = b := by
  rw [← UInt8.ofNat_toNat (x := b), ← h]
  exact UInt8.toNat_inj.mp (by simp)

theorem decode_encode (bytes : List UInt8) : decode (encode bytes) = some bytes := by
  induction bytes using encode.induct with
  | case1 => rfl
  | case2 a =>
    have ha := a.toNat_lt
    rw [encode, decode_one (by omega) (by omega) (by omega)]
    rw [byte_eq (b := a) (by omega)]
  | case3 a b =>
    have ha := a.toNat_lt
    have hb := b.toNat_lt
    rw [encode, decode_two (by omega) (by omega) (by omega) (by omega)]
    rw [byte_eq (b := a) (by omega), byte_eq (b := b) (by omega)]
  | case4 a b c rest ih =>
    have ha := a.toNat_lt
    have hb := b.toNat_lt
    have hc := c.toNat_lt
    rw [encode, decode_group (by omega) (by omega) (by omega) (by omega), ih]
    simp only [Option.map_some]
    rw [byte_eq (b := a) (by omega), byte_eq (b := b) (by omega), byte_eq (b := c) (by omega)]

/-- Bytes survive being written and read. -/
theorem ofText?_text (b : ByteArray) : ofText? (text b) = some b := by
  rw [ofText?, text, String.toList_ofList, decode_encode, Option.map_some, Bytes.toByteArray_toList]

end SlotVerify.Text.Base64
