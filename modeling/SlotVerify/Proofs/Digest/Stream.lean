import SlotVerify.Digest
import SlotVerify.Proofs.Bytes
/-
  Only the concatenation of the pieces matters.

  A hash computation that has been fed in pieces is the one that has been fed their concatenation
  at once (`Hasher.update_fed`), so its digest is the digest of the whole message
  (`Hasher.finish_fed`).  All that this needs of a construction is that a compression looks at
  nothing but its own block (`Construction.Local`).
-/

namespace SlotVerify.Digest

namespace Construction

variable {σ : Type} {c : Construction σ}

/-- A compression depends on the bytes of its block only, not on where they are kept. -/
def Local (c : Construction σ) : Prop :=
  ∀ (chain : σ) (a b : ByteArray) (i j : Nat),
    (∀ k, k < c.blockSize → Bytes.at0 a (i + k) = Bytes.at0 b (j + k)) →
      c.compress chain a i = c.compress chain b j

theorem absorb_add (data : ByteArray) (m n offset : Nat) (chain : σ) :
    c.absorb data (m + n) offset chain =
      c.absorb data n (offset + m * c.blockSize) (c.absorb data m offset chain) := by
  induction m generalizing offset chain with
  | zero => simp [absorb]
  | succ m ih =>
    have hsucc : m + 1 + n = (m + n) + 1 := by omega
    have hoffset : offset + c.blockSize + m * c.blockSize = offset + (m + 1) * c.blockSize := by
      rw [Nat.succ_mul]
      omega
    rw [hsucc, absorb, ih, absorb, hoffset]

/-- Blocks that look the same are absorbed the same. -/
theorem absorb_congr (hlocal : c.Local) {a b : ByteArray} (n i j : Nat) (chain : σ)
    (h : ∀ k, k < n * c.blockSize → Bytes.at0 a (i + k) = Bytes.at0 b (j + k)) :
    c.absorb a n i chain = c.absorb b n j chain := by
  induction n generalizing i j chain with
  | zero => rfl
  | succ n ih =>
    rw [Nat.succ_mul] at h
    have hblock : c.compress chain a i = c.compress chain b j := by
      apply hlocal
      intro k hk
      exact h k (by omega)
    rw [absorb, absorb, hblock]
    apply ih
    intro k hk
    rw [Nat.add_assoc, Nat.add_assoc]
    exact h (c.blockSize + k) (by omega)

/-- The computation that has been fed a message. -/
def fed (c : Construction σ) (message : ByteArray) : c.Stream := c.start.update message

theorem fed_eq (message : ByteArray) :
    c.fed message =
      { chain := c.absorb message (message.size / c.blockSize) 0 c.initial
        pending := message.extract (message.size / c.blockSize * c.blockSize) message.size
        fed := message.size } := by
  simp [fed, start, Stream.update]

/-- Feeding more is having fed more. -/
theorem update_fed (hlocal : c.Local) (hpos : 0 < c.blockSize) (message data : ByteArray) :
    (c.fed message).update data = c.fed (message ++ data) := by
  have hle : message.size / c.blockSize * c.blockSize ≤ message.size := Nat.div_mul_le_self _ _
  rw [fed_eq, fed_eq]
  generalize hq : message.size / c.blockSize = q at hle
  -- the unfinished block and the new data are what follows the blocks absorbed so far
  have hwaiting := Bytes.extract_rest_append data hle
  generalize htotal : message ++ data = total at hwaiting
  have hsize : total.size = message.size + data.size := by
    rw [← htotal, ByteArray.size_append]
  have hrest : (total.extract (q * c.blockSize) total.size).size =
      total.size - q * c.blockSize := by
    rw [ByteArray.size_extract, Nat.min_self]
  have hblocks : total.size / c.blockSize =
      q + (total.size - q * c.blockSize) / c.blockSize :=
    Bytes.div_eq_add_div_sub hpos (by omega)
  have hold : c.absorb message q 0 c.initial = c.absorb total q 0 c.initial := by
    apply absorb_congr hlocal
    intro k hk
    rw [Nat.zero_add, ← htotal, Bytes.at0_append, if_pos (by omega)]
  have hnew : ∀ n chain, n * c.blockSize ≤ total.size - q * c.blockSize →
      c.absorb (total.extract (q * c.blockSize) total.size) n 0 chain =
        c.absorb total n (q * c.blockSize) chain := by
    intro n chain hn
    apply absorb_congr hlocal
    intro k hk
    rw [Nat.zero_add, Bytes.at0_extract, if_pos (by omega)]
  simp only [Stream.update]
  rw [hwaiting, hrest, hblocks, absorb_add, Nat.zero_add, hold, ← hsize,
    hnew _ _ (Nat.div_mul_le_self _ _), ByteArray.extract_extract, Nat.add_mul]
  congr 2
  omega

end Construction

/-! ## The supported algorithms -/

theorem word32_congr {a b : ByteArray} {i j : Nat}
    (h : ∀ k, k < 4 → Bytes.at0 a (i + k) = Bytes.at0 b (j + k)) :
    Bytes.word32 a i = Bytes.word32 b j := by
  have h0 := h 0 (by omega)
  rw [Nat.add_zero, Nat.add_zero] at h0
  rw [Bytes.word32, Bytes.word32, h0, h 1 (by omega), h 2 (by omega), h 3 (by omega)]

theorem word64_congr {a b : ByteArray} {i j : Nat}
    (h : ∀ k, k < 8 → Bytes.at0 a (i + k) = Bytes.at0 b (j + k)) :
    Bytes.word64 a i = Bytes.word64 b j := by
  have hhigh : Bytes.word32 a i = Bytes.word32 b j := word32_congr fun k hk => h k (by omega)
  have hlow : Bytes.word32 a (i + 4) = Bytes.word32 b (j + 4) := by
    apply word32_congr
    intro k hk
    rw [Nat.add_assoc, Nat.add_assoc]
    exact h (4 + k) (by omega)
  rw [Bytes.word64, Bytes.word64, hhigh, hlow]

/-- The sixteen words of a block, with `width` bytes a word. -/
theorem words_congr {α : Type} (width : Nat) {word : ByteArray → Nat → α} {a b : ByteArray}
    {i j : Nat}
    (hword : ∀ {i j : Nat}, (∀ k, k < width → Bytes.at0 a (i + k) = Bytes.at0 b (j + k)) →
      word a i = word b j)
    (h : ∀ k, k < 16 * width → Bytes.at0 a (i + k) = Bytes.at0 b (j + k)) :
    ((Array.range 16).map fun t => word a (i + width * t)) =
      (Array.range 16).map fun t => word b (j + width * t) := by
  apply Array.map_congr_left
  intro t ht
  have ht16 : t < 16 := Array.mem_range.mp ht
  apply hword
  intro k hk
  have hfit : width * t + k < 16 * width := by
    have hmul : width * (t + 1) ≤ width * 16 := Nat.mul_le_mul_left width ht16
    rw [Nat.mul_succ] at hmul
    omega
  rw [Nat.add_assoc, Nat.add_assoc]
  exact h (width * t + k) hfit

theorem Sha1.construction_local : Sha1.construction.Local := by
  intro chain a b i j h
  have hschedule : Sha1.schedule a i = Sha1.schedule b j := by
    rw [Sha1.schedule, Sha1.schedule, words_congr 4 word32_congr h]
  show Sha1.compress chain a i = Sha1.compress chain b j
  rw [Sha1.compress, Sha1.compress, hschedule]

theorem Sha256.construction_local : Sha256.construction.Local := by
  intro chain a b i j h
  have hschedule : Sha256.schedule a i = Sha256.schedule b j := by
    rw [Sha256.schedule, Sha256.schedule, words_congr 4 word32_congr h]
  show Sha256.compress chain a i = Sha256.compress chain b j
  rw [Sha256.compress, Sha256.compress, hschedule]

theorem Sha512.construction_local : Sha512.construction.Local := by
  intro chain a b i j h
  have hschedule : Sha512.schedule a i = Sha512.schedule b j := by
    rw [Sha512.schedule, Sha512.schedule, words_congr 8 word64_congr h]
  show Sha512.compress chain a i = Sha512.compress chain b j
  rw [Sha512.compress, Sha512.compress, hschedule]

theorem Algorithm.construction_local : ∀ a : Algorithm, a.construction.Local
  | .sha1 => Sha1.construction_local
  | .sha256 => Sha256.construction_local
  | .sha512 => Sha512.construction_local

theorem Algorithm.blockSize_pos (a : Algorithm) : 0 < a.construction.blockSize := by
  cases a <;> decide

/-! ## Hashers -/

namespace Hasher

variable {a : Algorithm}

/-- The computation that has been fed a message. -/
def fed (a : Algorithm) (message : ByteArray) : Hasher a := a.construction.fed message

theorem fed_empty (a : Algorithm) : fed a ByteArray.empty = start a := by
  show a.construction.fed ByteArray.empty = a.construction.start
  rw [Construction.fed_eq]
  simp [Construction.start, Construction.absorb]

/-- Feeding a piece is having fed the message with that piece behind it. -/
theorem update_fed (message data : ByteArray) :
    (fed a message).update data = fed a (message ++ data) :=
  Construction.update_fed a.construction_local a.blockSize_pos message data

/-- The digest does not depend on the pieces. -/
theorem finish_fed (message : ByteArray) : (fed a message).finish = a.digest message := rfl

end Hasher

end SlotVerify.Digest
