import Mathlib.Order.Interval.Finset.Nat
import SlotVerify.Proofs.Fec.Coverage
import SlotVerify.Proofs.Fec.Distance
import SlotVerify.Proofs.Verity.Finalizing
/-
  A damaged stretch of blocks shows in the parity bytes.

  A stretch of `rounds * roots` consecutive blocks has at most `roots` blocks of each round
  (`card_le_of_window`), because the blocks of a round are `rounds` apart.  So two regions that
  differ inside such a stretch only give messages that differ in at most `roots` places.  At least
  one pair of messages does differ, since every byte of the region belongs to a code word.  If the
  parity bytes of this pair were the same, two different code words would differ in at most `roots`
  places, which is too few (`exists_parity_ne`).

  What the program computes for a round is the parity of the messages that it reads from a device
  (`encodes_of_offers`), so it computes different parity bytes for the two regions, whatever the
  reads are cut into.
-/

namespace SlotVerify

open Fec
open Verification (OpenedDevice)

namespace Fec

/-- Of the blocks `i`, `i + rounds`, `i + 2 * rounds`, … at most `roots` lie in a window of
    `rounds * roots` blocks: the window ends before the one that is `roots` further on than the
    first in it. -/
theorem card_le_of_window {rounds roots first i : Nat} {places : Finset Nat}
    (h : ∀ j ∈ places, first ≤ i + j * rounds ∧ i + j * rounds < first + rounds * roots) :
    places.card ≤ roots := by
  rcases places.eq_empty_or_nonempty with rfl | hsome
  · exact Nat.zero_le _
  · have hsubset : places ⊆ Finset.Ico (places.min' hsome) (places.min' hsome + roots) := by
      intro j hj
      rw [Finset.mem_Ico]
      refine ⟨places.min'_le j hj, ?_⟩
      have hlow := (h _ (places.min'_mem hsome)).1
      have hhigh := (h j hj).2
      have hlt : j * rounds < (places.min' hsome + roots) * rounds := by
        rw [Nat.add_mul, Nat.mul_comm roots]
        omega
      exact Nat.lt_of_mul_lt_mul_right hlt
    calc places.card ≤ (Finset.Ico (places.min' hsome) (places.min' hsome + roots)).card :=
          Finset.card_le_card hsubset
      _ = roots := by rw [Nat.card_Ico, Nat.add_sub_cancel_left]

/-- Where two words agree at the end, they differ before it. -/
theorem mem_differences_append {v w rest : List UInt8} {j : Nat} (h : v.length = w.length)
    (hj : j ∈ differences (v ++ rest) (w ++ rest)) : j < v.length ∧ v[j]? ≠ w[j]? := by
  obtain ⟨-, hne⟩ := mem_differences.mp hj
  rcases Nat.lt_or_ge j v.length with hlt | hge
  · rw [List.getElem?_append_left hlt, List.getElem?_append_left (h ▸ hlt)] at hne
    exact ⟨hlt, hne⟩
  · rw [List.getElem?_append_right hge, List.getElem?_append_right (h ▸ hge), h] at hne
    exact absurd rfl hne

namespace Geometry

variable {g : Geometry} {a b : ByteArray}

@[simp] theorem length_message (g : Geometry) (image : ByteArray) (round k : Nat) :
    (g.message image round k).length = g.messageLength := by
  rw [message, List.length_map, List.length_range]

theorem getElem?_message (image : ByteArray) (round k : Nat) {j : Nat} (hj : j < g.messageLength) :
    (g.message image round k)[j]? = some (g.symbol image round j k) := by
  rw [message, List.getElem?_map, List.getElem?_range hj, Option.map_some]

/-- The symbol at a place inside the region. -/
theorem symbol_place (image : ByteArray) (p : g.Place) (hp : p.offset < g.dataSize) :
    g.symbol image p.round p.block p.byte = Bytes.at0 image (g.dataOffset + p.offset) := by
  rw [Place.offset_eq] at hp ⊢
  rw [symbol, if_pos hp]

/-- Outside of the region the images do not matter. -/
theorem inside_of_symbol_ne {round j k : Nat} (h : g.symbol a round j k ≠ g.symbol b round j k) :
    (round + j * g.rounds) * g.blockSize + k < g.dataSize ∧
      Bytes.at0 a (g.dataOffset + ((round + j * g.rounds) * g.blockSize + k)) ≠
        Bytes.at0 b (g.dataOffset + ((round + j * g.rounds) * g.blockSize + k)) := by
  unfold symbol at h
  split at h
  · rename_i hinside
    exact ⟨hinside, h⟩
  · exact absurd rfl h

/-- The covered regions of two images are the same outside of a window of so many blocks. -/
def DifferWithin (g : Geometry) (a b : ByteArray) (first blocks : Nat) : Prop :=
  ∀ x, x < g.dataSize → Bytes.at0 a (g.dataOffset + x) ≠ Bytes.at0 b (g.dataOffset + x) →
    first * g.blockSize ≤ x ∧ x < (first + blocks) * g.blockSize

/-- A place where the messages of a code word differ is in the window. -/
theorem DifferWithin.block_mem {first blocks : Nat} (h : g.DifferWithin a b first blocks)
    {round j k : Nat} (hk : k < g.blockSize)
    (hne : g.symbol a round j k ≠ g.symbol b round j k) :
    first ≤ round + j * g.rounds ∧ round + j * g.rounds < first + blocks := by
  obtain ⟨hinside, hbyte⟩ := inside_of_symbol_ne hne
  obtain ⟨hlow, hhigh⟩ := h _ hinside hbyte
  rw [← Nat.le_div_iff_mul_le (Nat.zero_lt_of_lt hk), div_of_block _ hk] at hlow
  rw [← Nat.div_lt_iff_lt_mul (Nat.zero_lt_of_lt hk), div_of_block _ hk] at hhigh
  exact ⟨hlow, hhigh⟩

/-- Messages that differ in a window only have different parity bytes. -/
theorem parity_ne_of_message_ne {code : Code} (hcode : Code.ofRoots? g.roots = some code)
    {first : Nat} (h : g.DifferWithin a b first (g.rounds * g.roots)) {round k : Nat}
    (hk : k < g.blockSize) (hne : g.message a round k ≠ g.message b round k) :
    code.parity (g.message a round k) ≠ code.parity (g.message b round k) := by
  intro hparity
  have hword : ∀ image, code.IsCodeWord
      (g.message image round k ++ code.parity (g.message image round k)) := fun image =>
    Code.isCodeWord_append_parity hcode (length_message g image round k)
  have hfew : (differences (g.message a round k ++ code.parity (g.message a round k))
      (g.message b round k ++ code.parity (g.message b round k))).card ≤ g.roots := by
    have hwindow : ∀ j ∈ differences (g.message a round k ++ code.parity (g.message a round k))
        (g.message b round k ++ code.parity (g.message b round k)),
        first ≤ round + j * g.rounds ∧ round + j * g.rounds < first + g.rounds * g.roots := by
      intro j hj
      rw [hparity] at hj
      obtain ⟨hlt, hsymbol⟩ := mem_differences_append (by simp) hj
      rw [length_message] at hlt
      rw [getElem?_message a round k hlt, getElem?_message b round k hlt] at hsymbol
      exact h.block_mem hk fun heq => hsymbol (congrArg some heq)
    exact card_le_of_window hwindow
  have hmany := (hword a).lt_card_differences (hword b) fun heq =>
    hne (List.append_inj_left heq (by simp))
  rw [(Code.of_ofRoots? hcode).1] at hmany
  exact absurd hfew (Nat.not_le.mpr hmany)

/-- Different regions that differ in a window only have a code word with different parity bytes. -/
theorem exists_parity_ne {code : Code} (hcode : Code.ofRoots? g.roots = some code)
    (hcovered : g.dataSize ≤ g.capacity) {first : Nat}
    (h : g.DifferWithin a b first (g.rounds * g.roots)) {x : Nat} (hx : x < g.dataSize)
    (hne : Bytes.at0 a (g.dataOffset + x) ≠ Bytes.at0 b (g.dataOffset + x)) :
    ∃ (round : Fin g.rounds) (k : Fin g.blockSize),
      code.parity (g.message a round k) ≠ code.parity (g.message b round k) := by
  obtain ⟨p, rfl⟩ := Place.exists_offset_eq (Nat.lt_of_lt_of_le hx hcovered)
  refine ⟨p.round, p.byte, parity_ne_of_message_ne hcode h p.byte.isLt ?_⟩
  intro hmessage
  have hsymbol : (g.message a p.round p.byte)[(p.block : Nat)]? =
      (g.message b p.round p.byte)[(p.block : Nat)]? := by rw [hmessage]
  rw [getElem?_message _ _ _ p.block.isLt, getElem?_message _ _ _ p.block.isLt,
    Option.some_inj, symbol_place a p hx, symbol_place b p hx] at hsymbol
  exact hne hsymbol

end Geometry

end Fec

namespace Verity

open Geometry

variable {P : Type} {r : Rig P} {d : OpenedDevice} {image : ByteArray} {g : Geometry} {code : Code}

/-- The blocks of a round can be read from an opened device, and these are its parity bytes. -/
def Encodes (r : Rig P) (d : OpenedDevice) (g : Geometry) (code : Code) (index : Nat)
    (parity : ByteArray) : Prop :=
  ∃ round, (((gatherRound (Round.start g index)).on P d).run Rig.host r).2 = some (.ok round) ∧
    round.parity code = parity

/-- They are the parity bytes of the messages that the image has, one after the other. -/
theorem encodes_of_offers (hoffers : r.Offers d image)
    (hinside : g.dataOffset + g.dataSize ≤ image.size) (hpos : 0 < code.roots)
    (index : Fin g.rounds) :
    ∃ parity, Encodes r d g code index parity ∧ ∀ k, k < g.blockSize →
      parity.extract (k * code.roots) (k * code.roots + code.roots) =
        (code.parity (g.message image index k)).toByteArray := by
  obtain ⟨round, _, hrun, ⟨rfl, rfl, hindex, hgathered, hread⟩, -⟩ :=
    (yields_gatherRound (d := d) (Round.start g index) hinside
      (Round.gathered_start g index)).run hoffers
  refine ⟨_, ⟨round, hrun, rfl⟩, ?_⟩
  intro k hk
  rw [Round.extract_parity hpos hk, hgathered.message_eq index.pos hread hk, hindex]
  rfl

/-- Two different regions of whole blocks that are the same outside of a window of `rounds * roots`
    consecutive blocks do not have the same parity bytes: not in all rounds, as the program computes
    them. -/
theorem encodes_ne_of_burst {l : Layout} (hgeometry : ofLayout l = .ok g)
    (haligned : l.fecDataSize % l.blockSize = 0) {r' : Rig P} {d' : OpenedDevice}
    {a b : ByteArray} (hoffers : r.Offers d a) (hoffers' : r'.Offers d' b)
    (ha : l.fecDataOffset + l.fecDataSize ≤ a.size) (hb : l.fecDataOffset + l.fecDataSize ≤ b.size)
    {first : Nat} (hwindow : g.DifferWithin a b first (g.rounds * l.fecRoots))
    (hne : a.extract l.fecDataOffset (l.fecDataOffset + l.fecDataSize) ≠
      b.extract l.fecDataOffset (l.fecDataOffset + l.fecDataSize)) :
    ∃ (code : Code) (parity parity' : Fin g.rounds → ByteArray),
      Code.ofRoots? l.fecRoots = some code ∧
      (∀ i : Fin g.rounds, Encodes r d g code i (parity i)) ∧
      (∀ i : Fin g.rounds, Encodes r' d' g code i (parity' i)) ∧
      parity ≠ parity' := by
  have hmade := madeFor_ofLayout hgeometry
  obtain ⟨code, hcode⟩ := exists_ofRoots? hmade.minRoots_le hmade.le_maxRoots
  have hpos : 0 < code.roots := by
    obtain ⟨hroots, hmin, -⟩ := Code.of_ofRoots? hcode
    rw [hroots]
    exact Nat.lt_of_lt_of_le (by decide) hmin
  have hcovered : g.dataSize ≤ g.capacity := by
    rw [hmade.dataSize]
    exact (fecDataSize_le_capacity_iff hgeometry).mpr (Or.inl haligned)
  rw [← hmade.dataOffset, ← hmade.dataSize] at ha hb hne
  rw [← hmade.roots] at hwindow
  choose parity hparity hword using encodes_of_offers hoffers ha hpos
  choose parity' hparity' hword' using encodes_of_offers hoffers' hb hpos
  refine ⟨code, parity, parity', hmade.roots ▸ hcode, hparity, hparity', ?_⟩
  intro hsame
  -- the regions differ in some byte, so a code word has different parity bytes
  obtain ⟨x, hx, hbyte⟩ : ∃ x, x < g.dataSize ∧
      Bytes.at0 a (g.dataOffset + x) ≠ Bytes.at0 b (g.dataOffset + x) := by
    by_contra hnone
    refine hne (Bytes.extract_congr ha hb fun y hlow hhigh => ?_)
    by_contra hy
    refine hnone ⟨y - g.dataOffset, by omega, ?_⟩
    rwa [Nat.add_sub_cancel' hlow]
  obtain ⟨i, k, hword_ne⟩ := exists_parity_ne hcode hcovered hwindow hx hbyte
  refine hword_ne (List.toByteArray_inj.mp ?_)
  rw [← hword i k k.isLt, ← hword' i k k.isLt, hsame]

/-- Blocks of one byte, one more than a round of messages has: two rounds. -/
def byteBlocks : Layout where
  blockSize := 1
  hashTreeAlgorithm := "sha256"
  hashTreeSalt := ByteArray.empty
  hashTreeDataOffset := 0
  hashTreeDataSize := 0
  hashTreeOffset := 0
  hashTreeSize := 0
  fecDataOffset := 0
  fecDataSize := 254
  fecOffset := 254
  fecSize := 4
  fecRoots := 2

/-- Their geometry. -/
def byteRounds : Geometry where
  blockSize := 1
  roots := 2
  rounds := 2
  dataOffset := 0
  dataSize := 254
  fecOffset := 254

/-- A device with these bytes, which delivers seven of them at a time. -/
def bytesRig (image : ByteArray) : Rig Nat where
  images := [("/dev/boot", image)]
  readLimit := some 7

/-- The device, opened. -/
def bytesDevice : OpenedDevice := ⟨.direct, "/dev/boot", false⟩

/-- Zeros of which the last four blocks are damaged. -/
def damagedZeros : ByteArray := Bytes.overwrite (Bytes.zeros 254) 250 [5, 0, 7, 9].toByteArray

/-- The parity bytes of the damaged zeros are others. -/
theorem encodes_ne_of_burst_zeros : ofLayout byteBlocks = .ok byteRounds ∧
    ∃ (code : Code) (parity parity' : Fin 2 → ByteArray),
      (∀ i : Fin 2, Encodes (bytesRig (Bytes.zeros 254)) bytesDevice byteRounds code i (parity i)) ∧
      (∀ i : Fin 2, Encodes (bytesRig damagedZeros) bytesDevice byteRounds code i (parity' i)) ∧
      parity ≠ parity' := by
  have hoffers : ∀ image, (bytesRig image).Offers bytesDevice image := by
    intro image
    exact ⟨⟨rfl, rfl, rfl, show some 7 ≠ some 0 by decide⟩, rfl⟩
  have hzeros : (Bytes.zeros 254).size = 254 := Bytes.size_zeros 254
  have hfits : 250 + [5, 0, 7, 9].toByteArray.size ≤ (Bytes.zeros 254).size := hzeros.ge
  have hdamaged : damagedZeros.size = 254 := (Bytes.size_overwrite hfits).trans hzeros
  have hwindow : byteRounds.DifferWithin (Bytes.zeros 254) damagedZeros 250
      (byteRounds.rounds * byteBlocks.fecRoots) := by
    intro x hx hne
    rw [damagedZeros, Bytes.at0_overwrite hfits] at hne
    split at hne
    · rename_i hinside
      exact ⟨(Nat.zero_add x ▸ hinside).1, hx⟩
    · exact absurd rfl hne
  have hdiffer : (Bytes.zeros 254).extract 0 254 ≠ damagedZeros.extract 0 254 := by
    intro h
    have hbyte : Bytes.at0 ((Bytes.zeros 254).extract 0 254) 250 =
        Bytes.at0 (damagedZeros.extract 0 254) 250 := by rw [h]
    rw [Bytes.at0_extract, Bytes.at0_extract, Bytes.at0_zeros, damagedZeros,
      Bytes.at0_overwrite hfits] at hbyte
    exact absurd hbyte (by decide)
  obtain ⟨code, parity, parity', -, hparity, hparity', hne⟩ :=
    encodes_ne_of_burst (l := byteBlocks) rfl (by decide) (hoffers _) (hoffers _) hzeros.ge
      hdamaged.ge hwindow hdiffer
  exact ⟨rfl, code, parity, parity', hparity, hparity', hne⟩

end Verity

end SlotVerify
