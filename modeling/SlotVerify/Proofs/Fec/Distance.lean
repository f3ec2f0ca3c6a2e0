import Mathlib.LinearAlgebra.Vandermonde
import SlotVerify.Proofs.Fec.CodeWord
/-
  Different code words differ in more places than the code has roots, so that an error in no more
  places than that shows in the syndromes.

  The value of a word at a point `β` is a sum over its places, in which the place `j` has the weight
  `β^(254 - j)` (`eval_wordPolynomial`).  At the `i`th root of the generator that weight is the
  `i`th power of `α^(254 - j)`, the locator of the place.  Two code words have the same value at all
  roots, so the differences of their bytes are a solution of a Vandermonde system with a column for
  each place where they differ.  The locators are different, which leaves the zero solution only if
  there are no more places than roots (`eq_zero_of_sum_pow_eq_zero`).
-/

namespace SlotVerify.Fec

open Polynomial SlotVerify.Fec.Field

/-- The places at which two words differ. -/
def differences (v w : List UInt8) : Finset Nat :=
  (Finset.range (max v.length w.length)).filter fun j => v[j]? ≠ w[j]?

theorem mem_differences {v w : List UInt8} {j : Nat} :
    j ∈ differences v w ↔ j < max v.length w.length ∧ v[j]? ≠ w[j]? := by
  rw [differences, Finset.mem_filter, Finset.mem_range]

@[simp] theorem differences_self (word : List UInt8) : differences word word = ∅ := by
  simp [differences]

/-- A word in which one byte is changed differs at that byte's place. -/
theorem differences_set {word : List UInt8} {j : Nat} {b : UInt8} (hj : j < word.length)
    (hb : word[j] ≠ b) : differences word (word.set j b) = {j} := by
  ext k
  rw [mem_differences, Finset.mem_singleton, List.length_set, Nat.max_self]
  constructor
  · rintro ⟨-, hk⟩
    by_contra hne
    exact hk (List.getElem?_set_ne (Ne.symm hne)).symm
  · rintro rfl
    refine ⟨hj, ?_⟩
    rw [List.getElem?_set_self hj, List.getElem?_eq_getElem hj]
    exact fun h => hb (Option.some.inj h)

/-- The sum of the bytes of two words at a place, which is their difference. -/
noncomputable def disagreement (v w : List UInt8) (j : Nat) : Residue :=
  residue (v.getD j 0) + residue (w.getD j 0)

theorem disagreement_eq_zero_iff {v w : List UInt8} (h : v.length = w.length) (j : Nat) :
    disagreement v w j = 0 ↔ v[j]? = w[j]? := by
  rw [disagreement, CharTwo.add_eq_zero, residue_injective.eq_iff, List.getD_eq_getElem?_getD,
    List.getD_eq_getElem?_getD]
  rcases Nat.lt_or_ge j v.length with hj | hj
  · rw [List.getElem?_eq_getElem hj, List.getElem?_eq_getElem (h ▸ hj)]
    exact Option.some_inj.symm
  · rw [List.getElem?_eq_none hj, List.getElem?_eq_none (h ▸ hj)]
    simp

/-- Words of one length without a disagreement are the same. -/
theorem eq_of_disagreement_eq_zero {v w : List UInt8} (h : v.length = w.length)
    (hzero : ∀ j ∈ differences v w, disagreement v w j = 0) : v = w := by
  apply List.ext_getElem?
  intro j
  by_contra hne
  have hj : j < max v.length w.length := by
    by_contra hj
    apply hne
    rw [List.getElem?_eq_none (by omega), List.getElem?_eq_none (by omega)]
  have hplace := hzero j (mem_differences.mpr ⟨hj, hne⟩)
  exact hne ((disagreement_eq_zero_iff h j).mp hplace)

/-- The value of a word's polynomial as a sum over the places. -/
theorem eval_wordPolynomial (word : List UInt8) (β : Residue) :
    (wordPolynomial word).eval β =
      ∑ j ∈ Finset.range word.length,
        residue (word.getD j 0) * β ^ (word.length - 1 - j) := by
  induction word with
  | nil => simp
  | cons b word ih =>
    have hrest : ∀ j, (b :: word).length - 1 - (j + 1) = word.length - 1 - j := by
      intro j
      rw [List.length_cons]
      omega
    rw [wordPolynomial_cons, List.length_cons, Finset.sum_range_succ', eval_add, ih, eval_C_mul,
      eval_pow, eval_X, add_comm]
    simp only [← List.length_cons (a := b), hrest, List.getD_cons_succ, List.getD_cons_zero]
    rfl

/-- What a place of a code word weighs at the root `α`; at the `i`th root it weighs the `i`th power
    of that. -/
noncomputable def locator (j : Nat) : Residue := alpha ^ (codeWordLength - 1 - j)

theorem locator_inj {j k : Nat} (hj : j < codeWordLength) (hk : k < codeWordLength)
    (h : locator j = locator k) : j = k := by
  have hexponent : codeWordLength - 1 - j = codeWordLength - 1 - k :=
    alpha_pow_inj (by unfold codeWordLength; omega) (by unfold codeWordLength; omega) h
  omega

theorem eval_alpha_pow {word : List UInt8} (h : word.length = codeWordLength) (i : Nat) :
    (wordPolynomial word).eval (alpha ^ i) =
      ∑ j ∈ Finset.range codeWordLength, residue (word.getD j 0) * locator j ^ i := by
  rw [eval_wordPolynomial, h]
  refine Finset.sum_congr rfl fun j _ => ?_
  rw [locator, ← pow_mul, ← pow_mul, Nat.mul_comm]

/-- A Vandermonde system with different columns, no more of them than equations, has only the zero
    solution. -/
theorem eq_zero_of_sum_pow_eq_zero {places : Finset Nat} {locator value : Nat → Residue}
    (hlocator : Set.InjOn locator places)
    (h : ∀ i < places.card, ∑ j ∈ places, value j * locator j ^ i = 0) :
    ∀ j ∈ places, value j = 0 := by
  let place : Fin places.card → Nat := fun k => places.equivFin.symm k
  have hplace : ∀ k, place k ∈ places := fun k => (places.equivFin.symm k).2
  have hinjective : Function.Injective fun k => locator (place k) := by
    intro k l hkl
    have := hlocator (hplace k) (hplace l) hkl
    exact places.equivFin.symm.injective (Subtype.ext this)
  have hsum : ∀ f : Nat → Residue, ∑ k, f (place k) = ∑ j ∈ places, f j := by
    intro f
    rw [← Finset.sum_coe_sort places]
    exact places.equivFin.symm.sum_comp fun j => f j
  have hzero : (fun k => value (place k)) = 0 := by
    apply Matrix.eq_zero_of_forall_pow_sum_mul_pow_eq_zero hinjective
    intro i
    exact (hsum fun j => value j * locator j ^ (i : Nat)).trans (h i i.isLt)
  intro j hj
  have hk : place (places.equivFin ⟨j, hj⟩) = j := by simp [place]
  rw [← hk]
  exact congrFun hzero _

namespace Code

variable {c : Code}

theorem IsCodeWord.mem_differences_iff {v w : List UInt8} (hv : c.IsCodeWord v)
    (hw : c.IsCodeWord w) {j : Nat} :
    j ∈ differences v w ↔ j < codeWordLength ∧ v[j]? ≠ w[j]? := by
  rw [mem_differences, hv.length, hw.length, Nat.max_self]

/-- At each root, the disagreements of two code words cancel. -/
theorem IsCodeWord.sum_disagreement {v w : List UInt8} (hv : c.IsCodeWord v)
    (hw : c.IsCodeWord w) {i : Nat} (hi : i < c.roots) :
    ∑ j ∈ differences v w, disagreement v w j * locator j ^ i = 0 := by
  have hall : ∑ j ∈ Finset.range codeWordLength, disagreement v w j * locator j ^ i = 0 := by
    have hvroot := hv.eval i hi
    have hwroot := hw.eval i hi
    rw [eval_alpha_pow hv.length] at hvroot
    rw [eval_alpha_pow hw.length] at hwroot
    simp only [disagreement, add_mul, Finset.sum_add_distrib, hvroot, hwroot, add_zero]
  have hsubset : differences v w ⊆ Finset.range codeWordLength := by
    intro j hj
    exact Finset.mem_range.mpr ((hv.mem_differences_iff hw).mp hj).1
  rw [← hall]
  refine Finset.sum_subset hsubset ?_
  intro j hj hagree
  have hsame : v[j]? = w[j]? := by
    by_contra hne
    exact hagree ((hv.mem_differences_iff hw).mpr ⟨Finset.mem_range.mp hj, hne⟩)
  rw [(disagreement_eq_zero_iff (hv.length.trans hw.length.symm) j).mpr hsame, zero_mul]

/-- Different code words differ in more places than there are roots: otherwise the roots are enough
    equations to make the disagreements zero. -/
theorem IsCodeWord.lt_card_differences {v w : List UInt8} (hv : c.IsCodeWord v)
    (hw : c.IsCodeWord w) (hne : v ≠ w) : c.roots < (differences v w).card := by
  by_contra hfew
  rw [Nat.not_lt] at hfew
  have hlocator : Set.InjOn locator (differences v w) := by
    intro j hj k hk h
    exact locator_inj ((hv.mem_differences_iff hw).mp hj).1 ((hv.mem_differences_iff hw).mp hk).1 h
  refine hne (eq_of_disagreement_eq_zero (hv.length.trans hw.length.symm) ?_)
  refine eq_zero_of_sum_pow_eq_zero hlocator ?_
  intro i hi
  exact hv.sum_disagreement hw (Nat.lt_of_lt_of_le hi hfew)

/-- A code word that is changed in at least one place, and in no more than there are roots, has a
    syndrome: it would be another code word otherwise, and too close. -/
theorem IsCodeWord.exists_syndrome_ne_zero {word received : List UInt8} (hword : c.IsCodeWord word)
    (hreceived : received.length = codeWordLength) (hsome : 1 ≤ (differences word received).card)
    (hfew : (differences word received).card ≤ c.roots) :
    ∃ s ∈ c.syndromes received, s ≠ 0 := by
  by_contra hnone
  have hcode : c.IsCodeWord received := by
    rw [isCodeWord_iff_syndromes hreceived]
    intro s hs
    by_contra hs'
    exact hnone ⟨s, hs, hs'⟩
  have hne : word ≠ received := by
    rintro rfl
    rw [differences_self, Finset.card_empty] at hsome
    omega
  exact absurd hfew (Nat.not_le.mpr (hword.lt_card_differences hcode hne))

/-- The code words of different messages differ in more places than the code has roots; so a code
    word that is changed in at least one place and at most as many as there are roots has a
    syndrome. -/
theorem distance_and_detection {roots : Nat} (h : ofRoots? roots = some c) :
    (∀ message message' : List UInt8, message.length = codeWordLength - roots →
      message'.length = codeWordLength - roots → message ≠ message' →
      roots + 1 ≤
        (differences (message ++ c.parity message) (message' ++ c.parity message')).card) ∧
    ∀ message received : List UInt8, message.length = codeWordLength - roots →
      received.length = codeWordLength →
      1 ≤ (differences (message ++ c.parity message) received).card →
      (differences (message ++ c.parity message) received).card ≤ roots →
      ∃ s ∈ c.syndromes received, s ≠ 0 := by
  have hcode : ∀ message : List UInt8, message.length = codeWordLength - roots →
      c.IsCodeWord (message ++ c.parity message) := fun _ => isCodeWord_append_parity h
  obtain ⟨rfl, -, -⟩ := of_ofRoots? h
  constructor
  · intro message message' hmessage hmessage' hne
    apply (hcode message hmessage).lt_card_differences (hcode message' hmessage')
    intro hsame
    exact hne (List.append_inj_left hsame (hmessage.trans hmessage'.symm))
  · intro message received hmessage hreceived hsome hfew
    exact (hcode message hmessage).exists_syndrome_ne_zero hreceived hsome hfew

/-- With two roots, the code word of the message whose polynomial is `x^2` differs from the zero
    word in the places of the generator's three coefficients, and an error in the zero word's first
    byte has a syndrome. -/
theorem distance_and_detection_zeros :
    ∃ c, ofRoots? 2 = some c ∧
      3 ≤ (differences (List.replicate 253 0 ++ [0, 0])
        ((List.replicate 252 0 ++ [1]) ++ [3, 2])).card ∧
      ∃ s ∈ c.syndromes ((List.replicate 253 (0 : UInt8) ++ [0, 0]).set 0 0x40), s ≠ 0 := by
  obtain ⟨c, hc⟩ := exists_ofRoots? (show minRoots ≤ 2 by decide) (show 2 ≤ maxRoots by decide)
  have hparity : (ofRoots? 2).map (fun c =>
      (c.parity (List.replicate 253 0), c.parity (List.replicate 252 0 ++ [1]))) =
        some ([0, 0], [3, 2]) := by
    decide +kernel
  rw [hc] at hparity
  obtain ⟨hzeros, hone⟩ := Prod.mk.inj (Option.some.inj hparity)
  have hmessage : (List.replicate 253 (0 : UInt8)).length = codeWordLength - 2 := by
    rw [List.length_replicate]
    rfl
  have hmessage' : (List.replicate 252 (0 : UInt8) ++ [1]).length = codeWordLength - 2 := by
    rw [List.length_append, List.length_replicate]
    rfl
  have hword : (List.replicate 253 (0 : UInt8) ++ [0, 0]).length = codeWordLength := by
    rw [List.length_append, List.length_replicate]
    rfl
  have hchanged : differences (List.replicate 253 0 ++ [0, 0])
      ((List.replicate 253 (0 : UInt8) ++ [0, 0]).set 0 0x40) = {0} := by
    refine differences_set (by rw [hword]; decide) ?_
    rw [List.getElem_append_left (by rw [hmessage]; decide), List.getElem_replicate]
    decide
  obtain ⟨hdistance, hdetection⟩ := distance_and_detection hc
  refine ⟨c, hc, ?_, ?_⟩
  · rw [← hzeros, ← hone]
    exact hdistance _ _ hmessage hmessage' (by decide +kernel)
  · apply hdetection _ _ hmessage (by rw [List.length_set, hword])
    · rw [hzeros, hchanged, Finset.card_singleton]
    · rw [hzeros, hchanged, Finset.card_singleton]
      decide

end Code

end SlotVerify.Fec
