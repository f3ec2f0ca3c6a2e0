import Mathlib.LinearAlgebra.Lagrange
import SlotVerify.Proofs.Fec.Field
import SlotVerify.Proofs.Fec.Parity
/-
  A message and its parity bytes are a code word, and no other parity bytes make it one.

  A word stands for a polynomial over the field, its first byte as the highest coefficient
  (`wordPolynomial`).  The generator is the product of its linear factors
  (`wordPolynomial_generator`), and encoding is the long division by it: one step of the register
  multiplies the remainder so far by `x`, brings the next byte in and takes the generator off as
  often as its leading place holds (`Code.wordPolynomial_step`).  What the division leaves, at any
  point, is the register: the dividend read so far is a multiple of the generator and it
  (`Code.exists_quotient`).

  So the message moved up and its remainder cancel at every root of the generator.  Other parity
  bytes with that property would differ from these by a polynomial with more roots than its degree
  admits (`Code.IsCodeWord.append_inj`).
-/

namespace SlotVerify.Fec

open Polynomial SlotVerify.Fec.Field

/-! ## Words as polynomials -/

/-- The polynomial of a word, its first byte as the coefficient of the highest degree. -/
noncomputable def wordPolynomial : List UInt8 → Residue[X]
  | [] => 0
  | b :: word => C (residue b) * X ^ word.length + wordPolynomial word

@[simp] theorem wordPolynomial_nil : wordPolynomial [] = 0 := rfl

theorem wordPolynomial_cons (b : UInt8) (word : List UInt8) :
    wordPolynomial (b :: word) = C (residue b) * X ^ word.length + wordPolynomial word := rfl

theorem wordPolynomial_append (v w : List UInt8) :
    wordPolynomial (v ++ w) = wordPolynomial v * X ^ w.length + wordPolynomial w := by
  induction v with
  | nil => simp
  | cons b v ih =>
    rw [List.cons_append, wordPolynomial_cons, wordPolynomial_cons, ih, List.length_append]
    ring

theorem wordPolynomial_zeros (n : Nat) : wordPolynomial (List.replicate n 0) = 0 := by
  induction n with
  | zero => rfl
  | succ n ih => simp [List.replicate_succ, wordPolynomial_cons, ih]

theorem wordPolynomial_xor : ∀ {v w : List UInt8}, v.length = w.length →
    wordPolynomial (List.zipWith (· ^^^ ·) v w) = wordPolynomial v + wordPolynomial w
  | [], [], _ => by simp
  | a :: v, b :: w, h => by
    have htail : v.length = w.length := Nat.succ.inj h
    rw [List.zipWith_cons_cons, wordPolynomial_cons, wordPolynomial_cons, wordPolynomial_cons,
      wordPolynomial_xor htail, residue_xor, C_add, List.length_zipWith, ← htail, Nat.min_self]
    ring

theorem wordPolynomial_map_mul (b : UInt8) (word : List UInt8) :
    wordPolynomial (word.map (mul b)) = C (residue b) * wordPolynomial word := by
  induction word with
  | nil => simp
  | cons a word ih =>
    rw [List.map_cons, wordPolynomial_cons, wordPolynomial_cons, ih, residue_mul, C_mul,
      List.length_map]
    ring

theorem degree_wordPolynomial_lt (word : List UInt8) :
    (wordPolynomial word).degree < word.length := by
  induction word with
  | nil => simp
  | cons b word ih =>
    have hone : ((word.length : Nat) : WithBot Nat) < (word.length + 1 : Nat) :=
      WithBot.coe_lt_coe.mpr (Nat.lt_succ_self _)
    refine lt_of_le_of_lt (degree_add_le _ _) (max_lt ?_ (ih.trans hone))
    exact lt_of_le_of_lt (degree_C_mul_X_pow_le _ _) hone

/-- Evaluating a word byte by byte is evaluating its polynomial. -/
theorem residue_evaluate (word : List UInt8) (x : UInt8) :
    residue (evaluate word x) = (wordPolynomial word).eval (residue x) := by
  have hfold : ∀ (word : List UInt8) (s : UInt8),
      residue (word.foldl (fun s b => mul s x ^^^ b) s) =
        residue s * residue x ^ word.length + (wordPolynomial word).eval (residue x) := by
    intro word
    induction word with
    | nil =>
      intro s
      simp
    | cons b word ih =>
      intro s
      rw [List.foldl_cons, ih, residue_xor, residue_mul, wordPolynomial_cons, eval_add,
        eval_C_mul, eval_pow, eval_X, List.length_cons]
      ring
  rw [evaluate, hfold, residue_zero, zero_mul, zero_add]

/-- Words of one length with the same polynomial are the same. -/
theorem eq_of_wordPolynomial_eq : ∀ {v w : List UInt8}, v.length = w.length →
    wordPolynomial v = wordPolynomial w → v = w
  | [], [], _, _ => rfl
  | a :: v, b :: w, hlength, h => by
    have htail : v.length = w.length := Nat.succ.inj hlength
    have hleading : ∀ (a : UInt8) (v : List UInt8),
        (wordPolynomial (a :: v)).coeff v.length = residue a := by
      intro a v
      rw [wordPolynomial_cons, coeff_add, coeff_C_mul_X_pow, if_pos rfl,
        coeff_eq_zero_of_degree_lt (degree_wordPolynomial_lt v), add_zero]
    -- the tails are of lower degree, so the leading coefficients are those of the first bytes
    have hhead : a = b := by
      apply residue_injective
      rw [← hleading a v, h, htail, hleading b w]
    subst hhead
    rw [wordPolynomial_cons, wordPolynomial_cons, htail] at h
    rw [eq_of_wordPolynomial_eq htail (add_left_cancel h)]

/-! ## The generator -/

theorem wordPolynomial_timesLinear (p : List UInt8) (r : UInt8) :
    wordPolynomial (timesLinear p r) = wordPolynomial p * (X - C (residue r)) := by
  have hup : wordPolynomial (p ++ [0]) = wordPolynomial p * X := by
    rw [wordPolynomial_append]
    simp [wordPolynomial_cons]
  have hscaled : wordPolynomial (0 :: p.map (mul r)) = C (residue r) * wordPolynomial p := by
    rw [wordPolynomial_cons, wordPolynomial_map_mul]
    simp
  unfold timesLinear
  rw [wordPolynomial_xor (by simp), hup, hscaled, CharTwo.sub_eq_add]
  ring

/-- The generator is the product of its linear factors. -/
theorem wordPolynomial_generator (n : Nat) :
    wordPolynomial (generator n) = ∏ i ∈ Finset.range n, (X - C (alpha ^ i)) := by
  induction n with
  | zero => simp [generator, wordPolynomial_cons]
  | succ n ih =>
    rw [generator, wordPolynomial_timesLinear, ih, residue_power, Finset.prod_range_succ]

theorem generator_eq_cons (n : Nat) : generator n = 1 :: (generator n).tail := by
  induction n with
  | zero => rfl
  | succ n ih =>
    rw [generator, ih]
    rfl

theorem eval_generator {n i : Nat} (hi : i < n) :
    (wordPolynomial (generator n)).eval (alpha ^ i) = 0 := by
  rw [wordPolynomial_generator, eval_prod]
  exact Finset.prod_eq_zero (Finset.mem_range.mpr hi) (by simp)

/-- The tabled multiples leave the generator's leading coefficient out. -/
theorem wordPolynomial_generatorMultiple (roots : Nat) (b : UInt8) :
    C (residue b) * X ^ roots + wordPolynomial (generatorMultiple roots b) =
      C (residue b) * wordPolynomial (generator roots) := by
  have htail : (generator roots).tail.length = roots := by simp [length_generator]
  rw [generatorMultiple, wordPolynomial_map_mul, generator_eq_cons, wordPolynomial_cons, htail,
    residue_one, C_1, List.tail_cons]
  ring

namespace Code

variable {c : Code}

/-! ## The division -/

/-- One step of the long division: with the next byte brought in, the remainder so far differs from
    the next one by a multiple of the generator. -/
theorem wordPolynomial_step {register : List UInt8} (hpos : 0 < c.roots)
    (h : register.length = c.roots) (m : UInt8) :
    wordPolynomial register * X + C (residue m) * X ^ c.roots =
      C (residue (m ^^^ register.headD 0)) * wordPolynomial (generator c.roots) +
        wordPolynomial (c.step register m) := by
  cases register with
  | nil => exact absurd hpos (by simp [← h])
  | cons a rest =>
    have hrest : rest.length + 1 = c.roots := h
    have hlengths : (rest ++ [0]).length =
        (generatorMultiple c.roots (m ^^^ a)).length := by
      rw [length_generatorMultiple, ← hrest]
      simp
    have hstep : wordPolynomial (c.step (a :: rest) m) =
        wordPolynomial rest * X + wordPolynomial (generatorMultiple c.roots (m ^^^ a)) := by
      unfold step
      simp only [getD_multiples, List.headD_cons, List.tail_cons]
      rw [wordPolynomial_xor hlengths, wordPolynomial_append]
      simp [wordPolynomial_cons]
    -- The leading place cancels: it is in the remainder as well as in the multiple.
    rw [hstep, List.headD_cons, ← wordPolynomial_generatorMultiple, wordPolynomial_cons,
      residue_xor, C_add, ← hrest]
    linear_combination
      -CharTwo.add_self_eq_zero (wordPolynomial (generatorMultiple (rest.length + 1) (m ^^^ a)))

/-- The dividend read so far is a multiple of the generator and what the register holds. -/
theorem exists_quotient (hpos : 0 < c.roots) (message : List UInt8) :
    ∀ register : List UInt8, register.length = c.roots →
      ∃ q : Residue[X],
        wordPolynomial register * X ^ message.length + wordPolynomial message * X ^ c.roots =
          q * wordPolynomial (generator c.roots) +
            wordPolynomial (message.foldl c.step register) := by
  induction message with
  | nil =>
    intro register _
    exact ⟨0, by simp⟩
  | cons m rest ih =>
    intro register h
    obtain ⟨q, hq⟩ := ih (c.step register m) (length_step hpos h m)
    refine ⟨C (residue (m ^^^ register.headD 0)) * X ^ rest.length + q, ?_⟩
    have hstep := wordPolynomial_step hpos h m
    rw [List.foldl_cons, wordPolynomial_cons, List.length_cons]
    linear_combination X ^ rest.length * hstep + hq

/-- A message with its parity bytes is a multiple of the generator. -/
theorem generator_dvd_append_parity (hpos : 0 < c.roots) (message : List UInt8) :
    wordPolynomial (generator c.roots) ∣ wordPolynomial (message ++ c.parity message) := by
  obtain ⟨q, hq⟩ := exists_quotient hpos message _ List.length_replicate
  rw [wordPolynomial_zeros, zero_mul, zero_add] at hq
  refine ⟨q, ?_⟩
  rw [wordPolynomial_append, length_parity hpos, hq, parity, add_assoc,
    CharTwo.add_self_eq_zero, add_zero, mul_comm]

/-- The register is cleared, whatever the buffer held. -/
theorem parityOver_eq_parity (message : List UInt8) {buffer : List UInt8}
    (h : buffer.length = c.roots) : c.parityOver message buffer = c.parity message := by
  rw [parityOver, parity, List.map_const', h]

/-! ## Code words -/

/-- A word of the code: its polynomial vanishes at all roots of the generator. -/
structure IsCodeWord (c : Code) (word : List UInt8) : Prop where
  length : word.length = codeWordLength
  eval : ∀ i < c.roots, (wordPolynomial word).eval (alpha ^ i) = 0

/-- Code words are the words without syndromes. -/
theorem isCodeWord_iff_syndromes {word : List UInt8} (h : word.length = codeWordLength) :
    c.IsCodeWord word ↔ ∀ s ∈ c.syndromes word, s = 0 := by
  have hroot : ∀ i, (wordPolynomial word).eval (alpha ^ i) = 0 ↔ evaluate word (power i) = 0 := by
    intro i
    rw [← residue_power, ← residue_evaluate, ← residue_zero]
    exact residue_injective.eq_iff
  constructor
  · intro hword s hs
    obtain ⟨i, hi, rfl⟩ := List.mem_map.mp hs
    exact (hroot i).mp (hword.eval i (List.mem_range.mp hi))
  · intro hsyndromes
    refine ⟨h, fun i hi => (hroot i).mpr ?_⟩
    exact hsyndromes _ (List.mem_map_of_mem (List.mem_range.mpr hi))

theorem isCodeWord_append_parity {roots : Nat} (h : ofRoots? roots = some c)
    {message : List UInt8} (hmessage : message.length = codeWordLength - roots) :
    c.IsCodeWord (message ++ c.parity message) := by
  obtain ⟨rfl, -, hmax⟩ := of_ofRoots? h
  have hpos := roots_pos h
  refine ⟨?_, ?_⟩
  · rw [List.length_append, length_parity hpos, hmessage]
    exact Nat.sub_add_cancel (Nat.le_trans hmax (by decide))
  · intro i hi
    exact eval_eq_zero_of_dvd_of_eval_eq_zero (generator_dvd_append_parity hpos message)
      (eval_generator hi)

/-- The end of a code word follows from its beginning: two of them would differ by a polynomial
    with more roots than its degree. -/
theorem IsCodeWord.append_inj {message p q : List UInt8} (hp : p.length = c.roots)
    (hq : q.length = c.roots) (hpword : c.IsCodeWord (message ++ p))
    (hqword : c.IsCodeWord (message ++ q)) : p = q := by
  have hmax : c.roots ≤ 255 := by
    rw [← hp, ← show codeWordLength = 255 from rfl, ← hpword.length, List.length_append]
    exact Nat.le_add_left _ _
  have hdegree : ∀ w : List UInt8, w.length = c.roots →
      (wordPolynomial w).degree < (Finset.range c.roots).card := by
    intro w hw
    rw [Finset.card_range, ← hw]
    exact degree_wordPolynomial_lt w
  have hinjective : Set.InjOn (fun i => alpha ^ i) (Finset.range c.roots) := by
    intro i hi j hj h
    have hi := Finset.mem_range.mp hi
    have hj := Finset.mem_range.mp hj
    exact alpha_pow_inj (Nat.lt_of_lt_of_le hi hmax) (Nat.lt_of_lt_of_le hj hmax) h
  apply eq_of_wordPolynomial_eq (hp.trans hq.symm)
  refine eq_of_degrees_lt_of_eval_index_eq _ hinjective (hdegree p hp) (hdegree q hq) ?_
  -- The message is the same in both words, so the ends have the same value at every root.
  intro i hi
  have hpeval := hpword.eval i (Finset.mem_range.mp hi)
  have hqeval := hqword.eval i (Finset.mem_range.mp hi)
  rw [wordPolynomial_append, eval_add, hp] at hpeval
  rw [wordPolynomial_append, eval_add, hq, ← hpeval] at hqeval
  exact (add_left_cancel hqeval).symm

/-- Encoding makes a code word of a message, whatever the buffer for the parity bytes held before,
    and no other parity bytes do. -/
theorem isCodeWord_append_iff {roots : Nat} (h : ofRoots? roots = some c) {message : List UInt8}
    (hmessage : message.length = codeWordLength - roots) :
    (c.parity message).length = roots ∧
      (∀ buffer : List UInt8, buffer.length = roots →
        c.parityOver message buffer = c.parity message) ∧
      ∀ p : List UInt8, p.length = roots →
        (c.IsCodeWord (message ++ p) ↔ p = c.parity message) := by
  have hparity := isCodeWord_append_parity h hmessage
  obtain ⟨rfl, hmin, -⟩ := of_ofRoots? h
  have hlength : (c.parity message).length = c.roots :=
    length_parity (Nat.lt_of_lt_of_le (by decide) hmin) message
  refine ⟨hlength, fun buffer => parityOver_eq_parity message, ?_⟩
  intro p hp
  constructor
  · intro hword
    exact hword.append_inj hp hlength hparity
  · rintro rfl
    exact hparity

/-- With two roots, the message whose polynomial is `x^2` has the rest of the generator
    `x^2 + 3x + 2` as its parity bytes. -/
theorem isCodeWord_append_iff_generator :
    ∃ c, ofRoots? 2 = some c ∧
      c.parityOver (List.replicate 252 0 ++ [1]) [0xff, 0xff] = [3, 2] ∧
      ∀ p : List UInt8, p.length = 2 →
        (c.IsCodeWord ((List.replicate 252 0 ++ [1]) ++ p) ↔ p = [3, 2]) := by
  obtain ⟨c, hc⟩ := exists_ofRoots? (show minRoots ≤ 2 by decide) (show 2 ≤ maxRoots by decide)
  have hparity : (ofRoots? 2).map (fun c => c.parity (List.replicate 252 0 ++ [1])) =
      some [3, 2] := by
    decide +kernel
  rw [hc] at hparity
  have hparity : c.parity (List.replicate 252 0 ++ [1]) = [3, 2] := Option.some.inj hparity
  have hmessage : (List.replicate 252 (0 : UInt8) ++ [1]).length = codeWordLength - 2 := by
    rw [List.length_append, List.length_replicate]
    rfl
  obtain ⟨-, hbuffer, hunique⟩ := isCodeWord_append_iff hc hmessage
  rw [hparity] at hbuffer hunique
  exact ⟨c, hc, hbuffer _ rfl, hunique⟩

end Code

end SlotVerify.Fec
