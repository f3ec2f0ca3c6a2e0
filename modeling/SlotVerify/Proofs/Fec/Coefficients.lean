import SlotVerify.Proofs.Fec.Distance
/-
  The generator's coefficients, one by one.

  1. A factor more makes a coefficient out of two (`coefficient_succ_zero`,
     `coefficient_succ_succ`).
  2. None of them is zero.  The generator at the end of a word of zeros makes a code word
     (`Code.isCodeWord_generatorWord`).  It differs from the code word of zeros in more places than
     there are roots, and it has only one place more than that which could be other than zero.
  3. A step of the register adds a coefficient's multiple at each place (`Code.getD_step`).

  Main result: `Code.coefficient_ne_zero`.
-/

namespace SlotVerify.Fec

open SlotVerify.Fec.Field

/-- The generator's coefficients, the lowest first, with zeros behind the leading one. -/
def coefficient (n k : Nat) : UInt8 := (generator n).reverse.getD k 0

theorem coefficient_of_lt {n k : Nat} (h : n < k) : coefficient n k = 0 := by
  refine List.getD_eq_default _ _ ?_
  rw [List.length_reverse, length_generator]
  exact h

theorem coefficient_self (n : Nat) : coefficient n n = 1 := by
  unfold coefficient
  rw [generator_eq_cons, List.reverse_cons, List.getD_append_right]
  · simp [length_generator]
  · simp [length_generator]

theorem getD_zipWith_xor : ∀ {v w : List UInt8}, v.length = w.length → ∀ k,
    (List.zipWith (· ^^^ ·) v w).getD k 0 = v.getD k 0 ^^^ w.getD k 0
  | [], [], _, k => by simp
  | _ :: _, _ :: _, _, 0 => rfl
  | _ :: v, _ :: w, h, k + 1 => getD_zipWith_xor (v := v) (w := w) (Nat.succ.inj h) k

theorem getD_append_zero : ∀ (word : List UInt8) (k : Nat),
    (word ++ [0]).getD k 0 = word.getD k 0
  | [], 0 => rfl
  | [], _ + 1 => rfl
  | _ :: _, 0 => rfl
  | _ :: word, k + 1 => getD_append_zero word k

theorem getD_map_mul (b : UInt8) : ∀ (word : List UInt8) (k : Nat),
    (word.map (mul b)).getD k 0 = mul b (word.getD k 0)
  | [], _ => (mul_zero_right b).symm
  | _ :: _, 0 => rfl
  | _ :: word, k + 1 => getD_map_mul b word k

/-- The coefficients after one more factor, with a zero in front of those before. -/
theorem coefficient_succ (n k : Nat) :
    coefficient (n + 1) k =
      (0 :: (generator n).reverse).getD k 0 ^^^ mul (power n) (coefficient n k) := by
  have hreverse : (generator (n + 1)).reverse =
      List.zipWith (· ^^^ ·) (0 :: (generator n).reverse)
        ((generator n).reverse.map (mul (power n)) ++ [0]) := by
    show (timesLinear _ _).reverse = _
    unfold timesLinear
    rw [List.reverse_zipWith (by simp)]
    simp
  unfold coefficient
  rw [hreverse, getD_zipWith_xor (by simp), getD_append_zero, getD_map_mul]

theorem coefficient_succ_zero (n : Nat) :
    coefficient (n + 1) 0 = mul (power n) (coefficient n 0) := by
  rw [coefficient_succ, List.getD_cons_zero, UInt8.zero_xor]

theorem coefficient_succ_succ (n k : Nat) :
    coefficient (n + 1) (k + 1) =
      coefficient n k ^^^ mul (power n) (coefficient n (k + 1)) := by
  rw [coefficient_succ, List.getD_cons_succ]
  rfl

/-- The lowest coefficient is a product of powers. -/
theorem coefficient_zero_ne_zero (n : Nat) : coefficient n 0 ≠ 0 := by
  have hpower : ∃ m, coefficient n 0 = power m := by
    induction n with
    | zero => exact ⟨0, rfl⟩
    | succ n ih =>
      obtain ⟨m, hm⟩ := ih
      rw [coefficient_succ_zero, hm]
      exact ⟨_, mul_power n m⟩
  obtain ⟨m, hm⟩ := hpower
  rw [hm]
  exact power_ne_zero m

/-- The generator without its leading coefficient, place by place. -/
theorem getD_tail_generator {roots k : Nat} (hk : k < roots) :
    (generator roots).tail.getD k 0 = coefficient roots (roots - 1 - k) := by
  unfold coefficient
  rw [List.getD_reverse _ (by rw [length_generator]; omega), length_generator,
    show roots + 1 - 1 - (roots - 1 - k) = k + 1 by omega, generator_eq_cons, List.getD_cons_succ,
    List.tail_cons]

/-- The generator at the end of a word of zeros. -/
def generatorWord (roots : Nat) : List UInt8 :=
  List.replicate (codeWordLength - 1 - roots) 0 ++ generator roots

theorem getD_generatorWord {roots j : Nat} (hroots : roots < codeWordLength)
    (hj : j < codeWordLength) :
    (generatorWord roots).getD j 0 = coefficient roots (codeWordLength - 1 - j) := by
  unfold generatorWord
  rcases Nat.lt_or_ge j (codeWordLength - 1 - roots) with hbefore | hbehind
  · rw [List.getD_append _ _ _ _ (by rwa [List.length_replicate]), coefficient_of_lt (by omega)]
    simp
  · unfold coefficient
    rw [List.getD_append_right _ _ _ _ (by rwa [List.length_replicate]), List.length_replicate,
      List.getD_reverse _ (by rw [length_generator]; omega), length_generator]
    congr 1
    omega

namespace Code

variable {c : Code}

theorem isCodeWord_generatorWord (hroots : c.roots < codeWordLength) :
    c.IsCodeWord (generatorWord c.roots) := by
  refine ⟨?_, fun i hi => ?_⟩
  · rw [generatorWord, List.length_append, List.length_replicate, length_generator]
    omega
  · rw [generatorWord, wordPolynomial_append, wordPolynomial_zeros, zero_mul, zero_add]
    exact eval_generator hi

theorem isCodeWord_zeros : c.IsCodeWord (List.replicate codeWordLength 0) := by
  refine ⟨List.length_replicate, fun i _ => ?_⟩
  rw [wordPolynomial_zeros, Polynomial.eval_zero]

/-- The generator differs from zeros only where it has a coefficient other than zero. -/
theorem coefficient_ne_zero_of_mem_differences (hroots : c.roots < codeWordLength) {j : Nat}
    (hj : j ∈ differences (generatorWord c.roots) (List.replicate codeWordLength 0)) :
    j < codeWordLength ∧ coefficient c.roots (codeWordLength - 1 - j) ≠ 0 := by
  have hword := isCodeWord_generatorWord hroots
  obtain ⟨hlt, hbyte⟩ := (hword.mem_differences_iff isCodeWord_zeros).mp hj
  refine ⟨hlt, fun hzero => hbyte ?_⟩
  have hlength := hword.length.trans (isCodeWord_zeros (c := c)).length.symm
  rw [← disagreement_eq_zero_iff hlength, disagreement, getD_generatorWord hroots hlt, hzero]
  simp

/-- With a coefficient that is zero, there are no more such places than there are roots. -/
theorem card_differences_le (hroots : c.roots < codeWordLength) {k : Nat} (hk : k ≤ c.roots)
    (hzero : coefficient c.roots k = 0) :
    (differences (generatorWord c.roots) (List.replicate codeWordLength 0)).card ≤ c.roots := by
  have hplaces : differences (generatorWord c.roots) (List.replicate codeWordLength 0) ⊆
      ((Finset.range (c.roots + 1)).erase k).image (codeWordLength - 1 - ·) := by
    intro j hj
    obtain ⟨hlt, hnonzero⟩ := coefficient_ne_zero_of_mem_differences hroots hj
    have hle : codeWordLength - 1 - j < c.roots + 1 := by
      by_contra hout
      exact hnonzero (coefficient_of_lt (by omega))
    have hother : codeWordLength - 1 - j ≠ k := by
      rintro rfl
      exact hnonzero hzero
    exact Finset.mem_image.mpr ⟨_, Finset.mem_erase.mpr ⟨hother, Finset.mem_range.mpr hle⟩,
      by omega⟩
  refine (Finset.card_le_card hplaces).trans (Finset.card_image_le.trans ?_)
  rw [Finset.card_erase_of_mem (Finset.mem_range.mpr (Nat.lt_succ_of_le hk)), Finset.card_range]
  exact Nat.le_refl _

/-- No coefficient of the generator is zero: it has one more than there are roots, and it differs
    from zeros in more places than there are roots. -/
theorem coefficient_ne_zero (hroots : c.roots < codeWordLength) {k : Nat} (hk : k ≤ c.roots) :
    coefficient c.roots k ≠ 0 := by
  intro hzero
  have hne : generatorWord c.roots ≠ List.replicate codeWordLength 0 := by
    intro hsame
    have hleading := getD_generatorWord hroots (j := codeWordLength - 1 - c.roots) (by omega)
    rw [hsame, show codeWordLength - 1 - (codeWordLength - 1 - c.roots) = c.roots by omega,
      coefficient_self] at hleading
    simp at hleading
  have hmany := (isCodeWord_generatorWord hroots).lt_card_differences isCodeWord_zeros hne
  exact absurd (card_differences_le hroots hk hzero) (Nat.not_le.mpr hmany)

/-- A step of the register, place by place. -/
theorem getD_step (c : Code) {register : List UInt8} (hregister : register.length = c.roots)
    (m : UInt8) {k : Nat} (hk : k < c.roots) :
    (c.step register m).getD k 0 =
      register.getD (k + 1) 0 ^^^
        mul (m ^^^ register.headD 0) (coefficient c.roots (c.roots - 1 - k)) := by
  cases register with
  | nil => exact absurd hk (by simp [← hregister])
  | cons a rest =>
    have hlength : (rest ++ [0]).length = (generatorMultiple c.roots (m ^^^ a)).length := by
      rw [length_generatorMultiple, ← hregister]
      simp
    unfold step
    simp only [getD_multiples, List.headD_cons, List.tail_cons]
    rw [getD_zipWith_xor hlength, getD_append_zero, generatorMultiple, getD_map_mul,
      getD_tail_generator hk, List.getD_cons_succ]

end Code

end SlotVerify.Fec
