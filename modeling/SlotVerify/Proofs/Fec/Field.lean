import Mathlib.RingTheory.AdjoinRoot
import Mathlib.Algebra.Field.ZMod
import Mathlib.Data.Nat.Bitwise
import Mathlib.SetTheory.Cardinal.NatCard
import Mathlib.GroupTheory.OrderOfElement
import Mathlib.Tactic.ComputeDegree
import SlotVerify.Fec.Field
/-
  The field with 256 elements is one.

  A byte stands for a polynomial over the two-element field, and that for its residue modulo the
  field polynomial `x^8 + x^4 + x^3 + x^2 + 1` (`residue`).  Exclusive or is the sum of residues
  (`residue_xor`), and the schoolbook product is their product (`residue_mul`): one turn of its loop
  takes the lowest bit of the first factor off and moves the second factor up by `x`.

  Different bytes have different residues by their degree (`residue_injective`), and every residue
  is that of a byte (`exists_residue_eq`), so there are 256 of them.  Since `x` has order 255
  (`orderOf_alpha`), its powers are all residues but zero (`eq_zero_or_exists_pow`), and each of
  them is invertible (`isField`).  So the product may also be had from logarithms (`mul_power`,
  `exists_power_eq`).
-/

namespace SlotVerify.Fec.Field

open Polynomial

/-! ## Bytes as polynomials -/

/-- A bit as a coefficient. -/
def coefficient (bit : Bool) : ZMod 2 := if bit then 1 else 0

theorem coefficient_xor (a b : Bool) : coefficient (a ^^ b) = coefficient a + coefficient b := by
  cases a <;> cases b <;> decide

/-- The low `n` bits of a byte as a polynomial, the lowest as the constant term. -/
noncomputable def bitsPolynomial (n : Nat) (a : UInt8) : (ZMod 2)[X] :=
  ∑ i ∈ Finset.range n, C (coefficient (a.toNat.testBit i)) * X ^ i

theorem coeff_bitsPolynomial (n : Nat) (a : UInt8) (i : Nat) :
    (bitsPolynomial n a).coeff i = if i < n then coefficient (a.toNat.testBit i) else 0 := by
  simp [bitsPolynomial, coeff_X_pow]

theorem degree_bitsPolynomial_lt (n : Nat) (a : UInt8) : (bitsPolynomial n a).degree < n := by
  rw [degree_lt_iff_coeff_zero]
  intro i hi
  rw [coeff_bitsPolynomial, if_neg (Nat.not_lt.mpr hi)]

theorem bitsPolynomial_xor (n : Nat) (a b : UInt8) :
    bitsPolynomial n (a ^^^ b) = bitsPolynomial n a + bitsPolynomial n b := by
  ext i
  rw [coeff_add, coeff_bitsPolynomial, coeff_bitsPolynomial, coeff_bitsPolynomial]
  split
  · rw [UInt8.toNat_xor, Nat.testBit_xor]
    exact coefficient_xor _ _
  · rw [add_zero]

@[simp] theorem bitsPolynomial_zero (n : Nat) : bitsPolynomial n 0 = 0 := by
  simp [bitsPolynomial, coefficient]

/-- The lowest bit apart from the others. -/
theorem bitsPolynomial_succ (n : Nat) (a : UInt8) :
    bitsPolynomial (n + 1) a =
      C (coefficient (a.toNat.testBit 0)) + X * bitsPolynomial n (a >>> 1) := by
  have hshift : ∀ i, (a >>> 1).toNat.testBit i = a.toNat.testBit (i + 1) := by
    intro i
    rw [UInt8.toNat_shiftRight]
    exact (Nat.testBit_shiftRight _).trans (congrArg _ (Nat.add_comm 1 i))
  unfold bitsPolynomial
  rw [Finset.sum_range_succ', Finset.mul_sum, add_comm, pow_zero, mul_one]
  refine congrArg (C _ + ·) (Finset.sum_congr rfl fun i _ => ?_)
  rw [hshift, pow_succ]
  ring

/-! ## Residues -/

/-- The field polynomial. -/
noncomputable def modulus : (ZMod 2)[X] := X ^ 8 + (X ^ 4 + X ^ 3 + X ^ 2 + 1)

theorem monic_modulus : modulus.Monic := by
  unfold modulus
  apply monic_X_pow_add
  compute_degree!

theorem degree_modulus : modulus.degree = 8 := by
  unfold modulus
  compute_degree!

/-- Polynomials over the two-element field modulo the field polynomial. -/
abbrev Residue := AdjoinRoot modulus

/-- The residue of `x`, of which all others but zero are powers. -/
noncomputable abbrev alpha : Residue := AdjoinRoot.root modulus

instance : Nontrivial Residue :=
  AdjoinRoot.nontrivial modulus (by rw [degree_modulus]; decide)

/-- Sums cancel in pairs, as they do for bits. -/
instance : CharP Residue 2 := by
  refine CharTwo.of_one_ne_zero_of_two_eq_zero one_ne_zero ?_
  rw [← map_ofNat (AdjoinRoot.of modulus) 2, show (OfNat.ofNat 2 : ZMod 2) = 0 from rfl, map_zero]

/-- The residue that a byte stands for. -/
noncomputable def residue (a : UInt8) : Residue := AdjoinRoot.mk modulus (bitsPolynomial 8 a)

theorem residue_xor (a b : UInt8) : residue (a ^^^ b) = residue a + residue b := by
  unfold residue
  rw [bitsPolynomial_xor, map_add]

@[simp] theorem residue_zero : residue 0 = 0 := by
  have h := residue_xor 0 0
  rwa [show (0 : UInt8) ^^^ 0 = 0 from rfl, left_eq_add] at h

@[simp] theorem residue_one : residue 1 = 1 := by
  have hbits : bitsPolynomial 8 1 = 1 := by
    rw [bitsPolynomial_succ, show (1 : UInt8) >>> 1 = 0 from rfl, bitsPolynomial_zero, mul_zero,
      add_zero]
    exact C_1
  unfold residue
  rw [hbits, map_one]

/-- Bytes with one residue are the same: a difference of degree below eight is no multiple of the
    field polynomial. -/
theorem residue_injective : Function.Injective residue := by
  intro a b h
  have hmod : AdjoinRoot.mk modulus (bitsPolynomial 8 (a ^^^ b)) = 0 := by
    show residue (a ^^^ b) = 0
    rw [residue_xor, h]
    exact CharTwo.add_self_eq_zero _
  have hbits : bitsPolynomial 8 (a ^^^ b) = 0 := by
    by_contra hne
    refine AdjoinRoot.mk_ne_zero_of_degree_lt monic_modulus hne ?_ hmod
    rw [degree_modulus]
    exact degree_bitsPolynomial_lt 8 _
  -- a polynomial without coefficients is that of a byte without bits
  have hxor : a ^^^ b = 0 := by
    apply UInt8.toNat.inj
    refine Nat.eq_of_testBit_eq fun i => ?_
    rw [UInt8.toNat_zero, Nat.zero_testBit]
    rcases Nat.lt_or_ge i 8 with hi | hi
    · have hbit := coeff_bitsPolynomial 8 (a ^^^ b) i
      rw [hbits, coeff_zero, if_pos hi] at hbit
      cases hvalue : (a ^^^ b).toNat.testBit i with
      | false => rfl
      | true =>
        rw [hvalue] at hbit
        exact absurd hbit (by decide)
    · exact Nat.testBit_lt_two_pow (Nat.lt_of_lt_of_le (UInt8.toNat_lt _) (Nat.pow_le_pow_right
        Nat.two_pos hi))
  exact UInt8.xor_eq_zero_iff.mp hxor

/-! ## The product -/

/-- Moving all bits up takes the highest one out. -/
theorem X_mul_bitsPolynomial (a : UInt8) :
    X * bitsPolynomial 8 a =
      bitsPolynomial 8 (a <<< 1) + C (coefficient (a.toNat.testBit 7)) * X ^ 8 := by
  have hup : (a <<< 1).toNat = a.toNat <<< 1 % 2 ^ 8 := UInt8.toNat_shiftLeft a 1
  have hlowest : (a <<< 1).toNat.testBit 0 = false := by
    rw [hup, Nat.testBit_mod_two_pow, Nat.testBit_shiftLeft]
    rfl
  have hothers : bitsPolynomial 7 ((a <<< 1) >>> 1) = bitsPolynomial 7 a := by
    ext i
    rw [coeff_bitsPolynomial, coeff_bitsPolynomial]
    split
    · rename_i hi
      have hdown : ((a <<< 1) >>> 1).toNat = (a <<< 1).toNat >>> 1 := UInt8.toNat_shiftRight _ 1
      rw [hdown, hup, Nat.testBit_shiftRight, Nat.testBit_mod_two_pow, Nat.testBit_shiftLeft,
        decide_eq_true (by omega : 1 + i < 8), decide_eq_true (by omega : 1 + i ≥ 1),
        Nat.add_sub_cancel_left]
      rfl
    · rfl
  have hhighest : bitsPolynomial 8 a =
      bitsPolynomial 7 a + C (coefficient (a.toNat.testBit 7)) * X ^ 7 :=
    Finset.sum_range_succ _ 7
  rw [bitsPolynomial_succ 7 (a <<< 1), hlowest, hothers, hhighest]
  have hnone : coefficient false = 0 := rfl
  rw [hnone, C_0]
  ring

/-- A bit that is asked for by its mask. -/
theorem and_eq_zero_iff (a mask : UInt8) (i : Nat) (h : mask.toNat = 2 ^ i) :
    a &&& mask = 0 ↔ a.toNat.testBit i = false := by
  rw [← UInt8.toNat_inj, UInt8.toNat_and, h, Nat.and_two_pow, UInt8.toNat_zero]
  cases a.toNat.testBit i with
  | false => simp
  | true => simp

/-- The field polynomial vanishes at its root. -/
theorem residue_reduction : residue reduction = alpha ^ 8 := by
  have hbits : bitsPolynomial 8 reduction = X ^ 4 + X ^ 3 + X ^ 2 + 1 := by
    simp [bitsPolynomial, Finset.sum_range_succ, reduction, coefficient, Nat.testBit]
    ring
  have hroot : AdjoinRoot.mk modulus (X ^ 8 + (X ^ 4 + X ^ 3 + X ^ 2 + 1)) = 0 :=
    AdjoinRoot.mk_self
  unfold residue
  rw [map_add, CharTwo.add_eq_zero, map_pow, AdjoinRoot.mk_X] at hroot
  rw [hbits, hroot]

theorem residue_timesX (a : UInt8) : residue (timesX a) = alpha * residue a := by
  have hmoved : alpha * residue a = residue (a <<< 1) +
      AdjoinRoot.mk modulus (C (coefficient (a.toNat.testBit 7))) * alpha ^ 8 := by
    have h := congrArg (AdjoinRoot.mk modulus) (X_mul_bitsPolynomial a)
    rwa [map_mul, map_add, map_mul, map_pow, AdjoinRoot.mk_X] at h
  rw [hmoved]
  unfold timesX
  have hhighest := and_eq_zero_iff a 0x80 7 rfl
  split
  · rename_i h
    rw [hhighest.mp h]
    simp [coefficient]
  · rename_i h
    rw [hhighest, Bool.not_eq_false] at h
    rw [h, residue_xor, residue_reduction]
    simp [coefficient]

/-- The turns of the product's loop that are left, with the second factor moved up so far. -/
theorem residue_mulBits (n : Nat) : ∀ a b : UInt8,
    residue (mulBits n a b) = AdjoinRoot.mk modulus (bitsPolynomial n a) * residue b := by
  induction n with
  | zero =>
    intro a b
    simp [mulBits, bitsPolynomial]
  | succ n ih =>
    intro a b
    have hlowest := and_eq_zero_iff a 1 0 rfl
    have hbit : residue (if a &&& 1 = 0 then 0 else b) =
        AdjoinRoot.mk modulus (C (coefficient (a.toNat.testBit 0))) * residue b := by
      split
      · rename_i h
        rw [hlowest.mp h]
        simp [coefficient]
      · rename_i h
        rw [hlowest, Bool.not_eq_false] at h
        rw [h]
        simp [coefficient]
    rw [mulBits, residue_xor, ih, hbit, residue_timesX, bitsPolynomial_succ, map_add, map_mul,
      AdjoinRoot.mk_X]
    ring

/-- The schoolbook product of bytes is the product of their residues. -/
theorem residue_mul (a b : UInt8) : residue (mul a b) = residue a * residue b :=
  residue_mulBits 8 a b

theorem residue_power (n : Nat) : residue (power n) = alpha ^ n := by
  induction n with
  | zero => exact residue_one
  | succ n ih =>
    show residue (timesX (power n)) = _
    rw [residue_timesX, ih, pow_succ']

/-! ## The field -/

/-- Sums and multiples of `x` lead from bytes to bytes. -/
theorem exists_residue_eq (z : Residue) : ∃ a, residue a = z := by
  induction z using AdjoinRoot.induction_on with
  | ih p =>
    induction p using Polynomial.induction_on with
    | C c =>
      -- the constants are the two elements of the field below
      fin_cases c
      · exact ⟨0, by rw [residue_zero]; exact (map_zero (AdjoinRoot.of modulus)).symm⟩
      · exact ⟨1, by rw [residue_one]; exact (map_one (AdjoinRoot.of modulus)).symm⟩
    | add p q hp hq =>
      obtain ⟨a, ha⟩ := hp
      obtain ⟨b, hb⟩ := hq
      exact ⟨a ^^^ b, by rw [residue_xor, ha, hb, map_add]⟩
    | monomial n c h =>
      obtain ⟨a, ha⟩ := h
      have hup : C c * X ^ (n + 1) = X * (C c * X ^ n) := by ring
      refine ⟨timesX a, ?_⟩
      rw [residue_timesX, ha, hup, map_mul _ X, AdjoinRoot.mk_X]

/-- The element `x` has the largest order possible: none of the proper divisors of 255 will do. -/
theorem orderOf_alpha : orderOf alpha = 255 := by
  have hne : ∀ n, power n ≠ 1 → alpha ^ n ≠ 1 := by
    intro n hn h
    rw [← residue_power, ← residue_one] at h
    exact hn (residue_injective h)
  refine orderOf_eq_of_pow_and_pow_div_prime (by decide) ?_ ?_
  · rw [← residue_power, show power 255 = 1 by decide +kernel, residue_one]
  · intro p hp hdvd
    -- it is enough to look at the order without one of its prime factors
    have hcases : p = 3 ∨ p = 5 ∨ p = 17 := by
      rw [show 255 = 3 * 5 * 17 from rfl, hp.dvd_mul, hp.dvd_mul,
        Nat.prime_dvd_prime_iff_eq hp (by decide), Nat.prime_dvd_prime_iff_eq hp (by decide),
        Nat.prime_dvd_prime_iff_eq hp (by decide)] at hdvd
      tauto
    rcases hcases with rfl | rfl | rfl
    · exact hne 85 (by decide +kernel)
    · exact hne 51 (by decide +kernel)
    · exact hne 15 (by decide +kernel)

theorem surjective_residue_ofNat :
    Function.Surjective fun n : Fin 256 => residue (UInt8.ofNat n) := by
  intro z
  obtain ⟨a, rfl⟩ := exists_residue_eq z
  exact ⟨⟨a.toNat, a.toNat_lt⟩, congrArg residue UInt8.ofNat_toNat⟩

instance : Finite Residue := Finite.of_surjective _ surjective_residue_ofNat

/-- There are no more residues than bytes. -/
theorem card_residue_le : Nat.card Residue ≤ 256 := by
  have hcard := Nat.card_le_card_of_surjective _ surjective_residue_ofNat
  rwa [Nat.card_fin] at hcard

theorem alpha_pow_ne_zero (n : Nat) : alpha ^ n ≠ 0 := by
  have hone : alpha ^ 255 = 1 := by
    rw [← orderOf_alpha]
    exact pow_orderOf_eq_one _
  have hunit : IsUnit alpha := IsUnit.of_pow_eq_one hone (by decide)
  exact (hunit.pow n).ne_zero

/-- The powers of `x` below its order are different. -/
theorem alpha_pow_inj {m n : Nat} (hm : m < 255) (hn : n < 255)
    (h : alpha ^ m = alpha ^ n) : m = n := by
  rw [← orderOf_alpha] at hm hn
  exact pow_injOn_Iio_orderOf hm hn h

/-- The powers of `x` and zero are all residues, since there are as many of them as bytes. -/
theorem eq_zero_or_exists_pow (z : Residue) : z = 0 ∨ ∃ n, n < 255 ∧ z = alpha ^ n := by
  have hinjective : Function.Injective fun o : Option (Fin 255) =>
      o.elim 0 fun n => alpha ^ (n : Nat) := by
    intro o o' h
    cases o with
    | none =>
      cases o' with
      | none => rfl
      | some n => exact absurd h.symm (alpha_pow_ne_zero n)
    | some n =>
      cases o' with
      | none => exact absurd h (alpha_pow_ne_zero n)
      | some n' => exact congrArg some (Fin.ext (alpha_pow_inj n.isLt n'.isLt h))
  have hbijective := hinjective.bijective_of_nat_card_le (by simpa using card_residue_le)
  obtain ⟨o, ho⟩ := hbijective.surjective z
  cases o with
  | none => exact Or.inl ho.symm
  | some n => exact Or.inr ⟨n, n.isLt, ho.symm⟩

/-- Residues modulo the field polynomial are a field. -/
theorem isField : IsField Residue := by
  refine ⟨⟨0, 1, zero_ne_one⟩, mul_comm, ?_⟩
  intro z hz
  rcases eq_zero_or_exists_pow z with rfl | ⟨n, hn, rfl⟩
  · exact absurd rfl hz
  · refine ⟨alpha ^ (255 - n), ?_⟩
    rw [← pow_add, Nat.add_sub_cancel' (Nat.le_of_lt hn), ← orderOf_alpha]
    exact pow_orderOf_eq_one _

instance : IsDomain Residue := isField.isDomain

/-- A product by logarithms: the exponents add, up to the order of `x`. -/
theorem mul_power (m n : Nat) : mul (power m) (power n) = power ((m + n) % 255) := by
  apply residue_injective
  rw [residue_mul, residue_power, residue_power, residue_power, ← pow_add, ← orderOf_alpha]
  exact (pow_mod_orderOf alpha (m + n)).symm

theorem power_ne_zero (n : Nat) : power n ≠ 0 := by
  intro h
  have hresidue := residue_power n
  rw [h, residue_zero] at hresidue
  exact alpha_pow_ne_zero n hresidue.symm

/-- The powers of `x` below its order are different bytes. -/
theorem power_inj {m n : Nat} (hm : m < 255) (hn : n < 255) (h : power m = power n) : m = n := by
  apply alpha_pow_inj hm hn
  rw [← residue_power, ← residue_power, h]

@[simp] theorem mul_zero_right (a : UInt8) : mul a 0 = 0 := by
  apply residue_injective
  rw [residue_mul, residue_zero, mul_zero]

@[simp] theorem zero_mul_left (a : UInt8) : mul 0 a = 0 := by
  apply residue_injective
  rw [residue_mul, residue_zero, zero_mul]

/-- Every byte but zero has a logarithm. -/
theorem exists_power_eq {a : UInt8} (h : a ≠ 0) : ∃ n, n < 255 ∧ a = power n := by
  rcases eq_zero_or_exists_pow (residue a) with hzero | ⟨n, hn, hpow⟩
  · rw [← residue_zero] at hzero
    exact absurd (residue_injective hzero) h
  · rw [← residue_power] at hpow
    exact ⟨n, hn, residue_injective hpow⟩

end SlotVerify.Fec.Field
