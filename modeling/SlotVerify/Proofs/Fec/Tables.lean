import SlotVerify.Fec.Tables
import SlotVerify.Proofs.Fec.Coefficients
/-
  The code by logarithms is the code.

  1. The next power in the wide register is the product with `x` (`Tables.next_toNat`), so the loop
     that fills the tables puts the powers and their logarithms into them (`Tables.Filled`).  Then a
     sum of logarithms is a product (`Tables.exp_log_add_log`).
  2. One factor is multiplied in from the highest coefficient down, so that the two coefficients
     that go into a new one are still the old ones (`Tables.getElem_timesFactor`).  After all
     factors the coefficients are the generator's (`Tables.getElem_generator`).
  3. The crux is that none of them is zero (`Code.coefficient_ne_zero`): what stands for the
     logarithm of zero would be taken for an exponent (`ReedSolomon.exp_add_generator`).
  4. So a step in place is a step of the register, place by place (`ReedSolomon.toList_step`).

  Main results: `ReedSolomon.isSome_ofRoots?`, `ReedSolomon.toList_encode`,
  `ReedSolomon.syndromes_eq`.
-/

namespace SlotVerify.Fec

open SlotVerify.Fec.Field

/-! ## The tables -/

namespace Tables

/-- In the wide register the bit that has left the byte is still there. -/
theorem next_toNat (a : UInt8) : next a.toNat = (timesX a).toNat := by
  have hall : ∀ n : Fin 256, next n = (timesX (UInt8.ofNat n)).toNat := by decide +kernel
  have h := hall ⟨a.toNat, a.toNat_lt⟩
  rwa [UInt8.ofNat_toNat] at h

/-- What the tables are like when `n` powers are in them, and `sr` comes next. -/
structure Filled (t : Tables) (sr : Fin 256) (n : Nat) : Prop where
  next : sr.val = (power n).toNat
  power : ∀ i (_ : i < n) (h : i < 256), t.powers[i] = Field.power i
  log : ∀ i < n, t.log (Field.power i) = i
  log_zero : t.log 0 = logZero

variable {t : Tables} {sr : Fin 256} {n : Nat}

theorem log_put (h : sr.val = (power n).toNat) (hn : n < 256) (a : UInt8) :
    (t.put n hn sr).log a = if Field.power n = a then n else t.log a := by
  have ha : a.toNat < 256 := a.toNat_lt
  show (t.logs.set sr n)[a.toNat] = _
  rw [Vector.getElem_set, h]
  exact if_congr UInt8.toNat_inj rfl rfl

/-- The next power goes where none of the others is, for they are different below the order of `x`;
    nor is it zero. -/
theorem Filled.put (h : Filled t sr n) (hn : n < codeWordLength) (hn' : n < 256) :
    Filled (t.put n hn' sr) ⟨Tables.next sr, next_lt sr⟩ (n + 1) := by
  constructor
  · show Tables.next sr = _
    rw [h.next, next_toNat]
    rfl
  · intro i hi hi'
    show (t.powers.set n (UInt8.ofNat sr))[i] = _
    rw [Vector.getElem_set]
    split
    · next heq => rw [h.next, UInt8.ofNat_toNat, heq]
    · exact h.power i (by omega) hi'
  · intro i hi
    rw [log_put h.next]
    split
    · next heq => exact power_inj hn (Nat.lt_of_le_of_lt (Nat.le_of_lt_succ hi) hn) heq
    · next hne =>
      rcases Nat.lt_succ_iff_lt_or_eq.mp hi with hi | rfl
      · exact h.log i hi
      · exact absurd rfl hne
  · rw [log_put h.next, if_neg (power_ne_zero n)]
    exact h.log_zero

theorem filled_upTo : ∀ (n : Nat) (hn : n ≤ codeWordLength),
    Filled (upTo n hn).1 (upTo n hn).2 n
  | 0, _ => ⟨rfl, nofun, nofun, rfl⟩
  | n + 1, hn => (filled_upTo n (Nat.le_of_succ_le hn)).put hn (Nat.lt_succ_of_lt hn)

theorem filled_full : Filled full (upTo codeWordLength (Nat.le_refl _)).2 codeWordLength :=
  filled_upTo _ _

theorem exp_full (exponent : Nat) : full.exp exponent = power (exponent % codeWordLength) :=
  filled_full.power _ (Nat.mod_lt _ (by decide)) _

theorem log_full_eq_logZero_iff (a : UInt8) : full.log a = logZero ↔ a = 0 := by
  constructor
  · intro h
    by_contra hne
    obtain ⟨n, hn, rfl⟩ := exists_power_eq hne
    rw [filled_full.log n hn] at h
    exact absurd hn (by rw [h]; decide)
  · rintro rfl
    exact filled_full.log_zero

/-- An exponent that is added to a logarithm makes a product. -/
theorem exp_log_add {a : UInt8} (h : a ≠ 0) (n : Nat) :
    full.exp (full.log a + n) = mul (power n) a := by
  obtain ⟨m, hm, rfl⟩ := exists_power_eq h
  rw [filled_full.log m hm, exp_full, mul_power, Nat.add_comm]
  rfl

/-- Two logarithms that are added make a product. -/
theorem exp_log_add_log {a b : UInt8} (ha : a ≠ 0) (hb : b ≠ 0) :
    full.exp (full.log a + full.log b) = mul a b := by
  obtain ⟨n, hn, rfl⟩ := exists_power_eq ha
  rw [Nat.add_comm, exp_log_add hb, filled_full.log n hn]

theorem times_full (a b : UInt8) : full.times a b = mul a b := by
  unfold times
  split
  · next h =>
    rcases h with rfl | rfl
    · rw [zero_mul_left]
    · rw [mul_zero_right]
  · next h =>
    obtain ⟨ha, hb⟩ := not_or.mp h
    exact exp_log_add_log ha hb

/-! ## The generator -/

variable {roots : Nat}

/-- A coefficient that is zero is passed over, and its multiple is zero. -/
theorem xor_exp_log_add (a b : UInt8) (root : Nat) :
    (if b ≠ 0 then a ^^^ full.exp (full.log b + root) else a) = a ^^^ mul (power root) b := by
  split
  · next h => rw [exp_log_add h]
  · next h => rw [not_not.mp h, mul_zero_right, UInt8.xor_zero]

/-- From the highest coefficient down, what goes into a new one has not been replaced yet. -/
theorem getElem_timesFactor (root : Nat) {k : Nat} (hk : k < roots + 1) (hk' : k - 1 < roots + 1) :
    ∀ (j : Nat) (hj : j ≤ roots) (p : Vector UInt8 (roots + 1)),
      (full.timesFactor root j hj p)[k] =
        if k = 0 ∨ j < k then p[k] else p[k - 1] ^^^ mul (power root) p[k] := by
  intro j
  induction j with
  | zero =>
    intro _ p
    exact (if_pos (Nat.eq_zero_or_pos k)).symm
  | succ j ih =>
    intro hj p
    rw [timesFactor, ih]
    rcases Nat.lt_trichotomy k (j + 1) with hbelow | rfl | habove
    · rw [Vector.getElem_set_ne _ _ (by omega), Vector.getElem_set_ne _ _ (by omega)]
      exact if_congr (by omega) rfl rfl
    · have hreached : ¬ (j + 1 = 0 ∨ j + 1 < j + 1) := by omega
      rw [if_pos (Or.inr (Nat.lt_succ_self j)), Vector.getElem_set_self, if_neg hreached]
      exact xor_exp_log_add _ _ root
    · rw [Vector.getElem_set_ne _ _ (by omega), if_pos (by omega), if_pos (by omega)]

/-- After the first `n` factors the coefficients are those of the generator for `n` roots. -/
theorem getElem_generator : ∀ (n : Nat) (hn : n ≤ roots) {k : Nat} (hk : k < roots + 1),
    (full.generator n hn)[k] = coefficient n k := by
  intro n
  induction n with
  | zero =>
    intro _ k hk
    rw [generator]
    cases k with
    | zero => exact Vector.getElem_set_self _
    | succ k =>
      rw [Vector.getElem_set_ne _ _ (Nat.succ_ne_zero k).symm, Vector.getElem_replicate,
        coefficient_of_lt (Nat.succ_pos k)]
  | succ n ih =>
    intro hn k hk
    have hraised : ∀ {i : Nat} (hi : i < roots + 1), n + 1 ≠ i →
        ((full.generator n (Nat.le_of_succ_le hn)).set (n + 1) 1)[i] = coefficient n i := by
      intro i hi hne
      rw [Vector.getElem_set_ne _ _ hne, ih]
    rw [generator]
    cases k with
    | zero =>
      rw [Vector.getElem_set_self, getElem_timesFactor n hk hk, if_pos (Or.inl rfl),
        hraised hk (Nat.succ_ne_zero n), exp_log_add (coefficient_zero_ne_zero n),
        coefficient_succ_zero]
    | succ k =>
      have hk' : k < roots + 1 := Nat.lt_of_succ_lt hk
      rw [Vector.getElem_set_ne _ _ (Nat.succ_ne_zero k).symm, getElem_timesFactor n hk hk']
      rcases Nat.lt_trichotomy k n with hbelow | rfl | habove
      · rw [if_neg (by omega), coefficient_succ_succ, hraised hk (by omega)]
        exact congrArg (· ^^^ _) (hraised hk' (by omega))
      · rw [if_pos (Or.inr (Nat.lt_succ_self k)), Vector.getElem_set_self, coefficient_self]
      · rw [if_pos (Or.inr (Nat.lt_succ_of_lt habove)), hraised hk (by omega),
          coefficient_of_lt (Nat.lt_succ_of_lt habove), coefficient_of_lt (Nat.succ_lt_succ habove)]

end Tables

/-! ## The encoder -/

namespace ReedSolomon

variable {rs : ReedSolomon} {roots : Nat}

/-- There is an encoder for as many roots as there is a code for. -/
theorem isSome_ofRoots? (roots : Nat) :
    (ofRoots? roots).isSome = (Code.ofRoots? roots).isSome := by
  unfold ofRoots? Code.ofRoots?
  split
  · rfl
  · rfl

/-- What an encoder is made of. -/
theorem of_ofRoots? (h : ofRoots? roots = some rs) :
    rs.roots = roots ∧ rs.tables = .full ∧
      ∀ k (hk : k < rs.roots + 1), rs.generator[k] = Tables.full.log (coefficient rs.roots k) := by
  unfold ofRoots? at h
  dsimp only at h
  split at h
  · obtain rfl := Option.some.inj h
    dsimp only
    refine ⟨rfl, rfl, fun k hk => ?_⟩
    rw [Vector.getElem_map, Tables.getElem_generator]
  · exact nomatch h

/-- What is added to a place is that place of a multiple of the generator. -/
theorem exp_add_generator (h : ofRoots? roots = some rs) {b : UInt8} (hb : b ≠ 0) {k : Nat}
    (hk : k < rs.roots + 1) :
    rs.tables.exp (rs.tables.log b + rs.generator[k]) = mul b (coefficient rs.roots k) := by
  obtain ⟨-, htables, hgenerator⟩ := of_ofRoots? h
  obtain ⟨c, hcode⟩ := exists_ofRoots? rs.accepted.1 rs.accepted.2
  obtain ⟨hroots, -, hmax⟩ := Code.of_ofRoots? hcode
  have hc : coefficient rs.roots k ≠ 0 := by
    rw [← hroots] at hk hmax ⊢
    exact Code.coefficient_ne_zero (Nat.lt_of_le_of_lt hmax (by decide)) (Nat.le_of_lt_succ hk)
  rw [htables, hgenerator k hk, Tables.exp_log_add_log hb hc]

theorem getElem_addMultiple (feedback : Nat) (parity : Vector UInt8 rs.roots) {k : Nat}
    (hk : k < rs.roots) : ∀ (n : Nat) (hn : n < rs.roots),
      (rs.addMultiple feedback parity n hn)[k] =
        if 1 ≤ k ∧ k ≤ n then
          parity[k] ^^^ rs.tables.exp (feedback + rs.generator[rs.roots - k])
        else parity[k] := by
  intro n
  induction n with
  | zero =>
    intro _
    rw [if_neg (by omega)]
    rfl
  | succ n ih =>
    intro hn
    rw [addMultiple]
    rcases Nat.lt_trichotomy k (n + 1) with hbelow | rfl | habove
    · rw [Vector.getElem_set_ne _ _ (by omega), ih]
      exact if_congr (by omega) rfl rfl
    · rw [Vector.getElem_set_self, ih, if_neg (by omega), if_pos (by omega)]
    · rw [Vector.getElem_set_ne _ _ (by omega), ih, if_neg (by omega), if_neg (by omega)]

theorem getElem_moveUp (parity : Vector UInt8 rs.roots) {k : Nat} (hk : k + 1 < rs.roots) :
    (rs.moveUp parity)[k] = parity[k + 1] := by
  unfold moveUp
  rw [Vector.getElem_ofFn, dif_pos hk]

theorem log_ne_logZero_iff (h : ofRoots? roots = some rs) (b : UInt8) :
    rs.tables.log b ≠ logZero ↔ b ≠ 0 := by
  rw [(of_ofRoots? h).2.1]
  exact not_congr (Tables.log_full_eq_logZero_iff b)

theorem getD_toList (parity : Vector UInt8 rs.roots) {k : Nat} (hk : k < rs.roots) :
    parity.toList.getD k 0 = parity[k] := by
  rw [List.getD_eq_getElem _ _ (by rwa [Vector.length_toList]), Vector.getElem_toList]

/-- A step in place, place by place: with a feedback byte that is zero nothing is added. -/
theorem getElem_step (h : ofRoots? roots = some rs) (parity : Vector UInt8 rs.roots) (m : UInt8)
    (hpos : 0 < rs.roots) {k : Nat} (hk : k < rs.roots) :
    (rs.step parity m)[k] =
      parity.toList.getD (k + 1) 0 ^^^
        mul (m ^^^ parity[0]) (coefficient rs.roots (rs.roots - 1 - k)) := by
  unfold step
  dsimp only
  simp only [log_ne_logZero_iff h]
  generalize m ^^^ parity[0] = b
  rcases Nat.lt_or_eq_of_le (Nat.le_sub_one_of_lt hk) with hbefore | rfl
  · have hk' : k + 1 < rs.roots := by omega
    rw [Vector.getElem_set_ne _ _ (by omega), getElem_moveUp _ hk', getD_toList parity hk']
    split
    · next hb =>
      rw [getElem_addMultiple _ _ hk', if_pos (by omega), exp_add_generator h hb (by omega)]
      congr 3
      omega
    · next hb =>
      obtain rfl := not_not.mp hb
      rw [zero_mul_left, UInt8.xor_zero]
  · have hnone : parity.toList.getD (rs.roots - 1 + 1) 0 = 0 := by
      refine List.getD_eq_default _ _ ?_
      rw [Vector.length_toList]
      omega
    rw [Vector.getElem_set_self, hnone, UInt8.zero_xor, Nat.sub_self]
    split
    · next hb => exact exp_add_generator h hb _
    · next hb =>
      obtain rfl := not_not.mp hb
      rw [zero_mul_left]

variable {c : Code}

/-- A step in place is a step of the register. -/
theorem toList_step (h : ofRoots? roots = some rs) (hroots : c.roots = rs.roots)
    (parity : Vector UInt8 rs.roots) (m : UInt8) :
    (rs.step parity m).toList = c.step parity.toList m := by
  have hregister : parity.toList.length = c.roots := by rw [Vector.length_toList, hroots]
  have hpos : 0 < rs.roots := rs.roots_pos
  have hlength := Code.length_step (hroots ▸ hpos) hregister m
  have hhead : parity.toList.headD 0 = parity[0] := by
    rw [List.headD_eq_head?_getD, List.head?_eq_getElem?, ← List.getD_eq_getElem?_getD,
      getD_toList parity hpos]
  apply List.ext_getElem
  · rw [hlength, hroots, Vector.length_toList]
  · intro k hk hk'
    have hlt : k < rs.roots := by rwa [Vector.length_toList] at hk
    rw [Vector.getElem_toList, getElem_step h parity m hpos hlt, ← List.getD_eq_getElem _ 0 hk',
      c.getD_step hregister m (hroots ▸ hlt), hhead, hroots]

/-- The parity bytes are computed in place as they are in the register. -/
theorem toList_encode (h : ofRoots? roots = some rs) (hcode : Code.ofRoots? roots = some c)
    (message : List UInt8) (buffer : Vector UInt8 rs.roots) :
    (rs.encode message buffer).toList = c.parityOver message buffer.toList := by
  have hroots : c.roots = rs.roots := (Code.of_ofRoots? hcode).1.trans (of_ofRoots? h).1.symm
  have hfold : ∀ parity : Vector UInt8 rs.roots,
      (message.foldl rs.step parity).toList = message.foldl c.step parity.toList := by
    induction message with
    | nil => exact fun _ => rfl
    | cons m message ih =>
      intro parity
      rw [List.foldl_cons, List.foldl_cons, ih, toList_step h hroots]
  unfold encode Code.parityOver
  rw [hfold, Vector.toList_map]

theorem syndromes_eq (h : ofRoots? roots = some rs) (hcode : Code.ofRoots? roots = some c)
    (word : List UInt8) : rs.syndromes word = c.syndromes word := by
  obtain ⟨hroots, htables, -⟩ := of_ofRoots? h
  obtain ⟨hroots', -, hmax⟩ := Code.of_ofRoots? hcode
  unfold syndromes Code.syndromes
  rw [htables, hroots, hroots']
  refine List.map_congr_left fun i hi => ?_
  have hi : i < codeWordLength :=
    Nat.lt_of_lt_of_le (List.mem_range.mp hi) (Nat.le_trans hmax (by decide))
  simp only [Tables.times_full, Tables.exp_full, Nat.mod_eq_of_lt hi]
  rfl

end ReedSolomon

end SlotVerify.Fec
