import SlotVerify.Proofs.JsonText.Completeness
/-
  What is read is a spelling.

  The other direction: where a reader has met no problem, the text that it has taken spells what it
  has read, by induction on the fuel again.  With both directions, a text spells a value exactly
  when the value is what the text is read as, to the end of the text and without a problem
  (`writtenAs_iff`), and then it spells no other (`WrittenAs.unique`).
-/

namespace SlotVerify.JsonText

/-! ## What is read without a problem is a spelling -/

/-- With this much fuel, a value read without a problem was spelled. -/
def SoundValues (fuel : Nat) : Prop :=
  ∀ {s v rest}, readValue fuel s = (v, rest) → v.skip = none →
    ∃ w t, Blank w ∧ v.Spelled t ∧ s = w ++ (t ++ rest)

/-- With this much fuel, items read without a problem were spelled. -/
def SoundItems (fuel : Nat) : Prop :=
  ∀ {first s items problem rest}, readItems fuel first s = (items, problem, rest) →
    problem = none → (∀ v ∈ items, v.skip = none) →
      ∃ t, ItemsSpelled first items t ∧ s = t ++ rest

/-- With this much fuel, members read without a problem were spelled. -/
def SoundMembers (fuel : Nat) : Prop :=
  ∀ {first s members problem rest}, readMembers fuel first s = (members, problem, rest) →
    problem = none → (∀ m ∈ members, m.1.problem = none ∧ m.2.skip = none) →
      ∃ t, MembersSpelled first members t ∧ s = t ++ rest

/-- A list that ends with a problem is not free of problems. -/
theorem ne_none_of_ended {α : Type} {xs : List α} {problem : Option Problem} {p : Problem}
    {rest : Text} (h : (([], some p, []) : List α × Option Problem × Text) = (xs, problem, rest)) :
    problem ≠ none := by
  obtain rfl : some p = problem := congrArg (·.2.1) h
  exact Option.some_ne_none p

/-- A call with more fuel, from calls that have less. -/
theorem soundValues_succ {fuel : Nat} (hitems : SoundItems fuel) (hmembers : SoundMembers fuel) :
    SoundValues (fuel + 1) := by
  intro s v rest h hskip
  obtain ⟨w, hw, hs⟩ := blank_skipped s
  rw [readValue] at h
  cases hbegin : skipSpace s with
  | nil =>
    rw [hbegin] at h
    obtain ⟨rfl, rfl⟩ := Prod.mk.inj h
    cases hskip
  | cons b text =>
    rw [hbegin] at h hs
    subst hs
    suffices ∃ t, v.Spelled t ∧ b :: text = t ++ rest by
      obtain ⟨t, ht, hs⟩ := this
      exact ⟨w, t, hw, ht, congrArg _ hs⟩
    -- the first byte tells which kind of value has been read
    dsimp only at h
    split at h
    · rename_i hb
      obtain rfl : b = 0x22 := by simpa using hb
      obtain ⟨rfl, rfl⟩ := Prod.mk.inj h
      obtain ⟨t, ht, hs⟩ := readString_quoted rfl hskip
      exact ⟨_, .string ht, congrArg _ hs⟩
    split at h
    · rename_i hb
      obtain rfl : b = 0x5b := by simpa using hb
      obtain ⟨rfl, rfl⟩ := Prod.mk.inj h
      obtain ⟨hproblem, hskip⟩ := skipItems_eq_none_iff.mp hskip
      obtain ⟨t, ht, hs⟩ := hitems rfl hproblem hskip
      rw [hproblem]
      exact ⟨_, .array ht, congrArg _ hs⟩
    split at h
    · rename_i hb
      obtain rfl : b = 0x7b := by simpa using hb
      obtain ⟨rfl, rfl⟩ := Prod.mk.inj h
      obtain ⟨hproblem, hskip⟩ := skipMembers_eq_none_iff.mp hskip
      obtain ⟨t, ht, hs⟩ := hmembers rfl hproblem hskip
      rw [hproblem]
      exact ⟨_, .object ht, congrArg _ hs⟩
    split at h
    · rename_i hb
      obtain rfl : b = 0x2d := by simpa using hb
      obtain ⟨n, t, rfl, hsign, ht, hs⟩ := readNumber_sound h hskip
      exact ⟨_, .number (.negative hsign ht), congrArg _ hs⟩
    split at h
    · obtain ⟨n, t, rfl, hsign, ht, hs⟩ := readNumber_sound h hskip
      exact ⟨_, .number (.positive hsign ht), hs⟩
    split at h
    · rename_i hb
      obtain rfl : b = 0x6e := by simpa using hb
      obtain ⟨rfl, rfl⟩ := readWord_sound h hskip
      exact ⟨_, .null, rfl⟩
    split at h
    · rename_i hb
      obtain rfl : b = 0x74 := by simpa using hb
      obtain ⟨rfl, rfl⟩ := readWord_sound h hskip
      exact ⟨_, .isTrue, rfl⟩
    split at h
    · rename_i hb
      obtain rfl : b = 0x66 := by simpa using hb
      obtain ⟨rfl, rfl⟩ := readWord_sound h hskip
      exact ⟨_, .isFalse, rfl⟩
    obtain ⟨rfl, rfl⟩ := Prod.mk.inj h
    cases hskip

/-- Where an entry may begin, there is no entry before it or there is a comma. -/
theorem separator_of_begins {first : Bool} {w : Text} (hw : Blank w) {b : UInt8}
    (hb : (first || b == 0x2c) = true) (text : Text) :
    ∃ c u, Separator first c ∧ Blank u ∧
      w ++ b :: text = c ++ (u ++ if first then b :: text else text) := by
  cases first with
  | true => exact ⟨[], w, .none, hw, rfl⟩
  | false =>
    obtain rfl : b = 0x2c := by simpa using hb
    exact ⟨w ++ [0x2c], [], .comma hw, blank_nil, by simp⟩

theorem itemsFrom_sound {fuel : Nat} (hvalues : SoundValues fuel) (hitems : SoundItems fuel)
    {s rest : Text} {items : List Value} {problem : Option Problem}
    (h : itemsFrom fuel s = (items, problem, rest)) (hproblem : problem = none)
    (hskip : ∀ v ∈ items, v.skip = none) :
    ∃ v tail w t u, items = v :: tail ∧ Blank w ∧ v.Spelled t ∧ ItemsSpelled false tail u ∧
      s = w ++ (t ++ (u ++ rest)) := by
  cases hv : readValue fuel s with
  | mk v behind =>
    cases hi : readItems fuel false behind with
    | mk tail more =>
      obtain ⟨more, rest⟩ := more
      simp only [itemsFrom, hv, hi, Prod.mk.injEq] at h
      obtain ⟨rfl, rfl, rfl⟩ := h
      rw [List.forall_mem_cons] at hskip
      obtain ⟨w, t, hw, ht, rfl⟩ := hvalues hv hskip.1
      obtain ⟨u, hu, rfl⟩ := hitems hi hproblem hskip.2
      exact ⟨v, tail, w, t, u, rfl, hw, ht, hu, rfl⟩

theorem soundItems_succ {fuel : Nat} (hvalues : SoundValues fuel) (hitems : SoundItems fuel) :
    SoundItems (fuel + 1) := by
  intro first s items problem rest h hproblem hskip
  obtain ⟨w, hw, hs⟩ := blank_skipped s
  rw [readItems] at h
  cases hbegin : skipSpace s with
  | nil =>
    rw [hbegin] at h
    exact absurd hproblem (ne_none_of_ended h)
  | cons b text =>
    rw [hbegin] at h hs
    subst hs
    dsimp only at h
    split at h
    · rename_i hb
      obtain rfl : b = 0x5d := by simpa using hb
      obtain ⟨rfl, -, rfl⟩ : [] = items ∧ none = problem ∧ text = rest := by simpa using h
      exact ⟨w ++ [0x5d], .close hw, by simp⟩
    split at h
    · rename_i hb
      obtain ⟨c, u, hc, hu, hs⟩ := separator_of_begins hw hb text
      rw [hs]
      generalize (if first then b :: text else text) = here at h ⊢
      split at h
      · obtain ⟨rfl, -⟩ := Prod.mk.inj h
        exact absurd (hskip _ List.mem_cons_self) (by simp [Value.skip])
      · obtain ⟨v, tail, w', t, s, rfl, hw', ht, hs, rfl⟩ :=
          itemsFrom_sound hvalues hitems h hproblem hskip
        exact ⟨_, .item hc (hu.append hw') ht hs, by simp⟩
    · exact absurd hproblem (ne_none_of_ended h)

theorem membersFrom_sound {fuel : Nat} (hvalues : SoundValues fuel)
    (hmembers : SoundMembers fuel) {name : RawString} {s rest : Text}
    {members : List (RawString × Value)} {problem : Option Problem}
    (h : membersFrom fuel name s = (members, problem, rest)) (hproblem : problem = none)
    (hskip : ∀ m ∈ members, m.1.problem = none ∧ m.2.skip = none) :
    ∃ v tail w t u, members = (name, v) :: tail ∧ Blank w ∧ v.Spelled t ∧
      MembersSpelled false tail u ∧ s = w ++ (t ++ (u ++ rest)) := by
  cases hv : readValue fuel s with
  | mk v behind =>
    cases hm : readMembers fuel false behind with
    | mk tail more =>
      obtain ⟨more, rest⟩ := more
      simp only [membersFrom, hv, hm, Prod.mk.injEq] at h
      obtain ⟨rfl, rfl, rfl⟩ := h
      rw [List.forall_mem_cons] at hskip
      obtain ⟨w, t, hw, ht, rfl⟩ := hvalues hv hskip.1.2
      obtain ⟨u, hu, rfl⟩ := hmembers hm hproblem hskip.2
      exact ⟨v, tail, w, t, u, rfl, hw, ht, hu, rfl⟩

theorem memberFrom_sound {fuel : Nat} (hvalues : SoundValues fuel) (hmembers : SoundMembers fuel)
    {s rest : Text} {members : List (RawString × Value)} {problem : Option Problem}
    (h : memberFrom fuel s = (members, problem, rest)) (hproblem : problem = none)
    (hskip : ∀ m ∈ members, m.1.problem = none ∧ m.2.skip = none) :
    ∃ name v tail n w w' t u, members = (name, v) :: tail ∧ name.Spelled (0x22 :: n) ∧ Blank w ∧
      Blank w' ∧ v.Spelled t ∧ MembersSpelled false tail u ∧
      s = n ++ (w ++ 0x3a :: (w' ++ (t ++ (u ++ rest)))) := by
  cases hname : readString s with
  | mk name behind =>
    simp only [memberFrom, hname] at h
    obtain ⟨w, hw, hs⟩ := blank_skipped behind
    cases hbegin : skipSpace behind with
    | nil =>
      rw [hbegin] at h
      obtain ⟨rfl, -⟩ := Prod.mk.inj h
      exact absurd (hskip _ List.mem_cons_self).2 (by simp [Value.skip])
    | cons c text =>
      rw [hbegin] at h hs
      subst hs
      dsimp only at h
      split at h
      · rename_i hc
        obtain rfl : c = 0x3a := by simpa using hc
        obtain ⟨v, tail, w', t, u, rfl, hw', ht, hu, rfl⟩ :=
          membersFrom_sound hvalues hmembers h hproblem hskip
        obtain ⟨n, hn, rfl⟩ := readString_quoted hname (hskip _ List.mem_cons_self).1
        exact ⟨name, v, tail, n, w, w', t, u, rfl, hn, hw, hw', ht, hu, rfl⟩
      · obtain ⟨rfl, -⟩ := Prod.mk.inj h
        exact absurd (hskip _ List.mem_cons_self).2 (by simp [Value.skip])

theorem soundMembers_succ {fuel : Nat} (hvalues : SoundValues fuel)
    (hmembers : SoundMembers fuel) : SoundMembers (fuel + 1) := by
  intro first s members problem rest h hproblem hskip
  obtain ⟨w, hw, hs⟩ := blank_skipped s
  rw [readMembers] at h
  cases hbegin : skipSpace s with
  | nil =>
    rw [hbegin] at h
    exact absurd hproblem (ne_none_of_ended h)
  | cons b text =>
    rw [hbegin] at h hs
    subst hs
    dsimp only at h
    split at h
    · rename_i hb
      obtain rfl : b = 0x7d := by simpa using hb
      obtain ⟨rfl, -, rfl⟩ : [] = members ∧ none = problem ∧ text = rest := by simpa using h
      exact ⟨w ++ [0x7d], .close hw, by simp⟩
    split at h
    · rename_i hb
      obtain ⟨c, u, hc, hu, hs⟩ := separator_of_begins hw hb text
      rw [hs]
      generalize (if first then b :: text else text) = here at h ⊢
      obtain ⟨w', hw', hs'⟩ := blank_skipped here
      cases hquote : skipSpace here with
      | nil =>
        rw [hquote] at h
        exact absurd hproblem (ne_none_of_ended h)
      | cons q behind =>
        rw [hquote] at h hs'
        dsimp only at h
        split at h
        · rename_i hq
          obtain rfl : q = 0x22 := by simpa using hq
          obtain ⟨name, v, tail, n, x, y, t, s, rfl, hn, hx, hy, ht, htail, rfl⟩ :=
            memberFrom_sound hvalues hmembers h hproblem hskip
          exact ⟨_, .member hc (hu.append hw') hn hx hy ht htail, by simp [hs']⟩
        · exact absurd hproblem (ne_none_of_ended h)
    · exact absurd hproblem (ne_none_of_ended h)

theorem sound_spelled (fuel : Nat) : SoundValues fuel ∧ SoundItems fuel ∧ SoundMembers fuel := by
  induction fuel with
  | zero =>
    refine ⟨fun h hskip => ?_, fun h hproblem _ => ?_, fun h hproblem _ => ?_⟩
    · rw [readValue] at h
      obtain ⟨rfl, rfl⟩ := Prod.mk.inj h
      cases hskip
    · rw [readItems] at h
      exact absurd hproblem (ne_none_of_ended h)
    · rw [readMembers] at h
      exact absurd hproblem (ne_none_of_ended h)
  | succ fuel ih =>
    obtain ⟨hvalues, hitems, hmembers⟩ := ih
    exact ⟨soundValues_succ hitems hmembers, soundItems_succ hvalues hitems,
      soundMembers_succ hvalues hmembers⟩

/-! ## Whole texts -/

theorem read_of_writtenAs {v : Value} {s : Text} (h : v.WrittenAs s) : read s = ⟨v, none⟩ := by
  obtain ⟨w, t, w', hw, ht, hw', rfl⟩ := h
  have hstop : Stops w' := by
    cases w' with
    | nil => exact stops_nil
    | cons b w' => exact stops_space (hw' b List.mem_cons_self) w'
  have hread := (reads_spelled (2 * (w ++ (t ++ w')).length + 1)).1 hw ht hstop
    (by simp only [List.length_append]; omega)
  rw [read, hread]
  simp [skipSpace_of_blank hw']

/-- A text spells a value exactly when it is read as the value and no problem is met. -/
theorem writtenAs_iff {v : Value} {s : Text} :
    v.WrittenAs s ↔ read s = ⟨v, none⟩ ∧ v.skip = none := by
  constructor
  · intro h
    obtain ⟨_, _, _, _, ht, _⟩ := id h
    exact ⟨read_of_writtenAs h, ht.skip⟩
  · rintro ⟨hread, hskip⟩
    cases hv : readValue (2 * s.length + 1) s with
    | mk value rest =>
      rw [read, hv] at hread
      obtain ⟨rfl, hrest⟩ := Document.mk.inj hread
      obtain ⟨w, t, hw, ht, rfl⟩ := (sound_spelled _).1 hv hskip
      exact ⟨w, t, rest, hw, ht, blank_of_skipSpace (by simpa using hrest), rfl⟩

/-- A text spells one value at most. -/
theorem Value.WrittenAs.unique {v v' : Value} {s : Text} (h : v.WrittenAs s)
    (h' : v'.WrittenAs s) : v = v' := by
  have hread := (writtenAs_iff.mp h).1
  rw [(writtenAs_iff.mp h').1] at hread
  exact (congrArg Document.value hread).symm

end SlotVerify.JsonText
