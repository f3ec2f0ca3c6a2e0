import SlotVerify.Bytes
/-
  Byte strings, byte by byte.

  `at0` sees a string as a function that is zero behind the string's end.  Each operation on
  strings has one equation through this view (`at0_append`, `at0_extract`, `at0_overwrite`), and
  two strings of one length that look the same are the same (`ext_at0`).
-/

namespace SlotVerify.Bytes

/-- A string is the list of its bytes, put together again. -/
theorem toByteArray_toList (b : ByteArray) : b.data.toList.toByteArray = b := by
  refine ByteArray.ext ?_
  rw [List.data_toByteArray, Array.toArray_toList]

/-! ## The view -/

theorem at0_eq_getElem {b : ByteArray} {i : Nat} (h : i < b.size) : at0 b i = b[i] := by
  show b.data[i]! = b.data[i]
  exact getElem!_pos b.data i h

theorem at0_of_size_le {b : ByteArray} {i : Nat} (h : b.size ≤ i) : at0 b i = 0 := by
  show b.data[i]! = 0
  rw [getElem!_neg b.data i (by rw [ByteArray.size_data]; omega)]
  rfl

/-- Strings of one length that show the same bytes are the same. -/
theorem ext_at0 {a b : ByteArray} (hsize : a.size = b.size)
    (h : ∀ i, i < a.size → at0 a i = at0 b i) : a = b := by
  refine ByteArray.ext_getElem hsize ?_
  intro i hi hi'
  have hab := h i hi
  rwa [at0_eq_getElem hi, at0_eq_getElem hi'] at hab

theorem at0_append (a b : ByteArray) (i : Nat) :
    at0 (a ++ b) i = if i < a.size then at0 a i else at0 b (i - a.size) := by
  split
  · rename_i hi
    rw [at0_eq_getElem hi, at0_eq_getElem (by rw [ByteArray.size_append]; omega)]
    exact ByteArray.getElem_append_left hi
  · rename_i hi
    rcases Nat.lt_or_ge (i - a.size) b.size with hb | hb
    · rw [at0_eq_getElem hb, at0_eq_getElem (by rw [ByteArray.size_append]; omega)]
      exact ByteArray.getElem_append_right (by omega)
    · rw [at0_of_size_le hb, at0_of_size_le (by rw [ByteArray.size_append]; omega)]

theorem at0_extract (b : ByteArray) (start stop i : Nat) :
    at0 (b.extract start stop) i = if start + i < stop then at0 b (start + i) else 0 := by
  rcases Nat.lt_or_ge i (b.extract start stop).size with hi | hi
  · have hlt : start + i < stop ∧ start + i < b.size := by
      rw [ByteArray.size_extract] at hi
      omega
    rw [if_pos hlt.1, at0_eq_getElem hi, at0_eq_getElem hlt.2]
    exact ByteArray.getElem_extract hi
  · rw [at0_of_size_le hi]
    rw [ByteArray.size_extract] at hi
    split
    · exact (at0_of_size_le (by omega)).symm
    · rfl

/-- Inside the stretch the new bytes show, elsewhere the old ones. -/
theorem at0_overwrite {b data : ByteArray} {offset : Nat} (h : offset + data.size ≤ b.size)
    (i : Nat) :
    at0 (overwrite b offset data) i =
      if offset ≤ i ∧ i < offset + data.size then at0 data (i - offset) else at0 b i := by
  have hprefix : (b.extract 0 offset).size = offset := by
    rw [ByteArray.size_extract]
    omega
  have hdata : (data.extract 0 data.size).size = data.size := by
    rw [ByteArray.extract_zero_size]
  unfold overwrite
  rw [ByteArray.copySlice_eq_append, Nat.zero_add, Nat.sub_zero, at0_append, at0_append,
    ByteArray.size_append, hprefix, hdata, ByteArray.size_data, ByteArray.size_data, Nat.min_self,
    ByteArray.extract_zero_size, at0_extract, at0_extract]
  -- the result is in three parts: in front of the stretch, the stretch, and behind it
  rcases Nat.lt_or_ge i offset with hlow | hlow
  · rw [if_pos (by omega), if_pos hlow, if_pos (by omega), Nat.zero_add, if_neg (by omega)]
  · rcases Nat.lt_or_ge i (offset + data.size) with hhigh | hhigh
    · rw [if_pos hhigh, if_neg (by omega), if_pos ⟨hlow, hhigh⟩]
    · have hi : offset + data.size + (i - (offset + data.size)) = i := by omega
      have hout : ¬ (offset ≤ i ∧ i < offset + data.size) := by omega
      rw [if_neg (by omega), hi, if_neg hout]
      split
      · rfl
      · exact (at0_of_size_le (by omega)).symm

theorem at0_zeros (n i : Nat) : at0 (zeros n) i = 0 := by
  rcases Nat.lt_or_ge i (zeros n).size with hi | hi
  · rw [at0_eq_getElem hi]
    exact Array.getElem_replicate _
  · exact at0_of_size_le hi

/-- Zeros behind the end cannot be seen. -/
theorem at0_append_zeros (b : ByteArray) (n i : Nat) : at0 (b ++ zeros n) i = at0 b i := by
  rw [at0_append, at0_zeros]
  split
  · rfl
  · exact (at0_of_size_le (by omega)).symm

theorem at0_fit (n : Nat) (b : ByteArray) (i : Nat) :
    at0 (fit n b) i = if i < n then at0 b i else 0 := by
  unfold fit
  rw [at0_append_zeros, at0_extract, Nat.zero_add]

/-! ## Stretches -/

/-- A stretch ends with the string at the latest. -/
theorem extract_min (b : ByteArray) (start stop : Nat) :
    b.extract start (min b.size stop) = b.extract start stop := by
  refine ext_at0 ?_ ?_
  · rw [ByteArray.size_extract, ByteArray.size_extract]
    omega
  · intro i hi
    rw [ByteArray.size_extract] at hi
    rw [at0_extract, at0_extract, if_pos (by omega), if_pos (by omega)]

/-- A stretch of the replacement, in its place. -/
theorem extract_overwrite {b data : ByteArray} {offset : Nat} (h : offset + data.size ≤ b.size)
    (start : Nat) {stop : Nat} (hstop : stop ≤ data.size) :
    (overwrite b offset data).extract (offset + start) (offset + stop) =
      data.extract start stop := by
  refine ext_at0 ?_ ?_
  · rw [ByteArray.size_extract, ByteArray.size_extract, size_overwrite h]
    omega
  · intro i hi
    rw [ByteArray.size_extract, size_overwrite h] at hi
    have hplace : offset + start + i - offset = start + i := by omega
    rw [at0_extract, at0_extract, if_pos (by omega), if_pos (by omega), at0_overwrite h,
      if_pos (by omega), hplace]

theorem extract_overwrite_self {b data : ByteArray} {offset : Nat}
    (h : offset + data.size ≤ b.size) :
    (overwrite b offset data).extract offset (offset + data.size) = data := by
  have hall := extract_overwrite h 0 (Nat.le_refl data.size)
  rwa [Nat.add_zero, ByteArray.extract_zero_size] at hall

theorem overwrite_empty (b : ByteArray) (offset : Nat) :
    overwrite b offset ByteArray.empty = b := by
  simp [overwrite, ByteArray.copySlice_eq_append]

/-- What is there already can be written again. -/
theorem overwrite_extract {b data : ByteArray} {offset : Nat} (hfits : offset + data.size ≤ b.size)
    (h : b.extract offset (offset + data.size) = data) : overwrite b offset data = b := by
  refine ext_at0 (size_overwrite hfits) fun x _ => ?_
  rw [at0_overwrite hfits]
  split
  · rename_i hx
    calc at0 data (x - offset)
        = at0 (b.extract offset (offset + data.size)) (x - offset) := by rw [h]
      _ = at0 b x := by rw [at0_extract, Nat.add_sub_cancel' hx.1, if_pos hx.2]
  · rfl

/-- Two strings that show the same bytes in a stretch inside both agree there. -/
theorem extract_congr {a b : ByteArray} {start stop : Nat} (ha : stop ≤ a.size) (hb : stop ≤ b.size)
    (h : ∀ i, start ≤ i → i < stop → at0 a i = at0 b i) :
    a.extract start stop = b.extract start stop := by
  refine ext_at0 ?_ ?_
  · rw [ByteArray.size_extract, ByteArray.size_extract]
    omega
  · intro i hi
    rw [ByteArray.size_extract] at hi
    have hi' : start + i < stop := by omega
    rw [at0_extract, at0_extract, if_pos hi', if_pos hi']
    exact h _ (Nat.le_add_right _ _) hi'

/-- What follows a place in a string that gets longer. -/
theorem extract_rest_append {a : ByteArray} (b : ByteArray) {start : Nat} (h : start ≤ a.size) :
    a.extract start a.size ++ b = (a ++ b).extract start (a ++ b).size := by
  rw [ByteArray.extract_append, ByteArray.size_append, Nat.sub_eq_zero_of_le h,
    Nat.add_sub_cancel_left, ByteArray.extract_zero_size, ← extract_min a start (a.size + b.size),
    Nat.min_eq_left (Nat.le_add_right _ _)]

/-- Whole blocks: those in front of a block boundary and those behind it. -/
theorem div_eq_add_div_sub {size unit q : Nat} (hpos : 0 < unit) (h : q * unit ≤ size) :
    size / unit = q + (size - q * unit) / unit := by
  have hsplit : size = (size - q * unit) + q * unit := by omega
  rw [hsplit, Nat.add_mul_div_right _ _ hpos, Nat.add_sub_cancel]
  omega

/-! ## Strings in parts -/

theorem foldl_append (parts : List ByteArray) (start : ByteArray) :
    parts.foldl (· ++ ·) start = start ++ concat parts := by
  induction parts generalizing start with
  | nil => simp [concat]
  | cons p rest ih =>
    unfold concat
    rw [List.foldl_cons, List.foldl_cons, ih, ih (ByteArray.empty ++ p), ByteArray.empty_append,
      ByteArray.append_assoc]

theorem concat_cons (p : ByteArray) (parts : List ByteArray) :
    concat (p :: parts) = p ++ concat parts := by
  show (p :: parts).foldl (· ++ ·) ByteArray.empty = p ++ concat parts
  rw [List.foldl_cons, ByteArray.empty_append, foldl_append]

theorem concat_append (xs ys : List ByteArray) : concat (xs ++ ys) = concat xs ++ concat ys := by
  induction xs with
  | nil => simp [concat]
  | cons x xs ih => rw [List.cons_append, concat_cons, concat_cons, ih, ByteArray.append_assoc]

/-- Parts of one size lie at its multiples. -/
theorem extract_concat {n : Nat} (parts : List ByteArray) (h : ∀ p ∈ parts, p.size = n) :
    ∀ (k : Nat) (hk : k < parts.length),
      (concat parts).extract (k * n) (k * n + n) = parts[k] := by
  induction parts with
  | nil =>
    intro k hk
    exact absurd hk (Nat.not_lt_zero k)
  | cons p rest ih =>
    have hp : p.size = n := h p List.mem_cons_self
    intro k hk
    rw [concat_cons, ByteArray.extract_append, hp]
    -- the first part is at the beginning; the others are found behind it
    cases k with
    | zero =>
      rw [Nat.zero_mul, Nat.zero_add, Nat.sub_self, Nat.zero_sub, ByteArray.extract_same,
        ByteArray.append_empty]
      show p.extract 0 n = p
      rw [← hp, ByteArray.extract_zero_size]
    | succ k =>
      have hempty : p.extract ((k + 1) * n) ((k + 1) * n + n) = ByteArray.empty := by
        rw [ByteArray.extract_eq_empty_iff, hp, Nat.succ_mul]
        omega
      have hstart : (k + 1) * n - n = k * n := by
        rw [Nat.succ_mul]
        omega
      have hstop : (k + 1) * n + n - n = k * n + n := by
        rw [Nat.succ_mul]
        omega
      rw [hempty, ByteArray.empty_append, hstart, hstop]
      exact ih (fun q hq => h q (List.mem_cons_of_mem p hq)) k (Nat.lt_of_succ_lt_succ hk)

theorem size_concat {n : Nat} (parts : List ByteArray) (h : ∀ p ∈ parts, p.size = n) :
    (concat parts).size = parts.length * n := by
  induction parts with
  | nil => simp [concat]
  | cons p rest ih =>
    rw [concat_cons, ByteArray.size_append, h p List.mem_cons_self,
      ih fun q hq => h q (List.mem_cons_of_mem p hq), List.length_cons, Nat.succ_mul, Nat.add_comm]

/-- Whole pieces in front stay the pieces that they are. -/
theorem pieces_append {unit : Nat} {a : ByteArray} (b : ByteArray) (hpos : 0 < unit)
    (h : a.size % unit = 0) : pieces unit (a ++ b) = pieces unit a ++ pieces unit b := by
  have hsize : a.size / unit * unit = a.size := by
    have := Nat.div_add_mod a.size unit
    rw [Nat.mul_comm]
    omega
  have hcount : (a ++ b).size / unit = a.size / unit + b.size / unit := by
    rw [ByteArray.size_append, ← hsize, Nat.add_comm, Nat.add_mul_div_right _ _ hpos,
      Nat.mul_div_cancel _ hpos]
    omega
  unfold pieces
  rw [hcount, List.range_add, List.map_append, List.map_map]
  refine congr (congrArg HAppend.hAppend ?_) ?_
  · apply List.map_congr_left
    intro i hi
    have hlt : i * unit + unit ≤ a.size := by
      have := Nat.mul_le_mul_right unit (List.mem_range.mp hi)
      rw [Nat.succ_mul, hsize] at this
      exact this
    show (a ++ b).extract _ _ = a.extract _ _
    rw [ByteArray.extract_append, Nat.sub_eq_zero_of_le hlt]
    rw [Nat.sub_eq_zero_of_le (Nat.le_trans (Nat.le_add_right _ _) hlt), ByteArray.extract_same,
      ByteArray.append_empty]
  · apply List.map_congr_left
    intro i _
    show (a ++ b).extract ((a.size / unit + i) * unit) ((a.size / unit + i) * unit + unit) =
      b.extract (i * unit) (i * unit + unit)
    have hempty : a.extract ((a.size / unit + i) * unit) ((a.size / unit + i) * unit + unit) =
        ByteArray.empty := by
      rw [ByteArray.extract_eq_empty_iff, Nat.add_mul, hsize]
      omega
    have hstart : (a.size / unit + i) * unit - a.size = i * unit := by
      rw [Nat.add_mul, hsize]
      omega
    have hstop : (a.size / unit + i) * unit + unit - a.size = i * unit + unit := by
      rw [Nat.add_mul, hsize]
      omega
    rw [ByteArray.extract_append, hempty, ByteArray.empty_append, hstart, hstop]

/-- The unfinished rest is not a piece. -/
theorem pieces_whole {unit : Nat} (b : ByteArray) (hpos : 0 < unit) :
    pieces unit (b.extract 0 (b.size / unit * unit)) = pieces unit b := by
  have hle : b.size / unit * unit ≤ b.size := Nat.div_mul_le_self _ _
  have hsize : (b.extract 0 (b.size / unit * unit)).size = b.size / unit * unit := by
    rw [ByteArray.size_extract]
    omega
  unfold pieces
  rw [hsize, Nat.mul_div_cancel _ hpos]
  apply List.map_congr_left
  intro i hi
  have hlt : i * unit + unit ≤ b.size / unit * unit := by
    have := Nat.mul_le_mul_right unit (List.mem_range.mp hi)
    rw [Nat.succ_mul] at this
    exact this
  show (b.extract 0 (b.size / unit * unit)).extract _ _ = b.extract _ _
  rw [ByteArray.extract_extract, Nat.zero_add, Nat.zero_add, Nat.min_eq_left hlt]

/-- A piece has the length of its unit. -/
theorem size_of_mem_pieces {unit : Nat} {b piece : ByteArray} (h : piece ∈ pieces unit b) :
    piece.size = unit := by
  obtain ⟨i, hi, rfl⟩ := List.mem_map.mp h
  have hlast := Nat.mul_le_mul_right unit (List.mem_range.mp hi)
  have hwhole := Nat.div_mul_le_self b.size unit
  rw [Nat.succ_mul] at hlast
  rw [size_slice]
  omega

theorem mem_pieces_self {b : ByteArray} (hpos : 0 < b.size) : b ∈ pieces b.size b := by
  refine List.mem_map.mpr ⟨0, ?_, ?_⟩
  · rw [Nat.div_self hpos]
    exact List.mem_range.mpr Nat.one_pos
  · unfold slice
    rw [Nat.zero_mul, Nat.zero_add, ByteArray.extract_zero_size]

/-- The pieces of whole parts are pieces of all parts together. -/
theorem mem_pieces_concat {unit : Nat} (hpos : 0 < unit) {parts : List ByteArray}
    (hwhole : ∀ part ∈ parts, part.size % unit = 0) {part piece : ByteArray} (hpart : part ∈ parts)
    (hpiece : piece ∈ pieces unit part) : piece ∈ pieces unit (concat parts) := by
  induction parts with
  | nil => exact absurd hpart List.not_mem_nil
  | cons first rest ih =>
    rw [concat_cons, pieces_append _ hpos (hwhole first List.mem_cons_self), List.mem_append]
    rcases List.mem_cons.mp hpart with rfl | hrest
    · exact Or.inl hpiece
    · exact Or.inr (ih (fun p hp => hwhole p (List.mem_cons_of_mem first hp)) hrest)

/-- Two strings in whole pieces that agree piece by piece are the same. -/
theorem ext_slice {unit n : Nat} {a b : ByteArray} (hpos : 0 < unit) (ha : a.size = n * unit)
    (hb : b.size = n * unit)
    (h : ∀ i, i < n → slice a (i * unit) unit = slice b (i * unit) unit) : a = b := by
  refine ext_at0 (ha.trans hb.symm) ?_
  intro x hx
  have hpiece : x / unit < n := by
    rw [Nat.div_lt_iff_lt_mul hpos, ← ha]
    exact hx
  have hplace : x / unit * unit + x % unit = x := Nat.div_add_mod' x unit
  have hinside : x / unit * unit + x % unit < x / unit * unit + unit :=
    Nat.add_lt_add_left (Nat.mod_lt x hpos) _
  have hbyte := congrArg (fun s => at0 s (x % unit)) (h _ hpiece)
  dsimp only [slice] at hbyte
  rwa [at0_extract, at0_extract, if_pos hinside, if_pos hinside, hplace] at hbyte

end SlotVerify.Bytes
