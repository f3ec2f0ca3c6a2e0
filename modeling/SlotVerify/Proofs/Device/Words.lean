import Mathlib.Algebra.Group.Nat.Defs
import SlotVerify.Device.Memory
import SlotVerify.Proofs.Bytes
/-
  Requests to a device in memory, in the arithmetic of a machine.

  A machine counts the bytes of its arrays in words of `bits` bits and the bytes of a device in
  words of 64.  Sizes go back and forth between the two, differences must not fall below zero, sums
  must not exceed the largest word, and every stretch of an array has to lie inside it.  A
  computation that violates this breaks down.

  1. `minus`, `plus`, `Window.narrow` and `Window.fill` are the operations that can break down, each
     with the condition under which it does not.

  2. `readOnWords` and `writeOnWords` carry out a request by these operations alone, with the
     comparisons in the order in which they guard one another.

  3. The crux is that the guards suffice (`readOnWords_eq`, `writeOnWords_eq`): whatever the request
     and for every width up to 64, nothing breaks down, nothing is cut off on the way from one kind
     of word to the other, and the outcome is that of `read` and `write`.  A buffer has to have room
     for what is asked for, nothing else.
-/

namespace SlotVerify.Device.MemoryDevice

/-- Why a computation breaks down. -/
inductive Breakdown where
  /-- A difference below zero, or a sum beyond the largest word. -/
  | arithmetic
  /-- A stretch that does not lie inside its array. -/
  | bounds
  /-- Bytes for a stretch of another length. -/
  | lengths
deriving DecidableEq, Repr

/-! ## Words -/

section Words

variable {bits : Nat} {a b : BitVec bits}

/-- The difference of two words. -/
def minus (a b : BitVec bits) : Except Breakdown (BitVec bits) :=
  if b ≤ a then .ok (a - b) else .error .arithmetic

/-- The sum of two words. -/
def plus (a b : BitVec bits) : Except Breakdown (BitVec bits) :=
  if a.toNat + b.toNat < 2 ^ bits then .ok (a + b) else .error .arithmetic

/-- The smaller one of two words. -/
def least (a b : BitVec bits) : BitVec bits := if a ≤ b then a else b

theorem minus_of_le (h : b.toNat ≤ a.toNat) :
    minus a b = .ok (.ofNat bits (a.toNat - b.toNat)) := by
  have hle : b ≤ a := BitVec.le_def.mpr h
  have hdifference : a - b = .ofNat bits (a.toNat - b.toNat) := by
    apply BitVec.eq_of_toNat_eq
    rw [BitVec.toNat_sub_of_le hle, BitVec.toNat_ofNat, Nat.mod_eq_of_lt]
    have := a.isLt
    omega
  unfold minus
  rw [if_pos hle, hdifference]

theorem plus_of_lt (h : a.toNat + b.toNat < 2 ^ bits) :
    plus a b = .ok (.ofNat bits (a.toNat + b.toNat)) := by
  unfold plus
  rw [if_pos h]
  refine congrArg Except.ok (BitVec.eq_of_toNat_eq ?_)
  rw [BitVec.toNat_add, BitVec.toNat_ofNat]

theorem toNat_least (a b : BitVec bits) : (least a b).toNat = min a.toNat b.toNat := by
  unfold least
  by_cases h : a.toNat ≤ b.toNat
  · rw [if_pos (BitVec.le_def.mpr h), Nat.min_eq_left h]
  · rw [if_neg (by rw [BitVec.le_def]; omega), Nat.min_eq_right (by omega)]

/-- A number that is small enough is a word. -/
theorem toNat_ofNat_of_lt {n : Nat} (h : n < 2 ^ bits) : (BitVec.ofNat bits n).toNat = n := by
  rw [BitVec.toNat_ofNat, Nat.mod_eq_of_lt h]

/-- A number that is small enough stays the same in words of another width. -/
theorem toNat_setWidth_ofNat {n width : Nat} (h : n < 2 ^ bits) (hwidth : n < 2 ^ width) :
    ((BitVec.ofNat bits n).setWidth width).toNat = n := by
  rw [BitVec.toNat_setWidth, toNat_ofNat_of_lt h, Nat.mod_eq_of_lt hwidth]

end Words

/-! ## Stretches of arrays -/

/-- A stretch that lies inside an array. -/
structure Window where
  array : ByteArray
  start : Nat
  stop : Nat
  ordered : start ≤ stop
  inside : stop ≤ array.size

namespace Window

/-- A whole array. -/
def whole (b : ByteArray) : Window := ⟨b, 0, b.size, Nat.zero_le _, Nat.le_refl _⟩

/-- A part of a stretch, by its distance from the stretch's beginning. -/
def narrow {bits : Nat} (v : Window) (start stop : BitVec bits) : Except Breakdown Window :=
  if h : start.toNat ≤ stop.toNat ∧ stop.toNat ≤ v.stop - v.start then
    .ok ⟨v.array, v.start + start.toNat, v.start + stop.toNat, Nat.add_le_add_left h.1 _, by
      have := v.ordered
      have := v.inside
      omega⟩
  else .error .bounds

/-- The bytes of a stretch. -/
def bytes (v : Window) : ByteArray := v.array.extract v.start v.stop

/-- The array with other bytes in the stretch. -/
def fill (v : Window) (source : ByteArray) : Except Breakdown ByteArray :=
  if source.size = v.stop - v.start then .ok (Bytes.overwrite v.array v.start source)
  else .error .lengths

theorem size_bytes (v : Window) : v.bytes.size = v.stop - v.start := by
  have := v.inside
  unfold bytes
  rw [ByteArray.size_extract]
  omega

/-- A stretch of a whole array is itself. -/
theorem narrow_whole {bits : Nat} {b : ByteArray} {start stop : BitVec bits}
    (hordered : start.toNat ≤ stop.toNat) (hinside : stop.toNat ≤ b.size) :
    (whole b).narrow start stop = .ok ⟨b, start.toNat, stop.toNat, hordered, hinside⟩ := by
  have h : start.toNat ≤ stop.toNat ∧ stop.toNat ≤ b.size - 0 := by omega
  refine (dif_pos h).trans ?_
  congr 2
  · exact Nat.zero_add _
  · exact Nat.zero_add _

/-- The head of a head. -/
theorem narrow_head {bits : Nat} {b : ByteArray} {length n : BitVec bits}
    (hlength : length.toNat ≤ b.size) (hn : n.toNat ≤ length.toNat) :
    ((whole b).narrow 0 length).bind (narrow · 0 n) =
      .ok ⟨b, 0, n.toNat, Nat.zero_le _, Nat.le_trans hn hlength⟩ := by
  have hzero : (0 : BitVec bits).toNat = 0 := BitVec.toNat_zero
  rw [narrow_whole (by omega) hlength]
  have h : (0 : BitVec bits).toNat ≤ n.toNat ∧
      n.toNat ≤ length.toNat - (0 : BitVec bits).toNat := by
    omega
  refine (dif_pos h).trans ?_
  congr 2
  show (0 : BitVec bits).toNat + n.toNat = n.toNat
  omega

theorem fill_of_size {v : Window} {source : ByteArray} (h : source.size = v.stop - v.start) :
    v.fill source = .ok (Bytes.overwrite v.array v.start source) := if_pos h

end Window

/-! ## Requests -/

/-- Whether a read touches the byte that cannot be read. -/
def readFailsOnWords (d : MemoryDevice) (offset length : BitVec 64) : Except Breakdown Bool :=
  match d.failReadAt with
  | none => .ok false
  | some bad =>
    if offset ≤ .ofNat 64 bad then (minus (.ofNat 64 bad) offset).map fun gap => gap < length
    else .ok false

/-- How many bytes a read delivers, if `behind` are left up to the end of the device. -/
def countOnWords (bits : Nat) (d : MemoryDevice) (length : BitVec bits) (behind : BitVec 64) :
    BitVec bits :=
  let n := least length (behind.setWidth bits)
  match d.readLimit with
  | some limit => least n (.ofNat bits limit)
  | none => n

/-- The buffer of a read, its first `n` bytes replaced by those of the image from `start` on. -/
def copyOnWords {bits : Nat} (image buffer : ByteArray) (start length n : BitVec bits) :
    Except Breakdown ByteArray := do
  let source ← (Window.whole image).narrow start (← plus start n)
  let target ← ((Window.whole buffer).narrow 0 length).bind (Window.narrow · 0 n)
  target.fill source.bytes

/-- Carries out a read into the request's own buffer. -/
def readOnWords (bits : Nat) (d : MemoryDevice) (r : ReadRequest) :
    Except Breakdown (MemoryDevice × ReadRequest × Except IoError Nat) := do
  let d' := { d with reads := d.reads + 1 }
  let offset := BitVec.ofNat 64 r.offset
  let length := BitVec.ofNat bits r.length
  let size := (BitVec.ofNat bits d.image.size).setWidth 64
  if ← d.readFailsOnWords offset (length.setWidth 64) then
    return (d', r, .error .ioFailure)
  else if size ≤ offset then
    return (d', r, .ok 0)
  else
    let n := d.countOnWords bits length (← minus size offset)
    let buffer ← copyOnWords d.image r.buffer (offset.setWidth bits) length n
    return (d', { r with buffer }, .ok n.toNat)

/-- The image with other bytes from `start` on. -/
def putOnWords {bits : Nat} (image : ByteArray) (start : BitVec bits) (data : ByteArray) :
    Except Breakdown ByteArray := do
  let target ← (Window.whole image).narrow start (← plus start (.ofNat bits data.size))
  target.fill data

/-- Carries out a write that was accepted. -/
def writeOnWords (bits : Nat) (d : MemoryDevice) (offset : Nat) (data : ByteArray) :
    Except Breakdown (MemoryDevice × Except IoError Unit) := do
  -- an offset that is no size is behind the end of every array
  if 2 ^ bits ≤ (BitVec.ofNat 64 offset).toNat then
    return (d, .error .outOfRange)
  else
    let start := (BitVec.ofNat 64 offset).setWidth bits
    let size := BitVec.ofNat bits d.image.size
    if size < start then
      return (d, .error .outOfRange)
    else if (← minus size start) < .ofNat bits data.size then
      return (d, .error .outOfRange)
    else
      let image ← putOnWords d.image start data
      return ({ d with image }, .ok ())

/-- A device whose numbers are words of the machine. -/
structure Native (bits : Nat) (d : MemoryDevice) : Prop where
  size : d.image.size < 2 ^ bits
  readLimit : ∀ limit ∈ d.readLimit, limit < 2 ^ bits
  failReadAt : ∀ bad ∈ d.failReadAt, bad < 2 ^ 64

/-- Any 64-bit offset, and a buffer that the machine can count. -/
structure NativeRead (bits : Nat) (r : ReadRequest) : Prop where
  offset : r.offset < 2 ^ 64
  size : r.buffer.size < 2 ^ bits

/-- Any 64-bit offset, and data that the machine can count. -/
structure NativeWrite (bits offset : Nat) (data : ByteArray) : Prop where
  offset : offset < 2 ^ 64
  size : data.size < 2 ^ bits

section Guards

variable {bits : Nat} {d : MemoryDevice}

/-- The difference is only formed where it is not below zero. -/
theorem readFailsOnWords_eq (hd : d.Native bits) (offset length : BitVec 64) :
    d.readFailsOnWords offset length = .ok (d.readFails offset.toNat length.toNat) := by
  unfold readFailsOnWords readFails
  cases hbad : d.failReadAt with
  | none => rfl
  | some bad =>
    have hword : (BitVec.ofNat 64 bad).toNat = bad := toNat_ofNat_of_lt (hd.failReadAt bad hbad)
    dsimp only
    by_cases hle : offset.toNat ≤ bad
    · have hgap : (BitVec.ofNat 64 (bad - offset.toNat)).toNat = bad - offset.toNat :=
        toNat_ofNat_of_lt (Nat.lt_of_le_of_lt (Nat.sub_le _ _) (hd.failReadAt bad hbad))
      rw [if_pos (BitVec.le_def.mpr (by omega)), minus_of_le (by omega), hword]
      show Except.ok (decide (_ < _)) = Except.ok _
      rw [decide_eq_true hle, Bool.true_and]
      refine congrArg Except.ok (decide_eq_decide.mpr ?_)
      rw [BitVec.lt_def, hgap]
      omega
    · rw [if_neg (by rw [BitVec.le_def]; omega), decide_eq_false hle, Bool.false_and]

/-- Where nothing is delivered the request stays as it is. -/
theorem deliver_nothing (r : ReadRequest) (offset : Nat) :
    r.deliver (Bytes.slice d.image offset 0) = r := by
  have hempty : Bytes.slice d.image offset 0 = ByteArray.empty := by
    show d.image.extract offset (offset + 0) = _
    rw [Nat.add_zero, ByteArray.extract_same]
  show { r with buffer := Bytes.overwrite r.buffer 0 _ } = r
  rw [hempty, Bytes.overwrite_empty]

/-- What is left of the device is counted in the words of arrays without a loss. -/
theorem toNat_countOnWords (hbits : bits ≤ 64) (hd : d.Native bits) (offset : Nat)
    (length : BitVec bits) :
    (d.countOnWords bits length (.ofNat 64 (d.image.size - offset))).toNat =
      d.available offset length.toNat := by
  have hwidth : 2 ^ bits ≤ 2 ^ 64 := Nat.pow_le_pow_right (by decide) hbits
  have hsize := hd.size
  have hrest : ((BitVec.ofNat 64 (d.image.size - offset)).setWidth bits).toNat =
      d.image.size - offset := toNat_setWidth_ofNat (by omega) (by omega)
  unfold countOnWords available
  cases hlimit : d.readLimit with
  | none =>
    dsimp only
    rw [toNat_least, hrest]
  | some limit =>
    dsimp only
    rw [toNat_least, toNat_least, hrest, toNat_ofNat_of_lt (hd.readLimit limit hlimit)]

/-- Bytes that the image has are copied into a buffer that has room for them. -/
theorem copyOnWords_eq {image buffer : ByteArray} {start length n : BitVec bits}
    (himage : image.size < 2 ^ bits) (hsource : start.toNat + n.toNat ≤ image.size)
    (hlength : length.toNat ≤ buffer.size) (hn : n.toNat ≤ length.toNat) :
    copyOnWords image buffer start length n =
      .ok (Bytes.overwrite buffer 0 (Bytes.slice image start.toNat n.toNat)) := by
  have hstop : (BitVec.ofNat bits (start.toNat + n.toNat)).toNat = start.toNat + n.toNat :=
    toNat_ofNat_of_lt (by omega)
  unfold copyOnWords
  rw [plus_of_lt (by omega)]
  show ((Window.whole image).narrow start _).bind _ = _
  rw [Window.narrow_whole (by omega) (by omega)]
  show (((Window.whole buffer).narrow 0 length).bind (Window.narrow · 0 n)).bind _ = _
  rw [Window.narrow_head hlength hn]
  show Window.fill _ (Window.bytes _) = _
  rw [Window.fill_of_size]
  · show Except.ok (Bytes.overwrite buffer 0
      (image.extract start.toNat (BitVec.ofNat bits _).toNat)) = _
    rw [hstop]
    rfl
  · rw [Window.size_bytes]
    show (BitVec.ofNat bits _).toNat - start.toNat = n.toNat - 0
    omega

/-- A read on words breaks nothing and is the read. -/
theorem readOnWords_eq (hbits : bits ≤ 64) (hd : d.Native bits) {r : ReadRequest}
    (hr : NativeRead bits r) (hroom : r.length ≤ r.buffer.size) :
    d.readOnWords bits r = .ok (d.read r) := by
  have hwidth : 2 ^ bits ≤ 2 ^ 64 := Nat.pow_le_pow_right (by decide) hbits
  have hbound := hd.size
  have hcounted : r.length < 2 ^ bits := Nat.lt_of_le_of_lt hroom hr.size
  have hoffset : (BitVec.ofNat 64 r.offset).toNat = r.offset := toNat_ofNat_of_lt hr.offset
  have hlength : (BitVec.ofNat bits r.length).toNat = r.length := toNat_ofNat_of_lt hcounted
  have hsize : ((BitVec.ofNat bits d.image.size).setWidth 64).toNat = d.image.size :=
    toNat_setWidth_ofNat hbound (by omega)
  have hfails := readFailsOnWords_eq hd (.ofNat 64 r.offset)
    ((BitVec.ofNat bits r.length).setWidth 64)
  rw [hoffset, toNat_setWidth_ofNat hcounted (by omega)] at hfails
  obtain ⟨hasked, hthere, -⟩ := d.available_spec r.offset r.length
  unfold readOnWords read
  dsimp only
  rw [hfails]
  show (if _ then _ else _) = _
  by_cases hbad : d.readFails r.offset r.length
  · rw [if_pos hbad, if_pos hbad]
    rfl
  · rw [if_neg hbad, if_neg hbad]
    by_cases hbeyond : d.image.size ≤ r.offset
    · have hnone : d.available r.offset r.length = 0 := by omega
      rw [if_pos (BitVec.le_def.mpr (by omega)), hnone, deliver_nothing]
      rfl
    · have hstart : ((BitVec.ofNat 64 r.offset).setWidth bits).toNat = r.offset :=
        toNat_setWidth_ofNat hr.offset (by omega)
      have hcount := toNat_countOnWords hbits hd r.offset (.ofNat bits r.length)
      rw [hlength] at hcount
      rw [if_neg (by rw [BitVec.le_def]; omega), minus_of_le (by omega), hsize, hoffset]
      show (copyOnWords d.image r.buffer _ _ _).bind _ = _
      rw [copyOnWords_eq hbound (by omega) (by omega) (by omega), hstart, hcount]
      rfl

/-- Bytes are put where the image has room for them. -/
theorem putOnWords_eq {image data : ByteArray} {start : BitVec bits}
    (himage : image.size < 2 ^ bits) (hfits : start.toNat + data.size ≤ image.size) :
    putOnWords image start data = .ok (Bytes.overwrite image start.toNat data) := by
  have hlength : (BitVec.ofNat bits data.size).toNat = data.size := toNat_ofNat_of_lt (by omega)
  have hstop : (BitVec.ofNat bits (start.toNat + data.size)).toNat = start.toNat + data.size :=
    toNat_ofNat_of_lt (by omega)
  unfold putOnWords
  rw [plus_of_lt (by omega), hlength]
  show ((Window.whole image).narrow start _).bind _ = _
  rw [Window.narrow_whole (by omega) (by omega)]
  refine Window.fill_of_size ?_
  show data.size = (BitVec.ofNat bits _).toNat - start.toNat
  omega

/-- A write on words breaks nothing and is the write. -/
theorem writeOnWords_eq (hd : d.Native bits) {offset : Nat} {data : ByteArray}
    (hw : NativeWrite bits offset data) :
    d.writeOnWords bits offset data = .ok (d.write offset data) := by
  have hbound := hd.size
  have hoffset : (BitVec.ofNat 64 offset).toNat = offset := toNat_ofNat_of_lt hw.offset
  have hsize : (BitVec.ofNat bits d.image.size).toNat = d.image.size := toNat_ofNat_of_lt hbound
  have hlength : (BitVec.ofNat bits data.size).toNat = data.size := toNat_ofNat_of_lt hw.size
  unfold writeOnWords write
  dsimp only
  by_cases hwide : 2 ^ bits ≤ offset
  · rw [if_pos (by omega), if_neg (by omega)]
    rfl
  · have hstart : ((BitVec.ofNat 64 offset).setWidth bits).toNat = offset :=
      toNat_setWidth_ofNat hw.offset (by omega)
    rw [if_neg (by omega)]
    by_cases hbeyond : d.image.size < offset
    · rw [if_pos (BitVec.lt_def.mpr (by omega)), if_neg (by omega)]
      rfl
    · have hbehind : (BitVec.ofNat bits (d.image.size - offset)).toNat = d.image.size - offset :=
        toNat_ofNat_of_lt (by omega)
      rw [if_neg (by rw [BitVec.lt_def]; omega), minus_of_le (by omega), hsize, hstart]
      show (if BitVec.ofNat bits (d.image.size - offset) < _ then _ else _) = _
      by_cases hshort : d.image.size - offset < data.size
      · rw [if_pos (BitVec.lt_def.mpr (by omega)), if_neg (by omega)]
        rfl
      · rw [if_neg (by rw [BitVec.lt_def]; omega), if_pos (by omega)]
        show (putOnWords d.image _ data).bind _ = _
        rw [putOnWords_eq hbound (by omega), hstart]
        rfl

end Guards

end SlotVerify.Device.MemoryDevice
