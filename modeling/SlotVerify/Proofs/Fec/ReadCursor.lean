import SlotVerify.Proofs.Fec.Coverage
import SlotVerify.Proofs.Fec.Encoder
/-
  What an encoder asks for in the course of a round.

  Laid end to end, the blocks of a round are one string of bytes; `sourceOf` says where on the
  device byte `m` of it is.  Blocks further on lie further behind, so `sourceOf` is strictly
  increasing.

  1. A request is for a stretch of these sources, from the first on that has not been delivered
     (`Round.sources_of_nextRead`).

  2. So what has been delivered after any number of reads, each complete or cut short anywhere, are
     the sources of the first `n` bytes, in order, where `n` is the number of bytes that the round
     holds (`Mirrors.reads`).  This is the invariant; that nothing is delivered twice, that no byte
     of another round is asked for, and how many reads there can be are read off it.

  3. What a round leaves in the buffer and in the counters does not matter for the next one:
     `advance` makes the encoder mirror the empty round again (`AtRound.mirrors`).

  4. A machine searches in words.  Where the region ends at a word and its blocks begin at words, it
     finds the same (`nextReadOnWords_eq`), so its reads are reads (`ReadsOnWords.toReads`).  A
     region that ends behind the last word cannot be read (`unreadable_farEnd`).

  The crux is the end of a round (`reads_whole_round`): the search stops only where every further
  source would lie behind the covered region, so the bytes that are not there are exactly those
  that have to be zero.
-/

namespace SlotVerify.Fec

namespace Geometry

/-- Where byte `m` of a round's blocks is on the device. -/
def sourceOf (g : Geometry) (i m : Nat) : Nat :=
  g.dataOffset + (g.blockOffset i (m / g.blockSize) + m % g.blockSize)

/-- The bytes of the covered region that belong to a round: those of its blocks. -/
def RoundByte (g : Geometry) (i x : Nat) : Prop :=
  ∃ j k, j < g.messageLength ∧ k < g.blockSize ∧ g.blockOffset i j + k < g.dataSize ∧
    x = g.dataOffset + (g.blockOffset i j + k)

variable {g : Geometry}

theorem sourceOf_block (i j : Nat) {k : Nat} (hk : k < g.blockSize) :
    g.sourceOf i (j * g.blockSize + k) = g.dataOffset + (g.blockOffset i j + k) := by
  unfold sourceOf
  rw [div_of_block j hk, mod_of_block j hk]

/-- Blocks further on lie further behind. -/
theorem sourceOf_lt (hrounds : 0 < g.rounds) (hpos : 0 < g.blockSize) (i : Nat) {m n : Nat}
    (h : m < n) : g.sourceOf i m < g.sourceOf i n := by
  have hm := Nat.mod_lt m hpos
  unfold sourceOf
  rcases Nat.lt_or_eq_of_le (Nat.div_le_div_right (c := g.blockSize) (Nat.le_of_lt h)) with
    hlater | hsame
  · have hblocks := Geometry.blockOffset_lt hrounds i hlater
    omega
  · have hleft := Nat.div_add_mod m g.blockSize
    have hright := Nat.div_add_mod n g.blockSize
    rw [hsame] at hleft ⊢
    omega

end Geometry

/-- A request is for the sources of the bytes that come next. -/
theorem Round.sources_of_nextRead {r : Round} {offset length : Nat}
    (h : r.nextRead = some (offset, length)) {t : Nat} (ht : t < length) :
    offset + t = r.geometry.sourceOf r.index (r.gathered.size + t) ∧
      r.geometry.RoundByte r.index (offset + t) := by
  obtain ⟨j, filled, hj, hblock, -, hgathered, rfl, hinside⟩ := Round.nextRead_eq_some h
  have hwithin : filled + t < r.geometry.blockSize := by omega
  constructor
  · rw [hgathered, Nat.add_assoc (j * _), Geometry.sourceOf_block _ _ hwithin]
    omega
  · exact ⟨j, filled + t, hj, hwithin, by omega, by omega⟩

namespace Encoder

/-! ## Reads -/

/-- A completed read: what was asked for, and what came. -/
structure Delivery where
  offset : Nat
  length : Nat
  data : ByteArray

/-- From one encoder to another by completed reads.  Each delivers a byte at least and no more than
    was asked for. -/
inductive Reads : Encoder → List Delivery → Encoder → Prop
  | nil (e : Encoder) : Reads e [] e
  | cons {e e' e'' : Encoder} {d : Delivery} {rest : List Delivery}
      (hasked : e.nextRead.2 = some (d.offset, d.length))
      (hsome : 0 < d.data.size) (hpart : d.data.size ≤ d.length)
      (hput : e.nextRead.1.completeRead d.data = some e') (hrest : Reads e' rest e'') :
      Reads e (d :: rest) e''

/-- The places on the device of the bytes that were delivered, in the order of their delivery. -/
def delivered (reads : List Delivery) : List Nat :=
  reads.flatMap fun d => List.range' d.offset d.data.size

/-- The delivered bytes themselves. -/
def contents (reads : List Delivery) : ByteArray :=
  Bytes.concat (reads.map Delivery.data)

theorem contents_cons (d : Delivery) (rest : List Delivery) :
    contents (d :: rest) = d.data ++ contents rest :=
  Bytes.concat_cons _ _

/-- Since every read brings something, there are no more reads than bytes. -/
theorem Reads.length_le {e e' : Encoder} {reads : List Delivery} (h : Reads e reads e') :
    reads.length ≤ (contents reads).size := by
  induction h with
  | nil e => exact Nat.zero_le _
  | @cons e e' e'' d rest hasked hsome hpart hput hrest ih =>
    rw [List.length_cons, contents_cons, ByteArray.size_append]
    omega

section Run

variable {g : Geometry} {e e' : Encoder} {r : Round} {reads : List Delivery}

/-- A completed read of an encoder is one of the round that it mirrors. -/
theorem Mirrors.delivery (h : e.Mirrors r) (hrounds : 0 < r.geometry.rounds)
    (hpos : 0 < r.geometry.blockSize) {d : Delivery}
    (hasked : e.nextRead.2 = some (d.offset, d.length)) (hpart : d.data.size ≤ d.length)
    (hput : e.nextRead.1.completeRead d.data = some e') :
    r.nextRead = some (d.offset, d.length) ∧ e'.code = e.code ∧ e'.Mirrors (r.gather d.data) := by
  obtain ⟨e₁, he₁, hcode, hstep⟩ := h.completeRead hrounds hpos hasked hpart
  obtain rfl : e₁ = e' := Option.some.inj (he₁.symm.trans hput)
  exact ⟨(h.nextRead hrounds hpos).1.symm.trans hasked, hcode, hstep⟩

/-- After any reads an encoder mirrors its round with what was delivered, which are the sources of
    the next bytes in order. -/
theorem Reads.mirrors (hreads : Reads e reads e') (h : e.Mirrors r)
    (hrounds : 0 < r.geometry.rounds) (hpos : 0 < r.geometry.blockSize) :
    e'.Mirrors (r.gather (contents reads)) ∧ e'.code = e.code ∧
      delivered reads = (List.range' r.gathered.size (contents reads).size).map
        (r.geometry.sourceOf r.index) ∧
      ∀ x ∈ delivered reads, r.geometry.RoundByte r.index x := by
  induction hreads generalizing r with
  | nil e =>
    refine ⟨?_, rfl, rfl, nofun⟩
    show e.Mirrors (r.gather ByteArray.empty)
    rwa [Round.gather_empty]
  | @cons e e' e'' d rest hasked hsome hpart hput hrest ih =>
    obtain ⟨hnext, hcode, hstep⟩ := h.delivery hrounds hpos hasked hpart hput
    obtain ⟨hmirrors, hcode', hdelivered, hround⟩ := ih hstep hrounds hpos
    have hfirst : List.range' d.offset d.data.size =
        (List.range' r.gathered.size d.data.size).map (r.geometry.sourceOf r.index) := by
      rw [List.range'_eq_map_range, List.range'_eq_map_range, List.map_map]
      apply List.map_congr_left
      intro t ht
      exact (Round.sources_of_nextRead hnext
        (Nat.lt_of_lt_of_le (List.mem_range.mp ht) hpart)).1
    rw [contents_cons]
    refine ⟨?_, hcode'.trans hcode, ?_, ?_⟩
    · rwa [Round.gather_append]
    · show List.range' d.offset d.data.size ++ delivered rest = _
      rw [hfirst, hdelivered, Round.size_gathered_gather, ByteArray.size_append,
        ← List.range'_append_1, List.map_append]
      rfl
    · intro x hx
      rcases List.mem_append.mp hx with hnew | hlater
      · obtain ⟨hlow, hhigh⟩ := List.mem_range'_1.mp hnew
        have ht : x - d.offset < d.length := by omega
        have hbyte := (Round.sources_of_nextRead hnext ht).2
        rwa [Nat.add_sub_cancel' hlow] at hbyte
      · exact hround x hlater

/-- If every read delivers what an image has there, the round has gathered the image's bytes. -/
theorem Reads.gathered (hreads : Reads e reads e') (h : e.Mirrors r)
    (hrounds : 0 < r.geometry.rounds) (hpos : 0 < r.geometry.blockSize) {image : ByteArray}
    (himage : ∀ d ∈ reads, d.data = image.extract d.offset (d.offset + d.data.size))
    (hgathered : r.Gathered image) : (r.gather (contents reads)).Gathered image := by
  induction hreads generalizing r with
  | nil e =>
    show (r.gather ByteArray.empty).Gathered image
    rwa [Round.gather_empty]
  | @cons e e' e'' d rest hasked hsome hpart hput hrest ih =>
    obtain ⟨hnext, -, hstep⟩ := h.delivery hrounds hpos hasked hpart hput
    have hdata := himage d List.mem_cons_self
    have hinside : d.offset + d.data.size ≤ image.size := by
      have hsize := congrArg ByteArray.size hdata
      rw [ByteArray.size_extract] at hsize
      omega
    have hmore := hgathered.gather hnext hpart hinside
    rw [← hdata] at hmore
    rw [contents_cons, Round.gather_append]
    exact ih hstep hrounds hpos (fun d' hd' => himage d' (List.mem_cons_of_mem _ hd')) hmore

end Run

/-! ## Rounds -/

/-- An encoder at the beginning of a round: of the first one, or of a later one once the reads of
    the round before have come to an end. -/
inductive AtRound (g : Geometry) (code : Code) : Nat → Encoder → Prop
  | first : AtRound g code 0 (start g code)
  | next {i : Nat} {e e' : Encoder} {reads : List Delivery} (hround : AtRound g code i e)
      (hreads : Reads e reads e') (hdone : e'.nextRead.2 = none)
      (hmore : e'.nextRead.1.advance.2 = true) :
      AtRound g code (i + 1) e'.nextRead.1.advance.1

/-- Every round begins with counters and a buffer that hold nothing. -/
theorem AtRound.mirrors {g : Geometry} {code : Code} {i : Nat} {e : Encoder}
    (h : AtRound g code i e) (hrounds : 0 < g.rounds) (hpos : 0 < g.blockSize) :
    e.Mirrors (Round.start g i) ∧ e.code = code ∧ i < g.rounds := by
  induction h with
  | first => exact ⟨mirrors_start code 0 rfl, rfl, hrounds⟩
  | @next i e e' reads hround hreads hdone hmore ih =>
    obtain ⟨hmirrors, hcode, -⟩ := ih
    obtain ⟨hend, hcode', -⟩ := hreads.mirrors hmirrors hrounds hpos
    obtain ⟨hgeometry, hkept, hindex, hblocks⟩ := e'.nextRead_keeps
    have hgeometry' : e'.nextRead.1.geometry = g := hgeometry.trans hend.geometry
    have hindex' : e'.nextRead.1.round = i := hindex.trans hend.index
    have hsize : e'.nextRead.1.blocks.size = g.messageLength * g.blockSize := by
      rw [hblocks, hend.blocks, Bytes.size_fit]
      rfl
    unfold advance at hmore ⊢
    dsimp only at hmore ⊢
    rw [hgeometry', hindex'] at hmore ⊢
    refine ⟨mirrors_start _ (i + 1) ?_, ?_, of_decide_eq_true hmore⟩
    · rw [hsize]
    · exact hkept.trans (hcode'.trans hcode)

/-- A request of an encoder in a round, after some reads. -/
structure Asks (i : Nat) (reads : List Delivery) (e : Encoder) (offset length : Nat) : Prop where
  pos : 0 < length
  inside : e.geometry.dataOffset ≤ offset ∧
    offset + length ≤ e.geometry.dataOffset + e.geometry.dataSize
  /-- Only bytes of the round are asked for. -/
  round : ∀ x, offset ≤ x → x < offset + length → e.geometry.RoundByte i x
  /-- They lie behind everything that has been delivered. -/
  behind : ∀ y ∈ delivered reads, y < offset
  /-- The buffer has room for whatever comes, and what does not come is asked for next. -/
  room : ∀ data : ByteArray, data.size ≤ length →
    ∃ e', e.nextRead.1.completeRead data = some e' ∧
      (data.size < length → e'.nextRead.2 = some (offset + data.size, length - data.size))

/-- What has been read of a round at any time. -/
structure InOrder (g : Geometry) (i : Nat) (reads : List Delivery) : Prop where
  /-- Nothing is delivered twice, and blocks further on are delivered later. -/
  increasing : (delivered reads).Pairwise (· < ·)
  round : ∀ x ∈ delivered reads, g.RoundByte i x
  finite : reads.length ≤ g.messageLength * g.blockSize

/-- A round that has been read, with the encoder's buffer. -/
structure WhollyRead (g : Geometry) (i : Nat) (reads : List Delivery) (blocks : ByteArray) :
    Prop where
  every : ∀ x, x ∈ delivered reads ↔ g.RoundByte i x
  size : blocks.size = g.messageLength * g.blockSize
  /-- If the bytes of an image were delivered, its blocks are in the buffer, and zeros for all that
      is behind the end of the region. -/
  buffer : ∀ image : ByteArray,
    (∀ d ∈ reads, d.data = image.extract d.offset (d.offset + d.data.size)) →
    ∀ j k, j < g.messageLength → k < g.blockSize →
      Bytes.at0 blocks (j * g.blockSize + k) = g.symbol image i j k

section Finished

variable {e : Encoder} {r : Round} {reads : List Delivery}

/-- A request is about the round's next bytes. -/
theorem Mirrors.asks (h : e.Mirrors r) (hrounds : 0 < r.geometry.rounds)
    (hpos : 0 < r.geometry.blockSize)
    (hdelivered : delivered reads =
      (List.range' 0 r.gathered.size).map (r.geometry.sourceOf r.index))
    {offset length : Nat} (hasked : e.nextRead.2 = some (offset, length)) :
    Asks r.index reads e offset length := by
  have hnext : r.nextRead = some (offset, length) :=
    (h.nextRead hrounds hpos).1.symm.trans hasked
  obtain ⟨j, filled, -, -, hlength, -, hoffset, hend⟩ := Round.nextRead_eq_some hnext
  have hfirst := (Round.sources_of_nextRead hnext hlength).1
  refine ⟨hlength, ?_, ?_, ?_, ?_⟩
  · rw [h.geometry]
    omega
  · intro x hlow hhigh
    have hbyte := (Round.sources_of_nextRead hnext (t := x - offset) (by omega)).2
    rwa [Nat.add_sub_cancel' hlow, ← h.geometry] at hbyte
  · intro y hy
    rw [hdelivered] at hy
    obtain ⟨m, hm, rfl⟩ := List.mem_map.mp hy
    have hlt := Geometry.sourceOf_lt hrounds hpos r.index
      (show m < r.gathered.size + 0 by have := (List.mem_range'_1.mp hm).2; omega)
    rwa [← hfirst] at hlt
  · intro data hdata
    obtain ⟨e', hput, -, -⟩ := h.completeRead hrounds hpos hasked hdata
    exact ⟨e', hput, fun hshort => nextRead_rest hasked hshort hput⟩

/-- Once nothing is asked for, every byte of the round has been delivered. -/
theorem mem_delivered_of_done (hrounds : 0 < r.geometry.rounds)
    (hdelivered : delivered reads =
      (List.range' 0 r.gathered.size).map (r.geometry.sourceOf r.index))
    (hdone : r.nextRead = none) {x : Nat} (hx : r.geometry.RoundByte r.index x) :
    x ∈ delivered reads := by
  obtain ⟨j, k, hj, hk, hinside, rfl⟩ := hx
  rw [hdelivered, ← Geometry.sourceOf_block _ _ hk]
  refine List.mem_map.mpr ⟨_, List.mem_range'_1.mpr ⟨Nat.zero_le _, ?_⟩, rfl⟩
  rw [Nat.zero_add]
  by_contra hmissing
  have hbehind := Round.dataSize_le_of_done hrounds hdone hj hk (Nat.not_lt.mp hmissing)
  omega

end Finished

/-! ## Reads in words -/

/-- The search for the next block, in words.  Nothing comes of it if it breaks down. -/
def nextReadOnWords (o : Overflow) (e : Encoder) : Option (Encoder × Option (Nat × Nat)) :=
  if e.block < e.geometry.messageLength then do
    let begins ← e.geometry.blockOffsetOnWords o e.round e.block
    let length := min (e.geometry.dataSize - begins) e.geometry.blockSize
    if begins < e.geometry.dataSize ∧ e.filled < length then
      let place ← o.word (e.geometry.dataOffset + begins)
      let offset ← o.word (place + e.filled)
      return (e, some (offset, length - e.filled))
    else nextReadOnWords o { e with block := e.block + 1, filled := 0 }
  else return (e, none)
termination_by e.geometry.messageLength - e.block

section Words

variable {o : Overflow} {e : Encoder}

theorem nextReadOnWords_of_missing {begins : Nat} (hblock : e.block < e.geometry.messageLength)
    (hbegins : e.geometry.blockOffsetOnWords o e.round e.block = some begins)
    (hmissing : begins < e.geometry.dataSize ∧
      e.filled < min (e.geometry.dataSize - begins) e.geometry.blockSize) :
    e.nextReadOnWords o = (o.word (e.geometry.dataOffset + begins)).bind fun place =>
      (o.word (place + e.filled)).map fun offset =>
        (e, some (offset, min (e.geometry.dataSize - begins) e.geometry.blockSize - e.filled)) := by
  rw [nextReadOnWords, if_pos hblock, hbegins]
  refine (if_pos hmissing).trans ?_
  simp only [Option.bind_eq_bind, Option.map_eq_bind]
  rfl

theorem nextReadOnWords_of_full {begins : Nat} (hblock : e.block < e.geometry.messageLength)
    (hbegins : e.geometry.blockOffsetOnWords o e.round e.block = some begins)
    (hfull : ¬ (begins < e.geometry.dataSize ∧
      e.filled < min (e.geometry.dataSize - begins) e.geometry.blockSize)) :
    e.nextReadOnWords o = nextReadOnWords o { e with block := e.block + 1, filled := 0 } := by
  rw [nextReadOnWords, if_pos hblock, hbegins]
  exact if_neg hfull

/-- The blocks of a geometry begin at words, and its region ends at one. -/
structure InWords (g : Geometry) : Prop where
  offsets : g.OffsetsFit
  region : g.dataOffset + g.dataSize ≤ Verity.wordLimit
  blockSize : 0 < g.blockSize

/-- A machine asks for what an encoder asks for. -/
theorem nextReadOnWords_eq (o : Overflow) {e : Encoder} (h : InWords e.geometry)
    (hround : e.round < e.geometry.rounds) : e.nextReadOnWords o = some e.nextRead := by
  induction e using nextRead.induct with
  | case1 e hblock hmissing =>
    have hbegins := h.offsets.onWords o h.blockSize hround hblock
    have hwithin := hmissing.2
    have hregion := h.region
    unfold blockLength at hwithin
    rw [nextReadOnWords_of_missing hblock hbegins hmissing, o.word_of_lt (by omega),
      Option.bind_some, o.word_of_lt (by omega), nextRead, if_pos hblock, if_pos hmissing]
    rfl
  | case2 e hblock hfull ih =>
    have hbegins := h.offsets.onWords o h.blockSize hround hblock
    rw [nextReadOnWords_of_full hblock hbegins hfull, nextRead, if_pos hblock, if_neg hfull]
    exact ih h hround
  | case3 e hpast =>
    rw [nextRead, if_neg hpast, nextReadOnWords, if_neg hpast]
    rfl

end Words

/-- From one encoder to another by completed reads that a machine has asked for. -/
inductive ReadsOnWords (o : Overflow) : Encoder → List Delivery → Encoder → Prop
  | nil (e : Encoder) : ReadsOnWords o e [] e
  | cons {e e₁ e' e'' : Encoder} {d : Delivery} {rest : List Delivery}
      (hasked : e.nextReadOnWords o = some (e₁, some (d.offset, d.length)))
      (hsome : 0 < d.data.size) (hpart : d.data.size ≤ d.length)
      (hput : e₁.completeRead d.data = some e') (hrest : ReadsOnWords o e' rest e'') :
      ReadsOnWords o e (d :: rest) e''

/-- A machine at the beginning of a round: of the first one, or of a later one once it has found
    nothing more to read in the round before. -/
inductive AtRoundOnWords (o : Overflow) (g : Geometry) (code : Code) : Nat → Encoder → Prop
  | first : AtRoundOnWords o g code 0 (start g code)
  | next {i : Nat} {e e' e₁ : Encoder} {reads : List Delivery}
      (hround : AtRoundOnWords o g code i e) (hreads : ReadsOnWords o e reads e')
      (hdone : e'.nextReadOnWords o = some (e₁, none)) (hmore : e₁.advance.2 = true) :
      AtRoundOnWords o g code (i + 1) e₁.advance.1

section Words

variable {o : Overflow} {g : Geometry} {code : Code} {e e' : Encoder} {reads : List Delivery}

theorem completeRead_keeps {data : ByteArray} (h : e.completeRead data = some e') :
    e'.geometry = e.geometry ∧ e'.round = e.round := by
  unfold completeRead at h
  dsimp only at h
  split at h
  · cases h
    exact ⟨rfl, rfl⟩
  · cases h

/-- The reads of a machine are reads, and it stays in its round. -/
theorem ReadsOnWords.toReads (hreads : ReadsOnWords o e reads e') (h : InWords e.geometry)
    (hround : e.round < e.geometry.rounds) :
    Reads e reads e' ∧ e'.geometry = e.geometry ∧ e'.round = e.round := by
  induction hreads with
  | nil e => exact ⟨.nil e, rfl, rfl⟩
  | @cons e e₁ e' e'' d rest hasked hsome hpart hput hrest ih =>
    rw [nextReadOnWords_eq o h hround] at hasked
    obtain ⟨rfl, hnext⟩ := Prod.mk.inj (Option.some.inj hasked)
    obtain ⟨hgeometry, -, hindex, -⟩ := e.nextRead_keeps
    obtain ⟨hgeometry', hindex'⟩ := completeRead_keeps hput
    rw [hgeometry] at hgeometry'
    rw [hindex] at hindex'
    obtain ⟨hreads, hlast, hlast'⟩ := ih (by rwa [hgeometry']) (by rwa [hgeometry', hindex'])
    exact ⟨.cons hnext hsome hpart hput hreads, hlast.trans hgeometry', hlast'.trans hindex'⟩

/-- The rounds of a machine are rounds. -/
theorem AtRoundOnWords.atRound {i : Nat} (hround : AtRoundOnWords o g code i e) (h : InWords g)
    (hrounds : 0 < g.rounds) : AtRound g code i e := by
  induction hround with
  | first => exact .first
  | @next i e e' e₁ reads hround hreads hdone hmore ih =>
    obtain ⟨hmirrors, -, hi⟩ := ih.mirrors hrounds h.blockSize
    have hgeometry : e.geometry = g := hmirrors.geometry
    have hindex : e.round = i := hmirrors.index
    obtain ⟨hreads', hgeometry', hindex'⟩ :=
      hreads.toReads (by rwa [hgeometry]) (by rwa [hgeometry, hindex])
    rw [nextReadOnWords_eq o (by rwa [hgeometry', hgeometry])
      (by rwa [hindex', hgeometry', hgeometry, hindex])] at hdone
    obtain ⟨rfl, hnone⟩ := Prod.mk.inj (Option.some.inj hdone)
    exact .next ih hreads' hnone hmore

end Words

/-- What a machine does in any round of any layout with parity bytes whose region ends at a word and
    whose blocks begin at words, after any reads that have been delivered whole or in part; and it
    does not matter what it does with larger numbers.  What it asks for next are bytes of the round
    that come after all that has been delivered; what has been delivered came in order, each byte
    once; and when it asks for nothing, it has been delivered everything, whatever the rounds before
    have left.  A `Round` with the same bytes asks for the same and has the same parity bytes. -/
theorem reads_whole_round {l : Verity.Layout} {g : Geometry} (hlayout : Geometry.ofLayout l = .ok g)
    (hsome : l.fecSize ≠ 0) (hend : l.fecDataOffset + l.fecDataSize ≤ Verity.wordLimit)
    (hfit : g.OffsetsFit) {o : Overflow} {code : Code} {i : Nat} {e e' : Encoder}
    {reads : List Delivery} (hround : AtRoundOnWords o g code i e)
    (hreads : ReadsOnWords o e reads e') :
    e'.nextReadOnWords o = some e'.nextRead ∧
    (∀ offset length, e'.nextRead.2 = some (offset, length) → Asks i reads e' offset length) ∧
    InOrder g i reads ∧
    (e'.nextRead.2 = none → WhollyRead g i reads e'.nextRead.1.blocks) ∧
    (e'.nextRead.2 = (Round.mk g i (contents reads)).nextRead ∧
      e'.nextRead.1.parity = (Round.mk g i (contents reads)).parity code) ∧
    g.dataOffset = l.fecDataOffset ∧ g.dataSize = l.fecDataSize ∧ e'.geometry = g ∧
    i < g.rounds := by
  have hmade := Geometry.madeFor_ofLayout hlayout
  have hpos := Geometry.blockSize_pos_ofLayout hlayout
  have hrounds := hmade.rounds_pos hsome
  have hwords : InWords g := ⟨hfit, by rwa [hmade.dataOffset, hmade.dataSize], hpos⟩
  obtain ⟨hstart, hcode, hi⟩ := (hround.atRound hwords hrounds).mirrors hrounds hpos
  have hgeometry : e.geometry = g := hstart.geometry
  have hindex : e.round = i := hstart.index
  obtain ⟨hreads, hgeometry', hindex'⟩ :=
    hreads.toReads (by rwa [hgeometry]) (by rwa [hgeometry, hindex])
  obtain ⟨hmirrors, hcode', hdelivered, hmembers⟩ := hreads.mirrors hstart hrounds hpos
  have hgather : (Round.start g i).gather (contents reads) = ⟨g, i, contents reads⟩ := by
    show Round.mk g i (ByteArray.empty ++ contents reads) = _
    rw [ByteArray.empty_append]
  rw [hgather] at hmirrors
  obtain ⟨hsame, -⟩ := hmirrors.nextRead hrounds hpos
  have hblocks : e'.nextRead.1.blocks =
      Bytes.fit (g.messageLength * g.blockSize) (contents reads) :=
    e'.nextRead_keeps.2.2.2.trans hmirrors.blocks
  refine ⟨?_, ?_, ⟨?_, hmembers, ?_⟩, ?_, ⟨hsame, ?_⟩, hmade.dataOffset, hmade.dataSize,
    hmirrors.geometry, hi⟩
  · exact nextReadOnWords_eq o (by rwa [hgeometry', hgeometry])
      (by rwa [hindex', hgeometry', hgeometry, hindex])
  · intro offset length hasked
    exact hmirrors.asks hrounds hpos hdelivered hasked
  · rw [hdelivered, List.pairwise_map]
    exact (List.pairwise_lt_range' 1).imp
      (Geometry.sourceOf_lt hrounds hpos i)
  · exact Nat.le_trans hreads.length_le hmirrors.size_le
  · intro hdone
    rw [hsame] at hdone
    refine ⟨fun x => ⟨hmembers x, ?_⟩, ?_, ?_⟩
    · exact mem_delivered_of_done (r := ⟨g, i, contents reads⟩) hrounds hdelivered hdone
    · rw [hblocks, Bytes.size_fit]
    · intro image himage j k hj hk
      have hgathered := hreads.gathered hstart hrounds hpos himage (Round.gathered_start g i)
      rw [hgather] at hgathered
      rw [hblocks, Bytes.at0_fit, if_pos (add_lt_of_block hj hk)]
      exact hgathered.at0_eq_symbol hrounds hdone hj hk
  · rw [parity_nextRead, hmirrors.parity_eq, hcode', hcode]

/-- Error correction for a region of one-byte blocks. -/
def byteBlocks (fecDataOffset fecDataSize : Nat) : Verity.Layout where
  blockSize := 1
  hashTreeAlgorithm := ""
  hashTreeSalt := ByteArray.empty
  hashTreeDataOffset := 0
  hashTreeDataSize := 0
  hashTreeOffset := 0
  hashTreeSize := 0
  fecDataOffset
  fecDataSize
  fecOffset := 0
  fecSize := 2
  fecRoots := 2

theorem nextReadOnWords_asked {o : Overflow} {e : Encoder} {asked : Option (Nat × Nat)}
    (h : e.nextReadOnWords o = some e.nextRead) (hasked : e.nextRead.2 = asked) :
    e.nextReadOnWords o = some (e.nextRead.1, asked) := by
  rw [h, ← hasked]

/-- Two bytes at offset 8.  They are asked for one after the other, then nothing is. -/
theorem reads_whole_round_twoBytes : ∃ g code e',
    Geometry.ofLayout (byteBlocks 8 2) = .ok g ∧ (byteBlocks 8 2).fecSize ≠ 0 ∧
      (byteBlocks 8 2).fecDataOffset + (byteBlocks 8 2).fecDataSize ≤ Verity.wordLimit ∧
      g.OffsetsFit ∧ AtRoundOnWords .breaksDown g code 0 (start g code) ∧
      ReadsOnWords .breaksDown (start g code) [⟨8, 1, ⟨#[5]⟩⟩, ⟨9, 1, ⟨#[6]⟩⟩] e' ∧
      e'.nextReadOnWords .breaksDown = some (e'.nextRead.1, none) ∧
      WhollyRead g 0 [⟨8, 1, ⟨#[5]⟩⟩, ⟨9, 1, ⟨#[6]⟩⟩] e'.nextRead.1.blocks := by
  obtain ⟨code, -⟩ := exists_ofRoots? (show minRoots ≤ 2 by decide) (show 2 ≤ maxRoots by decide)
  have hlayout : Geometry.ofLayout (byteBlocks 8 2) = .ok ⟨1, 2, 1, 8, 2, 0⟩ := rfl
  have hround : AtRoundOnWords .breaksDown _ code 0 (start ⟨1, 2, 1, 8, 2, 0⟩ code) := .first
  -- what is asked for after some reads, and where it goes
  obtain ⟨hword, hasks, -, -, ⟨hnext, -⟩, -⟩ :=
    reads_whole_round hlayout (by decide) (by decide) (by decide) hround (.nil _)
  obtain ⟨e₁, hput₁, -⟩ := (hasks 8 1 hnext).room ⟨#[5]⟩ (by decide)
  have hreads₁ : ∀ e' reads, ReadsOnWords .breaksDown e₁ reads e' →
      ReadsOnWords .breaksDown (start ⟨1, 2, 1, 8, 2, 0⟩ code) (⟨8, 1, ⟨#[5]⟩⟩ :: reads) e' :=
    fun _ _ => .cons (nextReadOnWords_asked hword hnext) (by decide) (by decide) hput₁
  obtain ⟨hword, hasks, -, -, ⟨hnext, -⟩, -⟩ :=
    reads_whole_round hlayout (by decide) (by decide) (by decide) hround (hreads₁ _ _ (.nil _))
  obtain ⟨e₂, hput₂, -⟩ := (hasks 9 1 hnext).room ⟨#[6]⟩ (by decide)
  have hreads₂ := hreads₁ e₂ [⟨9, 1, ⟨#[6]⟩⟩]
    (.cons (nextReadOnWords_asked hword hnext) (by decide) (by decide) hput₂ (.nil _))
  obtain ⟨hword, -, -, hwhole, ⟨hdone, -⟩, -⟩ :=
    reads_whole_round hlayout (by decide) (by decide) (by decide) hround hreads₂
  exact ⟨_, code, e₂, hlayout, by decide, by decide, by decide, hround, hreads₂,
    nextReadOnWords_asked hword hdone, hwhole hdone⟩

/-- Two bytes of which the second one lies behind the last word.  The layout is accepted, and the
    first byte can be read; but asking for the second one breaks down, or asks for byte 0. -/
theorem unreadable_farEnd : ∃ g code e',
    Geometry.ofLayout (byteBlocks (2 ^ 64 - 1) 2) = .ok g ∧
      (byteBlocks (2 ^ 64 - 1) 2).fecSize ≠ 0 ∧
      (∀ o, ReadsOnWords o (start g code) [⟨2 ^ 64 - 1, 1, ⟨#[5]⟩⟩] e') ∧
      e'.nextReadOnWords .breaksDown = none ∧
      ∃ e₁, e'.nextReadOnWords .wraps = some (e₁, some (0, 1)) ∧ ¬ g.dataOffset ≤ 0 := by
  obtain ⟨code, -⟩ := exists_ofRoots? (show minRoots ≤ 2 by decide) (show 2 ≤ maxRoots by decide)
  let g : Geometry := ⟨1, 2, 1, 2 ^ 64 - 1, 2, 0⟩
  have hbegins : ∀ o j, j < 253 → g.blockOffsetOnWords o 0 j = some j := by
    intro o j hj
    have hoffset : g.blockOffset 0 j = j := by
      show 0 * 1 + j * 1 * 1 = j
      omega
    rw [Geometry.blockOffsetOnWords_of_lt o Nat.one_pos, hoffset]
    rw [hoffset]
    exact Nat.lt_trans hj (by decide)
  have hbehind : 2 ^ 64 - 1 + 1 = 2 ^ 64 := by decide
  have hlast : ∀ o : Overflow, o.word (2 ^ 64 - 1) = some (2 ^ 64 - 1) :=
    fun o => o.word_of_lt (by decide)
  have hfirst : ∀ o, (start g code).nextReadOnWords o =
      some (start g code, some (2 ^ 64 - 1, 1)) := by
    intro o
    rw [nextReadOnWords_of_missing (show 0 < 253 by decide) (hbegins o 0 (by decide))
      (show 0 < 2 ∧ 0 < 1 by decide)]
    show ((o.word (2 ^ 64 - 1)).bind fun place => (o.word place).map fun offset =>
      (start g code, some (offset, 1))) = _
    rw [hlast, Option.bind_some, hlast]
    rfl
  obtain ⟨e', hput, hplace⟩ : ∃ e', (start g code).completeRead ⟨#[5]⟩ = some e' ∧
      e' = ⟨g, code, 0, 0, 1, e'.blocks⟩ := by
    have hroom : 0 * 1 + 0 + 1 ≤ (Bytes.zeros 253).size := by
      rw [Bytes.size_zeros]
      decide
    unfold completeRead
    exact ⟨_, if_pos hroom, rfl⟩
  have hsecond : ∀ o, e'.nextReadOnWords o = (o.word (2 ^ 64)).bind fun place =>
      (o.word (place + 0)).map fun offset =>
        (⟨g, code, 0, 1, 0, e'.blocks⟩, some (offset, 1)) := by
    intro o
    rw [hplace, nextReadOnWords_of_full (show 0 < 253 by decide) (hbegins o 0 (by decide))
        (show ¬ (0 < 2 ∧ 1 < 1) by decide),
      nextReadOnWords_of_missing (show 1 < 253 by decide) (hbegins o 1 (by decide))
        (show 1 < 2 ∧ 0 < 1 by decide)]
    show ((o.word (2 ^ 64 - 1 + 1)).bind fun place => (o.word (place + 0)).map fun offset =>
      (Encoder.mk g code 0 1 0 e'.blocks, some (offset, 1))) = _
    rw [hbehind]
  have hcutOff : Overflow.wraps.word (2 ^ 64) = some 0 := by decide
  refine ⟨g, code, e', rfl, by decide, fun o => ?_, hsecond .breaksDown,
    ⟨g, code, 0, 1, 0, e'.blocks⟩, ?_, by decide⟩
  · exact .cons (hfirst o) (by decide) (by decide) hput (.nil _)
  · rw [hsecond .wraps, hcutOff]
    rfl

end Encoder

end SlotVerify.Fec
