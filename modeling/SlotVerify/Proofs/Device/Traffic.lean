import SlotVerify.Proofs.Device.Words
/-
  A device in memory as an array of bytes.

  Reads and writes are submitted, wait, and are answered; any number of them may be under way at a
  time, and each is carried out when it is polled for the last time, not when it is submitted.
  `Traffic` is a device with what is under way, `Move` what its users can do next: submit a
  transfer, poll one that is under way, or give it up.

  1. `latest` tells from the answers alone what a byte of the image should be: what a successful
     write put there most recently, or what was there at first.

  2. A transfer that is carried out keeps the image in step with this, and is answered as it should
     be (`KeepsUp.carryOut`): a write replaces its stretch or fails and changes nothing, a read
     fills the head of its buffer with the latest bytes.

  3. The crux is what has to be known of the transfers under way for that (`Taken`): a write has got
     past the check of the device, a read has room in its buffer.  Submission establishes both, and
     nothing that happens until the transfer is carried out can undo them.  So the invariant holds
     after any moves (`Accounts.run`), and with it that no transfer under way can break down
     (`holds_what_was_written`).
-/

namespace SlotVerify.Device.MemoryDevice

/-! ## Transfers -/

/-- A read or a write, with the bytes that it brings along. -/
inductive Transfer where
  | read (r : ReadRequest)
  | write (offset : Nat) (data : ByteArray)

/-- What became of a transfer; a read hands back its request. -/
inductive Answer where
  | read (asked returned : ReadRequest) (outcome : Except IoError Nat)
  | write (offset : Nat) (data : ByteArray) (outcome : Except IoError Unit)

/-- The transfer that was answered. -/
def Answer.transfer : Answer → Transfer
  | .read asked _ _ => .read asked
  | .write offset data _ => .write offset data

/-- Carries out a transfer that was taken. -/
def carryOut (d : MemoryDevice) : Transfer → MemoryDevice × Answer
  | .read r => ((d.read r).1, .read r (d.read r).2.1 (d.read r).2.2)
  | .write offset data => ((d.write offset data).1, .write offset data (d.write offset data).2)

/-- The same in the arithmetic of a machine. -/
def carryOutOnWords (bits : Nat) (d : MemoryDevice) :
    Transfer → Except Breakdown (MemoryDevice × Answer)
  | .read r => (d.readOnWords bits r).map fun x => (x.1, .read r x.2.1 x.2.2)
  | .write offset data =>
    (d.writeOnWords bits offset data).map fun x => (x.1, .write offset data x.2)

/-- A transfer whose offset is a word of 64 bits, and whose bytes the machine can count. -/
def Transfer.Native (bits : Nat) : Transfer → Prop
  | .read r => NativeRead bits r
  | .write offset data => NativeWrite bits offset data

/-! ## What is under way -/

/-- A transfer under way. -/
structure Flight where
  transfer : Transfer
  /-- Polls that will still end pending. -/
  left : Nat

/-- A device and what has been asked of it. -/
structure Traffic where
  device : MemoryDevice
  /-- In the order of submission.  Nothing is left of one that has been answered or given up. -/
  flights : List (Option Flight)
  /-- What has been answered, last answer first. -/
  answers : List Answer

/-- What a user of the device does. -/
inductive Move where
  | read (offset : Nat) (buffer : ByteArray) (length : Nat)
  | write (offset : Nat) (data : ByteArray)
  | poll (k : Nat)
  | drop (k : Nat)

namespace Traffic

/-- A device of which nothing has been asked. -/
def start (d : MemoryDevice) : Traffic := ⟨d, [], []⟩

/-- One transfer more is under way. -/
def take (t : Traffic) (x : Transfer) : Traffic :=
  { t with flights := t.flights ++ [some ⟨x, delay⟩] }

/-- Polls a transfer: it goes on waiting, or is carried out and answered. -/
def poll (t : Traffic) (k : Nat) (f : Flight) : Traffic :=
  match f.left with
  | n + 1 => { t with flights := t.flights.set k (some { f with left := n }) }
  | 0 =>
    let (device, answer) := t.device.carryOut f.transfer
    ⟨device, t.flights.set k none, answer :: t.answers⟩

/-- Makes a move.  There is no read without memory for its buffer, and a write that the device does
    not take is answered at once. -/
def step (t : Traffic) : Move → Traffic
  | .read offset buffer length =>
    match ReadRequest.new offset buffer length with
    | .ok r => t.take (.read r)
    | .error _ => t
  | .write offset data =>
    match t.device.accept (.write offset data) with
    | .ok () => t.take (.write offset data)
    | .error e => { t with answers := .write offset data (.error e) :: t.answers }
  | .poll k =>
    match t.flights[k]? with
    | some (some f) => t.poll k f
    | _ => t
  | .drop k => { t with flights := t.flights.set k none }

/-- Makes moves, one after the other. -/
def run (t : Traffic) (moves : List Move) : Traffic := moves.foldl step t

end Traffic

/-! ## What the image and the answers should be -/

/-- The byte that a transfer has put at `x`, if it has. -/
def Answer.put? : Answer → Nat → Option UInt8
  | .write offset data (.ok ()), x =>
    if offset ≤ x ∧ x < offset + data.size then some (Bytes.at0 data (x - offset)) else none
  | _, _ => none

/-- The byte at `x` after some answers, last answer first: what was put there most recently, or what
    was there at first. -/
def latest (image : ByteArray) (answers : List Answer) (x : Nat) : UInt8 :=
  (answers.findSome? (·.put? x)).getD (Bytes.at0 image x)

/-- Whether a read covers the byte that cannot be read. -/
def Covers (d : MemoryDevice) (r : ReadRequest) : Prop :=
  ∃ bad, d.failReadAt = some bad ∧ r.offset ≤ bad ∧ bad < r.offset + r.length

/-- A read that has delivered `n` bytes. -/
structure Delivered (d : MemoryDevice) (earlier : List Answer) (asked returned : ReadRequest)
    (n : Nat) : Prop where
  /-- As many as were asked for, as there are, and as one read delivers. -/
  count : n = min (min asked.length (d.image.size - asked.offset)) (d.readLimit.getD asked.length)
  offset : returned.offset = asked.offset
  length : returned.length = asked.length
  size : returned.buffer.size = asked.buffer.size
  room : returned.length ≤ returned.buffer.size
  head : ∀ i, i < n → Bytes.at0 returned.buffer i = latest d.image earlier (asked.offset + i)
  rest : ∀ i, n ≤ i → Bytes.at0 returned.buffer i = Bytes.at0 asked.buffer i

/-- How a transfer is to be answered by a device that was `d` at first, after other answers. -/
def Answered (d : MemoryDevice) (earlier : List Answer) : Answer → Prop
  | .read asked returned outcome =>
    (d.Covers asked → outcome = .error .ioFailure ∧ returned = asked) ∧
    (¬ d.Covers asked → ∃ n, outcome = .ok n ∧ d.Delivered earlier asked returned n)
  | .write offset data outcome =>
    (d.writable = false → outcome = .error .readOnly) ∧
    (d.writable = true →
      outcome = if offset + data.size ≤ d.image.size then .ok () else .error .outOfRange)

/-! ## Carrying out -/

section Once

variable {d : MemoryDevice}

theorem latest_nil (image : ByteArray) (x : Nat) : latest image [] x = Bytes.at0 image x := by
  unfold latest
  rw [List.findSome?_nil, Option.getD_none]

theorem latest_cons (image : ByteArray) (a : Answer) (earlier : List Answer) (x : Nat) :
    latest image (a :: earlier) x = (a.put? x).getD (latest image earlier x) := by
  unfold latest
  rw [List.findSome?_cons]
  cases a.put? x <;> rfl

theorem covers_iff (r : ReadRequest) : d.Covers r ↔ d.readFails r.offset r.length = true := by
  unfold Covers readFails
  cases d.failReadAt with
  | none => exact ⟨nofun, nofun⟩
  | some bad =>
    dsimp only
    rw [Bool.and_eq_true, decide_eq_true_eq, decide_eq_true_eq]
    constructor
    · rintro ⟨_, ⟨⟩, hcovers⟩
      exact hcovers
    · exact fun hcovers => ⟨bad, rfl, hcovers⟩

theorem available_eq (offset length : Nat) :
    d.available offset length =
      min (min length (d.image.size - offset)) (d.readLimit.getD length) := by
  unfold available
  cases d.readLimit with
  | none =>
    show min length _ = min (min length _) length
    omega
  | some limit => rfl

theorem read_of_covers {r : ReadRequest} (h : d.Covers r) :
    d.read r = ({ d with reads := d.reads + 1 }, r, .error .ioFailure) :=
  if_pos ((covers_iff r).mp h)

theorem read_of_not_covers {r : ReadRequest} (h : ¬ d.Covers r) :
    d.read r = ({ d with reads := d.reads + 1 },
      r.deliver (Bytes.slice d.image r.offset (d.available r.offset r.length)),
      .ok (d.available r.offset r.length)) :=
  if_neg fun hfails => h ((covers_iff r).mpr hfails)

/-- What a read leaves in its buffer: bytes of the image in its head, and behind them what was there
    before. -/
theorem at0_deliver {r : ReadRequest} {image : ByteArray} {n : Nat} (hn : n ≤ image.size - r.offset)
    (hroom : n ≤ r.buffer.size) (i : Nat) :
    Bytes.at0 (r.deliver (Bytes.slice image r.offset n)).buffer i =
      if i < n then Bytes.at0 image (r.offset + i) else Bytes.at0 r.buffer i := by
  have hsize := Bytes.size_slice_of_le hn
  show Bytes.at0 (Bytes.overwrite r.buffer 0 _) i = _
  rw [Bytes.at0_overwrite (by omega), hsize]
  by_cases hi : i < n
  · rw [if_pos (by omega), if_pos hi]
    show Bytes.at0 (image.extract _ _) (i - 0) = _
    rw [Bytes.at0_extract, Nat.sub_zero, if_pos (by omega)]
  · rw [if_neg (by omega), if_neg hi]

end Once

/-- A transfer that a device has taken: there is room for what is read, and what is written may
    be. -/
def Transfer.Taken (d : MemoryDevice) : Transfer → Prop
  | .read r => r.length ≤ r.buffer.size
  | .write .. => d.writable = true

/-- A device that was `d` at first, by its image and its answers. -/
structure KeepsUp (d d' : MemoryDevice) (answers : List Answer) : Prop where
  writable : d'.writable = d.writable
  readLimit : d'.readLimit = d.readLimit
  failReadAt : d'.failReadAt = d.failReadAt
  size : d'.image.size = d.image.size
  bytes : ∀ x, Bytes.at0 d'.image x = latest d.image answers x

section Step

variable {d d' : MemoryDevice} {answers : List Answer}

theorem KeepsUp.refl (d : MemoryDevice) : d.KeepsUp d [] :=
  ⟨rfl, rfl, rfl, rfl, fun x => (latest_nil d.image x).symm⟩

/-- An answer that has put nothing anywhere. -/
theorem KeepsUp.cons_of_put? (h : d.KeepsUp d' answers) {a : Answer} (ha : ∀ x, a.put? x = none) :
    d.KeepsUp d' (a :: answers) := by
  refine ⟨h.writable, h.readLimit, h.failReadAt, h.size, fun x => ?_⟩
  rw [latest_cons, ha]
  exact h.bytes x

/-- A read is answered with the latest bytes. -/
theorem KeepsUp.answered_read (h : d.KeepsUp d' answers) {r : ReadRequest}
    (hroom : r.length ≤ r.buffer.size) :
    d.Answered answers (.read r (d'.read r).2.1 (d'.read r).2.2) := by
  have hcovers : d'.Covers r ↔ d.Covers r := by
    unfold Covers
    rw [h.failReadAt]
  constructor
  · intro hbad
    rw [read_of_covers (hcovers.mpr hbad)]
    exact ⟨rfl, rfl⟩
  · intro hgood
    obtain ⟨hasked, hthere, -⟩ := d'.available_spec r.offset r.length
    have hcount := d'.available_eq r.offset r.length
    rw [h.size, h.readLimit] at hcount
    rw [read_of_not_covers fun hbad => hgood (hcovers.mp hbad)]
    generalize d'.available r.offset r.length = n at hasked hthere hcount
    have hat0 := at0_deliver (r := r) hthere (by omega)
    have hsize : (r.deliver (Bytes.slice d'.image r.offset n)).buffer.size = r.buffer.size := by
      refine ReadRequest.size_deliver ?_
      rw [Bytes.size_slice_of_le hthere]
      omega
    refine ⟨n, rfl, hcount, r.offset_deliver _, r.length_deliver _, hsize, ?_, ?_, ?_⟩
    · rw [hsize, r.length_deliver]
      exact hroom
    · intro i hi
      rw [hat0, if_pos hi]
      exact h.bytes _
    · intro i hi
      rw [hat0, if_neg (by omega)]

theorem KeepsUp.read (h : d.KeepsUp d' answers) (r : ReadRequest) :
    d.KeepsUp (d'.read r).1 (.read r (d'.read r).2.1 (d'.read r).2.2 :: answers) := by
  have hkept : d.KeepsUp { d' with reads := d'.reads + 1 } answers :=
    ⟨h.writable, h.readLimit, h.failReadAt, h.size, h.bytes⟩
  have hdevice : (d'.read r).1 = { d' with reads := d'.reads + 1 } := by
    by_cases hbad : d'.Covers r
    · rw [read_of_covers hbad]
    · rw [read_of_not_covers hbad]
  rw [hdevice]
  exact hkept.cons_of_put? fun _ => rfl

/-- A write that fits shows in its stretch, and nowhere else. -/
theorem KeepsUp.write (h : d.KeepsUp d' answers) (offset : Nat) (data : ByteArray) :
    d.KeepsUp (d'.write offset data).1
      (.write offset data (d'.write offset data).2 :: answers) := by
  by_cases hfits : offset + data.size ≤ d'.image.size
  · have hwrite : d'.write offset data =
        ({ d' with image := Bytes.overwrite d'.image offset data }, .ok ()) := if_pos hfits
    rw [hwrite]
    refine ⟨h.writable, h.readLimit, h.failReadAt, (Bytes.size_overwrite hfits).trans h.size, ?_⟩
    intro x
    rw [latest_cons]
    show Bytes.at0 (Bytes.overwrite d'.image offset data) x = (ite _ _ _ : Option UInt8).getD _
    rw [Bytes.at0_overwrite hfits]
    by_cases hx : offset ≤ x ∧ x < offset + data.size
    · rw [if_pos hx, if_pos hx]
      rfl
    · rw [if_neg hx, if_neg hx]
      exact h.bytes x
  · have hwrite : d'.write offset data = (d', .error .outOfRange) := if_neg hfits
    rw [hwrite]
    exact h.cons_of_put? fun _ => rfl

theorem KeepsUp.answered_write (h : d.KeepsUp d' answers) (hwritable : d.writable = true)
    (offset : Nat) (data : ByteArray) :
    d.Answered answers (.write offset data (d'.write offset data).2) := by
  constructor
  · intro hreadOnly
    rw [hwritable] at hreadOnly
    cases hreadOnly
  · intro _
    rw [← h.size]
    unfold MemoryDevice.write
    split <;> rfl

/-- A transfer that is carried out keeps the image in step, and is answered as it should be. -/
theorem KeepsUp.carryOut (h : d.KeepsUp d' answers) {x : Transfer} (hx : x.Taken d) :
    d.KeepsUp (d'.carryOut x).1 ((d'.carryOut x).2 :: answers) ∧
      d.Answered answers (d'.carryOut x).2 := by
  cases x with
  | read r => exact ⟨h.read r, h.answered_read hx⟩
  | write offset data => exact ⟨h.write offset data, h.answered_write hx offset data⟩

/-- In the arithmetic of a machine a transfer that was taken does not break down. -/
theorem KeepsUp.carryOutOnWords_eq (h : d.KeepsUp d' answers) {bits : Nat} (hbits : bits ≤ 64)
    (hd : d.Native bits) {x : Transfer} (hx : x.Taken d) (hnative : x.Native bits) :
    d'.carryOutOnWords bits x = .ok (d'.carryOut x) := by
  have hd' : d'.Native bits := by
    refine ⟨?_, ?_, ?_⟩
    · rw [h.size]
      exact hd.size
    · rw [h.readLimit]
      exact hd.readLimit
    · rw [h.failReadAt]
      exact hd.failReadAt
  cases x with
  | read r =>
    show (d'.readOnWords bits r).map _ = _
    rw [readOnWords_eq hbits hd' hnative hx]
    rfl
  | write offset data =>
    show (d'.writeOnWords bits offset data).map _ = _
    rw [writeOnWords_eq hd' hnative]
    rfl

end Step

/-! ## Moves -/

namespace Traffic

/-- Traffic of a device that was `d` at first. -/
structure Accounts (d : MemoryDevice) (t : Traffic) : Prop where
  device : d.KeepsUp t.device t.answers
  answered : ∀ later a earlier, t.answers = later ++ a :: earlier → d.Answered earlier a
  flights : ∀ f, some f ∈ t.flights → f.left ≤ delay ∧ f.transfer.Taken d

variable {d : MemoryDevice} {t : Traffic}

theorem Accounts.start (d : MemoryDevice) : Accounts d (start d) := by
  refine ⟨.refl d, ?_, nofun⟩
  intro later a earlier h
  cases later <;> cases h

/-- One answer more. -/
theorem Accounts.answer (h : Accounts d t) {device : MemoryDevice} {flights : List (Option Flight)}
    {a : Answer} (hdevice : d.KeepsUp device (a :: t.answers)) (ha : d.Answered t.answers a)
    (hflights : ∀ f, some f ∈ flights → some f ∈ t.flights) :
    Accounts d ⟨device, flights, a :: t.answers⟩ := by
  refine ⟨hdevice, ?_, fun f hf => h.flights f (hflights f hf)⟩
  intro later b earlier hsplit
  cases later with
  | nil =>
    obtain ⟨rfl, rfl⟩ := List.cons.inj hsplit
    exact ha
  | cons c later => exact h.answered later b earlier (List.cons.inj hsplit).2

theorem Accounts.take (h : Accounts d t) {x : Transfer} (hx : x.Taken d) :
    Accounts d (t.take x) := by
  refine ⟨h.device, h.answered, ?_⟩
  intro f hf
  rcases List.mem_append.mp hf with hold | hnew
  · exact h.flights f hold
  · obtain rfl : f = ⟨x, delay⟩ := Option.some.inj (List.mem_singleton.mp hnew)
    exact ⟨Nat.le_refl _, hx⟩

/-- Nothing new is under way if a place is cleared. -/
theorem mem_of_mem_clear {flights : List (Option Flight)} {k : Nat} {f : Flight}
    (h : some f ∈ flights.set k none) : some f ∈ flights := by
  rcases List.mem_or_eq_of_mem_set h with hold | hnone
  · exact hold
  · cases hnone

theorem Accounts.poll (h : Accounts d t) {k : Nat} {f : Flight} (hf : some f ∈ t.flights) :
    Accounts d (t.poll k f) := by
  obtain ⟨hleft, htaken⟩ := h.flights f hf
  obtain ⟨x, left⟩ := f
  cases left with
  | zero =>
    obtain ⟨hdevice, hanswered⟩ := h.device.carryOut htaken
    exact h.answer hdevice hanswered fun _ => mem_of_mem_clear
  | succ n =>
    refine ⟨h.device, h.answered, ?_⟩
    intro f hf
    rcases List.mem_or_eq_of_mem_set hf with hold | hnew
    · exact h.flights f hold
    · obtain rfl := Option.some.inj hnew
      exact ⟨Nat.le_of_succ_le hleft, htaken⟩

/-- One case for each move. -/
theorem Accounts.step (h : Accounts d t) (m : Move) : Accounts d (t.step m) := by
  cases m with
  | read offset buffer length =>
    show Accounts d (match ReadRequest.new offset buffer length with
      | .ok r => t.take (.read r)
      | .error _ => t)
    cases hnew : ReadRequest.new offset buffer length with
    | error e => exact h
    | ok r => exact h.take (ReadRequest.length_le_size_buffer hnew)
  | write offset data =>
    cases hwritable : d.writable with
    | true =>
      have hstep : t.step (.write offset data) = t.take (.write offset data) := by
        simp [Traffic.step, accept, h.device.writable, hwritable]
      rw [hstep]
      exact h.take hwritable
    | false =>
      have hstep : t.step (.write offset data) =
          { t with answers := .write offset data (.error .readOnly) :: t.answers } := by
        simp [Traffic.step, accept, h.device.writable, hwritable]
      rw [hstep]
      refine h.answer (h.device.cons_of_put? fun _ => rfl) ⟨fun _ => rfl, ?_⟩ fun _ => id
      intro hnot
      rw [hwritable] at hnot
      cases hnot
  | poll k =>
    show Accounts d (match t.flights[k]? with
      | some (some f) => t.poll k f
      | _ => t)
    split
    · rename_i f hf
      exact h.poll (List.mem_of_getElem? hf)
    · exact h
  | drop k =>
    exact ⟨h.device, h.answered, fun f hf => h.flights f (mem_of_mem_clear hf)⟩

/-- By induction on the moves. -/
theorem Accounts.run (h : Accounts d t) (moves : List Move) : Accounts d (t.run moves) := by
  induction moves generalizing t with
  | nil => exact h
  | cons m moves ih => exact ih (h.step m)

theorem step_poll {k : Nat} {f : Flight} (hf : t.flights[k]? = some (some f)) :
    t.step (.poll k) = t.poll k f := by
  show (match t.flights[k]? with
    | some (some f) => t.poll k f
    | _ => t) = _
  rw [hf]

/-- A transfer under way is answered once it has been polled often enough. -/
theorem answers_run_polls {k : Nat} {x : Transfer} (left : Nat)
    (hf : t.flights[k]? = some (some ⟨x, left⟩)) :
    ∃ a : Answer, a.transfer = x ∧
      (t.run (List.replicate (left + 1) (.poll k))).answers = a :: t.answers := by
  induction left generalizing t with
  | zero =>
    refine ⟨(t.device.carryOut x).2, ?_, ?_⟩
    · cases x <;> rfl
    · show (t.step (.poll k)).answers = _
      rw [step_poll hf]
      rfl
  | succ n ih =>
    obtain ⟨hk, -⟩ := List.getElem?_eq_some_iff.mp hf
    show ∃ a : Answer, a.transfer = x ∧
      ((t.step (.poll k)).run (List.replicate (n + 1) (.poll k))).answers = a :: t.answers
    rw [step_poll hf]
    refine ih (t := t.poll k ⟨x, n + 1⟩) ?_
    exact List.getElem?_set_self hk

/-- Whatever moves are made on a device in memory, it is an array of bytes.  Its length never
    changes, and every byte is what a successful write put there most recently, or what was there at
    first.  Each write was answered as its stretch and the opening of the device demand, each read
    with the latest bytes.  A transfer under way is answered by its second poll at the latest, and
    on a machine with words of any width up to 64 bits carrying it out does not break down. -/
theorem holds_what_was_written {d : MemoryDevice} {moves : List Move} {t : Traffic}
    (ht : (Traffic.start d).run moves = t) :
    t.device.image.size = d.image.size ∧
    (∀ x, Bytes.at0 t.device.image x = latest d.image t.answers x) ∧
    (∀ later a earlier, t.answers = later ++ a :: earlier → d.Answered earlier a) ∧
    ∀ k f, t.flights[k]? = some (some f) →
      (f.left ≤ delay ∧ ∃ a : Answer, a.transfer = f.transfer ∧
        (t.run (List.replicate (f.left + 1) (.poll k))).answers = a :: t.answers) ∧
      ∀ bits, bits ≤ 64 → d.Native bits → f.transfer.Native bits →
        t.device.carryOutOnWords bits f.transfer = .ok (t.device.carryOut f.transfer) := by
  have h : Accounts d t := ht ▸ (Accounts.start d).run moves
  refine ⟨h.device.size, h.device.bytes, h.answered, ?_⟩
  intro k f hf
  obtain ⟨hleft, htaken⟩ := h.flights f (List.mem_of_getElem? hf)
  refine ⟨⟨hleft, answers_run_polls f.left hf⟩, ?_⟩
  intro bits hbits hd hnative
  exact h.device.carryOutOnWords_eq hbits hd htaken hnative

/-- A device with six bytes, the last of which cannot be read. -/
def sixBytes : MemoryDevice := { image := ⟨#[0, 1, 2, 3, 4, 5]⟩, failReadAt := some 5 }

/-- A read of four bytes into a longer buffer. -/
def fourBytes : ReadRequest := ⟨1, ⟨#[7, 7, 7, 7, 7]⟩, 4⟩

/-- Two writes that overlap, the second one carried out first, one write across the end, and a read
    that has been polled once. -/
def crossing : List Move :=
  [.write 1 ⟨#[10, 11]⟩, .write 2 ⟨#[20, 21]⟩, .write 5 ⟨#[30, 31]⟩, .read 1 fourBytes.buffer 4,
    .poll 1, .poll 1, .poll 0, .poll 0, .poll 2, .poll 3, .poll 2]

/-- Of the byte that both writes put there the one that was carried out last is left; the write
    across the end has failed, and the read that is still under way will be answered with what is
    there then. -/
theorem holds_what_was_written_crossing : ∃ t : Traffic,
    (Traffic.start sixBytes).run crossing = t ∧
      t.device.image.size = 6 ∧ Bytes.at0 t.device.image 2 = 11 ∧
      sixBytes.Answered [.write 1 ⟨#[10, 11]⟩ (.ok ()), .write 2 ⟨#[20, 21]⟩ (.ok ())]
        (.write 5 ⟨#[30, 31]⟩ (.error .outOfRange)) ∧
      t.flights[3]? = some (some ⟨.read fourBytes, 0⟩) ∧
      sixBytes.Native 64 ∧ (Transfer.read fourBytes).Native 64 ∧
      t.device.carryOutOnWords 64 (.read fourBytes) =
        .ok (t.device.carryOut (.read fourBytes)) ∧
      (t.run [.poll 3]).answers =
        .read fourBytes ⟨1, ⟨#[10, 11, 21, 4, 7]⟩, 4⟩ (.ok 4) :: t.answers := by
  obtain ⟨hsize, hbytes, hanswered, hflights⟩ :=
    holds_what_was_written (rfl : (Traffic.start sixBytes).run crossing = _)
  have hdevice : sixBytes.Native 64 :=
    ⟨by decide, nofun, fun bad hbad => by obtain rfl := Option.some.inj hbad; decide⟩
  have hread : (Transfer.read fourBytes).Native 64 := ⟨by decide, by decide⟩
  have hflight : ((Traffic.start sixBytes).run crossing).flights[3]? =
      some (some ⟨.read fourBytes, 0⟩) := rfl
  obtain ⟨-, hwords⟩ := hflights 3 _ hflight
  exact ⟨_, rfl, hsize, hbytes 2, hanswered [] _ _ rfl, hflight, hdevice, hread,
    hwords 64 (Nat.le_refl _) hdevice hread, rfl⟩

end Traffic

end SlotVerify.Device.MemoryDevice
