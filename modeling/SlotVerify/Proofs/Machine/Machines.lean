import SlotVerify.Proofs.Fec.Encoder
import SlotVerify.Proofs.Machine.Turn
import SlotVerify.Proofs.Verification.Cursor
import SlotVerify.Task.Yield
/-
  The verification as three machines inside one another.

  `Verifying` goes through the plan, `Hashing` reads and hashes one partition, and `Finalizing`
  writes the metadata of one.  The inner machine is part of the outer one's state: one turn of the
  outer machine is one turn of the innermost one that is at work.

  What a machine has only some of the time is an `Option` field: the plan until it is handed on, the
  writer while it is not lent to the hashing, the hasher until the digest is due, the encoder until
  the last round is written.  Where a machine needs such a thing it looks for it, and goes astray if
  it is not there.

  A request that fails may come back or not, when it is submitted and when it is completed; each
  machine has an arm for either.
-/

namespace SlotVerify.Machine

open Device Verification
open Fec (Encoder)
open Verity (Writer Finalization)

variable {P : Type}

/-! ## Writing the metadata -/

/-- Where the writing of the metadata stands. -/
inductive Finalizing.State where
  | init
  | writingTree (offset : Nat) (tree : ByteArray) (fut : IoFuture)
  | prepareRead
  | reading (offset length : Nat) (fut : IoFuture)
  | writingRound (offset : Nat) (parity : ByteArray) (fut : IoFuture)
  | prepareSync
  | syncing (fut : IoFuture)
  | done

/-- The writing of the metadata of one partition. -/
structure Finalizing where
  /-- The tree with its place, until it is written. -/
  tree : Option (Nat × ByteArray)
  /-- The error correction, until its last round is written. -/
  encoder : Option Encoder
  state : Finalizing.State

namespace Finalizing

/-- What a finalization has written for it. -/
def ofFinalization (f : Finalization) : Except Verity.Error Finalizing :=
  match f.fec with
  | none => .ok ⟨f.tree, none, .init⟩
  | some g =>
    match Fec.Code.ofRoots? g.roots with
    | some code => .ok ⟨f.tree, some (Encoder.start g code), .init⟩
    | none => .error (.invalidFecRoots g.roots)

/-- A turn's result. -/
abbrev Result := Finalizing × After (Except Verity.Error Unit)

/-- Goes on in another state. -/
def goTo (f : Finalizing) (state : State) : Turn P Result := .ret ({ f with state }, .again)

def wait (f : Finalizing) (state : State) : Turn P Result := .ret ({ f with state }, .pending)

def finish (f : Finalizing) (result : Except Verity.Error Unit) : Turn P Result :=
  .ret ({ f with state := .done }, .ready result)

/-- Asks for what the current round misses, or writes its parity bytes. -/
def prepare (d : OpenedDevice) (f : Finalizing) (e : Encoder) : Turn P Result :=
  let f := { f with encoder := some e.nextRead.1 }
  match e.nextRead.2 with
  | some (offset, length) =>
    .start d (.read offset length) fun
      | .taken fut => f.goTo (.reading offset length fut)
      | .returned _ e | .refused e => f.finish (.error (.io e))
  | none =>
    let offset := e.geometry.roundOffset e.round
    .start d (.write offset e.nextRead.1.parity) fun
      | .taken fut => f.goTo (.writingRound offset e.nextRead.1.parity fut)
      | .returned _ e | .refused e => f.finish (.error (.io e))

/-- Takes bytes that have been read. -/
def fill (f : Finalizing) (offset : Nat) (bytes : ByteArray) : Turn P Result :=
  if bytes.size = 0 then f.finish (.error (.unexpectedEnd offset))
  else
    match f.encoder with
    | none => .astray .encoderToFill
    | some e =>
      match e.completeRead bytes with
      | none => .astray .bufferToFill
      | some e => { f with encoder := some e }.goTo .prepareRead

/-- Goes on to the next round, if there is one. -/
def nextRound (f : Finalizing) : Turn P Result :=
  match f.encoder with
  | some e =>
    if e.advance.2 then { f with encoder := some e.advance.1 }.goTo .prepareRead
    else { f with encoder := none }.goTo .prepareSync
  | none => f.goTo .prepareSync

/-- One turn. -/
def turn (d : OpenedDevice) (f : Finalizing) : Turn P Result :=
  match f.state with
  | .init =>
    let f' := { f with tree := none }
    match f.tree with
    | some (offset, tree) =>
      if tree.size = 0 then f'.goTo .prepareRead
      else
        .start d (.write offset tree) fun
          | .taken fut => f'.goTo (.writingTree offset tree fut)
          | .returned _ e | .refused e => f'.finish (.error (.io e))
    | none => f'.goTo .prepareRead
  | .writingTree offset tree fut =>
    (fut.poll d (.write offset tree)).bind fun
      | (fut, none) => f.wait (.writingTree offset tree fut)
      | (_, some (.answered ())) => f.goTo .prepareRead
      | (_, some (.failed _ e)) | (_, some (.lost e)) => f.finish (.error (.io e))
  | .prepareRead =>
    match f.encoder with
    | some e => f.prepare d e
    | none => f.goTo .prepareSync
  | .reading offset length fut =>
    (fut.poll d (.read offset length)).bind fun
      | (fut, none) => f.wait (.reading offset length fut)
      | (_, some (.lost e)) => f.finish (.error (.io e))
      | (_, some (.failed _ e)) => f.finish (.error (.io e))
      | (_, some (.answered bytes)) => f.fill offset (bytes.extract 0 length)
  | .writingRound offset parity fut =>
    (fut.poll d (.write offset parity)).bind fun
      | (fut, none) => f.wait (.writingRound offset parity fut)
      | (_, some (.answered ())) => f.nextRound
      | (_, some (.failed _ e)) | (_, some (.lost e)) => f.finish (.error (.io e))
  | .prepareSync =>
    .start d .sync fun
      | .taken fut => f.goTo (.syncing fut)
      | .returned _ e | .refused e => f.finish (.error (.io e))
  | .syncing fut =>
    (fut.poll d .sync).bind fun
      | (fut, none) => f.wait (.syncing fut)
      | (_, some (.answered ())) => f.finish (.ok ())
      | (_, some (.failed _ e)) | (_, some (.lost e)) => f.finish (.error (.io e))
  | .done => .astray .finishedMachine

end Finalizing

/-! ## Hashing a partition -/

/-- Where the hashing of a partition stands. -/
inductive Hashing.State where
  | prepareRead
  | reading (length : Nat) (fut : IoFuture)
  | yielding (y : Task.YieldNow)
  | finalizing (f : Finalizing)
  | done

/-- The hashing of one partition. -/
structure Hashing where
  size : Nat
  /-- Where the data ends that the writer is fed with. -/
  dataEnd : Nat
  offset : Nat
  /-- Until the digest is due. -/
  hasher : Option (Digest.Hasher partitionAlgorithm)
  /-- Lent for the partition, if its metadata is to be written. -/
  writer : Option Writer
  finalized : Bool
  state : Hashing.State

namespace Hashing

/-- A partition of which nothing has been read. -/
def start (size dataEnd : Nat) (writer : Option Writer) : Hashing :=
  ⟨size, min dataEnd size, 0, some (.start partitionAlgorithm), writer, false, .prepareRead⟩

/-- The same, provided there is memory for a chunk; else the writer is handed back. -/
def new (size dataEnd : Nat) (writer : Option Writer) : Except (Option Writer × IoError) Hashing :=
  if memoryLimit < min chunkSize size then .error (writer, .memoryAllocationFailure)
  else .ok (start size dataEnd writer)

/-- A turn's result; when it is ready, the writer is handed back. -/
abbrev Result := Hashing × After (Option Writer × Except HashError ByteArray)

/-- Goes on in another state. -/
def goTo (h : Hashing) (state : State) : Turn P Result := .ret ({ h with state }, .again)

def wait (h : Hashing) (state : State) : Turn P Result := .ret ({ h with state }, .pending)

def finish (h : Hashing) (result : Except HashError ByteArray) : Turn P Result :=
  .ret ({ h with writer := none, state := .done }, .ready (h.writer, result))

/-- Asks for the next chunk in front of a stop. -/
def request (d : OpenedDevice) (h : Hashing) (stop : Nat) : Turn P Result :=
  let length := min chunkSize (stop - h.offset)
  .start d (.read h.offset length) fun
    | .taken fut => h.goTo (.reading length fut)
    | .returned _ e | .refused e => h.finish (.error (.read h.offset e))

/-- Has the writer hand out what is to be written. -/
def finalize (h : Hashing) : Turn P Result :=
  match h.writer with
  | none => { h with finalized := true }.goTo .prepareRead
  | some w =>
    let h := { h with writer := some w.finalize.1, finalized := true }
    match w.finalize.2 with
    | .error e => h.finish (.error (.verity e))
    | .ok f =>
      match Finalizing.ofFinalization f with
      | .error e => h.finish (.error (.verity e))
      | .ok f => h.goTo (.finalizing f)

/-- Gives the digest. -/
def digest (h : Hashing) : Turn P Result :=
  match h.hasher with
  | some hasher => { h with hasher := none }.finish (.ok hasher.finish)
  | none => .astray .hasherToFinish

/-- The writer fed with a chunk, if it is to be fed. -/
def fed (h : Hashing) (bytes : ByteArray) : Hashing × Except Verity.Error Unit :=
  if h.offset < h.dataEnd then
    match h.writer with
    | some w => ({ h with writer := some (w.update h.offset bytes).1 }, (w.update h.offset bytes).2)
    | none => (h, .ok ())
  else (h, .ok ())

/-- Takes a chunk that has been read. -/
def take (h : Hashing) (bytes : ByteArray) : Turn P Result :=
  if bytes.size = 0 then h.finish (.error (.unexpectedEnd h.offset))
  else
    let h := { h with hasher := h.hasher.map (Digest.Hasher.update · bytes) }
    match h.fed bytes with
    | (h, .error e) => h.finish (.error (.verity e))
    | (h, .ok ()) => { h with offset := h.offset + bytes.size }.goTo (.yielding {})

/-- What follows a turn of the writing of metadata. -/
def afterFinalizing (h : Hashing) : Finalizing.Result → Turn P Result
  | (f, .again) => h.goTo (.finalizing f)
  | (f, .pending) => h.wait (.finalizing f)
  | (_, .ready (.ok ())) => h.goTo .prepareRead
  | (_, .ready (.error e)) => h.finish (.error (.verity e))

/-- One turn. -/
def turn (d : OpenedDevice) (h : Hashing) : Turn P Result :=
  match h.state with
  | .prepareRead =>
    if h.offset < h.dataEnd then h.request d h.dataEnd
    else if h.writer.isSome && !h.finalized then h.finalize
    else if h.offset < h.size then h.request d h.size
    else h.digest
  | .reading length fut =>
    (fut.poll d (.read h.offset length)).bind fun
      | (fut, none) => h.wait (.reading length fut)
      | (_, some (.lost e)) => h.finish (.error (.read h.offset e))
      | (_, some (.failed _ e)) => h.finish (.error (.read h.offset e))
      | (_, some (.answered bytes)) => h.take (bytes.extract 0 length)
  | .yielding y =>
    y.poll (fun next => .call .wake fun _ => next) (fun y => h.wait (.yielding y))
      (h.goTo .prepareRead)
  | .finalizing f => (f.turn d).bind h.afterFinalizing
  | .done => .astray .finishedMachine

/-- There is always memory for a chunk. -/
theorem new_eq_ok (size dataEnd : Nat) (lent : Option Writer) :
    Hashing.new size dataEnd lent = .ok (.start size dataEnd lent) := by
  have hmemory : chunkSize ≤ memoryLimit := by decide
  unfold Hashing.new
  rw [if_neg]
  omega

variable {h : Hashing}

theorem fed_lent {w : Writer} (hwriter : h.writer = some w) (hinside : h.offset < h.dataEnd)
    (chunk : ByteArray) : h.fed chunk =
      ({ h with writer := some (w.update h.offset chunk).1 }, (w.update h.offset chunk).2) := by
  unfold Hashing.fed
  rw [if_pos hinside, hwriter]

theorem fed_idle (hidle : h.offset < h.dataEnd → h.writer = none) (chunk : ByteArray) :
    h.fed chunk = (h, .ok ()) := by
  unfold Hashing.fed
  split
  · rename_i hinside
    rw [hidle hinside]
  · rfl

end Hashing

/-! ## Verifying a plan -/

/-- Where a verification stands. -/
inductive Verifying.State where
  | init
  /-- The next partition, or its source, is to be hashed. -/
  | startHashing
  | hashing (device : OpenedDevice) (h : Hashing) (size lastReported : Nat)
  | verifyUntouched
  | done

/-- A verification. -/
structure Verifying (P : Type) where
  scale : Scale P
  dynamic : DynamicPartitions
  /-- Unless it is lent to the hashing. -/
  writer : Option Writer
  /-- Until it is handed on. -/
  plan : Option InstallPlan
  writeVerity : Bool
  cursor : Cursor
  /-- The highest progress reported. -/
  maxProgress : P
  cleanedUp : Bool
  state : Verifying.State

namespace Verifying

/-- A verification before its first poll. -/
def new (scale : Scale P) (dynamic : DynamicPartitions) (plan : Option InstallPlan)
    (writer : Writer) : Verifying P :=
  ⟨scale, dynamic, some writer, plan, true, .first, scale.zero, false, .init⟩

/-- A turn's result. -/
abbrev Result (P : Type) := Verifying P × After (Except Error InstallPlan)

/-- Goes on in another state. -/
def goTo (v : Verifying P) (state : State) : Turn P (Result P) := .ret ({ v with state }, .again)

/-- Releases the snapshots, reports that all is done, and is ready. -/
def conclude (v : Verifying P) (result : Except Error InstallPlan) : Turn P (Result P) :=
  let finish : Turn P (Result P) :=
    .call (.report v.scale.one) fun _ =>
      .ret ({ v with cleanedUp := true, state := .done }, .ready result)
  if !v.cleanedUp && (!v.writeVerity && v.dynamic.compressed) then .call .unmapAll fun _ => finish
  else finish

/-- Begins to hash a partition on an opened device, with a writer or without one. -/
def beginHashing (v : Verifying P) (p : Partition) (dataEnd : Nat) (device : OpenedDevice)
    (writer : Option Writer) : Turn P (Result P) :=
  let size := p.size v.cursor.step
  match Hashing.new size dataEnd writer with
  | .ok h => v.goTo (.hashing device h size 0)
  | .error (writer, e) =>
    { v with writer := writer.or v.writer }.conclude (.error (.read p.name 0 e))

/-- Lends the writer to the hashing, if the partition's metadata is to be written. -/
def lendWriter (v : Verifying P) (p : Partition) (writing : Bool) (dataEnd : Nat)
    (device : OpenedDevice) : Turn P (Result P) :=
  if writing then
    match v.writer with
    | none => .astray .writerToBegin
    | some w =>
      let w' := (w.init p.verityLayout).1
      match (w.init p.verityLayout).2 with
      | .ok () => { v with writer := none }.beginHashing p dataEnd device (some w')
      | .error (.rejected e) =>
        { v with writer := some w' }.conclude (.error (.verityComputation p.name e))
      | .error (.breakdown _) => .broken
  else v.beginHashing p dataEnd device none

/-- Opens a partition that there is something to hash of. -/
def openPartition (v : Verifying P) (plan : InstallPlan) (p : Partition) : Turn P (Result P) :=
  let s : Setting P := ⟨v.scale, v.dynamic, plan⟩
  match dataEnd v.cursor.step p.hashTreeOffset.toNat p.fecOffset.toNat (p.size v.cursor.step) with
  | .error e => v.conclude (.error (.invalidVerityLayout p.name e))
  | .ok dataEnd =>
    (Turn.asking (openSource s p v.cursor.step)).bind fun
      | .error e => v.conclude (.error e)
      | .ok device => v.lendWriter p (s.writes p v.cursor.step) dataEnd device

/-- Looks for the next partition, or the source of the current one. -/
def startHashing (v : Verifying P) : Turn P (Result P) :=
  match v.plan with
  | none => .astray .planToHash
  | some plan =>
    match plan.partitions[v.cursor.index]? with
    | none => v.goTo .verifyUntouched
    | some p =>
      if p.path v.cursor.step ≠ "" then v.openPartition plan p
      else if p.size v.cursor.step ≠ 0 then
        v.conclude (.error (.unresolvedDevicePath p.name v.cursor.step))
      else
        match v.cursor.step with
        | .source => v.conclude (.error (judge p (v.cursor.targetDigest.getD .empty) emptyDigest))
        | .target =>
          { v with cursor := { v.cursor with index := v.cursor.index + 1 } }.goTo .startHashing

/-- The name of the current partition. -/
def partitionName (v : Verifying P) : String :=
  ((v.plan.bind fun plan => plan.partitions[v.cursor.index]?).map (·.name)).getD ""

/-- An error of the hashing, with the name of the current partition. -/
def hashError (v : Verifying P) : HashError → Error
  | .read offset e => .read v.partitionName offset e
  | .unexpectedEnd offset => .unexpectedEnd v.partitionName offset
  | .verity e => .verityComputation v.partitionName e

/-- Judges the digest of the current step and goes on. -/
def judgeDigest (v : Verifying P) (digest : ByteArray) : Turn P (Result P) :=
  match v.plan with
  | none => .astray .planToJudge
  | some plan =>
    match plan.partitions[v.cursor.index]? with
    | none => .astray .partitionToJudge
    | some p =>
      match v.cursor.advance p digest with
      | .ok cursor => { v with cursor }.goTo .startHashing
      | .error e => v.conclude (.error e)

/-- Reports progress if there is more of it than before. -/
def tell (v : Verifying P) (offset size lastReported : Nat)
    (next : Verifying P → Turn P (Result P)) : Turn P (Result P) :=
  if offset ≠ lastReported then
    let progress := v.scale.fraction v.cursor.index offset size
      ((v.plan.map (·.partitions.length)).getD 0)
    if v.scale.less v.maxProgress progress then
      .call (.report progress) fun _ => next { v with maxProgress := progress }
    else next v
  else next v

/-- Takes back what the hashing hands back, and judges the digest. -/
def takeBack (v : Verifying P) (writer : Option Writer) (result : Except HashError ByteArray) :
    Turn P (Result P) :=
  let v := { v with writer := writer.or v.writer, state := .startHashing }
  match result with
  | .error e => v.conclude (.error (v.hashError e))
  | .ok digest => v.judgeDigest digest

/-- What follows a turn of the hashing. -/
def afterHashing (v : Verifying P) (device : OpenedDevice) (size lastReported : Nat) :
    Hashing.Result → Turn P (Result P)
  | (h, .again) => v.goTo (.hashing device h size lastReported)
  | (h, .pending) =>
    v.tell h.offset size lastReported fun v =>
      .ret ({ v with state := .hashing device h size h.offset }, .pending)
  | (h, .ready (writer, result)) =>
    v.tell h.offset size lastReported fun v => v.takeBack writer result

/-- One turn. -/
def turn (v : Verifying P) : Turn P (Result P) :=
  match v.state with
  | .init =>
    match v.plan with
    | none => v.conclude (.error .missingInputObject)
    | some plan => { v with writeVerity := plan.writeVerity }.goTo .startHashing
  | .startHashing => v.startHashing
  | .hashing device h size lastReported =>
    (h.turn device).bind (v.afterHashing device size lastReported)
  | .verifyUntouched =>
    match v.plan with
    | none => .astray .planToForward
    | some plan =>
      let v := { v with plan := none }
      (Turn.asking (verifyUntouched plan)).bind fun
        | .error e => v.conclude (.error e)
        | .ok () => v.conclude (.ok plan)
  | .done => .astray .finishedMachine

section

variable {v : Verifying P} {plan : InstallPlan} {p : Partition} {c : Cursor}

theorem startHashing_of_length_le (hplan : v.plan = some plan)
    (h : plan.partitions.length ≤ v.cursor.index) :
    v.startHashing = v.goTo .verifyUntouched := by
  unfold startHashing
  rw [hplan]
  dsimp only
  rw [List.getElem?_eq_none h]

theorem startHashing_of_path (hplan : v.plan = some plan)
    (hp : plan.partitions[v.cursor.index]? = some p) (hpath : p.path v.cursor.step ≠ "") :
    v.startHashing = v.openPartition plan p := by
  unfold startHashing
  rw [hplan]
  dsimp only
  rw [hp]
  exact if_pos hpath

theorem startHashing_of_absent (hplan : v.plan = some plan) (hcursor : v.cursor = c)
    (hp : plan.partitions[c.index]? = some p) (hpath : p.path c.step = "") :
    v.startHashing =
      if p.size c.step ≠ 0 then v.conclude (.error (.unresolvedDevicePath p.name c.step))
      else
        match c.step with
        | .source => v.conclude (.error (judge p (c.targetDigest.getD .empty) emptyDigest))
        | .target => { v with cursor := { c with index := c.index + 1 } }.goTo .startHashing := by
  subst hcursor
  unfold startHashing
  rw [hplan]
  dsimp only
  rw [hp]
  exact if_neg fun h => h hpath

end

end Verifying

end SlotVerify.Machine
