import SlotVerify.Proofs.Routine.Polls
import SlotVerify.Proofs.Verification.Digesting
import SlotVerify.Proofs.Verification.Progress
import SlotVerify.Proofs.Verity.Failure
/-
  One chunk for each poll.

  A hashing that measures its progress in bytes tells the bytes hashed behind each chunk, so they
  can be read off the record of its dealings (`bytesHashed`).

  1. **Places** — between two polls a hashing has given way in front of a chunk, or it waits for
     one, or for a request of the routine that the writer has handed out (`Hashing.Stands`).
  2. **Polls** — from each of these places a poll comes to the next one.  The crux is that whatever
     a chunk comes to, the poll ends there (`Hashing.goes_afterChunk`); so the hashing asks for at
     most one chunk in a poll, be it behind all that the writer's routine does (`Polled`).
  3. **Ends** — a poll that does not end the hashing has hashed a chunk, or a request has been
     pending in it.  So the polls are bounded by the bytes and by the waiting (`Hashing.length_le`),
     and in the end there is a result unless the writer's routine breaks down, which a finalization
     never does.

  The main result is `chunk_by_chunk`.
-/

namespace SlotVerify.Verification

open Device Routine

variable {P W : Type}

/-! ## What a record tells -/

/-- The bytes that have been hashed, as told behind the last chunk. -/
def bytesHashed (record : Record Nat) : Nat := (reports record).getLast?.getD 0

/-- Who signals nothing reports nothing. -/
theorem reports_of_silent {record : Record P} (h : signals record = []) : reports record = [] := by
  refine reports_of_quiet fun progress hmem => ?_
  have hsignal : Call.report progress ∈ signals record := List.mem_filterMap.mpr ⟨_, hmem, rfl⟩
  rw [h] at hsignal
  cases hsignal

/-- What is to be signalled when the bytes hashed have come from one number to another. -/
def signalsBetween (before after : Nat) : List (Call Nat) :=
  if before < after then [.wake, .report after] else []

theorem bytesHashed_append {record ds : Record Nat} (h : signals ds = []) :
    bytesHashed (record ++ ds) = bytesHashed record := by
  unfold bytesHashed
  rw [reports_append, reports_of_silent h, List.append_nil]

theorem bytesHashed_told (record : Record Nat) (bytes : Nat) :
    bytesHashed (record ++ [woken, reported bytes]) = bytes := by
  unfold bytesHashed
  rw [reports_append]
  simp [reports, progressOf, List.findSome?]

/-- After the earlier part of the record the writer has handed out a routine; all dealings since
    have been those of this routine, and it has come to this. -/
def ByWriter (device : OpenedDevice) (earlier record : Record P)
    (ending : Ending (interface P) Unit (Except Verity.Error Unit)) : Prop :=
  ∃ t es written, record = earlier ++ handedOut t :: written ∧
    (t.on P device).Arrives es written ending

theorem ByWriter.earlier_isPrefix {device : OpenedDevice} {earlier record : Record P}
    {ending : Ending (interface P) Unit (Except Verity.Error Unit)}
    (h : ByWriter device earlier record ending) : earlier <+: record := by
  obtain ⟨t, es, written, rfl, -⟩ := h
  exact List.prefix_append ..

/-- Routines of a writer signal nothing. -/
theorem signals_on {t : Verity.DeviceRoutine Unit} {device : OpenedDevice} {es : Trace P}
    {record : Record P} {ending : Ending (interface P) Unit (Except Verity.Error Unit)}
    (h : (t.on P device).Arrives es record ending) : signals record = [] := by
  rw [signals, List.filterMap_eq_nil_iff]
  intro d hd
  cases d with
  | called c answer =>
    exact ((Only.reaches h.reaches (only_on t device)).1 _ (h.called_mem_iff.mp hd)).elim
  | _ => rfl

/-- A routine of the writer goes on in a poll. -/
theorem byWriter_drive (host : Host (interface P) W) {device : OpenedDevice}
    {earlier record : Record P} {rest : Suspended (interface P) (Except Verity.Error Unit)}
    (h : ByWriter device earlier record (.interrupted () rest)) (w : W) :
    ∃ ds, (rest.drive host.recorded (giveWay ()) (w, record)).1.2 = record ++ ds ∧
      signals ds = [] ∧ ByWriter device earlier (record ++ ds)
        (rest.drive host.recorded (giveWay ()) (w, record)).2 := by
  obtain ⟨t, es, written, rfl, harrives⟩ := h
  obtain ⟨new, ds, hrecord, hnext, -⟩ := rest.drive_arrives_behind host.carries_nothing ()
    (earlier ++ [handedOut t]) harrives w
  rw [← List.append_cons] at hrecord hnext
  refine ⟨ds, ?_, ?_, t, es ++ new, written ++ ds, ?_, hnext⟩
  · rw [hrecord]
    simp
  · have hquiet := signals_on hnext
    rw [signals_append] at hquiet
    exact (List.append_eq_nil_iff.mp hquiet).2
  · simp

/-- A routine of the writer begins in a poll. -/
theorem byWriter_begin (host : Host (interface P) W) (device : OpenedDevice) (record : Record P)
    (t : Verity.DeviceRoutine Unit) (w : W) :
    ∃ ds, ((t.on P device).drive host.recorded (giveWay ()) (w, record ++ [handedOut t])).1.2 =
        record ++ ds ∧ signals ds = [] ∧
      ByWriter device record (record ++ ds)
        ((t.on P device).drive host.recorded (giveWay ()) (w, record ++ [handedOut t])).2 := by
  obtain ⟨es, ⟨ds, hrecord, harrives⟩, -⟩ := (t.on P device).drive_stretch host.carries_nothing ()
    w (record ++ [handedOut t])
  rw [List.append_assoc] at hrecord
  have hquiet : signals ds = [] := signals_on harrives
  exact ⟨handedOut t :: ds, hrecord, hquiet, t, es, ds, rfl, harrives⟩

/-! ## Places -/

/-- A hashing of a partition that tells the bytes. -/
structure Hashing where
  subject : Subject
  dataEnd : Nat
  writing : Bool

namespace Hashing

/-- What is being read. -/
inductive Stretch where
  /-- The file system data. -/
  | data
  /-- What comes behind it. -/
  | rest

variable (h : Hashing)

/-- Where a stretch ends. -/
def stop : Stretch → Nat
  | .data => min h.dataEnd h.subject.size
  | .rest => h.subject.size

/-- Whether a stretch is fed to the writer. -/
def feeding : Stretch → Bool
  | .data => h.writing
  | .rest => false

/-- The end of a hashing. -/
def finish (pos : Position Nat) : Attempt Nat HashError (ByteArray × Nat) :=
  Attempt.succeed (pos.hasher.finish, pos.reported)

/-- What comes behind the data, and behind the metadata if that is written. -/
def readRest (pos : Position Nat) : Attempt Nat HashError (ByteArray × Nat) :=
  (hashUpTo .bytes h.subject false h.subject.size pos).andThen finish

/-- What comes behind a stretch. -/
def next : Stretch → Position Nat → Attempt Nat HashError (ByteArray × Nat)
  | .data, pos =>
    (if h.writing then finalizeOn h.subject.device else Attempt.succeed ()).andThen fun _ =>
      h.readRest pos
  | .rest, pos => finish pos

/-- What is left to do from a position on. -/
def readFrom (s : Stretch) (pos : Position Nat) : Attempt Nat HashError (ByteArray × Nat) :=
  (hashUpTo .bytes h.subject (h.feeding s) (h.stop s) pos).andThen (h.next s)

/-- What is left to do with the outcome of a read. -/
def afterChunk (s : Stretch) (pos : Position Nat) (outcome : Except IoError ByteArray) :
    Attempt Nat HashError (ByteArray × Nat) :=
  (afterRead .bytes h.subject (h.feeding s) (h.stop s) pos outcome).andThen (h.next s)

/-- What is left to do once the writer's routine has come to its end. -/
def afterWriting (pos : Position Nat) (outcome : Except Verity.Error Unit) :
    Attempt Nat HashError (ByteArray × Nat) :=
  Attempt.andThen (.done (outcome.mapError .verity)) fun _ => h.readRest pos

theorem hashPartition_eq :
    hashPartition .bytes h.subject h.dataEnd h.writing 0 =
      h.readFrom .data ⟨0, .start partitionAlgorithm, 0⟩ := rfl

variable {h}

theorem readFrom_of_lt {s : Stretch} {pos : Position Nat} (hmore : pos.offset < h.stop s) :
    h.readFrom s pos = .request h.subject.device
      (.read pos.offset (chunkLength (h.stop s) pos)) (h.afterChunk s pos) := by
  unfold readFrom
  rw [hashUpTo_of_lt hmore]
  rfl

theorem readFrom_of_le {s : Stretch} {pos : Position Nat} (hend : h.stop s ≤ pos.offset) :
    h.readFrom s pos = h.next s pos := by
  unfold readFrom
  rw [hashUpTo_of_le hend]
  rfl

/-- A routine that the writer has handed out is carried out before the rest is read. -/
theorem next_data_of_ok (hwriting : h.writing = true) (pos : Position Nat) :
    h.next .data pos = ask .finalizeWriter fun
      | .error e => Attempt.fail (.verity e)
      | .ok t => (t.on Nat h.subject.device).bind (h.afterWriting pos) := by
  unfold next
  rw [if_pos hwriting]
  refine congrArg (ask (P := Nat) .finalizeWriter) (funext fun answer => ?_)
  cases answer with
  | error e => rfl
  | ok t => exact bind_assoc _ _ _

theorem next_data_of_not (hwriting : h.writing = false) (pos : Position Nat) :
    h.next .data pos = h.readFrom .rest pos := by
  unfold next
  rw [if_neg (by simp [hwriting])]
  rfl

/-- The record of a hashing that has come to this position. -/
structure At (h : Hashing) (s : Stretch) (pos : Position Nat) (record : Record Nat) : Prop where
  le_stop : pos.offset ≤ h.stop s
  told : pos.reported = pos.offset
  hashed : bytesHashed record = pos.offset

/-- How a hashing is left, or ends. -/
abbrev End := Ending (interface Nat) Unit (Except HashError (ByteArray × Nat))

/-- Where a hashing stands between two polls, or has ended. -/
inductive Stands (h : Hashing) (record : Record Nat) : End → Prop where
  /-- It has given way. -/
  | ready {s : Stretch} {pos : Position Nat} (hat : h.At s pos record) :
      Stands h record (.interrupted () (.ready (h.readFrom s pos)))
  /-- It waits for a chunk. -/
  | reading {s : Stretch} {pos : Position Nat} {polls : Nat} (hat : h.At s pos record)
      (hmore : pos.offset < h.stop s) :
      Stands h record (.interrupted () (.waiting h.subject.device
        (.read pos.offset (chunkLength (h.stop s) pos)) polls (h.afterChunk s pos)))
  /-- What the writer has handed out is being carried out. -/
  | finalizing {pos : Position Nat} {earlier : Record Nat}
      {rest : Suspended (interface Nat) (Except Verity.Error Unit)} (hat : h.At .rest pos record)
      (hwriter : ByWriter h.subject.device earlier record (.interrupted () rest)) :
      Stands h record (.interrupted () (rest.bind (h.afterWriting pos)))
  | finished {result : Except HashError (ByteArray × Nat)}
      (hle : bytesHashed record ≤ h.subject.size)
      (hall : ∀ r, result = .ok r → bytesHashed record = h.subject.size) :
      Stands h record (.finished result)
  | broken {earlier : Record Nat} (hle : bytesHashed record ≤ h.subject.size)
      (hwriter : ByWriter h.subject.device earlier record .broken) : Stands h record .broken

theorem stop_le (h : Hashing) (s : Stretch) : h.stop s ≤ h.subject.size := by
  cases s with
  | data => exact Nat.min_le_right _ _
  | rest => exact Nat.le_refl _

theorem At.le_size {s : Stretch} {pos : Position Nat} {record : Record Nat}
    (hat : h.At s pos record) : bytesHashed record ≤ h.subject.size := by
  rw [hat.hashed]
  exact Nat.le_trans hat.le_stop (h.stop_le s)

/-- No more is hashed than there is. -/
theorem Stands.le_size {record : Record Nat} {ending : End} (hstands : h.Stands record ending) :
    bytesHashed record ≤ h.subject.size := by
  cases hstands with
  | ready hat => exact hat.le_size
  | reading hat _ => exact hat.le_size
  | finalizing hat _ => exact hat.le_size
  | finished hle _ => exact hle
  | broken hle _ => exact hle

/-- Other dealings do not matter. -/
theorem At.append {s : Stretch} {pos : Position Nat} {record ds : Record Nat}
    (hat : h.At s pos record) (hds : signals ds = []) : h.At s pos (record ++ ds) :=
  ⟨hat.le_stop, hat.told, (bytesHashed_append hds).trans hat.hashed⟩

/-- Every position lies in front of the end of the partition. -/
theorem At.rest {s : Stretch} {pos : Position Nat} {record : Record Nat}
    (hat : h.At s pos record) : h.At .rest pos record :=
  ⟨Nat.le_trans hat.le_stop (h.stop_le s), hat.told, hat.hashed⟩

/-! ## The hashing's own part of a poll -/

/-- What the hashing does in a poll from here on: it submits these requests, and hashes at most one
    chunk, behind which it wakes its task, tells the bytes, and gives way. -/
structure Goes (h : Hashing) (requests : List (OpenedDevice × Request)) (record : Record Nat)
    (last : (W × Record Nat) × End) : Prop where
  own : ∃ ds, last.1.2 = record ++ ds ∧ submissions ds = requests ∧
    signals ds = signalsBetween (bytesHashed record) (bytesHashed last.1.2)
  le : bytesHashed record ≤ bytesHashed last.1.2
  le_add : bytesHashed last.1.2 ≤ bytesHashed record + chunkSize
  yields : bytesHashed record < bytesHashed last.1.2 ↔
    ∃ rest, last.2 = .interrupted () (.ready rest)
  stands : h.Stands last.1.2 last.2

section

variable {record : Record Nat} {requests : List (OpenedDevice × Request)}
  {last : (W × Record Nat) × End} {s : Stretch} {pos : Position Nat}

/-- Nothing is hashed. -/
theorem goes_quiet {w : W} {ds : Record Nat} {ending : End} (hds : signals ds = [])
    (hready : ∀ rest, ending ≠ .interrupted () (.ready rest))
    (hstands : h.Stands (record ++ ds) ending) :
    h.Goes (submissions ds) record ((w, record ++ ds), ending) := by
  have hsame : bytesHashed (record ++ ds) = bytesHashed record := bytesHashed_append hds
  refine ⟨⟨ds, rfl, rfl, ?_⟩, hsame.ge, ?_, ?_, hstands⟩
  · show _ = signalsBetween _ (bytesHashed (record ++ ds))
    rw [hds, hsame, signalsBetween, if_neg (Nat.lt_irrefl _)]
  · show bytesHashed (record ++ ds) ≤ _
    omega
  · refine iff_of_false ?_ fun ⟨rest, hrest⟩ => hready rest hrest
    show ¬ bytesHashed record < bytesHashed (record ++ ds)
    omega

/-- Nothing is done at all. -/
theorem goes_nothing {w : W} {ending : End}
    (hready : ∀ rest, ending ≠ .interrupted () (.ready rest))
    (hstands : h.Stands record ending) : h.Goes [] record ((w, record), ending) := by
  rw [← List.append_nil record] at hstands
  have hgoes := goes_quiet (w := w) rfl hready hstands
  rwa [List.append_nil] at hgoes

/-- It fails. -/
theorem goes_failed (hat : h.At s pos record) (e : HashError) (w : W) :
    h.Goes [] record ((w, record), .finished (.error e)) :=
  goes_nothing nofun (.finished hat.le_size nofun)

/-- Other dealings come before. -/
theorem Goes.behind {ds : Record Nat} (hds : signals ds = [])
    (hgoes : h.Goes requests (record ++ ds) last) :
    h.Goes (submissions ds ++ requests) record last := by
  have hsame : bytesHashed (record ++ ds) = bytesHashed record := bytesHashed_append hds
  obtain ⟨⟨ds', hrecord, hrequests, hsignals⟩, hle, hadd, hyields, hstands⟩ := hgoes
  rw [hsame] at hsignals hle hadd hyields
  refine ⟨⟨ds ++ ds', ?_, ?_, ?_⟩, hle, hadd, hyields, hstands⟩
  · rw [hrecord, List.append_assoc]
  · rw [submissions_append, hrequests]
  · rw [signals_append, hds, List.nil_append, hsignals]

/-- The task has been woken and a chunk has been told, and the hashing gives way. -/
theorem goes_told (hat : h.At s pos record) {chunk : ByteArray} (hsome : 0 < chunk.size)
    (hlength : chunk.size ≤ chunkLength (h.stop s) pos) (w : W) :
    h.Goes [] record ((w, record ++ [woken, reported (pos.offset + chunk.size)]),
      .interrupted () (.ready (h.readFrom s (pos.behind chunk (pos.offset + chunk.size))))) := by
  have htold := bytesHashed_told record (pos.offset + chunk.size)
  have hchunk : chunk.size ≤ chunkSize := Nat.le_trans hlength (Nat.min_le_left _ _)
  have hhashed := hat.hashed
  refine ⟨⟨_, rfl, rfl, ?_⟩, ?_, ?_, ?_, .ready ⟨behind_le hat.le_stop hlength, rfl, htold⟩⟩
  · show _ = signalsBetween _ (bytesHashed (record ++ _))
    rw [htold, signalsBetween, if_pos (by omega)]
    rfl
  · show bytesHashed record ≤ bytesHashed (record ++ _)
    omega
  · show bytesHashed (record ++ _) ≤ bytesHashed record + chunkSize
    omega
  · refine iff_of_true ?_ ⟨_, rfl⟩
    show bytesHashed record < bytesHashed (record ++ _)
    omega

/-- Behind each chunk there is more to tell. -/
theorem tell_behind {α : Type} (hat : h.At s pos record) {bytes : Nat} (hsome : 0 < bytes)
    (next : Nat → Routine (interface Nat) α) :
    tell .bytes pos.reported (pos.offset + bytes) next =
      ask (.report (pos.offset + bytes)) fun _ => next (pos.offset + bytes) := by
  unfold tell
  refine if_pos (decide_eq_true ?_)
  rw [hat.told]
  omega

/-- The writer takes a chunk, or the hashing fails. -/
theorem goes_feed (host : Host (interface Nat) W) (hat : h.At s pos record) (feeding : Bool)
    (chunk : ByteArray) {t : Attempt Nat HashError (Position Nat)}
    {f : Position Nat → Attempt Nat HashError (ByteArray × Nat)}
    (hnext : ∀ {w record}, h.At s pos record →
      h.Goes [] record ((t.andThen f).drive host.recorded (giveWay ()) (w, record))) (w : W) :
    h.Goes [] record ((((feed feeding pos.offset chunk).andThen fun _ => t).andThen f).drive
      host.recorded (giveWay ()) (w, record)) := by
  cases feeding with
  | false => exact hnext hat
  | true =>
    have hupdate : (((feed true pos.offset chunk).andThen fun _ => t).andThen f).drive
        host.recorded (giveWay ()) (w, record) =
      ((Attempt.andThen (.done ((host.answer w (Call.updateWriter pos.offset chunk)).2.mapError
        .verity)) fun _ => t).andThen f).drive host.recorded (giveWay ())
        ((host.answer w (Call.updateWriter pos.offset chunk)).1, record ++
          [.called (Call.updateWriter pos.offset chunk)
            (host.answer w (Call.updateWriter pos.offset chunk)).2]) := rfl
    rw [hupdate]
    obtain ⟨w', answer⟩ := host.answer w (Call.updateWriter pos.offset chunk)
    have hquiet : signals [.called (I := interface Nat) (Call.updateWriter pos.offset chunk)
        answer] = [] := rfl
    cases answer with
    | error e => exact (goes_failed (hat.append hquiet) _ w').behind hquiet
    | ok _ => exact (hnext (hat.append hquiet)).behind hquiet

/-- Whatever a read comes to, the poll ends: with an error, or behind the chunk. -/
theorem goes_afterChunk (host : Host (interface Nat) W) (hat : h.At s pos record)
    (outcome : Except IoError ByteArray) (w : W) :
    h.Goes [] record
      ((h.afterChunk s pos outcome).drive host.recorded (giveWay ()) (w, record)) := by
  unfold afterChunk
  obtain ⟨e, -, hfail⟩ | ⟨chunk, hsome, hlength, hchunk⟩ :=
    afterRead_cases .bytes h.subject (h.feeding s) (h.stop s) pos outcome
  · rw [hfail]
    exact goes_failed hat e w
  · rw [hchunk]
    refine goes_feed host hat _ chunk ?_ w
    intro w' record' hat'
    rw [show Scale.bytes.fraction h.subject.index (pos.offset + chunk.size) h.subject.size
      h.subject.partitions = pos.offset + chunk.size from rfl, tell_behind hat' hsome]
    have htold := goes_told hat' hsome hlength (host.answer (host.answer w' .wake).1
      (.report (pos.offset + chunk.size))).1
    rwa [List.append_cons] at htold

/-- The chunk that is asked for at a position. -/
abbrev request (h : Hashing) (s : Stretch) (pos : Position Nat) : OpenedDevice × Request :=
  (h.subject.device, .read pos.offset (chunkLength (h.stop s) pos))

/-- A chunk is asked for, and either comes at once or is waited for. -/
theorem goes_chunk (host : Host (interface Nat) W) (hat : h.At s pos record)
    (hmore : pos.offset < h.stop s) (w : W) :
    h.Goes [h.request s pos] record
      ((h.readFrom s pos).drive host.recorded (giveWay ()) (w, record)) := by
  have hdrive := drive_request host () (I := interface Nat) h.subject.device (h.request s pos).2
    (h.afterChunk s pos) w record
  rw [← readFrom_of_lt hmore] at hdrive
  rw [hdrive]
  match host.submit w h.subject.device (h.request s pos).2 with
  | (w', .error e) =>
    have hquiet : signals [.submitted (I := interface Nat) h.subject.device
      (h.request s pos).2 (.error e)] = [] := rfl
    exact (goes_afterChunk host (hat.append hquiet) (.error e) w').behind hquiet
  | (w', .ok 0) =>
    have hquiet : signals [.submitted (I := interface Nat) h.subject.device (h.request s pos).2
      (.ok 0), .completed h.subject.device (h.request s pos).2
        (host.complete w' h.subject.device (h.request s pos).2).2] = [] := rfl
    exact (goes_afterChunk host (hat.append hquiet) _ _).behind hquiet
  | (w', .ok (polls + 1)) =>
    have hquiet : signals [.submitted (I := interface Nat) h.subject.device (h.request s pos).2
      (.ok (polls + 1))] = [] := rfl
    exact goes_quiet hquiet nofun (.reading (hat.append hquiet) hmore)

/-- It is asked for at the end of what has been hashed, and not for more than a chunk. -/
def OneChunk (device : OpenedDevice) (offset : Nat) (requests : List (OpenedDevice × Request)) :
    Prop :=
  requests = [] ∨ ∃ length, length ≤ chunkSize ∧ requests = [(device, .read offset length)]

theorem oneChunk_request (hat : h.At s pos record) :
    OneChunk h.subject.device (bytesHashed record) [h.request s pos] := by
  refine .inr ⟨chunkLength (h.stop s) pos, Nat.min_le_left _ _, ?_⟩
  rw [hat.hashed]

/-- The rest of a partition is read, or there is no more of it. -/
theorem goes_rest (host : Host (interface Nat) W) (hat : h.At .rest pos record) (w : W) :
    ∃ requests, OneChunk h.subject.device (bytesHashed record) requests ∧
      h.Goes requests record
        ((h.readFrom .rest pos).drive host.recorded (giveWay ()) (w, record)) := by
  rcases Nat.lt_or_ge pos.offset h.subject.size with hmore | hend
  · exact ⟨_, oneChunk_request hat, goes_chunk host hat hmore w⟩
  · have hall : bytesHashed record = h.subject.size := by
      rw [hat.hashed]
      exact Nat.le_antisymm hat.le_stop hend
    refine ⟨[], .inl rfl, ?_⟩
    rw [readFrom_of_le (s := .rest) hend]
    exact goes_nothing nofun (.finished hall.le fun _ _ => hall)

end

/-! ## Polls -/

/-- The writer hands out routines only that neither give way nor break down. -/
def SteadyWriter (record : Record P) : Prop := ∀ t, handedOut t ∈ record → t.Steady

/-- What has been done since the record is nothing but what the writer has handed out. -/
def WriterOnly (device : OpenedDevice) (record ds : Record P) : Prop :=
  ds = [] ∨ ∃ earlier ending, earlier <+: record ∧ ByWriter device earlier (record ++ ds) ending

/-- What a poll comes to that begins with this record: it may go on with what the writer has handed
    out, and then the hashing asks for at most one chunk. -/
structure Polled (h : Hashing) (record : Record Nat) (last : (W × Record Nat) × End) : Prop where
  requests : ∃ written own, last.1.2 = record ++ (written ++ own) ∧
    OneChunk h.subject.device (bytesHashed record) (submissions own) ∧
    WriterOnly h.subject.device record written ∧ signals written = [] ∧
    signals own = signalsBetween (bytesHashed record) (bytesHashed last.1.2)
  le : bytesHashed record ≤ bytesHashed last.1.2
  le_add : bytesHashed last.1.2 ≤ bytesHashed record + chunkSize
  yields : bytesHashed record < bytesHashed last.1.2 →
    ∃ rest, last.2 = .interrupted () (.ready rest)
  hashed_of_ready : SteadyWriter last.1.2 → ∀ rest, last.2 = .interrupted () (.ready rest) →
    bytesHashed record < bytesHashed last.1.2
  stands : h.Stands last.1.2 last.2

section

variable {record ds : Record Nat} {requests : List (OpenedDevice × Request)}
  {last : (W × Record Nat) × End} {pos : Position Nat}

/-- The hashing goes on behind what is done for the writer. -/
theorem polled_of_goes (hds : signals ds = [])
    (hwritten : WriterOnly h.subject.device record ds)
    (hone : OneChunk h.subject.device (bytesHashed (record ++ ds)) requests)
    (hgoes : h.Goes requests (record ++ ds) last) : h.Polled record last := by
  have hsame : bytesHashed (record ++ ds) = bytesHashed record := bytesHashed_append hds
  obtain ⟨⟨own, hrecord, rfl, hsignals⟩, hle, hadd, hyields, hstands⟩ := hgoes
  rw [hsame] at hone hsignals hle hadd hyields
  refine ⟨⟨ds, own, ?_, hone, hwritten, hds, hsignals⟩, hle, hadd, hyields.mp, ?_, hstands⟩
  · rw [hrecord, List.append_assoc]
  · exact fun _ rest hrest => hyields.mpr ⟨rest, hrest⟩

/-- The hashing alone. -/
theorem Goes.polled (hgoes : h.Goes requests record last)
    (hone : OneChunk h.subject.device (bytesHashed record) requests) : h.Polled record last := by
  rw [← List.append_nil record] at hgoes hone
  exact polled_of_goes rfl (.inl rfl) hone hgoes

/-- Steady routines of a writer are left only where a request is pending, and do not break down. -/
theorem steady_node {device : OpenedDevice} {earlier : Record Nat}
    {ending : Ending (interface Nat) Unit (Except Verity.Error Unit)}
    (hsteady : SteadyWriter record) (hwriter : ByWriter device earlier record ending) :
    ending.node.Steady := by
  obtain ⟨t, es, written, rfl, harrives⟩ := hwriter
  exact (hsteady t (by simp)).onDevice.reaches harrives.reaches

/-- The writer's routine comes to its end, or is left on its way, or breaks down. -/
theorem polled_of_writer (host : Host (interface Nat) W) (hat : h.At .rest pos record)
    {state : (W × Record Nat) × Ending (interface Nat) Unit (Except Verity.Error Unit)}
    (hrecord : state.1.2 = record ++ ds) (hds : signals ds = []) {earlier : Record Nat}
    (hearlier : earlier <+: record)
    (hwriter : ByWriter h.subject.device earlier (record ++ ds) state.2) :
    h.Polled record (match state with
      | (world, .finished outcome) =>
        (h.afterWriting pos outcome).drive host.recorded (giveWay ()) world
      | (world, .interrupted why rest) => (world, .interrupted why (rest.bind (h.afterWriting pos)))
      | (world, .broken) => (world, .broken)) := by
  obtain ⟨⟨w, record'⟩, ending⟩ := state
  obtain rfl : record' = record ++ ds := hrecord
  have hat' := hat.append hds
  have hsame : bytesHashed (record ++ ds) = bytesHashed record := bytesHashed_append hds
  have hwritten : WriterOnly h.subject.device record ds := .inr ⟨earlier, ending, hearlier, hwriter⟩
  -- nothing is hashed if the poll ends here
  have hended : ∀ ending' : End, h.Stands (record ++ ds) ending' →
      (SteadyWriter (record ++ ds) → ∀ rest, ending' ≠ .interrupted () (.ready rest)) →
      h.Polled record ((w, record ++ ds), ending') := by
    intro ending' hstands hready
    refine ⟨⟨ds, [], ?_, .inl rfl, hwritten, hds, ?_⟩, hsame.ge, ?_, ?_, ?_, hstands⟩
    · rw [List.append_nil]
    · show [] = signalsBetween _ (bytesHashed (record ++ ds))
      rw [hsame, signalsBetween, if_neg (Nat.lt_irrefl _)]
    · show bytesHashed (record ++ ds) ≤ _
      omega
    · intro hlt
      change _ < bytesHashed (record ++ ds) at hlt
      omega
    · exact fun hsteady rest hrest => absurd hrest (hready hsteady rest)
  cases ending with
  | finished outcome =>
    cases outcome with
    | error e => exact polled_of_goes hds hwritten (.inl rfl) (goes_failed hat' _ w)
    | ok _ =>
      obtain ⟨requests, hone, hgoes⟩ := goes_rest host hat' w
      exact polled_of_goes hds hwritten hone hgoes
  | interrupted why rest =>
    refine hended _ (.finalizing hat' hwriter) ?_
    intro hsteady next hready
    have hnode := steady_node hsteady hwriter
    cases rest with
    | ready _ => exact hnode
    | waiting => cases hready
  | broken => exact hended _ (.broken hat'.le_size hwriter) fun _ => nofun

/-- The data has been read: the metadata is written, or the reading just goes on. -/
theorem polled_next (host : Host (interface Nat) W) (hat : h.At .data pos record) (w : W) :
    h.Polled record ((h.next .data pos).drive host.recorded (giveWay ()) (w, record)) := by
  cases hwriting : h.writing with
  | false =>
    rw [next_data_of_not hwriting]
    obtain ⟨requests, hone, hgoes⟩ := goes_rest host hat.rest w
    exact hgoes.polled hone
  | true =>
    rw [next_data_of_ok hwriting]
    show h.Polled record (Routine.drive host.recorded (giveWay ())
      (match (host.answer w Call.finalizeWriter).2 with
      | .error e => Attempt.fail (HashError.verity e)
      | .ok t => (t.on Nat h.subject.device).bind (h.afterWriting pos))
      ((host.answer w Call.finalizeWriter).1, record ++
        [Dealing.called (I := interface Nat) Call.finalizeWriter
          (host.answer w Call.finalizeWriter).2]))
    obtain ⟨w', answer⟩ := host.answer w Call.finalizeWriter
    cases answer with
    | error e =>
      have hquiet : signals [.called (I := interface Nat) Call.finalizeWriter (.error e)] = [] :=
        rfl
      exact ((goes_failed (hat.append hquiet) _ w').behind hquiet).polled (.inl rfl)
    | ok t =>
      obtain ⟨ds, hrecord, hds, hwriter⟩ := byWriter_begin host h.subject.device record t w'
      have hbind := (t.on Nat h.subject.device).drive_bind host.recorded (giveWay ())
        (h.afterWriting pos) (w', record ++ [handedOut t])
      have hpolled := polled_of_writer host hat.rest hrecord hds List.prefix_rfl hwriter
      refine Eq.mpr (congrArg (h.Polled record) hbind) ?_
      generalize (t.on Nat h.subject.device).drive host.recorded (giveWay ())
        (w', record ++ [handedOut t]) = state at hpolled ⊢
      rcases state with ⟨world, _ | _ | _⟩ <;> exact hpolled

/-- From wherever it stands, a poll brings a hashing to another such place. -/
theorem polled_of_stands (host : Host (interface Nat) W) {rest : Suspended (interface Nat) _}
    (hstands : h.Stands record (.interrupted () rest)) (w : W) :
    h.Polled record (rest.poll host.recorded (w, record)) := by
  cases hstands with
  | @ready s pos hat =>
    show h.Polled record ((h.readFrom s pos).drive host.recorded (giveWay ()) (w, record))
    rcases Nat.lt_or_ge pos.offset (h.stop s) with hmore | hend
    · exact (goes_chunk host hat hmore w).polled (oneChunk_request hat)
    · cases s with
      | data =>
        rw [readFrom_of_le hend]
        exact polled_next host hat w
      | rest =>
        obtain ⟨requests, hone, hgoes⟩ := goes_rest host hat w
        exact hgoes.polled hone
  | @reading s pos polls hat hmore =>
    cases polls with
    | zero =>
      have hquiet : signals [.completed (I := interface Nat) h.subject.device (h.request s pos).2
        (host.complete w h.subject.device (h.request s pos).2).2] = [] := rfl
      exact ((goes_afterChunk host (hat.append hquiet) _ _).behind hquiet).polled (.inl rfl)
    | succ polls =>
      exact (goes_nothing (by rintro _ ⟨⟩) (.reading hat hmore)).polled (.inl rfl)
  | @finalizing pos earlier rest hat hwriter =>
    obtain ⟨ds, hrecord, hds, hwriter'⟩ := byWriter_drive host hwriter w
    have hbind := rest.drive_bind host.recorded (giveWay ()) (h.afterWriting pos) (w, record)
    have hpolled := polled_of_writer host hat hrecord hds hwriter.earlier_isPrefix hwriter'
    refine Eq.mpr (congrArg (h.Polled record) hbind) ?_
    generalize rest.drive host.recorded (giveWay ()) (w, record) = state at hpolled ⊢
    rcases state with ⟨world, _ | _ | _⟩ <;> exact hpolled

end

/-! ## Runs -/

section

variable (host : Host (interface Nat) W) (h : Hashing) (w : W)

/-- The hashing after a poll behind each of these changes of its surroundings. -/
abbrev after (changes : List (W → W)) : (W × Record Nat) × End :=
  host.polls (hashPartition .bytes h.subject h.dataEnd h.writing 0) w changes

theorem after_append_singleton (changes : List (W → W)) (change : W → W) :
    after host h w (changes ++ [change]) =
      Ending.poll host.recorded (after host h w changes) (Prod.map change id) :=
  host.polls_append_singleton _ w changes change

/-- One more poll. -/
theorem polled_of_after (changes : List (W → W)) (change : W → W)
    (hstands : h.Stands (after host h w changes).1.2 (after host h w changes).2) :
    h.Polled (after host h w changes).1.2 (after host h w (changes ++ [change])) := by
  rw [after_append_singleton]
  generalize after host h w changes = state at hstands
  obtain ⟨⟨w', record⟩, ending⟩ := state
  have hover : (∀ why rest, ending ≠ .interrupted why rest) →
      h.Polled record ((change w', record), ending) := fun hnone =>
    ⟨⟨[], [], (List.append_nil _).symm, .inl rfl, .inl rfl, rfl,
      (if_neg (Nat.lt_irrefl _)).symm⟩, Nat.le_refl _, Nat.le_add_right _ _,
      fun hlt => absurd hlt (Nat.lt_irrefl _), fun _ rest hrest => absurd hrest (hnone () _),
      hstands⟩
  cases ending with
  | interrupted why rest => exact polled_of_stands host hstands (change w')
  | finished result => exact hover nofun
  | broken => exact hover nofun

/-- By induction on the polls: a hashing is always in one of the places. -/
theorem stands_after (changes : List (W → W)) :
    h.Stands (after host h w changes).1.2 (after host h w changes).2 := by
  induction changes using List.reverseRecOn with
  | nil =>
    show h.Stands [] (.interrupted () (.ready _))
    rw [hashPartition_eq]
    exact .ready ⟨Nat.zero_le _, rfl, rfl⟩
  | append_singleton changes change ih => exact (polled_of_after host h w changes change ih).stands

variable {host h w} {changes : List (W → W)}

/-- A poll that does not end the hashing has hashed something, or a request was pending in it: so
    the polls can be counted by the bytes and by the waiting. -/
theorem length_le (hsteady : SteadyWriter (after host h w changes).1.2)
    {rest : Suspended (interface Nat) (Except HashError (ByteArray × Nat))}
    (hleft : (after host h w changes).2 = .interrupted () rest) :
    changes.length + rest.pending ≤
      bytesHashed (after host h w changes).1.2 + waits (after host h w changes).1.2 := by
  -- by induction from the last poll on
  induction changes using List.reverseRecOn generalizing rest with
  | nil =>
    cases hleft
    exact Nat.zero_le _
  | append_singleton changes change ih =>
    have hpolled := polled_of_after host h w changes change (stands_after host h w changes)
    obtain ⟨written, own, hrecord, -⟩ := hpolled.requests
    have hearlier : SteadyWriter (after host h w changes).1.2 := by
      intro t ht
      refine hsteady t ?_
      rw [hrecord]
      exact List.mem_append_left _ ht
    have hle := hpolled.le
    have hhashed := hpolled.hashed_of_ready hsteady
    rw [after_append_singleton] at hleft hle hhashed ⊢
    generalize after host h w changes = state at *
    obtain ⟨⟨w', record⟩, ending⟩ := state
    cases ending with
    | finished result => cases hleft
    | broken => cases hleft
    | interrupted why rest' =>
      have hbefore := ih hearlier rfl
      have hwaits := rest'.waits_drive host () (change w') record hleft
      rw [List.length_append, List.length_singleton]
      change _ ≤ bytesHashed (rest'.poll host.recorded (change w', record)).1.2 +
        waits (rest'.poll host.recorded (change w', record)).1.2
      change waits (rest'.poll host.recorded (change w', record)).1.2 + _ = _ at hwaits
      change bytesHashed record ≤
        bytesHashed (rest'.poll host.recorded (change w', record)).1.2 at hle
      cases rest with
      | ready next =>
        have hmore : bytesHashed record <
            bytesHashed (rest'.poll host.recorded (change w', record)).1.2 := hhashed next hleft
        dsimp only [Suspended.pending, Suspended.due] at hwaits hbefore ⊢
        omega
      | waiting d q polls next =>
        dsimp only [Suspended.pending, Suspended.due] at hwaits hbefore ⊢
        omega

/-- A writer that hands out finalizations. -/
def FinalizesOnly (record : Record P) : Prop :=
  ∀ t, handedOut t ∈ record → ∃ f : Verity.Finalization, t = f.routine

theorem FinalizesOnly.steady {record : Record P} (hfinalizes : FinalizesOnly record) :
    SteadyWriter record := by
  intro t ht
  obtain ⟨f, rfl⟩ := hfinalizes t ht
  exact f.steady_routine

/-- With such a writer a hashing that is over has a result. -/
theorem finished_of_over (hover : (after host h w changes).2.Over)
    (hfinalizes : FinalizesOnly (after host h w changes).1.2) :
    ∃ result, (after host h w changes).2 = .finished result := by
  have hstands := stands_after host h w changes
  generalize after host h w changes = state at *
  obtain ⟨⟨w', record⟩, ending⟩ := state
  cases ending with
  | finished result => exact ⟨result, rfl⟩
  | interrupted why rest => exact hover.elim
  | broken =>
    cases hstands with
    | broken _ hwriter => exact (steady_node hfinalizes.steady hwriter).elim

end

end Hashing

open Hashing in
/-- A hashing takes one chunk for each poll.  Whatever its host does, a poll adds at most one chunk
    to the bytes hashed, which never go back and never go beyond the partition; if it adds one, it
    ends by giving way.  Besides what the writer's routine does, it submits at most one request, a
    read of one chunk behind the bytes hashed.  Polled again and again, the hashing is over some
    time, with a result if the writer hands out finalizations; and then it takes no more polls than
    there are bytes to hash and polls for which its requests are pending, and one. -/
theorem chunk_by_chunk (host : Host (interface Nat) W) (subject : Subject) (dataEnd : Nat)
    (writing : Bool) (w : W) :
    let polls := host.polls (hashPartition .bytes subject dataEnd writing 0) w
    (∀ changes change,
      let before := polls changes
      let now := polls (changes ++ [change])
      bytesHashed before.1.2 ≤ bytesHashed now.1.2 ∧
      bytesHashed now.1.2 ≤ bytesHashed before.1.2 + chunkSize ∧
      bytesHashed now.1.2 ≤ subject.size ∧
      (bytesHashed before.1.2 < bytesHashed now.1.2 →
        ∃ rest, now.2 = .interrupted () (.ready rest)) ∧
      (∃ written own, now.1.2 = before.1.2 ++ (written ++ own) ∧
        OneChunk subject.device (bytesHashed before.1.2) (submissions own) ∧
        WriterOnly subject.device before.1.2 written ∧ signals written = [] ∧
        signals own = signalsBetween (bytesHashed before.1.2) (bytesHashed now.1.2)) ∧
      ∀ r, now.2 = .finished (.ok r) → bytesHashed now.1.2 = subject.size) ∧
    (∀ changes : Nat → W → W, ∃ n, (polls ((List.range n).map changes)).2.Over ∧
      (FinalizesOnly (polls ((List.range n).map changes)).1.2 →
        ∃ result, (polls ((List.range n).map changes)).2 = .finished result)) ∧
    ∀ changes, FinalizesOnly (polls changes).1.2 → ¬ (polls changes).2.Over →
      changes.length ≤ subject.size + waits (polls changes).1.2 := by
  intro polls
  have hstands := stands_after host ⟨subject, dataEnd, writing⟩ w
  refine ⟨?_, ?_, ?_⟩
  · intro changes change before now
    have hpolled := polled_of_after host ⟨subject, dataEnd, writing⟩ w changes change
      (hstands changes)
    refine ⟨hpolled.le, hpolled.le_add, hpolled.stands.le_size, hpolled.yields,
      hpolled.requests, ?_⟩
    intro r hr
    have hend := hpolled.stands
    change Hashing.Stands _ now.1.2 now.2 at hend
    rw [hr] at hend
    cases hend with
    | finished _ hall => exact hall r rfl
  · intro changes
    obtain ⟨n, hover⟩ := host.exists_over (hashPartition .bytes subject dataEnd writing 0) w changes
    exact ⟨n, hover, finished_of_over (h := ⟨subject, dataEnd, writing⟩) hover⟩
  · intro changes hfinalizes hleft
    have hle := (hstands changes).le_size
    cases hlast : (polls changes).2 with
    | interrupted why rest =>
      have hlength := length_le (h := ⟨subject, dataEnd, writing⟩) hfinalizes.steady hlast
      exact Nat.le_trans (Nat.le_trans (Nat.le_add_right _ _) hlength) (Nat.add_le_add_right hle _)
    | finished result => exact absurd (hlast ▸ trivial) hleft
    | broken => exact absurd (hlast ▸ trivial) hleft

/-- The bound is attained: three bytes that come one by one, each at the second poll, take seven
    polls. -/
example :
    let polls n := Rig.host.polls (hashPartition .bytes (bootImage 3) 2 false 0) twoBytesRig
      (List.replicate n id)
    bytesHashed (polls 6).1.2 = 3 ∧ waits (polls 6).1.2 = 3 ∧ ¬ (polls 6).2.Over ∧
      (polls 7).2.Over := by
  decide +kernel

end SlotVerify.Verification
