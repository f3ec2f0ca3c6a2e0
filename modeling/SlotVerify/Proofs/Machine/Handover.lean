import SlotVerify.Proofs.Machine.Runs
import SlotVerify.Proofs.Machine.Telling
import SlotVerify.Proofs.Verification.Handover
/-
  The writer in the hands of the hashing machine.

  The machine enacts the hashing of a partition that is given a writer (`Telling.handing`).  So when
  it is ready, it has come through the stages of the protocol, and what it hands back is the writer
  as the calls on that way have left it (`Hashing.hands_back`).
-/

namespace SlotVerify.Machine

open CommandLine Device Verification
open Verity (Writer)

variable {P α W : Type}

theorem answers_of_serve {c : Call P} {w w' : Writer} {es : Trace P} {answer : c.Answer}
    (h : (serve w c).Reaches es (.done (answer, w'))) : Answers w c answer w' := by
  cases c with
  | initWriter l =>
    cases (Routine.reaches_done h).2
    rfl
  | updateWriter offset data =>
    cases (Routine.reaches_done h).2
    rfl
  | finalizeWriter =>
    cases (Routine.reaches_done h).2
    rfl
  | _ =>
    cases h with
    | call x h =>
      cases (Routine.reaches_done h).2
      rfl

/-- What a routine with a writer comes to, the routine comes to with its calls answered by the
    writer. -/
theorem Telling.reaches_handing {writing : Bool} {t : Attempt P HashError α} {w : Writer}
    {es : Trace P} {writer : Option Writer} {outcome : Except HashError α}
    (h : (Telling.handing writing t w).Reaches es (.done (writer, outcome))) :
    ∃ es' w', t.Reaches es' (.done outcome) ∧ Carries w es' w' ∧
      writer = if writing then some w' else none := by
  rcases Routine.reaches_bind _ h with
    ⟨t', -, hleft, hdone⟩ | ⟨es₁, ⟨a, w'⟩, es₂, -, hreaches, hdone⟩
  · exact absurd hdone.symm (hleft.bind _ _)
  · cases (Routine.reaches_done hdone).2
    obtain ⟨es', ht, hcarries⟩ := Routine.reaches_interpret answers_of_serve t hreaches
    exact ⟨es', w', ht, hcarries, rfl⟩

/-- When the hashing is ready, with a digest or with an error, it hands back the writer as the calls
    of the protocol have left it. -/
theorem Hashing.hands_back {host : Host (interface P) W} {subject : Subject} {dataEnd : Nat}
    {w : Writer} (hengaged : w.Engaged) (scale : Scale P) (told : P) {world world' : W}
    {h h' : Hashing} {record : Record P} {now last : W × Record P} {writer : Option Writer}
    {result : Except HashError ByteArray}
    (hpolled : Polled (Hashing.turn subject.device) host (start subject.size dataEnd (some w)) world
      h world' record)
    (hpoll : Comes (Hashing.turn subject.device) host.recorded (h.turn subject.device) now
      (.ret (h', .ready (writer, result))) last) :
    ∃ es outcome w', (hashPartition (Telling.mute scale) subject dataEnd true told).Reaches es
        (.done outcome) ∧ Carries w es w' ∧ writer = some w' ∧ result = outcome.map Prod.fst := by
  obtain ⟨es, hreaches⟩ :=
    (enacts_hashPartition scale subject dataEnd told (.lent hengaged)).ready_of_polled hpolled hpoll
  rcases Routine.reaches_bind _ hreaches with
    ⟨t', -, hleft, hdone⟩ | ⟨es₁, ⟨writer', outcome⟩, es₂, -, hhanding, hdone⟩
  · exact absurd hdone.symm (hleft.bind _ _)
  · cases (Routine.reaches_done hdone).2
    obtain ⟨es', w', ht, hcarries, hwriter⟩ := Telling.reaches_handing hhanding
    exact ⟨es', outcome, w', ht, hcarries, hwriter, rfl⟩

/-- How hashing a partition with a writer goes on, whatever the device delivers and the writer
    answers: every passage is in a stage of the protocol, and one to the end has finalized the
    writer exactly if it has fed it all of the data.  A writer that has just been initialized takes
    every update, and fails in the finalization only.  The machine hands it back whenever it is
    ready, with a digest or with an error, as the calls of the protocol have left it. -/
theorem hashPartition_protocol (scale : Scale P) (subject : Subject) (dataEnd : Nat)
    (reported : P) :
    (∀ es u, (hashPartition scale subject dataEnd true reported).Reaches es u →
      Protocol subject.device (min dataEnd subject.size) subject.size es u) ∧
    (∀ es outcome, (hashPartition scale subject dataEnd true reported).Reaches es (.done outcome) →
      ((∃ answer, finalized answer ∈ es) ↔ bytesFed es = min dataEnd subject.size)) ∧
    (∀ (w : Writer) (l : Verity.Layout), (w.init l).2 = .ok () →
      subject.size < Verity.wordLimit →
      ∀ es u w', (hashPartition scale subject dataEnd true reported).Reaches es u →
        Carries (w.init l).1 es w' →
        (∀ offset data answer, updated offset data answer ∈ es → answer = .ok ()) ∧
        ∀ cause, u = .done (.error (.verity cause)) →
          (∃ fed, es = fed ++ [finalized (.error cause)]) ∨
          ∃ fed t written, es = fed ++ finalized (.ok t) :: written ∧
            (t.on P subject.device).Reaches written (.done (.error cause))) ∧
    ∀ (w : Writer) (l : Verity.Layout), (w.init l).2 = .ok () →
      ∀ {W : Type} (host : Host (interface P) W) (world : W),
      let machine := Hashing.start subject.size dataEnd (some (w.init l).1)
      ∀ h world' record, Polled (Hashing.turn subject.device) host machine world h world' record →
        ∀ (change : W → W) h' writer result last,
        Comes (Hashing.turn subject.device) host.recorded (h.turn subject.device)
          (change world', record) (.ret (h', .ready (writer, result))) last →
        ∃ es outcome w', Carries (w.init l).1 es w' ∧
          Protocol subject.device (min dataEnd subject.size) subject.size es
            (.done outcome : Attempt P HashError (ByteArray × P)) ∧
          writer = some w' ∧ result = outcome.map Prod.fst := by
  refine ⟨?_, ?_, ?_, ?_⟩
  · intro es u h
    exact protocol_hashPartition scale subject dataEnd reported h
  · intro es outcome h
    exact (protocol_hashPartition scale subject dataEnd reported h).finalized_iff
  · intro w l hinit hsize es u w' h hcarries
    have hstage := protocol_hashPartition scale subject dataEnd reported h
    have hword : min dataEnd subject.size < Verity.wordLimit :=
      Nat.lt_of_le_of_lt (Nat.min_le_right _ _) hsize
    refine ⟨fun _ _ _ hmem => hstage.update_taken hinit hword hcarries hmem, ?_⟩
    rintro cause rfl
    exact hstage.error_finalizing hinit hword hcarries
  · intro w l hinit W host world machine h world' record hpolled change h' writer result last hpoll
    obtain ⟨es, outcome, w', hreaches, hcarries, hwriter, hresult⟩ :=
      Hashing.hands_back ⟨l, Writer.serves_init hinit⟩ scale reported hpolled hpoll
    exact ⟨es, outcome, w', hcarries, protocol_hashPartition _ subject dataEnd reported hreaches,
      hwriter, hresult⟩

/-- One image in memory, read byte by byte. -/
def imageHost : Host surface ByteArray where
  answer image
    | .load _ => (image, .error .notFound)
    | .openImage .. => (image, .ok image.size)
    | .setReadOnly .. => (image, .ok ())
    | .print _ | .remark _ => (image, ())
  place image _ _ := (image, .taken 0)
  finish image _ q :=
    let (device, outcome) :=
      ({ image, writable := true, readLimit := some 1 } : MemoryDevice).serve q
    (device.image, .ofReply outcome)

/-- Both bytes are fed, and the writer takes them; and it comes back from a machine whose first read
    fails. -/
theorem hashPartition_protocol_twoBytes : (∃ es digest w',
    (hashPartition .bytes (bootImage 4) 2 true 0).Reaches es
      (.done (.ok digest)) ∧
    Carries (Writer.fresh.init twoBytes).1 es w' ∧
    Protocol (bootImage 4).device 2 4 es
      (.done (.ok digest) : Attempt Nat HashError (ByteArray × Nat)) ∧
    bytesFed es = 2 ∧ (∃ answer, finalized answer ∈ es) ∧
    ∀ offset data answer, updated offset data answer ∈ es → answer = .ok ()) ∧
    ∃ es outcome w', Carries (Writer.fresh.init twoBytes).1 es w' ∧
      Protocol (bootImage 4).device 2 4 es
        (.done outcome : Attempt Nat HashError (ByteArray × Nat)) ∧
      some (Writer.fresh.init twoBytes).1 = some w' ∧
      .error (.read 0 .ioFailure) = outcome.map Prod.fst := by
  have hrun : ((conduct (fun _ => .done ()) (Writer.fresh.init twoBytes).1
      (hashPartition .bytes (bootImage 4) 2 true 0)).run imageHost
        [5, 7, 0, 0].toByteArray).2.map (·.1.isOk) = some true := by
    decide +kernel
  obtain ⟨⟨result, w'⟩, hresult, hok⟩ := Option.map_eq_some_iff.mp hrun
  obtain ⟨digest, rfl⟩ : ∃ digest, result = .ok digest := by
    cases result with
    | ok digest => exact ⟨digest, rfl⟩
    | error e => cases hok
  have hinit : (Writer.fresh.init twoBytes).2 = .ok () := rfl
  obtain ⟨es, hes⟩ := Routine.exists_reaches_of_run hresult
  obtain ⟨hstages, hfinalized, hwriter, hback⟩ :=
    hashPartition_protocol .bytes (bootImage 4) 2 0
  constructor
  · obtain ⟨es', hpassage, hcarries⟩ := reaches_conduct hes
    obtain ⟨htaken, -⟩ := hwriter _ _ hinit (by decide) _ _ _ hpassage hcarries
    have hstage := hstages _ _ hpassage
    have hbytes : bytesFed es' = 2 := hstage.bytesFed_of_ok
    exact ⟨es', digest, w', hpassage, hcarries, hstage, hbytes,
      (hfinalized _ _ hpassage).mpr hbytes, htaken⟩
  · let rig : Rig Nat := { twoBytesRig with faults := [⟨.read, 0, .submit, .ioFailure⟩] }
    exact hback _ _ hinit Rig.host rig _ _ _ .start id _ _ _ _ (.submit (.here _ _))

end SlotVerify.Machine
