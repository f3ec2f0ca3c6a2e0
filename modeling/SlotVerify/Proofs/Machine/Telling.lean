import SlotVerify.Proofs.Machine.Enacting
import SlotVerify.Proofs.Routine.Reliance
import SlotVerify.Proofs.Verification.Hashing
/-
  The hashing machine goes on as the hashing of a partition does.

  A routine that hashes a partition reports progress and calls a writer.  The machine has a writer
  of its own, so the routine is given one as well (`serving`); and it leaves the reports to the
  verification around it, which looks at the bytes hashed after every poll.  `Telling` is the
  machine together with this look.

  1. The chunks are read one by one.  What has been looked at last is where the machine stands,
     except behind a chunk: there the task is woken, progress is reported if there is more of it,
     and the machine gives way, as the routine does (`Telling.does_hashUpTo`).

  2. So the machine goes on as the routine does in a whole partition: its data, its metadata, and
     the rest (`Telling.does_hashPartition`).

  3. Where nothing counts as progress, the look is for nothing.  The machine then does by itself
     what the routine does (`Hashing.enacts_hashPartition`).
-/

namespace SlotVerify.Machine

open Device Verification
open Verity (Writer Finalization)

variable {P α β γ : Type}

/-! ## A writer for a routine -/

/-- Answers a call with the writer as it is, if it is one to the writer. -/
def serve (w : Writer) : (c : Call P) → Routine (interface P) (c.Answer × Writer)
  | .initWriter layout => .done ((w.init layout).2, (w.init layout).1)
  | .updateWriter offset data => .done ((w.update offset data).2, (w.update offset data).1)
  | .finalizeWriter => .done (w.finalize.2.map Finalization.routine, w.finalize.1)
  | c => ask c fun x => .done (x, w)

/-- A computation that uses this writer; its result is made of its own and of the writer. -/
def serving (f : α × Writer → β) (t : Routine (interface P) α) (w : Writer) :
    Routine (interface P) β :=
  (t.interpret serve id w).bind fun x => .done (f x)

section

variable {f : α × Writer → β}

theorem serving_passed {c : Call P} {w : Writer} (h : serve w c = ask c fun x => .done (x, w))
    (next : c.Answer → Routine (interface P) α) :
    serving f (ask c next) w = ask c fun x => serving f (next x) w := by
  show Routine.bind (Routine.bind (serve w c) _) _ = _
  rw [h]
  rfl

theorem serving_answered {c : Call P} {w w' : Writer} {x : c.Answer}
    (h : serve w c = .done (x, w')) (next : c.Answer → Routine (interface P) α) :
    serving f (ask c next) w = serving f (next x) w' := by
  show Routine.bind (Routine.bind (serve w c) _) _ = _
  rw [h]
  rfl

theorem serving_onDevice (d : OpenedDevice) (t : Verity.DeviceRoutine γ)
    (g : Except Verity.Error γ → Routine (interface P) α) (w : Writer) :
    serving f ((Finalizing.on P d t).bind g) w =
      (Finalizing.on P d t).bind fun outcome => serving f (g outcome) w := by
  induction t with
  | done outcome => rfl
  | call c next ih => exact nomatch c
  | request d' r next ih => exact congrArg _ (funext ih)
  | pause next ih => exact congrArg _ ih
  | broken => rfl

/-- A sequence; the second part uses the writer as the first one has left it. -/
theorem serving_bind (t : Routine (interface P) γ) (g : γ → Routine (interface P) α) (w : Writer) :
    serving f (t.bind g) w = Routine.bind (Routine.interpret (I := interface P) serve id t w)
      fun (a, w) => serving f (g a) w := by
  refine (congrArg (Routine.bind · _)
    (Routine.interpret_bind (I := interface P) serve id t g w)).trans ?_
  exact Routine.bind_assoc _ _ _

/-- A computation that calls no writer leaves it as it is. -/
theorem interpret_of_reading {okRequest : OpenedDevice → Request → Prop} {ok : α → Prop}
    {t : Routine (interface P) α} (h : t.Only Call.OfReading okRequest ok) (w : Writer) :
    Routine.interpret (I := interface P) serve id t w = t.bind fun a => .done (a, w) := by
  induction t with
  | done a => rfl
  | call c next ih =>
    have hpassed : serve w c = ask c fun x => .done (x, w) := by
      cases c with
      | report progress => rfl
      | wake => rfl
      | _ => exact h.1.elim
    show Routine.bind (serve w c) _ = _
    rw [hpassed]
    exact congrArg _ (funext fun x => ih x (h.2 x))
  | request d r next ih => exact congrArg _ (funext fun x => ih x (h.2 x))
  | pause next ih => exact congrArg _ (ih h)
  | broken => rfl

end

/-! ## Hashing and telling -/

/-- The writer of a routine is lent to the machine, which writes metadata, or it is not. -/
inductive Lends (good : Writer → Prop) : Bool → Option Writer → Writer → Prop
  | lent {w : Writer} (h : good w) : Lends good true (some w) w
  | kept (w : Writer) : Lends good false none w

theorem Lends.eq {good : Writer → Prop} {writing : Bool} {lent : Option Writer} {w : Writer}
    (h : Lends good writing lent w) : (if writing then some w else none) = lent := by
  cases h <;> rfl

theorem Lends.isSome_eq {good : Writer → Prop} {writing : Bool} {lent : Option Writer} {w : Writer}
    (h : Lends good writing lent w) : lent.isSome = writing := by
  cases h <;> rfl

/-- A hashing of which progress is reported. -/
structure Telling (P : Type) where
  hashing : Hashing
  /-- The bytes hashed when they were looked at last. -/
  last : Nat
  /-- The highest progress reported. -/
  told : P

namespace Telling

/-- A turn's result; when it is ready, the writer is handed back. -/
abbrev Result (P : Type) :=
  Telling P × After (Option Writer × Except HashError (ByteArray × P))

/-- The result of a routine with a writer, which is handed back if it was lent. -/
def handing (writing : Bool) :
    Attempt P HashError α → Writer → Routine (interface P) (Option Writer × Except HashError α) :=
  serving fun (outcome, w) => (if writing then some w else none, outcome)

section

variable (scale : Scale P) (subject : Subject)

/-- Looks at the bytes hashed, and reports progress if there is more of it than before. -/
def tell (last : Nat) (told : P) (h : Hashing) (next : Telling P → Turn P β) : Turn P β :=
  if h.offset ≠ last then
    let progress := scale.fraction subject.index h.offset subject.size subject.partitions
    if scale.less told progress then
      .call (.report progress) fun _ => next ⟨h, h.offset, progress⟩
    else next ⟨h, h.offset, told⟩
  else next ⟨h, h.offset, told⟩

/-- What follows a turn of the hashing. -/
def after (last : Nat) (told : P) : Hashing.Result → Turn P (Result P)
  | (h, .again) => .ret (⟨h, last, told⟩, .again)
  | (h, .pending) => tell scale subject last told h fun t => .ret (t, .pending)
  | (h, .ready (writer, result)) =>
    tell scale subject last told h fun t => .ret (t, .ready (writer, result.map (·, t.told)))

/-- One turn. -/
def turn (t : Telling P) : Turn P (Result P) :=
  (t.hashing.turn subject.device).bind (after scale subject t.last t.told)

/-- A turn of the machine does what a routine does that uses this writer. -/
abbrev Does (writing : Bool) (t : Turn P (Result P)) (w : Writer)
    (u : Attempt P HashError (ByteArray × P)) : Prop :=
  Enacts (turn scale subject) t (.ready (handing writing u w))

end

variable {scale : Scale P} {subject : Subject} {writing : Bool} {w : Writer} {h : Hashing}
  {last dataEnd : Nat} {told : P} {lent : Option Writer} {good : Writer → Prop}

theorem does_answered {c : Call P} {x : c.Answer} {w w' : Writer} {t : Turn P (Result P)}
    {next : c.Answer → Attempt P HashError (ByteArray × P)} (h : serve w c = .done (x, w'))
    (ht : Does scale subject writing t w' (next x)) :
    Does scale subject writing t w (ask c next) := by
  unfold Does handing
  rwa [serving_answered h]

/-- Without anything new there is nothing to report. -/
theorem tell_of_same (hlast : h.offset = last) (f : Telling P → Turn P β) :
    tell scale subject last told h f = f ⟨h, h.offset, told⟩ :=
  if_neg (Decidable.not_not.mpr hlast)

theorem after_pending (hlast : h.offset = last) :
    after scale subject last told (h, .pending) = .ret (⟨h, h.offset, told⟩, .pending) := by
  unfold after
  exact tell_of_same hlast _

theorem after_ready (hlast : h.offset = last) (writer : Option Writer)
    (result : Except HashError ByteArray) :
    after scale subject last told (h, .ready (writer, result)) =
      .ret (⟨h, h.offset, told⟩, .ready (writer, result.map (·, told))) := by
  unfold after
  exact tell_of_same hlast _

theorem does_finish (hlends : Lends good writing h.writer w) {e : HashError}
    (hlast : h.offset = last) :
    Does scale subject writing ((h.finish (.error e)).bind (after scale subject last told)) w
      (.fail e) := by
  show Enacts _ (after scale subject last told
    ({ h with writer := none, state := .done }, .ready (h.writer, .error e)))
    (.ready (.done (if writing then some w else none, Except.error e)))
  rw [after_ready (h := { h with writer := none, state := .done }) hlast, hlends.eq]
  exact .ready _ _

theorem does_digest (hlends : Lends good writing lent w)
    {hasher : Digest.Hasher partitionAlgorithm} {offset : Nat} {finalized : Bool}
    {state : Hashing.State} (hlast : offset = last) :
    Does scale subject writing ((Hashing.digest ⟨subject.size, dataEnd, offset, some hasher, lent,
      finalized, state⟩).bind (after scale subject last told)) w
      (Attempt.succeed (hasher.finish, told)) := by
  show Enacts _ (after scale subject last told
    (⟨subject.size, dataEnd, offset, none, none, finalized, .done⟩,
      .ready (lent, .ok hasher.finish)))
    (.ready (.done (if writing then some w else none, Except.ok (hasher.finish, told))))
  rw [after_ready hlast, hlends.eq]
  exact .ready _ _

/-- A request for a chunk, and what is done with the outcome. -/
theorem does_request (hlends : Lends good writing h.writer w) {stop : Nat}
    {f : Except IoError ByteArray → Attempt P HashError (ByteArray × P)}
    (hfailed : ∀ e, f (.error e) = .fail (.read h.offset e))
    (htake : ∀ bytes state, Does scale subject writing ((Hashing.take { h with state }
      (bytes.extract 0 (min chunkSize (stop - h.offset)))).bind
        (after scale subject h.offset told)) w (f (.ok bytes))) :
    Does scale subject writing ((h.request subject.device stop).bind
      (after scale subject h.offset told)) w
      (.request (I := interface P) subject.device
        (.read h.offset (min chunkSize (stop - h.offset))) f) := by
  have hfail : ∀ e state, Does scale subject writing
      ((Hashing.finish { h with state } (.error (.read h.offset e))).bind
        (after scale subject h.offset told)) w (f (.error e)) := by
    intro e state
    rw [hfailed]
    exact does_finish (h := { h with state }) hlends rfl
  unfold Does Hashing.request
  dsimp only
  rw [Turn.start_bind]
  refine enacts_request (fun fut => ⟨{ h with
    state := .reading (min chunkSize (stop - h.offset)) fut }, h.offset, told⟩)
    (fun _ e => hfail e _) (fun e => hfail e _) (fun _ => rfl) (fun _ => Turn.bind_assoc _ _ _)
    ?_ ?_
  · exact fun _ _ => after_pending rfl
  · rintro fut fut' (bytes | ⟨_, e⟩ | e)
    · exact htake bytes _
    · exact hfail e _
    · exact hfail e _

/-- Behind a chunk the task is woken, progress is reported, and the machine gives way; then it is in
    front of the next read. -/
theorem does_behind (hmore : h.offset ≠ last) {f : P → Attempt P HashError (ByteArray × P)}
    (hnext : ∀ told, Does scale subject writing
      (turn scale subject ⟨{ h with state := .prepareRead }, h.offset, told⟩) w (f told)) :
    Does scale subject writing ((h.goTo (.yielding {})).bind (after scale subject last told)) w
      (ask .wake fun _ => Verification.tell scale told
        (scale.fraction subject.index h.offset subject.size subject.partitions)
        fun told => .pause (f told)) := by
  have hyield : ∀ told, Enacts (turn scale subject)
      (.ret (⟨{ h with state := .yielding { yielded := true } }, h.offset, told⟩, .pending))
      (.ready (handing writing (.pause (f told)) w)) := fun told => .pause (.again (hnext told))
  refine .again (.call fun _ => ?_)
  show Enacts (turn scale subject) (tell scale subject last told
    { h with state := .yielding { yielded := true } } fun t => .ret (t, .pending)) _
  unfold tell Verification.tell
  rw [if_pos hmore]
  show Enacts (turn scale subject) (if scale.less told (scale.fraction subject.index h.offset
    subject.size subject.partitions) = true then _ else _) _
  split
  · exact .call fun _ => hyield _
  · exact hyield told

theorem tell_bind (scale : Scale P) (reported progress : P) (f : P → Routine (interface P) α)
    (g : α → Routine (interface P) β) :
    (Verification.tell scale reported progress f).bind g =
      Verification.tell scale reported progress fun told => (f told).bind g := by
  unfold Verification.tell
  split <;> rfl

/-- The machine at a position, in front of a read. -/
abbrev readingAt (size dataEnd : Nat) (lent : Option Writer) (finalized : Bool)
    (pos : Position P) : Telling P :=
  ⟨⟨size, dataEnd, pos.offset, some pos.hasher, lent, finalized, .prepareRead⟩, pos.offset,
    pos.reported⟩

section

variable {finalized feeding : Bool} {stop : Nat}
  {behind : Except HashError (Position P) → Attempt P HashError (ByteArray × P)}

/-- A chunk is hashed, and fed to the writer if it is to be fed. -/
theorem does_withChunk (hbehind : ∀ e, behind (.error e) = .fail e)
    (hgood : ∀ w offset data, good w → good (w.update offset data).1)
    (hlends : Lends good writing lent w) {pos : Position P} {chunk : ByteArray}
    (hfeeding : feeding = (decide (pos.offset < dataEnd) && writing)) (hsome : chunk.size ≠ 0)
    (hnext : ∀ {lent w} told, Lends good writing lent w → Does scale subject writing
      (turn scale subject (readingAt subject.size dataEnd lent finalized (pos.behind chunk told))) w
        ((hashUpTo scale subject feeding stop (pos.behind chunk told)).bind behind))
    (state : Hashing.State) :
    Does scale subject writing ((Hashing.take ⟨subject.size, dataEnd, pos.offset, some pos.hasher,
      lent, finalized, state⟩ chunk).bind (after scale subject pos.offset pos.reported)) w
      ((withChunk scale subject feeding stop pos chunk).bind behind) := by
  have htold : ∀ {lent w}, Lends good writing lent w → Does scale subject writing
      ((Hashing.goTo ⟨subject.size, dataEnd, pos.offset + chunk.size,
        some (pos.hasher.update chunk), lent, finalized, state⟩ (.yielding {})).bind
        (after scale subject pos.offset pos.reported)) w
        ((ask .wake fun _ => Verification.tell scale pos.reported (scale.fraction subject.index
          (pos.offset + chunk.size) subject.size subject.partitions) fun told =>
            .pause (hashUpTo scale subject feeding stop (pos.behind chunk told))).bind behind) := by
    intro lent w hlends
    have hbind := tell_bind scale pos.reported (scale.fraction subject.index
      (pos.offset + chunk.size) subject.size subject.partitions)
      (fun told => .pause (hashUpTo scale subject feeding stop (pos.behind chunk told))) behind
    show Does scale subject writing _ w (ask .wake fun _ => Routine.bind _ behind)
    rw [hbind]
    exact does_behind (by dsimp only; omega) fun told => hnext told hlends
  unfold Hashing.take withChunk feed
  rw [if_neg hsome]
  dsimp only
  cases feeding with
  | false =>
    have hidle : pos.offset < dataEnd → lent = none := by
      intro hinside
      rw [decide_eq_true hinside, Bool.true_and] at hfeeding
      subst hfeeding
      cases hlends
      rfl
    rw [Hashing.fed_idle, if_neg Bool.false_ne_true]
    · exact htold hlends
    · exact hidle
  | true =>
    obtain ⟨hinside, rfl⟩ := Bool.and_eq_true_iff.mp hfeeding.symm
    cases hlends with
    | lent hw =>
      rw [Hashing.fed_lent rfl (of_decide_eq_true hinside), if_pos rfl]
      show Enacts (turn scale subject) _ (.ready (handing true (Routine.bind (Attempt.andThen
        (.done ((w.update pos.offset chunk).2.mapError .verity)) _) behind)
          (w.update pos.offset chunk).1))
      have hgood' := hgood w pos.offset chunk hw
      dsimp only
      cases (w.update pos.offset chunk).2 with
      | error e =>
        show Does scale subject true _ _ (behind (.error (.verity e)))
        rw [hbehind]
        exact does_finish (.lent hgood') rfl
      | ok a => exact htold (.lent hgood')

/-- Reads up to a stop, by induction on what is left to read, and goes on from there. -/
theorem does_hashUpTo (hbehind : ∀ e, behind (.error e) = .fail e)
    (hgood : ∀ w offset data, good w → good (w.update offset data).1) (low : Nat)
    (hfeeding : ∀ offset, low ≤ offset → offset < stop →
      feeding = (decide (offset < dataEnd) && writing))
    (hturn : ∀ {pos : Position P} {lent}, lent.isSome = writing → low ≤ pos.offset →
      pos.offset < stop → (readingAt subject.size dataEnd lent finalized pos).hashing.turn
        subject.device = ((readingAt subject.size dataEnd lent finalized pos).hashing.request
          subject.device stop : Turn P _))
    (hend : ∀ {pos lent w}, Lends good writing lent w → low ≤ pos.offset →
      stop ≤ pos.offset → Does scale subject writing
        (turn scale subject (readingAt subject.size dataEnd lent finalized pos)) w
        (behind (.ok pos)))
    (pos : Position P) : ∀ {lent w}, Lends good writing lent w → low ≤ pos.offset →
      Does scale subject writing
        (turn scale subject (readingAt subject.size dataEnd lent finalized pos)) w
        ((hashUpTo scale subject feeding stop pos).bind behind) := by
  induction pos using hashUpTo_induction stop with
  | ended pos hstop =>
    intro lent w hlends hlow
    rw [hashUpTo_of_le hstop]
    exact hend hlends hlow hstop
  | chunk pos hmore ih =>
    intro lent w hlends hlow
    rw [hashUpTo_of_lt hmore]
    show Does scale subject writing (Turn.bind (Hashing.turn subject.device _) _) w _
    rw [hturn hlends.isSome_eq hlow hmore]
    refine does_request hlends (fun e => hbehind _) fun bytes state => ?_
    have hle := size_chunk_le bytes stop pos
    unfold afterRead
    dsimp only
    show Does scale subject writing
      ((Hashing.take _ (bytes.extract 0 (chunkLength stop pos))).bind _) _ _
    generalize bytes.extract 0 (chunkLength stop pos) = chunk at hle
    by_cases hsome : chunk.size = 0
    · unfold Hashing.take
      rw [if_pos hsome, if_pos hsome]
      show Does scale subject writing _ w (behind (.error (.unexpectedEnd pos.offset)))
      rw [hbehind]
      exact does_finish hlends rfl
    · rw [if_neg hsome]
      refine does_withChunk hbehind hgood hlends (hfeeding _ hlow hmore) hsome ?_ state
      intro lent w told hlends
      exact ih chunk told (Nat.pos_of_ne_zero hsome) hle hlends (Nat.le_add_right_of_le hlow)

/-- What there is to be done behind the metadata. -/
def remaining (scale : Scale P) (subject : Subject) (pos : Position P) :
    Attempt P HashError (ByteArray × P) :=
  (hashUpTo scale subject false subject.size pos).andThen fun pos =>
    Attempt.succeed (pos.hasher.finish, pos.reported)

/-- The rest of the partition, and the digest. -/
theorem does_remaining (hfinal : (writing && !finalized) = false) {pos : Position P}
    (hlends : Lends (fun _ => True) writing lent w) (hpos : dataEnd ≤ pos.offset) :
    Does scale subject writing
      (turn scale subject (readingAt subject.size dataEnd lent finalized pos)) w
      (remaining scale subject pos) := by
  refine does_hashUpTo (fun _ => rfl) (fun _ _ _ _ => trivial) dataEnd ?_ ?_ ?_ pos hlends hpos
  · intro offset hlow _
    rw [decide_eq_false (Nat.not_lt.mpr hlow), Bool.false_and]
  · intro pos lent hlent hlow hmore
    unfold Hashing.turn
    dsimp only
    rw [if_neg (Nat.not_lt.mpr hlow), hlent, hfinal, if_neg Bool.false_ne_true, if_pos hmore]
  · intro pos lent w hlends hlow hstop
    show Does scale subject writing (Turn.bind (Hashing.turn subject.device _) _) w _
    unfold Hashing.turn
    dsimp only
    rw [if_neg (Nat.not_lt.mpr hlow), hlends.isSome_eq, hfinal, if_neg Bool.false_ne_true,
      if_neg (Nat.not_lt.mpr hstop)]
    exact does_digest hlends rfl

end

/-- The metadata, written by a machine of its own. -/
theorem does_finalize {l : Verity.Layout} (hserves : w.Serves l)
    {f : Except HashError Unit → Attempt P HashError (ByteArray × P)}
    (hf : ∀ e, f (.error e) = .fail e) {pos : Position P}
    (hwritten : Does scale subject true (turn scale subject
      (readingAt subject.size dataEnd (some w.finalize.1) true pos)) w.finalize.1 (f (.ok ()))) :
    Does scale subject true ((Hashing.finalize
      (readingAt subject.size dataEnd (some w) false pos).hashing).bind
      (after scale subject pos.offset pos.reported)) w
      ((finalizeOn subject.device).bind f) := by
  have hfail : ∀ (h : Hashing) e, h.offset = pos.offset → h.writer = some w.finalize.1 →
      Does scale subject true ((h.finish (.error (.verity e))).bind
        (after scale subject pos.offset pos.reported)) w.finalize.1 (f (.error (.verity e))) := by
    intro h e hoffset hwriter
    rw [hf]
    have hlends : Lends (fun _ => True) true h.writer w.finalize.1 := by
      rw [hwriter]
      exact .lent trivial
    exact does_finish hlends hoffset
  refine does_answered (c := .finalizeWriter) rfl ?_
  unfold Does Hashing.finalize
  dsimp only
  cases hfinalize : w.finalize.2 with
  | error e => exact hfail _ e rfl rfl
  | ok fin =>
    obtain ⟨m, hmade, hdoes⟩ := Finalizing.exists_does_routine (P := P) (d := subject.device)
      (hserves.finalize_fits hfinalize)
    dsimp only [Except.map]
    rw [hmade, Routine.bind_assoc]
    unfold handing
    rw [serving_onDevice]
    refine .again ?_
    show Enacts (turn scale subject)
      (Turn.bind (Turn.bind (Finalizing.turn subject.device m) _) _) _
    rw [Turn.bind_assoc]
    refine hdoes.within _ (fun m => ⟨⟨subject.size, dataEnd, pos.offset, some pos.hasher,
      some w.finalize.1, true, .finalizing m⟩, pos.offset, pos.reported⟩)
      (fun _ => Turn.bind_assoc _ _ _) (fun _ => rfl) (fun _ => after_pending rfl) ?_
      (Routine.only_true _)
    rintro m (e | a) -
    · exact hfail _ e rfl rfl
    · exact .again hwritten

/-- A whole partition: its data, its metadata, and the rest. -/
theorem does_hashPartition (scale : Scale P) (subject : Subject) (dataEnd : Nat) (told : P)
    (hlends : Lends Writer.Engaged writing lent w) :
    Does scale subject writing (turn scale subject ⟨.start subject.size dataEnd lent, 0, told⟩) w
      (hashPartition scale subject dataEnd writing told) := by
  show Does scale subject writing (turn scale subject (readingAt subject.size
    (min dataEnd subject.size) lent false ⟨0, .start partitionAlgorithm, told⟩)) w
    ((hashUpTo scale subject writing (min dataEnd subject.size)
      ⟨0, .start partitionAlgorithm, told⟩).bind _)
  refine does_hashUpTo (fun _ => rfl) (fun _ offset data h => h.update offset data) 0 ?_ ?_ ?_
    _ hlends (Nat.zero_le _)
  · intro offset _ hmore
    rw [decide_eq_true hmore, Bool.true_and]
  · intro pos lent _ _ hmore
    exact if_pos hmore
  · intro pos lent w hlends _ hstop
    cases hlends with
    | kept w => exact does_remaining rfl (.kept w) hstop
    | lent hengaged =>
      obtain ⟨l, hserves⟩ := hengaged
      show Does scale subject true (Turn.bind (Hashing.turn subject.device _) _) w _
      unfold Hashing.turn
      dsimp only
      rw [if_neg (Nat.not_lt.mpr hstop)]
      exact does_finalize hserves (fun _ => rfl) (does_remaining rfl (.lent trivial) hstop)

/-! ## Hashing alone -/

/-- The scale on which nothing is more than anything else. -/
def mute (scale : Scale P) : Scale P :=
  { scale with less := fun _ _ => false }

/-- What a turn of the hashing comes to where nothing is told. -/
def unheard (last : Nat) (told : P) : Hashing.Result → Result P
  | (h, .again) => (⟨h, last, told⟩, .again)
  | (h, .pending) => (⟨h, h.offset, told⟩, .pending)
  | (h, .ready (writer, result)) => (⟨h, h.offset, told⟩, .ready (writer, result.map (·, told)))

theorem after_mute (last : Nat) (told : P) :
    after (mute scale) subject last told = fun r => .ret (unheard last told r) := by
  have htell : ∀ (h : Hashing) (f : Telling P → Turn P (Result P)),
      tell (mute scale) subject last told h f = f ⟨h, h.offset, told⟩ := by
    intro h f
    unfold tell
    split
    · exact if_neg Bool.false_ne_true
    · rfl
  funext r
  match r with
  | (h, .again) => rfl
  | (h, .pending) => exact htell h fun t => .ret (t, .pending)
  | (h, .ready (writer, result)) =>
    exact htell h fun t => .ret (t, .ready (writer, result.map (·, t.told)))

/-- The result without what has been told. -/
def untold (r : Option Writer × Except HashError (ByteArray × P)) :
    Routine (interface P) (Option Writer × Except HashError ByteArray) :=
  .done (r.1, r.2.map Prod.fst)

theorem turn_mute (t : Telling P) : turn (mute scale) subject t =
    (t.hashing.turn subject.device).bind fun r => .ret (unheard t.last t.told r) :=
  congrArg _ (after_mute t.last t.told)

/-- What the hashing does where nothing is told, it does alone. -/
theorem enacts_alone {t' : Turn P (Result P)} {rest : Suspended (interface P) _}
    (henacts : Enacts (turn (mute scale) subject) t' rest) :
    ∀ {t : Turn P Hashing.Result} {last told},
      t' = t.bind (fun r => .ret (unheard last told r)) →
        Enacts (Hashing.turn subject.device) t (rest.bind untold) := by
  -- in each case the turn that nobody hears is of the same form
  induction henacts with
  | again _ ih =>
    intro t last told heq
    cases t with
    | ret r =>
      obtain ⟨h, _ | _ | ⟨writer, result⟩⟩ := r <;> cases heq
      exact .again (ih (turn_mute _))
    | _ => cases heq
  | ready s a =>
    intro t last told heq
    cases t with
    | ret r =>
      obtain ⟨h, _ | _ | ⟨writer, result⟩⟩ := r <;> cases heq
      cases result <;> exact .ready _ _
    | _ => cases heq
  | call _ ih =>
    intro t last told heq
    cases t with
    | call c next =>
      cases heq
      exact .call fun x => ih x rfl
    | _ => cases heq
  | submit _ _ _ ihreturned ihrefused ihtaken =>
    intro t last told heq
    cases t with
    | submit d r next =>
      cases heq
      exact .submit (fun buffer e => ihreturned buffer e rfl) (fun e => ihrefused e rfl)
        fun polls => ihtaken polls rfl
    | _ => cases heq
  | complete _ ih =>
    intro t last told heq
    cases t with
    | complete d r next =>
      cases heq
      exact .complete fun x => ih x rfl
    | _ => cases heq
  | wait _ ih =>
    intro t last told heq
    cases t with
    | ret r =>
      obtain ⟨h, _ | _ | ⟨writer, result⟩⟩ := r <;> cases heq
      exact .wait (ih (turn_mute _))
    | _ => cases heq
  | pause _ ih =>
    intro t last told heq
    cases t with
    | ret r =>
      obtain ⟨h, _ | _ | ⟨writer, result⟩⟩ := r <;> cases heq
      exact .pause (ih (turn_mute _))
    | _ => cases heq
  | broken =>
    intro t last told heq
    cases t with
    | broken => exact .broken
    | _ => cases heq

end Telling

/-- The hashing by itself does what the hashing of a partition does where nothing is told. -/
theorem Hashing.enacts_hashPartition (scale : Scale P) (subject : Subject) (dataEnd : Nat)
    (told : P) {writing : Bool} {lent : Option Writer} {w : Writer}
    (hlends : Lends Writer.Engaged writing lent w) :
    Enacts (Hashing.turn subject.device) ((Hashing.start subject.size dataEnd lent).turn
      subject.device) (.ready ((Telling.handing writing
        (hashPartition (Telling.mute scale) subject dataEnd writing told) w).bind
          Telling.untold)) :=
  Telling.enacts_alone (Telling.does_hashPartition _ _ _ _ hlends) (Telling.turn_mute ⟨_, 0, told⟩)

end SlotVerify.Machine
