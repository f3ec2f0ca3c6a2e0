import SlotVerify.Proofs.Machine.Runs
import SlotVerify.Proofs.Machine.Telling
import SlotVerify.Proofs.Verification.Chunks
/-
  One chunk for each poll of the hashing machine.

  1. **Turns** — in a poll the hashing first lets the writing of the metadata go on, if that is
     under way; then it asks for a chunk, takes it, and gives way.  `Underway` says how far a poll
     has come with this, and each turn takes it further (`Underway.leads_turn`).  There is no way
     from one chunk to the next that does not give way in between, and giving way begins with waking
     the task.

  2. **Polls** — so a poll advances by one chunk at most, and only if it ends by giving way
     (`Rests.advances`).

  3. **Ends** — the machine enacts the hashing of a partition, which is over after some polls, and
     none of its turns breaks down.
-/

namespace SlotVerify.Machine

open Device Verification
open Verity (Writer)

variable {P W : Type}

theorem Finalizing.quiet_turn (d : OpenedDevice) (f : Finalizing) :
    (f.turn d : Turn P Finalizing.Result).Quiet := by
  have hnextRound : (f.nextRound : Turn P Finalizing.Result).Quiet := by
    unfold nextRound
    split
    · split <;> trivial
    · trivial
  unfold Finalizing.turn
  split
  · dsimp only
    split
    · split
      · trivial
      · intro placement
        cases placement <;> trivial
    · trivial
  · refine (IoFuture.quiet_poll ..).bind ?_
    rintro ⟨fut, _ | _ | _ | _⟩ <;> trivial
  · split
    · unfold prepare
      dsimp only
      split
      all_goals
        intro placement
        cases placement <;> trivial
    · trivial
  · refine (IoFuture.quiet_poll ..).bind ?_
    rintro ⟨fut, _ | bytes | _ | _⟩
    case answered =>
      show (fill _ _ (bytes.extract 0 _)).Quiet
      unfold fill
      split
      · trivial
      · split
        · trivial
        · split <;> trivial
    all_goals trivial
  · refine (IoFuture.quiet_poll ..).bind ?_
    rintro ⟨fut, _ | _ | _ | _⟩
    case answered => exact hnextRound
    all_goals trivial
  · intro placement
    cases placement <;> trivial
  · refine (IoFuture.quiet_poll ..).bind ?_
    rintro ⟨fut, _ | _ | _ | _⟩ <;> trivial
  · trivial

namespace Hashing

/-! ## Turns -/

/-- These are dealings of the writing of metadata. -/
def ByFinalizing (d : OpenedDevice) (ds : Record P) : Prop :=
  ∃ (f : Finalizing) (t : Turn P Finalizing.Result), Passes (Finalizing.turn d) (f.turn d) ds t

theorem ByFinalizing.signals_eq {d : OpenedDevice} {ds : Record P} (h : ByFinalizing d ds) :
    signals ds = [] := by
  obtain ⟨f, t, hpasses⟩ := h
  exact (hpasses.signals_of_quiet (Finalizing.quiet_turn d) (Finalizing.quiet_turn d f)).1

theorem byFinalizing_nil (d : OpenedDevice) : ByFinalizing d ([] : Record P) :=
  ⟨⟨none, none, .init⟩, _, .here _⟩

/-- Behind the dealings of the writing, the hashing's own are no more than a request for a chunk at
    this offset. -/
def AsksOnce (d : OpenedDevice) (offset : Nat) (ds own : Record P) : Prop :=
  ∃ written, ds = written ++ own ∧ ByFinalizing d written ∧
    Verification.Hashing.OneChunk d offset (submissions own)

/-- The numbers of a hashing fit each other. -/
structure Fits (size : Nat) (h : Hashing) : Prop where
  size_eq : h.size = size
  dataEnd_le : h.dataEnd ≤ size
  offset_le : h.offset ≤ size
  state : match h.state with
    | .reading length _ => length ≤ chunkSize ∧ h.offset + length ≤ size
    | .finalizing _ => h.finalized = true
    | _ => True

/-- How far a poll has come that has begun with so many bytes hashed. -/
def Underway (d : OpenedDevice) (size first : Nat) (h : Hashing) (ds : Record P) : Prop :=
  h.Fits size ∧
    match h.state with
    | .prepareRead => h.offset = first ∧ ByFinalizing d ds ∧ (h.finalized = true ∨ ds = [])
    | .reading .. => h.offset = first ∧ ∃ own, AsksOnce d first ds own ∧ signals own = []
    | .yielding { yielded := false } => first < h.offset ∧ h.offset ≤ first + chunkSize ∧
        ∃ own, AsksOnce d first ds own ∧ signals own = []
    | .yielding { yielded := true } => h.offset = first ∧ ds = []
    | .finalizing f => h.offset = first ∧
        ∃ f₀ : Finalizing, Passes (Finalizing.turn d) (f₀.turn d) ds (f.turn d)
    | .done => False

/-- What a poll has come to that began with so many bytes hashed: it has asked for at most one
    chunk, and advanced by at most one; and it has woken its task if it has advanced, and then given
    way. -/
structure Advances (d : OpenedDevice) (size first : Nat) (ended : Result) (ds : Record P) :
    Prop where
  le : first ≤ ended.1.offset
  le_add : ended.1.offset ≤ first + chunkSize
  le_size : ended.1.offset ≤ size
  asks : ∃ own, AsksOnce d first ds own
  wakes : signals ds = if first < ended.1.offset then [.wake] else []
  yields : first < ended.1.offset → ended.2 = .pending ∧ ∃ ds', ds = ds' ++ [woken]

/-- Between two polls the hashing has not just begun to give way. -/
structure Rests (size : Nat) (h : Hashing) : Prop extends h.Fits size where
  resting : match h.state with
    | .yielding y => y.yielded = true
    | .done => False
    | _ => True

/-- Where a turn of a poll leaves the hashing. -/
def Leaves (d : OpenedDevice) (size first : Nat) : Result → Record P → Prop
  | (h, .again), ds => h.Underway d size first ds
  | (h, .pending), ds => h.Rests size ∧ Advances d size first (h, .pending) ds
  | (h, .ready result), ds => Advances d size first (h, .ready result) ds

variable {d : OpenedDevice} {size first : Nat} {h : Hashing} {ds own : Record P}

/-- Nothing has been hashed in a poll. -/
theorem advances_still {after} (hoffset : h.offset = first)
    (hle : h.offset ≤ size) (hasks : AsksOnce d first ds own) (hsignals : signals own = []) :
    Advances d size first (h, after) ds := by
  have hstill : ¬ first < h.offset := by omega
  refine ⟨hoffset.ge, ?_, hle, ⟨own, hasks⟩, ?_, fun hlt => absurd hlt hstill⟩
  · show h.offset ≤ first + chunkSize
    omega
  · obtain ⟨written, rfl, hwritten, -⟩ := hasks
    rw [signals_append, hwritten.signals_eq, hsignals]
    exact (if_neg hstill).symm

theorem asksOnce_none (hds : ByFinalizing d ds) : AsksOnce d first ds [] :=
  ⟨ds, (List.append_nil ds).symm, hds, .inl rfl⟩

/-- A dealing that submits nothing. -/
theorem AsksOnce.append (h : AsksOnce d first ds own) {x : Dealing (interface P)}
    (hx : submissions [x] = []) : AsksOnce d first (ds ++ [x]) (own ++ [x]) := by
  obtain ⟨written, rfl, hwritten, hone⟩ := h
  refine ⟨written, List.append_assoc _ _ _, hwritten, ?_⟩
  rwa [submissions_append, hx, List.append_nil]

/-- A chunk is asked for. -/
theorem leads_request (hfits : h.Fits size) (hoffset : h.offset = first) (hds : ByFinalizing d ds)
    {stop : Nat} (hmore : h.offset < stop) (hstop : stop ≤ size) :
    (h.request d stop).Leads (Leaves d size first) ds := by
  have hasks : ∀ outcome, AsksOnce d first
      (ds ++ [.submitted (I := interface P) d (.read h.offset (min chunkSize (stop - h.offset)))
        outcome])
      [.submitted d (.read h.offset (min chunkSize (stop - h.offset))) outcome] := by
    intro outcome
    refine ⟨ds, rfl, hds, .inr ⟨min chunkSize (stop - h.offset), Nat.min_le_left _ _, ?_⟩⟩
    rw [← hoffset]
    rfl
  intro placement
  cases placement with
  | taken polls =>
    have hend : h.offset + min chunkSize (stop - h.offset) ≤ size := by omega
    exact ⟨⟨hfits.size_eq, hfits.dataEnd_le, hfits.offset_le, Nat.min_le_left _ _, hend⟩, hoffset,
      _, hasks _, rfl⟩
  | returned buffer e => exact advances_still hoffset hfits.offset_le (hasks _) rfl
  | refused e => exact advances_still hoffset hfits.offset_le (hasks _) rfl

/-- The writer hands out what is to be written, before anything else has been done. -/
theorem leads_finalize (hfits : h.Fits size) (hoffset : h.offset = first) :
    (h.finalize : Turn P Result).Leads (Leaves d size first) [] := by
  unfold finalize
  split
  · exact ⟨⟨hfits.size_eq, hfits.dataEnd_le, hfits.offset_le, trivial⟩, hoffset, byFinalizing_nil d,
      .inl rfl⟩
  · dsimp only
    split
    · exact advances_still hoffset hfits.offset_le (asksOnce_none (byFinalizing_nil d)) rfl
    · split
      · exact advances_still hoffset hfits.offset_le (asksOnce_none (byFinalizing_nil d)) rfl
      · exact ⟨⟨hfits.size_eq, hfits.dataEnd_le, hfits.offset_le, rfl⟩, hoffset, _, .here _⟩

/-- Being fed changes nothing but the writer. -/
theorem fed_eq (h : Hashing) (bytes : ByteArray) :
    ∃ writer, (h.fed bytes).1 = { h with writer } := by
  unfold fed
  split
  · split
    · exact ⟨_, rfl⟩
    · exact ⟨_, rfl⟩
  · exact ⟨_, rfl⟩

/-- A chunk is taken. -/
theorem leads_take (hfits : h.Fits size) (hoffset : h.offset = first)
    (hasks : AsksOnce d first ds own) (hsignals : signals own = []) {bytes : ByteArray}
    (hchunk : bytes.size ≤ chunkSize) (hend : h.offset + bytes.size ≤ size) :
    (h.take bytes).Leads (Leaves d size first) ds := by
  unfold take
  split
  · exact advances_still hoffset hfits.offset_le hasks hsignals
  · rename_i hsome
    dsimp only
    obtain ⟨writer, hfed⟩ :=
      fed_eq { h with hasher := h.hasher.map (Digest.Hasher.update · bytes) } bytes
    generalize fed _ bytes = fed at hfed
    obtain ⟨h', outcome⟩ := fed
    obtain rfl : h' = _ := hfed
    cases outcome with
    | error e => exact advances_still hoffset hfits.offset_le hasks hsignals
    | ok _ =>
      refine ⟨⟨hfits.size_eq, hfits.dataEnd_le, hend, trivial⟩, ?_, ?_, own, hasks, hsignals⟩
      · show first < h.offset + bytes.size
        omega
      · show h.offset + bytes.size ≤ first + chunkSize
        omega

/-- In front of a read, a turn asks for a chunk, or it has the metadata written, or it is done. -/
theorem Underway.leads_prepareRead (hunder : h.Underway d size first ds)
    (hat : h.state = .prepareRead) : (h.turn d).Leads (Leaves d size first) ds := by
  obtain ⟨hfits, hstate⟩ := hunder
  rw [hat] at hstate
  obtain ⟨hoffset, hds, hfresh⟩ := hstate
  simp only [Hashing.turn, hat]
  split
  · rename_i hmore
    exact leads_request hfits hoffset hds hmore hfits.dataEnd_le
  · split
    · rename_i hwriting
      have hnot : h.finalized ≠ true := by
        intro hfinalized
        rw [hfinalized, Bool.not_true, Bool.and_false] at hwriting
        cases hwriting
      obtain rfl := hfresh.resolve_left hnot
      exact leads_finalize hfits hoffset
    · split
      · rename_i hmore
        exact leads_request hfits hoffset hds hmore hfits.size_eq.le
      · unfold digest
        split
        · exact advances_still hoffset hfits.offset_le (asksOnce_none hds) rfl
        · trivial

/-- While a chunk is being read, a turn waits for it, or takes it. -/
theorem Underway.leads_reading (hunder : h.Underway d size first ds) {length : Nat} {fut : IoFuture}
    (hat : h.state = .reading length fut) : (h.turn d).Leads (Leaves d size first) ds := by
  obtain ⟨hfits, hstate⟩ := hunder
  rw [hat] at hstate
  obtain ⟨hoffset, own, hasks, hsignals⟩ := hstate
  have hreading := hfits.state
  rw [hat] at hreading
  obtain ⟨hchunk, hend⟩ := hreading
  simp only [Hashing.turn, hat]
  refine IoFuture.leads_poll fut d _ (fun fut => ?_) fun fut x => ?_
  · exact ⟨⟨⟨hfits.size_eq, hfits.dataEnd_le, hfits.offset_le, hchunk, hend⟩, trivial⟩,
      advances_still hoffset hfits.offset_le hasks hsignals⟩
  · have hasked : AsksOnce d first
        (ds ++ [.completed (I := interface P) d (.read h.offset length) x.outcome])
        (own ++ [.completed d (.read h.offset length) x.outcome]) := hasks.append rfl
    have hquiet :
        signals (own ++ [.completed (I := interface P) d (.read h.offset length) x.outcome]) =
          [] := by
      rw [signals_append, hsignals]
      rfl
    cases x with
    | lost e => exact advances_still hoffset hfits.offset_le hasked hquiet
    | failed buffer e => exact advances_still hoffset hfits.offset_le hasked hquiet
    | answered bytes =>
      have hsize : (bytes.extract 0 length).size ≤ length := by
        rw [ByteArray.size_extract]
        omega
      exact leads_take hfits hoffset hasked hquiet (Nat.le_trans hsize hchunk)
        (Nat.le_trans (Nat.add_le_add_left hsize _) hend)

/-- Behind a chunk, a turn wakes the task and ends the poll; in the next poll it goes on. -/
theorem Underway.leads_yielding (hunder : h.Underway d size first ds) {y : Task.YieldNow}
    (hat : h.state = .yielding y) : (h.turn d).Leads (Leaves d size first) ds := by
  obtain ⟨hfits, hstate⟩ := hunder
  rw [hat] at hstate
  simp only [Hashing.turn, hat]
  obtain ⟨_ | _⟩ := y
  · obtain ⟨hlt, hle, own, hasks, hsignals⟩ := hstate
    intro _
    refine ⟨⟨⟨hfits.size_eq, hfits.dataEnd_le, hfits.offset_le, trivial⟩, rfl⟩, ?_⟩
    refine ⟨hlt.le, hle, hfits.offset_le, ⟨_, hasks.append rfl⟩, ?_, fun _ => ⟨rfl, ds, rfl⟩⟩
    obtain ⟨written, rfl, hwritten, -⟩ := hasks
    rw [signals_append, signals_append, hwritten.signals_eq, hsignals]
    exact (if_pos hlt).symm
  · obtain ⟨hoffset, rfl⟩ := hstate
    exact ⟨⟨hfits.size_eq, hfits.dataEnd_le, hfits.offset_le, trivial⟩, hoffset,
      byFinalizing_nil d, .inr rfl⟩

/-- While the metadata is being written, a turn is one of the writing. -/
theorem Underway.leads_finalizing (hunder : h.Underway d size first ds) {f : Finalizing}
    (hat : h.state = .finalizing f) : (h.turn d).Leads (Leaves d size first) ds := by
  obtain ⟨hfits, hstate⟩ := hunder
  rw [hat] at hstate
  obtain ⟨hoffset, f₀, hpasses⟩ := hstate
  have hfinalized := hfits.state
  rw [hat] at hfinalized
  simp only [Hashing.turn, hat]
  refine Passes.leads_bind ?_ (Finalizing.quiet_turn d f) hpasses
  rintro ⟨f', after⟩ ds' hpasses'
  have hby : ByFinalizing d ds' := ⟨f₀, _, hpasses'⟩
  cases after with
  | again =>
    refine ⟨⟨hfits.size_eq, hfits.dataEnd_le, hfits.offset_le, hfinalized⟩, hoffset, f₀, ?_⟩
    have hnext := hpasses'.trans (.again (.here _))
    rwa [List.append_nil] at hnext
  | pending =>
    exact ⟨⟨⟨hfits.size_eq, hfits.dataEnd_le, hfits.offset_le, hfinalized⟩, trivial⟩,
      advances_still hoffset hfits.offset_le (asksOnce_none hby) rfl⟩
  | ready result =>
    cases result with
    | error e => exact advances_still hoffset hfits.offset_le (asksOnce_none hby) rfl
    | ok _ =>
      exact ⟨⟨hfits.size_eq, hfits.dataEnd_le, hfits.offset_le, trivial⟩, hoffset, hby,
        .inl hfinalized⟩

/-- A turn takes a poll further, in whatever state it is. -/
theorem Underway.leads_turn (hunder : h.Underway d size first ds) :
    (h.turn d).Leads (Leaves d size first) ds := by
  cases hat : h.state with
  | prepareRead => exact hunder.leads_prepareRead hat
  | reading length fut => exact hunder.leads_reading hat
  | yielding y => exact hunder.leads_yielding hat
  | finalizing f => exact hunder.leads_finalizing hat
  | done =>
    have hstate := hunder.2
    rw [hat] at hstate
    exact hstate.elim

/-! ## Polls -/

/-- A poll begins. -/
theorem Rests.underway (hrests : h.Rests size) :
    h.Underway d size h.offset ([] : Record P) := by
  refine ⟨hrests.toFits, ?_⟩
  have hresting := hrests.resting
  split <;> rename_i hat <;> rw [hat] at hresting
  · exact ⟨rfl, byFinalizing_nil d, .inr rfl⟩
  · exact ⟨rfl, [], asksOnce_none (byFinalizing_nil d), rfl⟩
  · cases hresting
  · exact ⟨rfl, rfl⟩
  · exact ⟨rfl, _, .here _⟩
  · exact hresting

theorem rests_start (size dataEnd : Nat) (lent : Option Writer) :
    (start size dataEnd lent).Rests size where
  size_eq := rfl
  dataEnd_le := Nat.min_le_right _ _
  offset_le := Nat.zero_le _
  state := trivial
  resting := trivial

variable {host : Host (interface P) W} {w w' : W} {record record' : Record P} {h' : Hashing}

/-- A poll comes to what its turns lead to. -/
theorem Rests.leaves (hrests : h.Rests size)
    {after : After (Option Writer × Except HashError ByteArray)}
    (hpoll : Comes (Hashing.turn d) host.recorded (h.turn d) (w, record) (.ret (h', after))
      (w', record')) :
    ∃ ds, record' = record ++ ds ∧ Leaves d size h.offset (h', after) ds := by
  obtain ⟨ds, hrecord, hpasses⟩ := hpoll.passes
  exact ⟨ds, hrecord,
    hpasses.leads (fun _ _ hunder => hunder.leads_turn) hrests.underway.leads_turn⟩

/-- Between polls a hashing rests. -/
theorem rests_polled {lent : Option Writer} {dataEnd : Nat}
    (hpolled : Polled (Hashing.turn d) host (start size dataEnd lent) w h w' record) :
    h.Rests size := by
  induction hpolled with
  | start => exact rests_start size dataEnd lent
  | poll change _ hpoll ih =>
    obtain ⟨ds, -, hrests, -⟩ := ih.leaves hpoll
    exact hrests

/-- A hashing without a writer, or with one in the middle of a partition, comes to a result. -/
theorem resolves_start {lent : Option Writer} (hengaged : ∀ w ∈ lent, w.Engaged)
    (scale : Scale P) (size dataEnd : Nat) (changes : Nat → W → W) (w : W) :
    Resolves (Hashing.turn d) host changes 0 ((start size dataEnd lent).turn d) w := by
  have hends : ∀ {writing : Bool} {writer : Writer}, Lends Writer.Engaged writing lent writer →
      Resolves (Hashing.turn d) host changes 0 ((start size dataEnd lent).turn d) w := by
    intro writing writer hlends
    have henacts := enacts_hashPartition scale ⟨d, size, 0, 1⟩ dataEnd scale.zero hlends
    refine henacts.resolves host changes (fun r ds => ∃ first, Leaves d size first r ds) ?_ ?_ 0 w
      [] ?_
    · rintro h ds ⟨first, hunder⟩
      exact hunder.leads_turn.mono fun _ _ hleaves => ⟨first, hleaves⟩
    · rintro h ds ⟨first, hrests, -⟩
      exact hrests.underway.leads_turn.mono fun _ _ hleaves => ⟨h.offset, hleaves⟩
    · exact (rests_start size dataEnd lent).underway.leads_turn.mono
        fun _ _ hleaves => ⟨0, hleaves⟩
  cases lent with
  | none => exact hends (.kept .fresh)
  | some writer => exact hends (.lent (hengaged writer rfl))

/-- A chunk comes: the hashing takes it, wakes its task, and gives way. -/
theorem comes_chunk {length : Nat} {bytes : ByteArray}
    (hstate : h.state = .reading length ⟨kindOf d.access, some 0⟩)
    (hread : host.finish w d (.read h.offset length) = (w', .answered bytes))
    (htake : (h.take (bytes.extract 0 length) : Turn P Result) = h'.goTo (.yielding {})) :
    Comes (Hashing.turn d) host.recorded (h.turn d) (w, record)
      (.ret ({ h' with state := .yielding { yielded := true } }, .pending))
      ((host.answer w' .wake).1,
        record ++ [.completed (I := interface P) d (.read h.offset length) (.ok bytes)] ++
          [woken]) := by
  unfold Hashing.turn
  rw [hstate]
  dsimp only
  unfold IoFuture.poll
  rw [if_pos rfl]
  refine .complete ?_
  rw [Host.finish_recorded hread]
  show Comes _ _ (h.take (bytes.extract 0 length)) _ _ _
  rw [htake]
  exact .again (.call (.here _ _))

end Hashing

open Hashing in
/-- A hashing takes one chunk for each poll.  Whatever its host does, a poll adds at most one chunk
    to the bytes hashed, which never go back and never go beyond the partition; if it adds one, it
    wakes its task, tells the bytes, and ends by giving way.  Besides what the writer's routine
    does, it submits at most one request, a read of one chunk behind the bytes hashed.  Polled again
    and again, the hashing is over some time, with a result if the writer hands out finalizations;
    and then it takes no more polls than there are bytes to hash and polls for which its requests
    are pending, and one.

    The machine does so as well, and has its own bytes, its own writing of metadata, and its own way
    of giving way: a poll that has advanced it has woken its task at last, and is pending.  In a
    host where each request is pending for some polls only, it comes to a result. -/
theorem one_chunk_per_poll (host : Host (interface Nat) W) (subject : Subject) (dataEnd : Nat)
    (writing : Bool) (lent : Option Writer) (w : W) :
    (let polls := host.polls (hashPartition .bytes subject dataEnd writing 0) w
    (∀ changes change,
      let before := polls changes
      let now := polls (changes ++ [change])
      bytesHashed before.1.2 ≤ bytesHashed now.1.2 ∧
      bytesHashed now.1.2 ≤ bytesHashed before.1.2 + chunkSize ∧
      bytesHashed now.1.2 ≤ subject.size ∧
      (bytesHashed before.1.2 < bytesHashed now.1.2 →
        ∃ rest, now.2 = .interrupted () (.ready rest)) ∧
      (∃ written own, now.1.2 = before.1.2 ++ (written ++ own) ∧
        Verification.Hashing.OneChunk subject.device (bytesHashed before.1.2) (submissions own) ∧
        Verification.Hashing.WriterOnly subject.device before.1.2 written ∧ signals written = [] ∧
        signals own = signalsBetween (bytesHashed before.1.2) (bytesHashed now.1.2)) ∧
      ∀ r, now.2 = .finished (.ok r) → bytesHashed now.1.2 = subject.size) ∧
    (∀ changes : Nat → W → W, ∃ n, (polls ((List.range n).map changes)).2.Over ∧
      (Verification.Hashing.FinalizesOnly (polls ((List.range n).map changes)).1.2 →
        ∃ result, (polls ((List.range n).map changes)).2 = .finished result)) ∧
    ∀ changes, Verification.Hashing.FinalizesOnly (polls changes).1.2 → ¬ (polls changes).2.Over →
      changes.length ≤ subject.size + waits (polls changes).1.2) ∧
    let polled := Polled (Hashing.turn subject.device) host (start subject.size dataEnd lent) w
    (∀ h w₁ record, polled h w₁ record → ∀ (change : W → W) h' after w₂ record',
      Comes (Hashing.turn subject.device) host.recorded (h.turn subject.device)
        (change w₁, record) (.ret (h', after)) (w₂, record') → after ≠ .again →
      ∃ ds, record' = record ++ ds ∧
        Advances subject.device subject.size h.offset (h', after) ds) ∧
    ((∀ writer ∈ lent, writer.Engaged) → ∀ changes, Resolves (Hashing.turn subject.device) host
      changes 0 ((start subject.size dataEnd lent).turn subject.device) w) := by
  refine ⟨chunk_by_chunk host subject dataEnd writing w, ?_, ?_⟩
  · intro h w₁ record hpolled change h' after w₂ record' hpoll hends
    obtain ⟨ds, hrecord, hleaves⟩ := (rests_polled hpolled).leaves hpoll
    refine ⟨ds, hrecord, ?_⟩
    cases after with
    | again => exact absurd rfl hends
    | pending => exact hleaves.2
    | ready result => exact hleaves
  · intro hengaged changes
    exact resolves_start hengaged .bytes subject.size dataEnd changes w

/-- Two bytes come one by one: the second poll hashes the first of them. -/
theorem one_chunk_per_poll_firstByte :
    let device := (bootImage 4).device
    let machine := Hashing.start 4 2 (some (Writer.fresh.init twoBytes).1)
    (∃ h r record h' ds, Polled (Hashing.turn device) Rig.host machine twoBytesRig h r record ∧
      Hashing.Advances (P := Nat) device 4 h.offset (h', .pending) ds ∧ h.offset < h'.offset) ∧
    Resolves (Hashing.turn device) Rig.host (fun _ => id) 0 (machine.turn device) twoBytesRig := by
  intro device machine
  obtain ⟨-, hpolls, hresolves⟩ := one_chunk_per_poll Rig.host (bootImage 4) 2 true
    (some (Writer.fresh.init twoBytes).1) twoBytesRig
  constructor
  · let r := (twoBytesRig.place device (.read 0 2)).1
    let h := { machine with state := .reading 2 ⟨.device, some 0⟩ }
    have hpolled : Polled (Hashing.turn device) Rig.host machine twoBytesRig h r
        [.submitted (I := interface Nat) device (.read 0 2) (.ok 1)] :=
      .poll id .start (.submit (.again (.here _ _)))
    obtain ⟨r', hread⟩ : ∃ r', Rig.host.finish r device (.read 0 2) =
      (r', .answered [5].toByteArray) := ⟨_, rfl⟩
    obtain ⟨h', htake, hoffset⟩ : ∃ h' : Hashing, (h.take [5].toByteArray : Turn Nat _) =
      h'.goTo (.yielding {}) ∧ h'.offset = 1 := ⟨_, rfl, rfl⟩
    obtain ⟨ds, -, hadvances⟩ :=
      hpolls h r _ hpolled id _ _ _ _ (Hashing.comes_chunk rfl hread htake) nofun
    refine ⟨h, r, _, _, ds, hpolled, hadvances, ?_⟩
    show 0 < h'.offset
    omega
  · refine hresolves ?_ _
    rintro writer ⟨⟩
    exact ⟨_, Writer.serves_init rfl⟩

end SlotVerify.Machine
