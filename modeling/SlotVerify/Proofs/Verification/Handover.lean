import SlotVerify.Proofs.Verification.Digesting
import SlotVerify.Proofs.Verification.Protocol
/-
  The writer of verity metadata in the hands of the hashing.

  A session carries its writer from call to call: each call is answered the way the writer answers
  it (`Answers`), and in the end the session gives back the writer as the calls have left it
  (`reaches_conduct`).

  A writer that has just been initialized is fed from offset zero on without gaps, which is what it
  wants, so it has taken whatever was fed (`Feeds.streams`) and never refuses an update
  (`Protocol.taken_of_answers`).  Then an error of the writer can only come from the finalization.
-/

namespace SlotVerify.Verification

open Device Routine CommandLine
open Verity (Writer)

variable {P : Type} {w w' : Writer}

/-- What a call makes of the writer, and how it is answered. -/
def Answers (w : Writer) : (c : Call P) → c.Answer → Writer → Prop
  | .initWriter l, answer, w' => (w', answer) = w.init l
  | .updateWriter offset data, answer, w' => (w', answer) = w.update offset data
  | .finalizeWriter, answer, w' =>
    (w', answer) = (w.finalize.1, w.finalize.2.map Verity.Finalization.routine)
  | _, _, w' => w' = w

/-- The writer goes from call to call. -/
abbrev Carries (w : Writer) (es : Trace P) (w' : Writer) : Prop :=
  Carried (I := interface P) Answers w es w'

theorem answers_of_carryOut {report : P → Session Unit} {c : Call P} {es : List (Happening surface)}
    {answer : c.Answer} (h : (carryOut report w c).Reaches es (.done (answer, w'))) :
    Answers w c answer w' := by
  cases c with
  | setReadOnly path readOnly =>
    cases h with
    | call x h => cases (reaches_done h).2; rfl
  | openPath path writable =>
    cases h with
    | call x h => cases (reaches_done h).2; rfl
  | report progress =>
    rcases reaches_bind _ h with ⟨t', -, hleft, hdone⟩ | ⟨_, _, _, -, -, hdone⟩
    · exact absurd hdone.symm (hleft.bind _ _)
    · cases (reaches_done hdone).2
      rfl
  | _ =>
    cases (reaches_done h).2
    rfl

/-- A part of a verification that comes to its end in a session has used the session's writer, and
    gives it back. -/
theorem reaches_conduct {α : Type} {report : P → Session Unit} {t : Routine (interface P) α}
    {es : List (Happening surface)} {a : α}
    (h : (conduct report w t).Reaches es (.done (a, w'))) :
    ∃ es', t.Reaches es' (.done a) ∧ Carries w es' w' :=
  reaches_interpret answers_of_carryOut t h

/-- A writer that is fed from the end of its stream on takes what it is fed. -/
theorem Feeds.streams {device : OpenedDevice} {stop first last : Nat} {es : Trace P}
    {l : Verity.Layout} (h : Feeds device stop first last es) :
    ∀ {w contents}, w.Streams l contents → contents.size = first → Carries w es w' →
      ∃ contents', w'.Streams l contents' ∧ contents'.size = last := by
  induction h with
  | nil =>
    intro w contents hstreams hsize hcarries
    cases hcarries
    exact ⟨contents, hstreams, hsize⟩
  | read _ _ ih =>
    intro w contents hstreams hsize hcarries
    cases hcarries with
    | served hcarries => exact ih hstreams hsize hcarries
  | @update first last data es _ _ ih =>
    intro w contents hstreams hsize hcarries
    cases hcarries with
    | called huse hcarries =>
      change (_, _) = w.update first data at huse
      have hok : (w.update first data).2 = .ok () := by rw [← huse]
      have hnext := hstreams.update first data hok
      rw [← huse] at hnext
      refine ih hnext ?_ hcarries
      rw [ByteArray.size_append, hsize]
  | report _ ih =>
    intro w contents hstreams hsize hcarries
    cases hcarries with
    | called huse hcarries =>
      cases huse
      exact ih hstreams hsize hcarries
  | wake _ ih =>
    intro w contents hstreams hsize hcarries
    cases hcarries with
    | called huse hcarries =>
      cases huse
      exact ih hstreams hsize hcarries
  | pause _ ih =>
    intro w contents hstreams hsize hcarries
    cases hcarries with
    | paused hcarries => exact ih hstreams hsize hcarries

namespace Protocol

variable {α : Type} {device : OpenedDevice} {dataEnd size : Nat} {es : Trace P}
  {u : Attempt P HashError α} {l : Verity.Layout}

/-- A writer that has just been initialized refuses no update. -/
theorem not_refused (hinit : (w.init l).2 = .ok ()) (hword : dataEnd < Verity.wordLimit)
    {last : Nat} {data : ByteArray} {cause : Verity.Error}
    (hfed : Feeds device dataEnd 0 last es) (hinside : last + data.size ≤ dataEnd) :
    ¬ Carries (w.init l).1 (es ++ [updated last data (.error cause)]) w' := by
  intro hcarries
  obtain ⟨w₁, hfirst, hlast⟩ := hcarries.append_cases
  obtain ⟨contents, hstreams, rfl⟩ := hfed.streams (Writer.streams_init hinit) rfl hfirst
  have hok := hstreams.update_next data (by omega)
  cases hlast with
  | called huse _ =>
    change (_, _) = w₁.update contents.size data at huse
    rw [← huse] at hok
    cases hok

/-- It takes every update. -/
theorem update_taken (h : Protocol device dataEnd size es u) (hinit : (w.init l).2 = .ok ())
    (hword : dataEnd < Verity.wordLimit) (hcarries : Carries (w.init l).1 es w') {offset : Nat}
    {data : ByteArray} {answer : Except Verity.Error Unit}
    (hmem : updated offset data answer ∈ es) : answer = .ok () := by
  have hfinalized : ∀ {fed rest : Trace P} {outcome}, Feeds device dataEnd 0 dataEnd fed →
      (∀ e ∈ rest, Taken e) → updated offset data answer ∈ fed ++ finalized outcome :: rest →
      answer = .ok () := by
    intro fed rest outcome hfed hrest hmem
    rcases List.mem_append.mp hmem with hmem | hmem
    · exact hfed.taken _ hmem
    · cases hmem with
      | tail _ hmem => exact hrest _ hmem
  cases h with
  | feeding hfed _ => exact hfed.taken _ hmem
  | unread hfed _ _ => exact hfed.taken _ hmem
  | refused hfed _ hinside => exact absurd hcarries (not_refused hinit hword hfed hinside)
  | unfinalized hfed => exact hfinalized hfed (List.forall_mem_nil _) hmem
  | writing hfed hwriting _ _ =>
    exact hfinalized hfed (fun e he => taken_of_permitted (permitted_on hwriting e he)) hmem
  | unwritten hfed hwriting =>
    exact hfinalized hfed (fun e he => taken_of_permitted (permitted_on hwriting e he)) hmem
  | behind hfed hwritten hlater _ =>
    refine hfinalized hfed ?_ hmem
    intro e he
    rcases List.mem_append.mp he with he | he
    · exact taken_of_permitted (permitted_on hwritten e he)
    · exact taken_of_permitted (hlater e he)

/-- An error of the writer comes from the finalization, or from writing what that has given. -/
theorem error_finalizing {cause : Verity.Error}
    (h : Protocol device dataEnd size es (.done (.error (.verity cause)) : Attempt P HashError α))
    (hinit : (w.init l).2 = .ok ()) (hword : dataEnd < Verity.wordLimit)
    (hcarries : Carries (w.init l).1 es w') :
    (∃ fed, es = fed ++ [finalized (.error cause)]) ∨
      ∃ fed t written, es = fed ++ finalized (.ok t) :: written ∧
        (t.on P device).Reaches written (.done (.error cause)) := by
  generalize hu : (Routine.done (.error (.verity cause)) : Attempt P HashError α) = u at h
  cases h with
  | feeding _ hleft => exact absurd hu.symm (hleft _)
  | unread _ _ he =>
    cases hu
    exact absurd rfl (he cause)
  | refused hfed _ hinside => exact absurd hcarries (not_refused hinit hword hfed hinside)
  | unfinalized _ =>
    cases hu
    exact .inl ⟨_, rfl⟩
  | writing _ _ _ hleft => exact absurd hu.symm (hleft _)
  | unwritten _ hwriting =>
    cases hu
    exact .inr ⟨_, _, _, rfl, hwriting⟩
  | behind _ _ _ hu' => exact absurd hu.symm (hu' cause)

end Protocol

end SlotVerify.Verification
