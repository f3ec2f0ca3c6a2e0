import SlotVerify.Proofs.Machine.Program
/-
  No run of a verification comes to an internal error.

  A run polls the verification again and again, and between the polls the world may change.  The
  machine goes with it: after each poll it is where a turn that it can come to has left it, and
  enacts what is left of the verification (`Verifying.accounts_polls`).  The turns that it can come
  to do not go astray, and find in their places the plan, the writer, the hasher and the encoder
  (`Verifying.never_astray`).
-/

namespace SlotVerify.Machine.Verifying

open Device Verification
open Verity (Writer)

variable {P W : Type}

/-- What a turn comes to in a host, it can come to. -/
theorem Reaches.comes {start : Verifying P} {host : Host (interface P) W}
    {t t' : Turn P (Result P)} {w w' : W} (hcomes : Comes turn host t w t' w') :
    Reaches start t → Reaches start t' := by
  induction hcomes with
  | here t w => exact id
  | again _ ih => exact fun h => ih h.again
  | call _ ih => exact fun h => ih (h.call _)
  | submit _ ih => exact fun h => ih (h.submit _)
  | complete _ ih => exact fun h => ih (h.complete _)

/-- The machine can come to where a run has come to. -/
def Accounts (start : Verifying P) :
    Ending (interface P) Unit (Except Error InstallPlan) → Prop
  | .finished outcome => ∃ v, Reaches start (.ret (v, .ready outcome))
  | .interrupted _ rest => ∃ v : Verifying P, Reaches start v.turn ∧ Enacts turn v.turn rest
  | .broken => Reaches start .broken

/-- By induction on the polls. -/
theorem accounts_polls (scale : Scale P) (dynamic : DynamicPartitions) (plan : Option InstallPlan)
    (writer : Writer) (host : Host (interface P) W) (w : W) (changes : List (W → W)) :
    (new scale dynamic plan writer).Accounts
      (host.polls (withWriter (whole scale dynamic plan) writer) w changes).2 := by
  induction changes using List.reverseRecOn with
  | nil => exact ⟨_, .start, enacts_whole scale dynamic plan writer⟩
  | append_singleton changes change ih =>
    rw [Host.polls_append_singleton]
    generalize host.polls _ w changes = state at ih
    obtain ⟨⟨w', record⟩, ending⟩ := state
    cases ending with
    | finished outcome => exact ih
    | broken => exact ih
    | interrupted why rest =>
      obtain ⟨v, hreaches, henacts⟩ := ih
      have hpoll := henacts.poll host.recorded (change w', record)
      show Accounts _ (rest.poll host.recorded (change w', record)).2
      generalize rest.poll host.recorded (change w', record) = polled at hpoll
      obtain ⟨w'', ending⟩ := polled
      cases ending with
      | finished outcome =>
        obtain ⟨v', hcomes⟩ := hpoll
        exact ⟨v', hreaches.comes hcomes⟩
      | interrupted why rest' =>
        obtain ⟨v', hcomes, henacts'⟩ := hpoll
        exact ⟨v', (hreaches.comes hcomes).pending, henacts'⟩
      | broken => exact hreaches.comes hpoll

/-- Whatever the plan, the devices, their faults and the controller, and whenever it is polled, the
    machine goes where the verification goes, and never goes astray; in every state it has what the
    state needs. -/
theorem never_astray (scale : Scale P) (dynamic : DynamicPartitions) (plan : Option InstallPlan)
    (writer : Writer) :
    (∀ (W : Type) (host : Host (interface P) W) (w : W) (changes : List (W → W)),
      (new scale dynamic plan writer).Accounts
        (host.polls (withWriter (whole scale dynamic plan) writer) w changes).2) ∧
    ∀ t, (new scale dynamic plan writer).Reaches t →
      (∀ b, t ≠ .astray b) ∧
      ∀ v, t = .ret (v, .again) ∨ t = .ret (v, .pending) → v.Sound plan := by
  refine ⟨fun W host => accounts_polls scale dynamic plan writer host, fun t hreaches => ?_⟩
  have hends := hreaches.ends (sound_new scale dynamic plan writer) fun v hv => hv.turn
  constructor
  · rintro b rfl
    exact hends
  · rintro v (rfl | rfl)
    · exact hends
    · exact hends

end SlotVerify.Machine.Verifying
