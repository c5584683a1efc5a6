import HeaderRelay.Clock.Run
import HeaderRelay.Proofs.Conduct

/-!
# Runs with faults

`Peer.Conduct.Governs C H R` says that a handler, in worlds that `R` relates to states of the peers, answers
as the conduct `C` allows or fails: with an error, or by being cut off, before the call has reached its peer
or after. Such a handler may delay, refuse or lose what it likes.

A program run in time against it is one of its runs against `C` on a bad connection, whatever the policy
(`Governs.runs`): a read that is tried again has changed nothing before, and a submission is made once. So
what `Program.Ensures` says of a bad connection holds of every timed run that ends.
-/
namespace HeaderRelay

open Peer (Call Conduct Handler)

variable {ε α σ : Type}

/-- The handler `H` keeps to the conduct `C` on a bad connection. -/
structure Peer.Conduct.Governs (C : Conduct ε) (H : Handler σ) (R : World σ → ε → Prop) : Prop where
  done : ∀ {w e mode c deadline r w'}, R w e → C.attends mode c → H c deadline w = (.done r, w') →
    ∃ e', (C.failing True).answers c e r e' ∧ R w' e'
  unanswered : ∀ {w e mode c deadline w'}, R w e → C.attends mode c → H c deadline w = (.unanswered, w') →
    ∃ e', (e' = e ∨ ∃ r, C.answers c e r e') ∧ R w' e'
  waits : ∀ {w e} now, R w e → R { w with now := now } e
  counts : ∀ {w e} retries, R w e → R { w with retries := retries } e
  notes : ∀ {w e} ev, R w e → R { w with log := ev :: w.log } (C.hears ev e)
  pausing : ∀ {e} op seconds, C.hears (Retry.pausing op seconds) e = e
  exhausted : ∀ {e} op attempts x, C.hears (Retry.exhausted op attempts x) e = e
  failed : ∀ {e} op attempt delay x, C.hears (Retry.failed op attempt delay x) e = e

namespace Peer.Conduct.Governs

variable {C : Conduct ε} {H : Handler σ} {R : World σ → ε → Prop} {w w' : World σ} {e : ε} {mode : Mode}
  {c : Call}
  {r : Relayed c.Answer}

theorem within {limit : Nat} (hC : C.Governs H R) (hw : R w e) (hc : C.attends mode c)
    (h : Timed.within limit (H c) none w = (.done r, w')) :
    ∃ e', (C.failing True).answers c e r e' ∧ R w' e' := by
  simp only [Timed.within, Option.any_none, Bool.false_eq_true, if_false] at h
  split at h
  · rename_i w₁ hcall
    cases h
    obtain ⟨e', he, hw'⟩ := hC.unanswered hw hc hcall
    exact ⟨e', .inr ⟨trivial, ⟨_, rfl⟩, he⟩, hC.waits _ hw'⟩
  · exact hC.done hw hc h

theorem loop {op : String} {limit maxAttempts : Nat} {delay : Nat → Nat} {fuel failures : Nat}
    (hC : C.Governs H R) (hw : R w e) (hc : C.attends (.read op) c)
    (h : Retry.loop op maxAttempts delay (Timed.within limit (H c)) fuel failures none w = (.done r, w')) :
    ∃ e', (C.failing True).answers c e r e' ∧ R w' e' := by
  induction fuel generalizing failures w with
  | zero => cases h
  | succ fuel ih =>
    simp only [Retry.loop, bind, Timed.andThen] at h
    split at h
    · rename_i r₁ w₁ hcall
      obtain ⟨e₁, hans, hw₁⟩ := hC.within hw hc hcall
      -- a read changes nothing, so the next attempt finds the peers as this one did
      obtain rfl : e₁ = e := (C.failing True).reads hc hans
      split at h
      · cases h
        exact ⟨_, hans, hw₁⟩
      · rename_i seconds
        have hnoted := hC.notes (Retry.pausing op seconds) hw₁
        rw [hC.pausing] at hnoted
        exact ih (hC.waits _ (hC.counts _ hnoted)) h
      · rename_i x _
        split at h
        · split at h
          · cases h
            have hnoted := hC.notes (Retry.exhausted op (failures + 1) x) hw₁
            rw [hC.exhausted] at hnoted
            exact ⟨_, hans, hnoted⟩
          · have hnoted := hC.notes (Retry.failed op (failures + 1) (delay (failures + 1)) x) hw₁
            rw [hC.failed] at hnoted
            exact ih (hC.waits _ (hC.counts _ hnoted)) h
        · cases h
          exact ⟨_, hans, hw₁⟩
    · cases h
    · cases h

theorem carry {followed : Nat} {policy : Policy} (hC : C.Governs H R) (hw : R w e) (hc : C.attends mode c)
    (h : mode.carry followed policy (H c) none w = (.done r, w')) :
    ∃ e', (C.failing True).answers c e r e' ∧ R w' e' := by
  cases mode with
  | read op => exact hC.loop hw hc h
  | submit => exact hC.within hw hc h
  | direct => exact hC.done hw hc h

/-- **Timed runs.** What a program does in time, it does against the conduct on a bad connection. -/
theorem runs {followed : Nat} {policy : Policy} {p : Program α} {Q : α → ε → Prop} {a : α}
    (hC : C.Governs H R)
    (hp : p.Ensures (C.failing True) e Q) (hw : R w e) (h : p.run followed policy H none w = (.done a, w')) :
    ∃ e', p.Runs (C.failing True) e a e' ∧ R w' e' := by
  induction p generalizing e w with
  | done a =>
    cases h
    exact ⟨e, .done a e, hw⟩
  | note ev next ih =>
    obtain ⟨e', hruns, hw'⟩ := ih hp (hC.notes ev hw) h
    exact ⟨e', .note hruns, hw'⟩
  | ask mode c next ih =>
    simp only [Program.run, bind, Timed.andThen] at h
    split at h
    · rename_i r w₁ hcall
      obtain ⟨e₁, hans, hw₁⟩ := hC.carry hw hp.1 hcall
      obtain ⟨e', hruns, hw'⟩ := ih r (hp.2 r e₁ hans) hw₁ h
      exact ⟨e', .ask hans hruns, hw'⟩
    · cases h
    · cases h

end Peer.Conduct.Governs

/-! ## Lost answers -/

/-- The handler does what it is asked to, but the answers of some calls do not arrive. -/
def Peer.Handler.losing (lost : Call → Bool) (x : RelayError) (H : Handler σ) : Handler σ := fun c => do
  let r ← H c
  if lost c then return .error x
  return r

theorem Peer.Conduct.Governs.losing {C : Conduct ε} {H : Handler σ} {R : World σ → ε → Prop}
    (hC : C.Governs H R) (lost : Call → Bool) (x : RelayError) : C.Governs (H.losing lost x) R := by
  refine { hC with done := ?_, unanswered := ?_ }
  · intro w e mode c deadline r w' hw hc h
    simp only [Handler.losing, bind, Timed.andThen] at h
    split at h
    · rename_i r₁ w₁ hcall
      obtain ⟨e', hans, hw'⟩ := hC.done hw hc hcall
      split at h
      · cases h
        refine ⟨e', .inr ⟨trivial, ⟨x, rfl⟩, ?_⟩, hw'⟩
        rcases hans with hans | ⟨-, -, h⟩
        · exact .inr ⟨_, hans⟩
        · exact h
      · cases h
        exact ⟨e', hans, hw'⟩
    · cases h
    · cases h
  · intro w e mode c deadline w' hw hc h
    simp only [Handler.losing, bind, Timed.andThen] at h
    split at h
    · split at h <;> cases h
    · rename_i w₁ hcall
      cases h
      exact hC.unanswered hw hc hcall
    · cases h

end HeaderRelay
