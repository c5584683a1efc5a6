import HeaderRelay.Proofs.Conduct
import HeaderRelay.Proofs.Exchanges

/-!
# Calls with a deadline

Reads and submissions have a deadline for every call that they make, direct calls have none. So a program that
is run against peers that answer at once or late, fail or never answer, and that ask for no pauses, comes to its
end unless a direct call is never answered (`Program.run_recorded`). Which direct calls a program makes is said by
`Program.Ensures` against peers that may answer anything (`Conduct.anyone`).
-/
namespace HeaderRelay

open Peer (Call Conduct Handler Exchange)

variable {σ α : Type}

/-- Peers without a state that attend to the calls of `asks` and answer as `gives` allows. -/
def Peer.Conduct.stateless (asks : Mode → Call → Prop) (gives : (c : Call) → Relayed c.Answer → Prop) :
    Conduct Unit where
  attends := asks
  answers c _ r _ := gives c r
  hears _ e := e
  reads _ _ := rfl

abbrev Peer.Conduct.anyone (asks : Mode → Call → Prop) : Conduct Unit := .stateless asks fun _ _ => True

def Outcome.isUnanswered : Outcome α → Bool
  | .unanswered => true
  | _ => false

namespace Peer.Exchange

/-- The call had a deadline of its own. -/
def Bounded (limit : Nat) (e : Exchange σ) : Prop := e.deadline = some (e.sent + limit)

/-- The call had no deadline and was never answered. -/
def Stuck (e : Exchange σ) : Prop := e.deadline = none ∧ e.outcome = .unanswered

theorem Bounded.not_stuck {limit : Nat} {e : Exchange σ} (h : e.Bounded limit) : ¬ e.Stuck := by
  intro hstuck
  cases h.symm.trans hstuck.1

end Peer.Exchange

section Calls

variable {H : Handler σ} {c : Call} {w w' : World (σ × List (Exchange σ))} {o : Outcome (Relayed c.Answer)}
  {followed : Nat} {policy : Policy} {mode : Mode}

theorem Timed.within_recorded {limit : Nat} (hH : H.Punctual)
    (h : Timed.within limit (H.recorded c) none w = (o, w')) :
    (∃ r, o = .done r) ∧ ∃ e, w'.record = e :: w.record ∧ e.Bounded limit := by
  have hanswered := Timed.within_none_ne_unanswered h
  have hfollowed := ((hH.recorded c).within limit).followed h
  obtain ⟨d, o₁, after, hd, -, rfl, -⟩ := Peer.Handler.within_recorded_cases hH h
  obtain ⟨rfl, -⟩ | ⟨hd, -⟩ := hd
  · refine ⟨?_, _, rfl, rfl⟩
    cases o with
    | done r => exact ⟨r, rfl⟩
    | unanswered => exact absurd rfl hanswered
    | unfollowed => exact absurd rfl hfollowed
  · cases hd

theorem Retry.Runs.bounded {op : String} {limit attempts fuel failures : Nat} {delay : Nat → Nat}
    {deadline : Option Nat} (hH : H.Punctual)
    (h : Retry.Runs op attempts delay (Timed.within limit (H.recorded c)) deadline fuel failures w o w')
    (hnone : deadline = none) : ∃ new, w'.record = new ++ w.record ∧ ∀ e ∈ new, e.Bounded limit := by
  subst hnone
  induction h with
  | final hcall | unanswered hcall | lost hcall =>
    obtain ⟨-, e, hrecord, he⟩ := Timed.within_recorded hH hcall
    exact ⟨[e], hrecord, by simpa using he⟩
  | exhausted hcall =>
    obtain ⟨-, e, hrecord, he⟩ := Timed.within_recorded hH hcall
    exact ⟨[e], hrecord, by simpa using he⟩
  | again hcall _ _ _ ih =>
    obtain ⟨-, e, hrecord, he⟩ := Timed.within_recorded hH hcall
    obtain ⟨new, hnew, hbounded⟩ := ih
    rw [World.record_paused, hrecord] at hnew
    exact ⟨new ++ [e], by simp [hnew], by simpa [or_imp, forall_and] using ⟨hbounded, he⟩⟩
  | cut _ _ hd _ => cases hd
  | unfollowed => exact ⟨[], rfl, by simp⟩

/-- What a call comes to: it is answered and everything that was sent had a deadline, or it was made directly. -/
theorem Mode.carry_recorded (hH : H.Punctual) (hlimit : H.Unlimited) (hfollowed : policy.attempts ≤ followed)
    (h : mode.carry followed policy (H.recorded c) none w = (o, w')) :
    (∃ r new, o = .done r ∧ w'.record = new ++ w.record ∧ ∀ e ∈ new, e.Bounded policy.timeout) ∨
    ∃ e, mode = .direct ∧ w'.record = e :: w.record ∧ e.call = c ∧ e.deadline = none ∧
      (o = .unanswered ∧ e.Stuck ∨ (∃ r, o = .done r) ∧ ¬ e.Stuck) := by
  cases mode with
  | read op =>
    have hruns := Policy.read_runs h
    obtain ⟨new, hnew, hbounded⟩ := hruns.bounded hH rfl
    obtain ⟨r, rfl⟩ := Policy.runs_done ((hH.recorded c).within policy.timeout).followed (hlimit.recorded c) hfollowed
      hruns
    exact .inl ⟨r, new, rfl, hnew, hbounded⟩
  | submit =>
    obtain ⟨⟨r, rfl⟩, e, hrecord, he⟩ := Timed.within_recorded hH h
    exact .inl ⟨r, [e], rfl, hrecord, by simpa using he⟩
  | direct =>
    obtain ⟨after, hcall, rfl⟩ := Peer.Handler.recorded_cases h
    refine .inr ⟨_, rfl, rfl, rfl, rfl, ?_⟩
    cases o with
    | done r => exact .inr ⟨⟨r, rfl⟩, by simp [Peer.Exchange.Stuck]⟩
    | unanswered => exact .inl ⟨rfl, rfl, rfl⟩
    | unfollowed => exact absurd rfl ((hH c).followed hcall)

end Calls

/-- **Runs.** A program ends as it is sure to end, unless a direct call is never answered; all its other calls have
deadlines of their own. -/
theorem Program.run_recorded {H : Handler σ} {followed : Nat} {policy : Policy} {asks : Mode → Call → Prop}
    {gives : (c : Call) → Relayed c.Answer → Prop} {p : Program α} {Q : α → Unit → Prop}
    {w w' : World (σ × List (Exchange σ))} {o : Outcome α} (hH : H.Punctual) (hlimit : H.Unlimited)
    (hfollowed : policy.attempts ≤ followed)
    (hgives : ∀ {mode c w r w'}, asks mode c → mode.carry followed policy (H.recorded c) none w = (.done r, w') →
      gives c r)
    (hp : p.Ensures (.stateless asks gives) () Q) (h : p.run followed policy H.recorded none w = (o, w')) :
    ∃ new, w'.record = new ++ w.record ∧
      (∀ e ∈ new, e.Bounded policy.timeout ∨ e.deadline = none ∧ asks .direct e.call) ∧
      ((∃ a, o = .done a ∧ Q a ()) ∧ (∀ e ∈ new, ¬ e.Stuck) ∨ o = .unanswered ∧ ∃ e ∈ new, e.Stuck) := by
  induction p generalizing w with
  | done a =>
    cases h
    exact ⟨[], rfl, by simp, .inl ⟨⟨a, rfl, hp⟩, by simp⟩⟩
  | note ev next ih => exact ih hp (w := { w with log := ev :: w.log }) h
  | ask mode c next ih =>
    obtain ⟨hasks, hnext⟩ := hp
    cases hcarry : mode.carry followed policy (H.recorded c) none w with
    | mk o₁ w₁ =>
      simp only [run, bind, Timed.andThen, hcarry] at h
      -- after an answer, the program goes on
      have hgoes : ∀ r new₁, o₁ = .done r → w₁.record = new₁ ++ w.record →
          (∀ e ∈ new₁, (e.Bounded policy.timeout ∨ e.deadline = none ∧ asks .direct e.call) ∧ ¬ e.Stuck) →
          ∃ new, w'.record = new ++ w.record ∧
            (∀ e ∈ new, e.Bounded policy.timeout ∨ e.deadline = none ∧ asks .direct e.call) ∧
            ((∃ a, o = .done a ∧ Q a ()) ∧ (∀ e ∈ new, ¬ e.Stuck) ∨ o = .unanswered ∧ ∃ e ∈ new, e.Stuck) := by
        intro r new₁ ho hnew₁ hfirst
        subst ho
        obtain ⟨new, hnew, hbounded, hend⟩ := ih r (hnext r () (hgives hasks hcarry)) h
        refine ⟨new ++ new₁, by rw [hnew, hnew₁, List.append_assoc], ?_, ?_⟩
        · simp only [List.mem_append, or_imp, forall_and]
          exact ⟨hbounded, fun e he => (hfirst e he).1⟩
        · obtain ⟨ha, hfree⟩ | ⟨ho, e, he, hstuck⟩ := hend
          · refine .inl ⟨ha, ?_⟩
            simp only [List.mem_append, or_imp, forall_and]
            exact ⟨hfree, fun e he => (hfirst e he).2⟩
          · exact .inr ⟨ho, e, List.mem_append_left _ he, hstuck⟩
      obtain ⟨r, new₁, ho, hnew₁, hbounded₁⟩ | ⟨e, rfl, hnew₁, rfl, hdirect, ⟨rfl, hstuck⟩ | ⟨⟨r, ho⟩, hfree⟩⟩ :=
        Mode.carry_recorded hH hlimit hfollowed hcarry
      · exact hgoes r new₁ ho hnew₁ fun e he => ⟨.inl (hbounded₁ e he), (hbounded₁ e he).not_stuck⟩
      · cases h
        exact ⟨[e], hnew₁, by simpa using .inr ⟨hdirect, hasks⟩, .inr ⟨rfl, e, by simp, hstuck⟩⟩
      · exact hgoes r [e] ho hnew₁ (by simpa using ⟨.inr ⟨hdirect, hasks⟩, hfree⟩)

/-! ## Scripted peers -/

/-- Peers that give one answer to each call, at once, or none at all. -/
def Peer.Handler.scripted (script : (c : Call) → Option (Relayed c.Answer)) : Handler Unit := fun c =>
  match script c with
  | some r => pure r
  | none => Timed.forever

section Scripted

variable {script : (c : Call) → Option (Relayed c.Answer)}

theorem Peer.Handler.scripted_of_some {c : Call} {r : Relayed c.Answer} (h : script c = some r) :
    scripted script c = pure r := by
  simp [scripted, h]

theorem Peer.Handler.punctual_scripted : (scripted script).Punctual := by
  intro c
  unfold scripted
  split
  · exact .of_now fun _ w => ⟨_, w, rfl, rfl⟩
  · exact Timed.punctual_forever

theorem Peer.Handler.scripted_done {c : Call} {deadline : Option Nat} {w w' : World Unit} {r : Relayed c.Answer}
    (h : scripted script c deadline w = (.done r, w')) : script c = some r := by
  cases hr : script c with
  | none =>
    simp only [scripted, hr] at h
    cases deadline <;> cases h
  | some r₁ =>
    rw [scripted_of_some hr] at h
    cases h
    rfl

theorem Peer.Handler.unlimited_scripted (hfinal : ∀ {c r}, script c = some r → r.Final) :
    (scripted script).Unlimited := by
  intro c deadline w seconds w' h
  exact absurd (hfinal (scripted_done h) _ rfl) (by simp [RelayError.isTransient, RelayError.kind])

/-- Scripted peers whose answers are final answer by the script, unless they are asked for what they never tell with
a deadline. -/
theorem Peer.Handler.carry_scripted {followed : Nat} {policy : Policy} {mode : Mode} {c : Call}
    {w w' : World (Unit × List (Exchange Unit))} {r : Relayed c.Answer}
    (hfinal : ∀ {c r}, script c = some r → r.Final) (hasks : script c = none → mode = .direct)
    (h : mode.carry followed policy ((scripted script).recorded c) none w = (.done r, w')) : script c = some r := by
  cases hr : script c with
  | none =>
    obtain rfl := hasks hr
    simp only [Mode.carry, recorded, scripted, hr] at h
    cases h
  | some r₁ =>
    have hcall : ∀ deadline, ∃ w₁, (scripted script).recorded c deadline w = (.done r₁, w₁) := by
      intro deadline
      unfold recorded
      rw [scripted_of_some hr]
      exact ⟨_, rfl⟩
    obtain ⟨w₁, hw₁⟩ := hcall (some (w.now + policy.timeout))
    have hwithin : Timed.within policy.timeout ((scripted script).recorded c) none w = (.done r₁, w₁) := by
      simp only [Timed.within, Option.any_none, Bool.false_eq_true, if_false, hw₁]
    cases mode with
    | read op =>
      cases followed with
      | zero => cases h
      | succ followed =>
        cases ((Policy.read_runs h).of_final hwithin (hfinal hr)).1
        rfl
    | submit =>
      cases hwithin.symm.trans h
      rfl
    | direct =>
      obtain ⟨w₂, hw₂⟩ := hcall none
      cases hw₂.symm.trans h
      rfl

end Scripted

end HeaderRelay
