import HeaderRelay.Proofs.Deadlines
import HeaderRelay.Sim.Network

/-!
# Exchanges on record

A handler on record (`Handler.recorded`) does what the handler does and keeps every call that was made to it
with the worlds before and after it, the deadline under which it ran and what became of it: an `Exchange`. So
what is said of the calls of a computation, how many there were, when they were made and under which
deadlines, is said of the record that the computation leaves, latest first.

`Timed.Leaves` says which exchanges a computation leaves on record; what is so of an attempt and of exchanges that
follow one another is so of a call, however it is made (`Mode.leaves`).

Peers are `Punctual` if they answer each call at once or late, fail, or never answer. The simulated network
is, whatever faults wait for its calls.
-/
namespace HeaderRelay

open Peer (Call Handler)

variable {σ α β : Type}

/-- Peers that answer each call at once or late, fail, or never answer. -/
def Peer.Handler.Punctual (H : Handler σ) : Prop := ∀ c, (H c).Punctual

/-- Peers that never ask for a pause. -/
def Peer.Handler.Unlimited (H : Handler σ) : Prop := ∀ c, (H c).Unlimited

/-! ## The record -/

/-- A call as it was made, and what became of it. -/
structure Peer.Exchange (σ : Type) where
  call : Call
  deadline : Option Nat
  before : World σ
  outcome : Outcome (Relayed call.Answer)
  after : World σ

namespace Peer.Exchange

def sent (e : Exchange σ) : Nat := e.before.now

def ended (e : Exchange σ) : Nat := e.after.now

/-- The pause in seconds for which the peer asked, if it did. -/
def limit? (e : Exchange σ) : Option Nat :=
  match e.outcome with
  | .done (.error (.rateLimited seconds)) => some seconds
  | _ => none

theorem limit?_eq_some {e : Exchange σ} {seconds : Nat} :
    e.limit? = some seconds ↔ e.outcome = .done (.error (.rateLimited seconds)) := by
  unfold limit?
  split
  · rename_i n heq
    rw [heq]
    simp
  · rename_i hne
    constructor
    · intro h
      cases h
    · intro h
      exact absurd h (hne seconds)

end Peer.Exchange

open Peer (Exchange)

namespace World

def bare (w : World (σ × List (Exchange σ))) : World σ := ⟨w.now, w.log, w.retries, w.peers.1⟩

def withRecord (w : World σ) (record : List (Exchange σ)) : World (σ × List (Exchange σ)) :=
  ⟨w.now, w.log, w.retries, (w.peers, record)⟩

def record (w : World (σ × List (Exchange σ))) : List (Exchange σ) := w.peers.2

variable {w : World σ} {v : World (σ × List (Exchange σ))} {l : List (Exchange σ)}

@[simp] theorem now_bare : v.bare.now = v.now := rfl

@[simp] theorem log_bare : v.bare.log = v.log := rfl

@[simp] theorem now_withRecord : (w.withRecord l).now = w.now := rfl

@[simp] theorem log_withRecord : (w.withRecord l).log = w.log := rfl

@[simp] theorem record_withRecord : (w.withRecord l).record = l := rfl

@[simp] theorem bare_withRecord : (w.withRecord l).bare = w := rfl

@[simp] theorem record_paused {ev : Log.Event} {now : Nat} : (v.paused ev now).record = v.record := rfl

@[simp] theorem bare_paused {ev : Log.Event} {now : Nat} : (v.paused ev now).bare = v.bare.paused ev now := rfl

end World

def Peer.Handler.recorded (H : Handler σ) : Handler (σ × List (Exchange σ)) := fun c deadline w =>
  match H c deadline w.bare with
  | (o, after) => (o, after.withRecord (⟨c, deadline, w.bare, o, after⟩ :: w.record))

namespace Peer.Handler

variable {H : Handler σ} {c : Call} {deadline : Option Nat} {w w' : World (σ × List (Exchange σ))}
  {o : Outcome (Relayed c.Answer)}

theorem recorded_cases (h : H.recorded c deadline w = (o, w')) :
    ∃ after, H c deadline w.bare = (o, after) ∧
      w' = after.withRecord (⟨c, deadline, w.bare, o, after⟩ :: w.record) := by
  unfold recorded at h
  cases hH : H c deadline w.bare with
  | mk o' after =>
    rw [hH] at h
    cases h
    exact ⟨after, rfl, rfl⟩

theorem Unlimited.recorded (hH : H.Unlimited) : H.recorded.Unlimited := by
  intro c deadline w seconds w' h
  obtain ⟨after, hH', -⟩ := recorded_cases h
  exact hH c _ _ _ _ hH'

theorem Punctual.recorded (hH : H.Punctual) : H.recorded.Punctual := by
  intro c
  refine ⟨?_, ?_, ?_, ?_⟩
  · intro deadline w o w' h hin
    obtain ⟨after, hH', rfl⟩ := recorded_cases h
    exact (hH c).onward hH' hin
  · intro deadline w o w' h hin
    obtain ⟨after, hH', rfl⟩ := recorded_cases h
    exact (hH c).inTime hH' hin
  · intro d w w' h hle
    obtain ⟨after, hH', rfl⟩ := recorded_cases h
    exact (hH c).cut hH' hle
  · intro deadline w o w' h
    obtain ⟨after, hH', -⟩ := recorded_cases h
    exact (hH c).followed hH'

/-- A call on record with a deadline of its own is one exchange, under that deadline or under an earlier one
from outside, and being cut off by its own is an error. -/
theorem within_recorded_cases (hH : H.Punctual) {limit : Nat}
    (h : Timed.within limit (H.recorded c) deadline w = (o, w')) :
    ∃ d o₁ after, (d = w.now + limit ∧ InTime deadline d ∨ deadline = some d ∧ d < w.now + limit) ∧
      H c (some d) w.bare = (o₁, after) ∧
      w' = after.withRecord (⟨c, some d, w.bare, o₁, after⟩ :: w.record) ∧
      (o = o₁ ∨ o₁ = .unanswered ∧ o = .done (.error (.timeout limit))) := by
  obtain ⟨d, hd, hlt, hcall⟩ | ⟨hown, ⟨hcall, -⟩ | ⟨w₁, hcall, rfl, rfl⟩⟩ := Timed.within_cases h
  · obtain ⟨after, hH', rfl⟩ := recorded_cases hcall
    exact ⟨d, o, after, .inr ⟨hd, hlt⟩, hH', rfl, .inl rfl⟩
  · obtain ⟨after, hH', rfl⟩ := recorded_cases hcall
    exact ⟨_, o, after, .inl ⟨rfl, hown⟩, hH', rfl, .inl rfl⟩
  · obtain ⟨after, hH', rfl⟩ := recorded_cases hcall
    -- who is cut off stands at the deadline
    have hnow : after.now = w.now + limit := (hH c).cut hH' (Nat.le_add_right _ _)
    refine ⟨_, .unanswered, after, .inl ⟨rfl, hown⟩, hH', ?_, .inr ⟨rfl, rfl⟩⟩
    rw [← hnow]
    rfl

end Peer.Handler

theorem Policy.followed_recorded {H : Handler σ} {policy : Policy} {followed : Nat} {op : String} {c : Call}
    {deadline : Option Nat} {w w' : World (σ × List (Exchange σ))} {o : Outcome (Relayed c.Answer)}
    (hH : H.Punctual) (hlimit : H.Unlimited) (hfollowed : policy.attempts ≤ followed)
    (h : Retry.Runs op policy.attempts (pauseAfter policy.backoff) (Timed.within policy.timeout (H.recorded c))
      deadline followed 0 w o w') : o ≠ .unfollowed :=
  h.followed ((hH.recorded c).within policy.timeout).followed ((hlimit.recorded c).within policy.timeout)
    (by omega) policy.attempts_pos

/-! ## What is left on record -/

/-- The exchanges that the computation leaves on record, latest first, are as `P` says. -/
def Timed.Leaves (P : List (Exchange σ) → Prop) (x : Timed (σ × List (Exchange σ)) α) : Prop :=
  ∀ deadline w o w', x deadline w = (o, w') → ∃ sent, w'.record = sent ++ w.record ∧ P sent

section Leaving

variable {P Q R : List (Exchange σ) → Prop}

theorem Timed.Leaves.bind {x : Timed (σ × List (Exchange σ)) α} {f : α → Timed (σ × List (Exchange σ)) β}
    (hx : x.Leaves P) (hf : ∀ a, (f a).Leaves Q) (hstops : ∀ first, P first → R first)
    (hgoes : ∀ first later, P first → Q later → R (later ++ first)) : (x >>= f).Leaves R := by
  intro deadline w o w' h
  simp only [Bind.bind, andThen] at h
  split at h
  · rename_i a w₁ hxa
    obtain ⟨first, hfirst, hP⟩ := hx _ _ _ _ hxa
    obtain ⟨later, hlater, hQ⟩ := hf a _ _ _ _ h
    exact ⟨later ++ first, by rw [hlater, hfirst, List.append_assoc], hgoes first later hP hQ⟩
  all_goals
    rename_i w₁ hxa
    cases h
    obtain ⟨first, hfirst, hP⟩ := hx _ _ _ _ hxa
    exact ⟨first, hfirst, hstops first hP⟩

theorem Timed.Leaves.within {x : Timed (σ × List (Exchange σ)) (Relayed α)} (hx : x.Leaves P) (limit : Nat) :
    (Timed.within limit x).Leaves P := by
  intro deadline w o w' h
  obtain ⟨d, -, -, hxd⟩ | ⟨-, ⟨hxd, -⟩ | ⟨w₁, hxd, -, rfl⟩⟩ := within_cases h
  · exact hx _ _ _ _ hxd
  · exact hx _ _ _ _ hxd
  · obtain ⟨sent, hsent, hP⟩ := hx _ _ _ _ hxd
    exact ⟨sent, hsent, hP⟩

/-- What an attempt leaves, attempts that follow one another leave. -/
theorem Retry.Runs.leaves {op : String} {limit fuel failures : Nat} {delay : Nat → Nat}
    {call : Timed (σ × List (Exchange σ)) (Relayed α)} {deadline : Option Nat}
    {w w' : World (σ × List (Exchange σ))} {o : Outcome (Relayed α)} (hcall : call.Leaves P) (hnone : P [])
    (happend : ∀ first later, P first → P later → P (later ++ first))
    (h : Retry.Runs op limit delay call deadline fuel failures w o w') :
    ∃ sent, w'.record = sent ++ w.record ∧ P sent := by
  induction h with
  | final h | exhausted h | cut h | unanswered h | lost h =>
    obtain ⟨sent, hsent, hP⟩ := hcall _ _ _ _ h
    exact ⟨sent, hsent, hP⟩
  | again h _ _ _ ih =>
    obtain ⟨first, hfirst, hP⟩ := hcall _ _ _ _ h
    obtain ⟨later, hlater, hP'⟩ := ih
    rw [World.record_paused, hfirst] at hlater
    exact ⟨later ++ first, by rw [hlater, List.append_assoc], happend first later hP hP'⟩
  | unfollowed => exact ⟨[], rfl, hnone⟩

/-- **Calls.** What an attempt leaves, a call leaves. -/
theorem Mode.leaves {mode : Mode} {followed : Nat} {policy : Policy}
    {call : Timed (σ × List (Exchange σ)) (Relayed α)} (hcall : call.Leaves P) (hnone : P [])
    (happend : ∀ first later, P first → P later → P (later ++ first)) :
    (mode.carry followed policy call).Leaves P := by
  cases mode with
  | read op =>
    intro deadline w o w' h
    exact (Policy.read_runs h).leaves (hcall.within policy.timeout) hnone happend
  | submit => exact hcall.within policy.timeout
  | direct => exact hcall

end Leaving

/-! ## The simulated network -/

namespace Sim

theorem Fault.punctual_apply {f : Fault α} {serve : Timed σ (Relayed α)} (h : serve.Punctual) :
    (f.apply serve).Punctual := by
  unfold Fault.apply
  split
  · exact Timed.punctual_forever
  · refine (Timed.punctual_sleep f.delay).bind fun _ => ?_
    split
    · exact .of_now fun _ w => ⟨_, w, rfl, rfl⟩
    · exact h

theorem Network.punctual_handler : Network.handler.Punctual := by
  intro c
  have hreply : (Network.reply c).Punctual := by
    refine Timed.Punctual.bind (.of_now fun _ w => ⟨_, _, rfl, rfl⟩) fun answer => ?_
    cases answer with
    | some r => exact .of_now fun _ w => ⟨_, w, rfl, rfl⟩
    | none => exact Timed.punctual_forever
  refine Timed.Punctual.bind (.of_now fun _ w => ⟨_, w, rfl, rfl⟩) fun now => ?_
  exact Timed.Punctual.bind (.of_now fun _ w => ⟨_, _, rfl, rfl⟩) fun fault => Fault.punctual_apply hreply

end Sim

end HeaderRelay
