import HeaderRelay.Channel.Routing
import HeaderRelay.Proofs.Exchanges

/-!
# Executions over the channel

A contract behind the channel sends at most one execution for a submission and none for a read, whatever its channel
does (`Channel.Adapts.sendsOnce`): its program makes at most one call that is not a query
(`Program.ExecutesAtMost`), and a run of such a program sends no more than it asks for (`Program.executes_run`).
-/
namespace HeaderRelay

open Peer (Call Handler Exchange)

variable {ρ α β : Type}

def Peer.Call.isExecution : Call → Bool
  | .messages (.execute ..) => true
  | _ => false

theorem Peer.Call.isSubmission_of_isExecution {c : Call} (h : c.isExecution = true) : c.isSubmission = true := by
  cases c with
  | messages m => cases m <;> first | rfl | cases h
  | _ => cases h

def executions (es : List (Exchange ρ)) : Nat := es.countP fun e => e.call.isExecution

@[simp] theorem executions_append (xs ys : List (Exchange ρ)) :
    executions (xs ++ ys) = executions xs + executions ys := List.countP_append

/-! ## Computations -/

namespace Timed

/-- Computations over peers on record that send at most `n` executions. -/
def Executes (n : Nat) (x : Timed (ρ × List (Exchange ρ)) α) : Prop :=
  ∀ deadline w o w', x deadline w = (o, w') → ∃ sent, w'.record = sent ++ w.record ∧ executions sent ≤ n

theorem Executes.bind {x : Timed (ρ × List (Exchange ρ)) α} {f : α → Timed (ρ × List (Exchange ρ)) β} {m n : Nat}
    (hx : x.Executes m) (hf : ∀ a, (f a).Executes n) : (x >>= f).Executes (m + n) := by
  refine Leaves.bind hx hf (fun first hm => Nat.le_trans hm (Nat.le_add_right m n)) fun first later hm hn => ?_
  rw [executions_append, Nat.add_comm]
  exact Nat.add_le_add hm hn

end Timed

/-- Peers on record whose calls send at most one execution, and none but for a submission. -/
def Peer.Handler.SendsOnce (H : Handler (ρ × List (Exchange ρ))) : Prop :=
  ∀ c, (H c).Executes c.isSubmission.toNat

theorem Peer.Handler.sendsOnce_recorded (H : Handler ρ) : H.recorded.SendsOnce := by
  intro c deadline w o w' h
  obtain ⟨after, -, rfl⟩ := recorded_cases h
  refine ⟨[_], rfl, ?_⟩
  cases hc : c.isExecution with
  | true =>
    rw [Call.isSubmission_of_isExecution hc]
    exact List.countP_le_length
  | false =>
    have hnone : executions [(⟨c, deadline, w.bare, o, after⟩ : Exchange ρ)] = 0 := by
      simp [executions, hc]
    omega

/-! ## Programs -/

namespace Program

/-- Programs that make at most `n` submissions, each once, and otherwise read. -/
def ExecutesAtMost : Program α → Nat → Prop
  | .done _, _ => True
  | .note _ next, n => next.ExecutesAtMost n
  | .ask mode c next, n =>
    if c.isSubmission then mode = .submit ∧ ∃ k, n = k + 1 ∧ ∀ r, (next r).ExecutesAtMost k
    else ∀ r, (next r).ExecutesAtMost n

/-- **Runs.** A program sends no more executions than it makes submissions. -/
theorem executes_run {p : Program α} {n followed : Nat} {policy : Policy} {H : Handler (ρ × List (Exchange ρ))}
    (hH : H.SendsOnce) (h : p.ExecutesAtMost n) : (p.run followed policy H).Executes n := by
  induction p generalizing n with
  | done a =>
    intro deadline w o w' hrun
    cases hrun
    exact ⟨[], rfl, Nat.zero_le n⟩
  | note ev next ih =>
    intro deadline w o w' hrun
    exact ih h deadline { w with log := ev :: w.log } o w' hrun
  | ask mode c next ih =>
    have hc := hH c
    unfold ExecutesAtMost at h
    split at h
    · rename_i hsub
      obtain ⟨rfl, k, rfl, hnext⟩ := h
      rw [hsub] at hc
      rw [Nat.add_comm]
      exact Timed.Executes.bind (Timed.Leaves.within hc policy.timeout) fun r => ih r (hnext r)
    · rename_i hsub
      rw [Bool.not_eq_true] at hsub
      rw [hsub] at hc
      have hcarry : (mode.carry followed policy (H c)).Executes 0 := by
        -- no number of attempts sends an execution if one attempt does not
        refine Mode.leaves hc (Nat.le_refl 0) fun first later hfirst hlater => ?_
        rw [executions_append]
        exact Nat.add_le_add hlater hfirst
      rw [← Nat.zero_add n]
      exact Timed.Executes.bind hcarry fun r => ih r (h r)

theorem ExecutesAtMost.andThen_done {p : Program α} {n : Nat} (h : p.ExecutesAtMost n) (f : α → β) :
    (p.andThen fun a => .done (f a)).ExecutesAtMost n := by
  induction p generalizing n with
  | done a => exact trivial
  | note ev next ih => exact ih h
  | ask mode c next ih =>
    unfold ExecutesAtMost at h
    show ite _ _ _
    split at h
    · rename_i hsub
      obtain ⟨hmode, k, hk, hnext⟩ := h
      rw [if_pos hsub]
      exact ⟨hmode, k, hk, fun r => ih r (hnext r)⟩
    · rename_i hsub
      rw [if_neg hsub]
      exact fun r => ih r (h r)

end Program

/-! ## Contracts behind the channel -/

namespace Channel

namespace Client

variable {client : Client} {msg : Json}

theorem executesAtMost_query {decode : Json → Option α} : (client.query msg decode).ExecutesAtMost 0 := by
  unfold query
  split
  · exact trivial
  · rintro (x | answer)
    · exact trivial
    · dsimp only
      cases decode answer <;> exact trivial

theorem executesAtMost_execute {gas : Option Nat} : (client.execute msg gas).ExecutesAtMost 1 := by
  unfold execute
  split
  · exact trivial
  · refine ⟨rfl, 0, rfl, ?_⟩
    rintro (x | response)
    · exact trivial
    · show Program.ExecutesAtMost (if _ then _ else _) 0
      split <;> exact trivial

end Client

theorem executesAtMost_bitcoinClient (client : Client) (c : Peer.BitcoinClient) :
    (bitcoinClient client c).ExecutesAtMost (Call.bitcoinClient c).isSubmission.toNat := by
  cases c with
  | submitHeaders tipHeight headers gas =>
    unfold bitcoinClient
    exact Client.executesAtMost_execute
  | lastSubmissionGas =>
    have hrecent : (client.recent submitHeadersAction).ExecutesAtMost 0 := fun _ => trivial
    exact hrecent.andThen_done _
  | _ => exact Client.executesAtMost_query.andThen_done _

theorem executesAtMost_consensusClient (client : Client) (c : Peer.ConsensusClient) :
    (consensusClient client c).ExecutesAtMost (Call.consensusClient c).isSubmission.toNat := by
  cases c with
  | submitLightBlocks prev blocks =>
    unfold consensusClient
    exact Client.executesAtMost_execute
  | verifyLightBlocks prev blocks =>
    unfold consensusClient
    exact Client.executesAtMost_query
  | verifyInclusion height leaf proof =>
    show Program.ExecutesAtMost (if _ then _ else _) 0
    split
    · exact trivial
    · exact Client.executesAtMost_query
  | _ => exact Client.executesAtMost_query.andThen_done _

theorem executesAtMost_relayStore (client : Client) (c : Peer.RelayStore) :
    (relayStore client c).ExecutesAtMost (Call.relayStore c).isSubmission.toNat := by
  cases c with
  | submitHashChain chain =>
    unfold relayStore
    exact Client.executesAtMost_execute
  | _ => exact Client.executesAtMost_query.andThen_done _

/-- Peers with contracts that are reached over the channel of `H₀`, whose exchanges are on record. -/
inductive Adapts (H₀ : Handler ρ) : Handler (ρ × List (Exchange ρ)) → Prop where
  | channel : Adapts H₀ H₀.recorded
  | bitcoinClient {H : Handler (ρ × List (Exchange ρ))} (followed : Nat) (client : Client) :
    Adapts H₀ H → Adapts H₀ (viaBitcoinClient followed client H)
  | consensusClient {H : Handler (ρ × List (Exchange ρ))} (followed : Nat) (client : Client) :
    Adapts H₀ H → Adapts H₀ (viaConsensusClient followed client H)
  | relayStore {H : Handler (ρ × List (Exchange ρ))} (followed : Nat) (client : Client) :
    Adapts H₀ H → Adapts H₀ (viaRelayStore followed client H)

/-- **Adapters.** A call to such peers sends at most one execution, and none but for a submission. -/
theorem Adapts.sendsOnce {H₀ : Handler ρ} {H : Handler (ρ × List (Exchange ρ))} (h : Adapts H₀ H) : H.SendsOnce := by
  induction h with
  | channel => exact Handler.sendsOnce_recorded H₀
  | bitcoinClient followed client _ ih =>
    intro c
    cases c with
    | bitcoinClient c => exact Program.executes_run ih (executesAtMost_bitcoinClient client c)
    | _ => exact ih _
  | consensusClient followed client _ ih =>
    intro c
    cases c with
    | consensusClient c => exact Program.executes_run ih (executesAtMost_consensusClient client c)
    | _ => exact ih _
  | relayStore followed client _ ih =>
    intro c
    cases c with
    | relayStore c => exact Program.executes_run ih (executesAtMost_relayStore client c)
    | _ => exact ih _

end Channel

end HeaderRelay
