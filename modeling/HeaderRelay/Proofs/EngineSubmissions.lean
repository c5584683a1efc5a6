import HeaderRelay.Proofs.BitcoinSubmissions
import HeaderRelay.Proofs.ChannelExecutions
import HeaderRelay.Proofs.ConsensusSubmissions
import HeaderRelay.Proofs.HonestPeers

/-!
# The engines submit once

Whatever the peers do and under every policy, a cycle of any of the three engines submits each batch or light block of
its plan at most once, by at most one execution if the contract is behind the channel, and the first submission that
fails is its last call (`submissions_once`).
-/
namespace HeaderRelay.Sync

open Consensus (Header)
open Peer (Call Exchange Handler)

/-- **Submissions** are made at most once, and end the cycle when they fail; a contract behind the channel sends at
most one execution for each, and none for a read. -/
theorem submissions_once :
    (∀ config, (Bitcoin.view config).SubmitsOnce (Bitcoin.plan config)) ∧
      Sequential.view.SubmitsOnce Sequential.plan ∧
      (∀ batchSize, (Batched.view batchSize).SubmitsOnce (Batched.plan batchSize)) ∧
      ∀ {ρ : Type} {H₀ : Handler ρ} {H : Handler (ρ × List (Exchange ρ))}, Channel.Adapts H₀ H → H.SendsOnce :=
  ⟨fun _ => Cycle.View.submitsOnce fun _ => Bitcoin.next_view,
    Cycle.View.submitsOnce fun _ => Sequential.next_view,
    fun _ => Cycle.View.submitsOnce fun _ => Batched.next_view, fun h => h.sendsOnce⟩

/-! ## An append that is not made again -/

/-- A relay store behind a channel that answers its next execution by a request for a pause. -/
def limitedPeers : Sim.Network :=
  { grow plainChain 7 plainPeers with
    messages := ((Sim.Messages.new.answerQueries "best_hash" (.answer (.obj
      [("height", .nat 1), ("hash", .str (plainChain 1).hash.hex)]))).queueOutcomes [.error (.rateLimited 5)]) }

/-- The peers of the batched engine, with the exchanges over the channel on record. -/
def limitedStore : Handler (Sim.Network × List (Exchange Sim.Network)) :=
  Channel.viaRelayStore 1 ⟨"contract", "relayer", ⟨256, 16, 10, 1, 1⟩⟩ Sim.Network.handler.recorded

def failure? {α σ ω : Type} : Outcome (Relayed α × σ) × ω → Option (RelayError × σ × ω)
  | (.done (.error x, s), w) => some (x, s, w)
  | _ => none

theorem failure?_eq_some {α σ ω : Type} {p : Outcome (Relayed α × σ) × ω} {x : RelayError} {s : σ} {w : ω}
    (h : failure? p = some (x, s, w)) : p = (.done (.error x, s), w) :=
  match p, h with
  | (.done (.error _, _), _), rfl => rfl

/-- The append of height 6 is answered by a request for a pause. It was executed once, and the cycle ends with that
answer and the header in its queue. -/
theorem limited_append_ends_cycle :
    ∃ moves s w, ((Batched.runCycle 1).start (State.fresh 5)).run 1 ⟨10, 1, 1⟩ limitedStore.recorded none
        (World.start ((limitedPeers, []), [])) = (.done (.error (.rateLimited 5), s), w) ∧
      s.pending = [plainChain 6] ∧ executions w.bare.record = 1 ∧
      (∃ c, submissionsOf (w.record.map Exchange.call).reverse = [c] ∧ (Batched.plan 1).Follows moves [c]) ∧
      limitedStore.SendsOnce := by
  have hleft : (failure? (((Batched.runCycle 1).start (State.fresh 5)).run 1 ⟨10, 1, 1⟩ limitedStore.recorded none
      (World.start ((limitedPeers, []), [])))).map (fun q => (q.1, q.2.1.pending, executions q.2.2.bare.record,
        (submissionsOf (q.2.2.record.map Exchange.call).reverse).length)) =
      some (.rateLimited 5, [plainChain 6], 1, 1) := by decide +kernel
  obtain ⟨⟨x, s, w⟩, hrun, hq⟩ := Option.map_eq_some_iff.mp hleft
  obtain ⟨rfl, hq⟩ := Prod.mk.inj hq
  obtain ⟨hpending, hq⟩ := Prod.mk.inj hq
  obtain ⟨hexecutions, hsubmissions⟩ := Prod.mk.inj hq
  have hend := failure?_eq_some hrun
  obtain ⟨moves, -, hfollows, -⟩ := submissions_once.2.2.1 1 _ limitedStore 1 ⟨10, 1, 1⟩ (State.fresh 5) _ w _ rfl hend
  obtain ⟨c, hc⟩ := List.length_eq_one_iff.mp hsubmissions
  rw [hc] at hfollows
  have hadapts : Channel.Adapts Sim.Network.handler limitedStore := .relayStore 1 _ .channel
  exact ⟨moves, s, w, hend, hpending, hexecutions, ⟨c, hc, hfollows⟩, submissions_once.2.2.2 hadapts⟩

end HeaderRelay.Sync
