import HeaderRelay.Proofs.BatchedCadence
import HeaderRelay.Proofs.SequentialSync

/-!
# The two consensus engines select the same headers

The engines keep the header selected last in different places: the sequential one in what its light client
trusts, the batched one at the end of its queue or, when nothing waits, in the relay's best entry. Run over
the same chain at the same network heights they examine the same heights (`examined`), each from the same
header on, so what the one has submitted is what the other has appended and queued (`engines_agree`).
-/
namespace HeaderRelay.Sync

open Consensus (Header)

variable {chain : Nat → Header} {low top m t followed : Nat} {tops : List Nat}

/-- Cycles of a fresh sequential engine submit what the rule selects from the heights examined. -/
theorem Sequential.exists_cyclesAt_fresh (hf : 0 < followed) (policy : Policy)
    (hheight : ∀ h, (chain h).height = h) (m : Nat)
    (hdistinct : ∀ a b, low ≤ a → a ≤ lastTop top tops → low ≤ b → b ≤ lastTop top tops →
      (chain a).hash = (chain b).hash → a = b)
    (htops : (top :: tops).Pairwise (· ≤ ·)) (hlow : low ≤ t) (htop : t ≤ top) {w : World Sim.Network}
    (hquiet : w.peers.Quiet) (hnode : Serves chain low top w.peers.consensusNode)
    (htrusted : w.peers.consensusClient.trusted = chain t) :
    ∃ s' w', cyclesAt followed policy runCycle chain tops (State.fresh m) w = some (s', w') ∧
      w'.peers.consensusClient.submissions =
        w.peers.consensusClient.submissions ++ (due chain m (examined t tops) t).map ([·]) := by
  have hw : HonestPeers chain low top w.peers ⟨w.peers.consensusClient, w.peers.relayStore, []⟩ :=
    ⟨⟨hnode, ⟨w.peers.consensusClient.verifications, rfl⟩, rfl⟩, hquiet⟩
  obtain ⟨s', w', hcycles, hw'⟩ := exists_cyclesAt hf policy hheight hdistinct htops hlow (by omega)
    (Remembers.fresh chain m) htrusted hw
  rw [Nat.zero_max] at hw'
  obtain ⟨verifications, hclient⟩ := hw'.client
  refine ⟨s', w', hcycles, ?_⟩
  rw [hclient]
  exact (ConsensusPeers.client_acceptAll chain _ _ t htrusted).1

theorem lastTop_le_of_prefix {past : List Nat} (htops : (top :: tops).Pairwise (· ≤ ·))
    (hpast : past <+: tops) : lastTop top past ≤ lastTop top tops := by
  obtain ⟨rest, rfl⟩ := hpast
  have hle := (le_lastTop htops).2
  cases hlast : past.getLast? with
  | none =>
    rw [lastTop, hlast]
    exact (le_lastTop htops).1
  | some x =>
    rw [lastTop, hlast]
    exact hle x (List.mem_append_left rest (List.mem_of_getLast? hlast))

/-- **Agreement.** A fresh sequential engine whose light client trusts the header at `t` and a fresh batched
engine whose relay has it as its best entry, each run once per network height while the chain grows, have
after every cycle selected the same heights: those that the one's light client has accepted are those that
the other's relay has taken followed by those that it queues, of which there is less than a batch. -/
theorem engines_agree (hf : 0 < followed) (policy : Policy) (hheight : ∀ h, (chain h).height = h)
    (m size : Nat) (hsize : 0 < size) (tops : List Nat)
    (hdistinct : ∀ a b, low ≤ a → a ≤ lastTop top tops → low ≤ b → b ≤ lastTop top tops →
      (chain a).hash = (chain b).hash → a = b)
    (htops : (top :: tops).Pairwise (· ≤ ·)) (hlow : low ≤ t) (htop : t ≤ top) (w₁ w₂ : World Sim.Network)
    (hquiet₁ : w₁.peers.Quiet) (hnode₁ : Serves chain low top w₁.peers.consensusNode)
    (htrusted : w₁.peers.consensusClient.trusted = chain t)
    (hquiet₂ : w₂.peers.Quiet) (hnode₂ : Serves chain low top w₂.peers.consensusNode)
    (hstored : w₂.peers.relayStore.best = (chain t).entry)
    (hrejecting : w₂.peers.consensusClient.rejecting = false) (past : List Nat) (hpast : past <+: tops) :
    ∃ s₁ w₁' s₂ w₂',
      cyclesAt followed policy Sequential.runCycle chain past (State.fresh m) w₁ = some (s₁, w₁') ∧
      cyclesAt followed policy (Batched.runCycle size) chain past (State.fresh m) w₂ = some (s₂, w₂') ∧
      w₁'.peers.consensusClient.submissions =
        w₁.peers.consensusClient.submissions ++ (Batched.carried w₂ w₂' s₂).map ([·]) ∧
      Batched.carried w₂ w₂' s₂ = due chain m (examined t past) t ∧ s₂.pending.length < size := by
  have hlast := lastTop_le_of_prefix htops hpast
  have htops' : (top :: past).Pairwise (· ≤ ·) :=
    htops.sublist ((hpast.sublist).cons_cons top)
  obtain ⟨s₁, w₁', hcycles₁, hsubmitted⟩ := Sequential.exists_cyclesAt_fresh hf policy hheight m
    (fun a b hlo hhi hlo' hhi' => hdistinct a b hlo (Nat.le_trans hhi hlast) hlo' (Nat.le_trans hhi' hlast))
    htops' hlow htop hquiet₁ hnode₁ htrusted
  obtain ⟨s₂, w₂', hcycles₂, hcarried, hless⟩ := Batched.exists_cyclesAt_waiting hf policy hheight m size
    htops' hlow htop hquiet₂ hnode₂ hstored hrejecting
  refine ⟨s₁, w₁', s₂, w₂', hcycles₁, hcycles₂, ?_, hcarried, by omega⟩
  rw [hcarried]
  exact hsubmitted

/-- Cycles at 5 and 12 after height 1: the one engine submits 6 and 11, the other appends them in a batch of
two. -/
theorem plain_engines_agree :
    ∃ s₁ w₁ s₂ w₂,
      cyclesAt 1 ⟨10, 1, 1⟩ Sequential.runCycle plainChain [5, 12] (State.fresh 5) (World.start plainPeers) =
        some (s₁, w₁) ∧
      cyclesAt 1 ⟨10, 1, 1⟩ (Batched.runCycle 2) plainChain [5, 12] (State.fresh 5)
        (World.start plainPeers) = some (s₂, w₂) ∧
      w₁.peers.consensusClient.submissions = [[6], [11]] ∧
      Batched.carried (World.start plainPeers) w₂ s₂ = [6, 11] ∧ s₂.pending.length < 2 := by
  obtain ⟨s₁, w₁, s₂, w₂, hcycles₁, hcycles₂, hsubmitted, hcarried, hless⟩ :=
    engines_agree Nat.one_pos ⟨10, 1, 1⟩ (fun _ => rfl) 5 2 (by decide) [5, 12]
      (fun a b _ ha _ hb h => plainChain_distinct (Nat.lt_of_le_of_lt ha (by decide))
        (Nat.lt_of_le_of_lt hb (by decide)) h)
      (by decide) (Nat.le_refl 1) (Nat.le_refl 1) (World.start plainPeers) (World.start plainPeers) rfl
      (plainPeers_honest []).node rfl rfl (plainPeers_honest []).node rfl rfl [5, 12] (List.prefix_refl _)
  have hdue : due plainChain 5 (examined 1 [5, 12]) 1 = [6, 11] := by decide
  rw [hdue] at hcarried
  rw [hcarried] at hsubmitted
  exact ⟨s₁, w₁, s₂, w₂, hcycles₁, hcycles₂, hsubmitted, hcarried, hless⟩

end HeaderRelay.Sync
