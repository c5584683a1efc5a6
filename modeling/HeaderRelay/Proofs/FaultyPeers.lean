import HeaderRelay.Proofs.Faults
import HeaderRelay.Proofs.HonestPeers

/-!
# Simulated peers with faults

Faults that delay a call, never answer it or answer it with an error are what a bad connection does to
honest peers: the simulated network with such faults keeps to the conduct of `unreliablePeers`
(`governs_unreliablePeers`). The heights that a batched engine says it queues are then those in the log.
-/
namespace HeaderRelay

open Consensus (Header)
open Peer (Call Conduct)

theorem Timed.exists_sleep {σ : Type} (ms : Nat) (deadline : Option Nat) (w : World σ) :
    ∃ o now, sleep ms deadline w = (o, { w with now := now }) ∧ (o = .done () ∨ o = .unanswered) := by
  cases deadline with
  | none => exact ⟨_, _, rfl, .inl rfl⟩
  | some d =>
    unfold sleep
    dsimp only
    split
    · exact ⟨_, _, rfl, .inl rfl⟩
    · exact ⟨_, _, rfl, .inr rfl⟩

namespace Sim

/-- If the fault answers a call, then with an error. -/
def PendingFault.Fails (p : PendingFault) : Prop := ∀ r, p.fault.answer = some r → ∃ x, r = .error x

theorem PendingFault.Fails.for {p : PendingFault} {s : Peer.Shape} (h : p.Fails) {r : Relayed s.Value}
    (hr : (p.for s).answer = some r) : ∃ x, r = .error x := by
  unfold PendingFault.for at hr
  split at hr
  · rename_i hs
    subst hs
    exact h r hr
  · cases hr

theorem Network.exists_begin (now : Nat) (c : Call) {n : Network} (h : ∀ p ∈ n.faults, p.Fails) :
    ∃ f faults, begin now c n = (f, { n.noted now c with faults := faults }) ∧
      (∀ r, f.answer = some r → ∃ x, r = .error x) ∧ ∀ p ∈ faults, p.Fails := by
  unfold begin
  dsimp only
  split
  · exact ⟨.none, n.faults, rfl, by rintro r ⟨⟩, h⟩
  · rename_i i hi
    refine ⟨_, n.faults.eraseIdx i, rfl, fun r hr => ?_, fun p hp => h p (List.mem_of_mem_eraseIdx hp)⟩
    cases hp : n.faults[i]? with
    | none =>
      rw [hp] at hr
      cases hr
    | some p =>
      rw [hp] at hr
      exact (h p (List.mem_of_getElem? hp)).for hr

end Sim

namespace Sync

/-- Peers of an honest node and of a relay without other writers, on a bad connection. -/
def unreliablePeers (chain : Nat → Header) : Conduct ConsensusPeers :=
  (consensusPeers chain (fun _ => True) fun _ => True).failing True

/-- Simulated peers whose faults at most fail calls; what was queued is in the log. -/
structure FaultyPeers (chain : Nat → Header) (low : Nat) (w : World Sim.Network)
    (e : ConsensusPeers) : Prop where
  sided : ∃ top, Sided chain low top w.peers e
  faults : ∀ p ∈ w.peers.faults, p.Fails
  queued : e.queued = w.log.reverse.filterMap queuedHeight?

variable {chain : Nat → Header} {low top : Nat} {w w' : World Sim.Network} {e : ConsensusPeers}

/-- An honest node that does not know everything is one on a bad connection that does. -/
theorem answers_unreliablePeers {knows tops : Nat → Prop} {c : Call} {r : Relayed c.Answer}
    {e' : ConsensusPeers}
    (h : (consensusPeers chain knows tops).answers c e r e') : (unreliablePeers chain).answers c e r e' := by
  cases c with
  | consensusNode c =>
    obtain ⟨hans, rfl⟩ := h
    cases r with
    | error x => exact .inr ⟨trivial, ⟨x, rfl⟩, .inl rfl⟩
    | ok a =>
      refine .inl ⟨?_, rfl⟩
      cases c with
      | headerByHash hash =>
        obtain ⟨h, -, hhash, rfl⟩ := hans
        exact ⟨h, trivial, hhash, rfl⟩
      | latestHeight => exact trivial
      | _ => exact hans
  | consensusClient c => exact .inl h
  | relayStore c => exact .inl h
  | _ => exact h.elim

theorem FaultyPeers.handler (hheight : ∀ h, (chain h).height = h) {mode : Mode} {c : Call}
    {deadline : Option Nat}
    {o : Outcome (Relayed c.Answer)} (h : FaultyPeers chain low w e)
    (hc : (unreliablePeers chain).attends mode c)
    (hrun : Sim.Network.handler c deadline w = (o, w')) :
    (o = .unanswered ∧ FaultyPeers chain low w' e) ∨
      ∃ r e', o = .done r ∧ (unreliablePeers chain).answers c e r e' ∧ FaultyPeers chain low w' e' := by
  obtain ⟨f, faults, hbegin, hfails, hfaults⟩ := Sim.Network.exists_begin w.now c h.faults
  obtain ⟨top, hsided⟩ := h.sided
  have hlater : ∀ now, FaultyPeers chain low
      { w with now := now, peers := { w.peers.noted w.now c with faults := faults } } e :=
    fun _ => ⟨⟨top, hsided.node, hsided.client, hsided.store⟩, hfaults, h.queued⟩
  simp only [Sim.Network.handler, bind, Timed.andThen, Timed.now, Timed.onPeers, hbegin] at hrun
  unfold Sim.Fault.apply at hrun
  split at hrun
  · cases deadline with
    | none =>
      cases hrun
      exact .inl ⟨rfl, hlater _⟩
    | some d =>
      cases hrun
      exact .inl ⟨rfl, hlater _⟩
  obtain ⟨o₁, now, hsleep, ho₁⟩ := Timed.exists_sleep f.delay deadline
    { w with peers := { w.peers.noted w.now c with faults := faults } }
  simp only [bind, Timed.andThen, hsleep] at hrun
  rcases ho₁ with rfl | rfl
  · cases hr : f.answer with
    | some r =>
      obtain ⟨x, rfl⟩ := hfails r hr
      simp only [hr] at hrun
      cases hrun
      exact .inr ⟨_, e, rfl, .inr ⟨trivial, ⟨x, rfl⟩, .inl rfl⟩, hlater now⟩
    | none =>
      obtain ⟨r, n', e', hserve, -, hans, hsided', hsame, hqueued⟩ :=
        Sided.serve hheight (n := { w.peers.noted w.now c with faults := faults })
          ⟨hsided.node, hsided.client, hsided.store⟩ hc
      simp only [hr, Sim.Network.reply, bind, Timed.andThen, Timed.onPeers, hserve] at hrun
      cases hrun
      refine .inr ⟨r, e', rfl, answers_unreliablePeers hans, ⟨top, hsided'⟩, ?_, hqueued.trans h.queued⟩
      rw [hsame]
      exact hfaults
  · cases hrun
    exact .inl ⟨rfl, hlater now⟩

/-- **Faults.** The simulated network with faults that fail calls keeps to the conduct. -/
theorem governs_unreliablePeers (chain : Nat → Header) (hheight : ∀ h, (chain h).height = h) (low : Nat) :
    (consensusPeers chain (fun _ => True) fun _ => True).Governs Sim.Network.handler
      (FaultyPeers chain low) where
  done hw hc hrun := by
    obtain ⟨ho, -⟩ | ⟨r, e', ho, hans, hw'⟩ := hw.handler hheight hc hrun
    · cases ho
    · cases ho
      exact ⟨e', hans, hw'⟩
  unanswered {w e mode c deadline w'} hw hc hrun := by
    obtain ⟨-, hw'⟩ | ⟨r, e', ho, -⟩ := hw.handler hheight hc hrun
    · exact ⟨e, .inl rfl, hw'⟩
    · cases ho
  waits _ hw := ⟨hw.sided, hw.faults, hw.queued⟩
  counts _ hw := ⟨hw.sided, hw.faults, hw.queued⟩
  notes ev hw := by
    obtain ⟨⟨top, hsided⟩, hfaults, hqueued⟩ := hw
    refine ⟨⟨top, hsided.node, hsided.client, hsided.store⟩, hfaults, ?_⟩
    show _ ++ (queuedHeight? ev).toList = _
    rw [hqueued, List.reverse_cons, List.filterMap_append]
    cases h : queuedHeight? ev <;> simp [h]
  pausing op seconds := by simp [consensusPeers, ConsensusPeers.hear, queuedHeight?, Retry.pausing]
  exhausted op attempts x := by simp [consensusPeers, ConsensusPeers.hear, queuedHeight?, Retry.exhausted]
  failed op attempt delay x := by simp [consensusPeers, ConsensusPeers.hear, queuedHeight?, Retry.failed]

end Sync

end HeaderRelay
