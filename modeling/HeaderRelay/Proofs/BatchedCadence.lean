import HeaderRelay.Proofs.BatchedSync
import HeaderRelay.Proofs.HonestPeers

/-!
# The batched engine at any cadence

Cycles at several network heights, while the chain grows, queue what the rule selects from the heights
`examined` (`exists_cyclesAt`), so what the relay takes and what waits depend on when the cycles were run only
through the network heights themselves, which are left out (`carried_eq_iff`).
-/
namespace HeaderRelay.Sync.Batched

open Consensus (Header)
open Peer (Conduct)

variable {chain : Nat → Header} {low top m t checked followed : Nat} {tops stored rest : List Nat}
  {start : Sim.RelayStore} {s : State Header} {e : ConsensusPeers} {w : World Sim.Network}

theorem Tracks.best (hheight : ∀ h, (chain h).height = h) {stale : List Nat}
    (h : Tracks chain m checked start stored stale rest s e) (hstart : start.best = (chain t).entry) :
    e.store.best = (chain e.store.best.height).entry ∧ t ≤ e.store.best.height ∧
      e.store.best.height ≤ lastQueued start e := by
  have hbest := Sim.RelayStore.best_of_entries h.entries
  have ht : start.best.height = t := by rw [hstart]; exact hheight t
  rw [List.getLast?_map, hstart] at hbest
  cases hlast : stored.getLast? with
  | none =>
    rw [hlast] at hbest
    have hbest : e.store.best = (chain t).entry := hbest
    have hbestHeight : e.store.best.height = t := by rw [hbest]; exact hheight t
    rw [hbestHeight]
    exact ⟨hbest, Nat.le_refl t, Nat.le_trans (Nat.le_of_eq ht.symm) h.le_lastQueued.1⟩
  | some x =>
    rw [hlast] at hbest
    have hbest : e.store.best = (chain x).entry := hbest
    have hbestHeight : e.store.best.height = x := by rw [hbest]; exact hheight x
    have hx : x ∈ e.queued := by
      rw [h.queued]
      exact List.mem_append_left _ (List.mem_of_getLast? hlast)
    have hlt : start.best.height < x := (List.pairwise_cons.mp h.ascending).1 x hx
    rw [hbestHeight]
    exact ⟨hbest, by omega, h.le_lastQueued.2 x hx⟩

/-- **Runs.** Cycles at some network heights queue what the rule selects from the heights examined, and less
than a batch still waits. -/
theorem exists_cyclesAt (hf : 0 < followed) (policy : Policy) (hheight : ∀ h, (chain h).height = h)
    (size : Nat) (htops : (top :: tops).Pairwise (· ≤ ·)) (hlow : low ≤ t)
    (hstart : start.best = (chain t).entry)
    (hchecked : max checked (lastQueued start e) ≤ top) (hqueued : ∀ h ∈ e.queued, h < top)
    (hrejecting : e.client.rejecting = false) (h : Tracks chain m checked start stored [] rest s e)
    (hw : HonestPeers chain low top w.peers e) :
    ∃ s' w' e' checked' stored' rest', cyclesAt followed policy (runCycle size) chain tops s w =
      some (s', w') ∧
      HonestPeers chain low (lastTop top tops) w'.peers e' ∧
      e'.queued = e.queued ++ due chain m (examined (max checked (lastQueued start e)) tops)
        (lastQueued start e) ∧
      Tracks chain m checked' start stored' [] rest' s' e' ∧
      (s.pending.length < max 1 size → s'.pending.length < max 1 size) := by
  induction tops generalizing top checked s e w stored rest with
  | nil => exact ⟨s, w, e, checked, stored, rest, rfl, hw, (List.append_nil _).symm, h, fun hless => hless⟩
  | cons top' tops ih =>
    obtain ⟨hle, htops'⟩ := List.pairwise_cons.mp htops
    have hle := hle top' List.mem_cons_self
    obtain ⟨hbest, hbestlow, hbesthigh⟩ := h.best hheight hstart
    have ht : start.best.height = t := by rw [hstart]; exact hheight t
    have habove := h.le_lastQueued
    have hcycle : (runCycle size).Ensures
        ((consensusPeers chain (fun h => low ≤ h ∧ h ≤ top') (· = top')).failing False) s e _ _ :=
      ensures_runCycle hheight h ⟨by omega, by omega⟩ (fun _ => (congrArg (·.hash) hbest).symm)
        (fun x hx => by
          have := hqueued x hx
          have := (List.pairwise_cons.mp h.ascending).1 x hx
          omega)
        (by rintro _ rfl; exact ⟨⟨by omega, Nat.le_refl _⟩, fun h hlo hhi => ⟨by omega, hhi⟩⟩)
        (fun _ => hrejecting)
    rw [Conduct.failing_false] at hcycle
    obtain ⟨report, s₁, e₁, w₁, ⟨top', drained, stored₁, rest₁, rfl, hdone, h₁, hclient⟩, hw₁, hcycles⟩ :=
      exists_cyclesAt_cons hf policy hheight hw hle
        (Cycle.Ensures.mono hcycle (fun _ _ _ h => h) fun _ _ _ h => h.1)
    have hlast : lastQueued start e₁ =
        (selection chain m checked start e top').getLast?.getD (lastQueued start e) := by
      rw [lastQueued, hdone.queued, List.getLast?_append]
      cases (selection chain m checked start e top').getLast? <;> rfl
    have hbounds : lastQueued start e ≤ lastQueued start e₁ ∧ lastQueued start e₁ ≤ top' := by
      rw [hlast]
      exact last_due_range chain m (Nat.le_max_right _ _) (Nat.le_trans hchecked hle)
    -- the heights that are left for the cycles after this one start above its network height
    have hmax : max (max checked top') (lastQueued start e₁) = top' := by omega
    have hqueued₁ : ∀ x ∈ e₁.queued, x < top' := by
      intro x hx
      rw [hdone.queued] at hx
      rcases List.mem_append.mp hx with hx | hx
      · exact Nat.lt_of_lt_of_le (hqueued x hx) hle
      · exact (lt_of_mem_selection hx).2
    obtain ⟨s', w', e', checked', stored', rest', hcycles', hw', hqueued', h', hless⟩ :=
      ih htops' (Nat.le_of_eq hmax) hqueued₁ (by rwa [hclient]) h₁ hw₁
    refine ⟨s', w', e', checked', stored', rest', hcycles.trans hcycles', ?_, ?_, h',
      fun _ => hless hdone.waiting⟩
    · rw [lastTop_cons]
      exact hw'
    · rw [hqueued', hdone.queued, hmax, hlast, examined, due_append, List.append_assoc]
      rfl

/-- The heights that the relay has taken since `w`, followed by those that wait in the queue. -/
def carried (w w' : World Sim.Network) (s' : State Header) : List Nat :=
  (w'.peers.relayStore.entries.drop w.peers.relayStore.entries.length).map (·.height) ++
    s'.pending.map (·.height)

/-- A fresh engine carries what the rule selects from the heights examined, and holds back less than a
batch of it. -/
theorem exists_cyclesAt_waiting (hf : 0 < followed) (policy : Policy) (hheight : ∀ h, (chain h).height = h)
    (m size : Nat) (htops : (top :: tops).Pairwise (· ≤ ·)) (hlow : low ≤ t) (htop : t ≤ top)
    (hquiet : w.peers.Quiet) (hnode : Serves chain low top w.peers.consensusNode)
    (hstored : w.peers.relayStore.best = (chain t).entry)
    (hrejecting : w.peers.consensusClient.rejecting = false) :
    ∃ s' w', cyclesAt followed policy (runCycle size) chain tops (State.fresh m) w = some (s', w') ∧
      carried w w' s' = due chain m (examined t tops) t ∧ s'.pending.length < max 1 size := by
  have ht : w.peers.relayStore.best.height = t := by rw [hstored]; exact hheight t
  have hw : HonestPeers chain low top w.peers ⟨w.peers.consensusClient, w.peers.relayStore, []⟩ :=
    ⟨⟨hnode, ⟨w.peers.consensusClient.verifications, rfl⟩, rfl⟩, hquiet⟩
  have hlast : lastQueued w.peers.relayStore ⟨w.peers.consensusClient, w.peers.relayStore, []⟩ = t := ht
  obtain ⟨s', w', e', checked', stored, rest, hcycles, hw', hqueued, h', hless⟩ :=
    exists_cyclesAt hf policy hheight size htops hlow hstored (by rw [hlast]; omega) (by simp) hrejecting
      (Tracks.fresh chain m w.peers.consensusClient w.peers.relayStore) hw
  refine ⟨s', w', hcycles, ?_, hless (Nat.lt_of_lt_of_le Nat.one_pos (Nat.le_max_left ..))⟩
  rw [hlast, Nat.zero_max, List.nil_append, h'.queued] at hqueued
  have hheights : ∀ heights : List Nat, (heights.map chain).map (·.height) = heights := by
    intro heights
    rw [List.map_map]
    exact List.map_id'' hheight heights
  have hentries : ∀ heights : List Nat, (heights.map fun h => (chain h).entry).map (·.height) = heights := by
    intro heights
    rw [List.map_map]
    exact List.map_id'' hheight heights
  rw [carried, hw'.store, h'.entries, List.drop_left, h'.pending, List.nil_append, hheights, hentries,
    ← hqueued]

theorem exists_cyclesAt_fresh (hf : 0 < followed) (policy : Policy) (hheight : ∀ h, (chain h).height = h)
    (m size : Nat) (htops : (top :: tops).Pairwise (· ≤ ·)) (hlow : low ≤ t) (htop : t ≤ top)
    (hquiet : w.peers.Quiet) (hnode : Serves chain low top w.peers.consensusNode)
    (hstored : w.peers.relayStore.best = (chain t).entry)
    (hrejecting : w.peers.consensusClient.rejecting = false) :
    ∃ s' w', cyclesAt followed policy (runCycle size) chain tops (State.fresh m) w = some (s', w') ∧
      carried w w' s' = due chain m (examined t tops) t := by
  obtain ⟨s', w', hcycles, hcarried, -⟩ := exists_cyclesAt_waiting hf policy hheight m size htops hlow htop
    hquiet hnode hstored hrejecting
  exact ⟨s', w', hcycles, hcarried⟩

/-- **Cadence.** Cycles of a fresh engine at several network heights, while the chain grows, carry what one
cycle at the last of them carries, exactly if this one selects none of the heights of the earlier cycles. -/
theorem carried_eq_iff (hf : 0 < followed) (policy : Policy) (hheight : ∀ h, (chain h).height = h)
    (m size : Nat) (tops : List Nat) (last : Nat) (htops : (top :: (tops ++ [last])).Pairwise (· ≤ ·))
    (hlow : low ≤ t) (htop : t ≤ top) (w : World Sim.Network) (hquiet : w.peers.Quiet)
    (hnode : Serves chain low top w.peers.consensusNode)
    (hstored : w.peers.relayStore.best = (chain t).entry)
    (hrejecting : w.peers.consensusClient.rejecting = false) :
    ∃ s₁ w₁ s₂ w₂,
      cyclesAt followed policy (runCycle size) chain (tops ++ [last]) (State.fresh m) w = some (s₁, w₁) ∧
      cyclesAt followed policy (runCycle size) chain [last] (State.fresh m) w = some (s₂, w₂) ∧
      (carried w w₁ s₁ = carried w w₂ s₂ ↔ ∀ h ∈ tops, h ∉ carried w w₂ s₂) := by
  have hmem := (List.pairwise_cons.mp htops).1
  have hlast : top ≤ last := hmem last (by simp)
  have honce : (top :: [last]).Pairwise (· ≤ ·) := by simpa using hlast
  obtain ⟨s₁, w₁, hcycles₁, hcarried₁⟩ := exists_cyclesAt_fresh hf policy hheight m size htops
    hlow htop hquiet hnode hstored hrejecting
  obtain ⟨s₂, w₂, hcycles₂, hcarried₂⟩ := exists_cyclesAt_fresh hf policy hheight m size honce
    hlow htop hquiet hnode hstored hrejecting
  refine ⟨s₁, w₁, s₂, w₂, hcycles₁, hcycles₂, ?_⟩
  have hfrom : (t :: (tops ++ [last])).Pairwise (· ≤ ·) :=
    List.pairwise_cons.mpr ⟨fun h hh => Nat.le_trans htop (hmem h hh), (List.pairwise_cons.mp htops).2⟩
  have hlastTop : lastTop t (tops ++ [last]) = last := by rw [lastTop, List.getLast?_concat]; rfl
  have hsub := examined_sublist hfrom
  rw [hlastTop] at hsub
  have hfrom' : (t :: [last]).Pairwise (· ≤ ·) := by simpa using Nat.le_trans htop hlast
  have hnodup : (examined t [last]).Nodup :=
    (List.pairwise_cons.mp (examined_ascending hfrom')).2.imp Nat.ne_of_lt
  rw [hcarried₁, hcarried₂, due_eq_iff_of_sublist hsub hnodup t]
  constructor
  · intro hall h hh hdue
    exact ((mem_examined hfrom).mp (hall h hdue)).2.2 (List.mem_append_left _ hh)
  · intro hnone h hdue
    obtain ⟨hlo, hhi, hne⟩ := (mem_examined hfrom').mp ((due_sublist _ t).subset hdue)
    rw [lastTop_cons] at hhi
    refine (mem_examined hfrom).mpr ⟨hlo, by rwa [hlastTop], fun hh => ?_⟩
    rcases List.mem_append.mp hh with hh | hh
    · exact hnone h hh hdue
    · exact hne hh

/-- Cycles at 5 and 12 after height 1 carry 6 and 11, and so does one at 12. -/
theorem plain_cycles_agree :
    ∃ s₁ w₁ s₂ w₂,
      cyclesAt 1 ⟨10, 1, 1⟩ (runCycle 2) plainChain [5, 12] (State.fresh 5) (World.start plainPeers) =
        some (s₁, w₁) ∧
      cyclesAt 1 ⟨10, 1, 1⟩ (runCycle 2) plainChain [12] (State.fresh 5) (World.start plainPeers) =
        some (s₂, w₂) ∧
      carried (World.start plainPeers) w₂ s₂ = [6, 11] ∧
      carried (World.start plainPeers) w₁ s₁ = carried (World.start plainPeers) w₂ s₂ := by
  obtain ⟨s₁, w₁, s₂, w₂, hcycles₁, hcycles₂, hagree⟩ :=
    carried_eq_iff Nat.one_pos ⟨10, 1, 1⟩ (fun _ => rfl) 5 2 [5] 12 (by decide) (Nat.le_refl 1)
      (Nat.le_refl 1) (World.start plainPeers) rfl (plainPeers_honest []).node rfl rfl
  have hrun : (cyclesAt 1 ⟨10, 1, 1⟩ (runCycle 2) plainChain [12] (State.fresh 5)
      (World.start plainPeers)).map (fun p => carried (World.start plainPeers) p.2 p.1) = some [6, 11] := by
    decide +kernel
  rw [hcycles₂] at hrun
  have hcarried := Option.some.inj hrun
  refine ⟨s₁, w₁, s₂, w₂, hcycles₁, hcycles₂, hcarried, hagree.mpr ?_⟩
  rw [show carried (World.start plainPeers) w₂ s₂ = [6, 11] from hcarried]
  decide

/-- **Cadence matters.** A cycle at 6, where the header after height 1 is due, and one at 12 carry 7; one at
12 alone carries 6 and 11. -/
theorem plain_cycles_disagree :
    (cyclesAt 1 ⟨10, 1, 1⟩ (runCycle 2) plainChain [6, 12] (State.fresh 5) (World.start plainPeers)).map
        (fun p => carried (World.start plainPeers) p.2 p.1) = some [7] ∧
      (cyclesAt 1 ⟨10, 1, 1⟩ (runCycle 2) plainChain [12] (State.fresh 5) (World.start plainPeers)).map
        (fun p => carried (World.start plainPeers) p.2 p.1) = some [6, 11] := by
  exact ⟨by decide +kernel, by decide +kernel⟩

end HeaderRelay.Sync.Batched
