import HeaderRelay.Proofs.BitcoinRuns

/-!
# The contract's best height

The contract follows the node's best branch, and by design that branch may be shorter than the contract's own: a walk
compares hashes and never the two best heights. A node that lags is of two kinds.

- Its best header is held by the contract. The walk finds that at once, and the cycle submits nothing: the contract is
  never taken back to what such a node has seen.
- Its best header is on a branch that the contract does not hold. The node is then `Behind`: the walk goes down to where
  the branches meet, whatever the heights above, and the branch is submitted. It ends at the node's height, and there
  the contract is when the cycle ends well.

Result: `lowered_iff_behind`, a cycle that ends well lowers the contract's best height for a node of the second kind,
and for no other.
-/
namespace HeaderRelay.Sync.Bitcoin

open Peer (Call Conduct)

variable {σ : Type} {node : Sim.BitcoinNode} {k k' : Sim.BitcoinClient} {config : Config} {s s' : State}

/-- The node's best header is below the contract's, and the contract does not have it. -/
def Behind (node : Sim.BitcoinNode) (k : Sim.BitcoinClient) : Prop :=
  ∃ height, node.height? node.best = some height ∧ height < k.tip.1 ∧ ¬ k.Has height node.best

theorem Finds.below_iff {max : Nat} {found : Option Gap} (h : Finds node k max found) :
    (∃ g, found = some g ∧ g.target < k.tip.1) ↔ Behind node k := by
  constructor
  · intro hbelow
    obtain ⟨g, rfl, hlt⟩ := hbelow
    exact ⟨g.target, h.height, hlt, h.not_has_best⟩
  · intro hbehind
    obtain ⟨height, hheight, hlt, hnot⟩ := hbehind
    cases found with
    | none =>
      rcases h with hbest | ⟨height', hheight', hhas⟩
      · exact absurd (.inl hbest) hnot
      · obtain rfl : height = height' := Option.some.inj (hheight.symm.trans hheight')
        exact absurd hhas hnot
    | some g =>
      obtain rfl : height = g.target := Option.some.inj (hheight.symm.trans h.height)
      exact ⟨g, rfl, hlt⟩

/-- A cycle that ends well brings the contract to the end of the gap. -/
theorem Follows.lowered_iff {max : Nat} {found : Option Gap} {report : Report} (hfinds : Finds node k max found)
    (h : Follows config k s found report s' k') :
    k'.tip.1 < k.tip.1 ↔ ∃ g, found = some g ∧ g.target < k.tip.1 := by
  cases found with
  | none =>
    obtain ⟨-, -, rfl⟩ := h
    simp
  | some g =>
    obtain ⟨-, -, htook⟩ := h
    have htip : k'.tip = (g.target, node.best) := (CaughtUp.of_took hfinds.toCloses htook).tip
    simp [htip]

/-- **The contract's best height.** A gap ends below it, and a cycle that ends well lowers it, exactly for a node whose
best header is below it on a branch that the contract does not hold: whatever fails on the way. A node that lags on what
the contract holds never does. -/
theorem lowered_iff_behind (node : Sim.BitcoinNode) (k : Sim.BitcoinClient) (config : Config) (s : State) :
    (∀ found s' k', ((findGap config).start s).Runs ((bitcoinPeers node).failing True) k (.ok found, s') k' →
      ((∃ g, found = some g ∧ g.target < k.tip.1) ↔ Behind node k)) ∧
    ∀ report s' k', ((runCycle config).start s).Runs ((bitcoinPeers node).failing True) k (.ok report, s') k' →
      (k'.tip.1 < k.tip.1 ↔ Behind node k) := by
  have hreads : (findGap config).Ensures ((bitcoinReads node).failing True) s k _ _ := ensures_findGap_finds
  have hgap := hreads.of_asking
  refine ⟨fun found s' k' hruns => ?_, fun report s' k' hruns => ?_⟩
  · obtain ⟨-, -, hfinds⟩ := hgap.of_runs hruns
    exact hfinds.below_iff
  · have hcycle : (runCycle config).Ensures ((bitcoinPeers node).failing True) s k _ _ :=
      ensures_runCycle hgap fun g hg => hg.nonempty
    obtain ⟨found, hfinds, hfollows⟩ := hcycle.of_runs hruns
    exact (hfollows.lowered_iff hfinds).trans hfinds.below_iff

-- The node's best header is at height 2, and both contracts are at height 3.

/-- A contract that holds the node's headers. -/
def overtakenPeers : Sim.Network :=
  { rootedPeers with bitcoinClient := .holding 0 [.replicate 1, .replicate 2, .replicate 3, .replicate 7] }

/-- A contract on the other branch. -/
def strandedPeers : Sim.Network :=
  { rootedPeers with bitcoinClient := .holding 0 [.replicate 1, .replicate 9, .replicate 8, .replicate 7] }

/-- A node that lags on the contract's own branch does not lower its best height. -/
theorem overtaken_not_lowered :
    ∃ report s' k',
      ((runCycle ⟨1, 5, ⟨0⟩, some 3⟩).start ⟨0⟩).Runs ((bitcoinPeers overtakenPeers.bitcoinNode).failing True)
        overtakenPeers.bitcoinClient (.ok report, s') k' ∧
      ¬ k'.tip.1 < overtakenPeers.bitcoinClient.tip.1 := by
  have hpeers : Peers overtakenPeers.bitcoinNode (World.start overtakenPeers).peers
      overtakenPeers.bitcoinClient := ⟨rfl, rfl, ⟨_, rfl⟩, rfl⟩
  have hgoverns : (bitcoinPeers overtakenPeers.bitcoinNode).Governs Sim.Network.handler _ :=
    (embodies_peers overtakenPeers.bitcoinNode).governs (fun _ _ => rfl) (fun _ _ _ => rfl) fun _ _ _ _ => rfl
  have hgap : (findGap ⟨1, 5, ⟨0⟩, some 3⟩).Ensures ((bitcoinPeers overtakenPeers.bitcoinNode).failing True)
      (⟨0⟩ : State) overtakenPeers.bitcoinClient _ _ := ensures_findGap_finds.of_asking
  have hok : (Sim.Network.cycle 1 ⟨10, 1, 1⟩ (runCycle ⟨1, 5, ⟨0⟩, some 3⟩) ⟨0⟩
      (World.start overtakenPeers)).1.success? = some (.idle engine 0, ⟨0⟩) := by decide +kernel
  obtain ⟨w', hrun⟩ := Outcome.exists_of_success? hok
  obtain ⟨k', hruns, -⟩ := hgoverns.cycle (ensures_runCycle hgap fun g hg => hg.nonempty) hpeers hrun
  refine ⟨_, _, k', hruns, ?_⟩
  rw [(lowered_iff_behind _ _ _ _).2 _ _ k' hruns]
  intro hbehind
  obtain ⟨height, hheight, -, hnot⟩ := hbehind
  cases hheight
  exact hnot (.inr ⟨by decide, by decide⟩)

/-- For a node that lags on the other branch the contract changes branches: the gap ends below its best height, and so
does the contract after the cycle. -/
theorem stranded_lowered :
    strandedPeers.bitcoinNode.Rooted ∧ strandedPeers.bitcoinClient.tip.1 = 3 ∧
    (∃ g w₀, Sim.Network.cycle 1 ⟨10, 1, 1⟩ (findGap ⟨1, 5, ⟨0⟩, some 3⟩) (⟨0⟩ : State)
      (World.start strandedPeers) = (.done (.ok (some g), ⟨0⟩), w₀) ∧ g.target = 2) ∧
    ∃ report s' w', Sim.Network.cycle 1 ⟨10, 1, 1⟩ (runCycle ⟨1, 5, ⟨0⟩, some 3⟩) ⟨0⟩
      (World.start strandedPeers) = (.done (.ok report, s'), w') ∧ w'.peers.bitcoinClient.tip.1 = 2 := by
  have hrooted : strandedPeers.bitcoinNode.Rooted := Sim.BitcoinNode.rooted_of_forall (by decide)
  have hgap : (Sim.Network.cycle 1 ⟨10, 1, 1⟩ (findGap ⟨1, 5, ⟨0⟩, some 3⟩) (⟨0⟩ : State)
      (World.start strandedPeers)).1.success? = some (some ⟨0, branch⟩, ⟨0⟩) := by decide +kernel
  have hok : (Sim.Network.cycle 1 ⟨10, 1, 1⟩ (runCycle ⟨1, 5, ⟨0⟩, some 3⟩) ⟨0⟩
      (World.start strandedPeers)).1.success? = some (⟨engine, 2, 2, 2⟩, ⟨2⟩) := by decide +kernel
  have htip : (Sim.Network.cycle 1 ⟨10, 1, 1⟩ (runCycle ⟨1, 5, ⟨0⟩, some 3⟩) ⟨0⟩
      (World.start strandedPeers)).2.peers.bitcoinClient.tip.1 = 2 := by decide +kernel
  obtain ⟨w₀, hfound⟩ := Outcome.exists_of_success? hgap
  obtain ⟨w', hrun⟩ := Outcome.exists_of_success? hok
  rw [hrun] at htip
  exact ⟨hrooted, rfl, ⟨_, w₀, hfound, rfl⟩, _, _, w', hrun, htip⟩

end HeaderRelay.Sync.Bitcoin
