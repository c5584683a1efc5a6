import HeaderRelay.Proofs.BitcoinSync

/-!
# Aborted cycles of the Bitcoin engine

A cycle that fails leaves the contract where it was, or with the first headers of the gap. In a tree in which
every parent is one height below (`Rooted`) the headers of a gap are distinct, so the next walk goes down to
the last of those taken, and no further (`Bridges.rest`): it finds the rest of the gap. Cycles that fail
anywhere, whether or not the submission that failed was taken, and a last one that does not, bring the contract
over the gap that was there at first, each header once (`aborted_cycles_resume`).
-/
namespace HeaderRelay

open Bitcoin (Header)
open Peer (Call Conduct)

namespace Sim.BitcoinNode

variable {node : BitcoinNode} {parent best : Hash} {t : Nat} {headers : List Header}

/-! ## Heights -/

/-- The parent of a header that the node knows is known one height below, unless the header is at height 0. -/
def Rooted (node : BitcoinNode) : Prop :=
  ∀ hash h height, node.header? hash = some h → node.height? hash = some height →
    height = 0 ∨ ∃ below, node.height? h.prevHash = some below ∧ height = below + 1

theorem rooted_of_forall (h : ∀ p ∈ node.headers, p.2 = 0 ∨ node.height? p.1.prevHash = some (p.2 - 1)) :
    node.Rooted := by
  intro hash x height hx hheight
  obtain ⟨p, hp, rfl⟩ := Option.map_eq_some_iff.mp hx
  obtain ⟨q, hq, rfl⟩ := Option.map_eq_some_iff.mp hheight
  obtain rfl : p = q := Option.some.inj (hp.symm.trans hq)
  rcases h p (List.mem_of_find?_eq_some hp) with hzero | hparent
  · exact .inl hzero
  · by_cases hzero : p.2 = 0
    · exact .inl hzero
    · exact .inr ⟨p.2 - 1, hparent, by omega⟩

def Stands (node : BitcoinNode) : (t : Nat) → List Header → Prop
  | _, [] => True
  | t, h :: rest => node.height? h.hash = some (t + 1) ∧ node.Stands (t + 1) rest

theorem Leads.stands (hrooted : node.Rooted) (h : node.Leads parent headers best)
    (hbest : node.height? best = some (t + headers.length)) : node.Stands t headers := by
  -- the height of each header comes from the one after it, that of the last from the best
  induction headers generalizing parent t with
  | nil => trivial
  | cons x rest ih =>
    obtain ⟨-, -, hrest⟩ := h
    rw [List.length_cons, show t + (rest.length + 1) = t + 1 + rest.length by omega] at hbest
    have hstands := ih hrest hbest
    refine ⟨?_, hstands⟩
    cases rest with
    | nil =>
      obtain rfl : x.hash = best := hrest
      exact hbest
    | cons y rest =>
      obtain ⟨hparent, hy, -⟩ := hrest
      rcases hrooted y.hash y (t + 1 + 1) hy hstands.1 with hzero | ⟨below, hbelow, heq⟩
      · omega
      · rw [← hparent, hbelow]
        congr 1
        omega

theorem Stands.lt_of_mem (h : node.Stands t headers) {x : Header} (hx : x ∈ headers) :
    ∃ height, t < height ∧ node.height? x.hash = some height := by
  induction headers generalizing t with
  | nil => cases hx
  | cons y rest ih =>
    rcases List.mem_cons.mp hx with rfl | hx
    · exact ⟨t + 1, by omega, h.1⟩
    · obtain ⟨height, hlt, hheight⟩ := ih h.2 hx
      exact ⟨height, by omega, hheight⟩

theorem Stands.nodup (h : node.Stands t headers) : (headers.map (·.hash)).Nodup := by
  induction headers generalizing t with
  | nil => exact List.nodup_nil
  | cons x rest ih =>
    refine List.nodup_cons.mpr ⟨fun hmem => ?_, ih h.2⟩
    obtain ⟨y, hy, hhash⟩ := List.mem_map.mp hmem
    obtain ⟨height, hlt, hheight⟩ := h.2.lt_of_mem hy
    rw [hhash, h.1] at hheight
    cases hheight
    omega

end Sim.BitcoinNode

namespace Sync.Bitcoin

variable {node : Sim.BitcoinNode} {k k' : Sim.BitcoinClient} {max : Nat} {config : Config} {s : State}
  {p p' : Sim.BitcoinClient × List Call}

/-! ## What is left of a gap -/

theorem Bridges.nodup {g : Gap} (hrooted : node.Rooted) (h : Bridges node k max g) :
    (g.headers.map (·.hash)).Nodup := by
  obtain ⟨parent, hleads⟩ := h.leads
  exact (hleads.stands hrooted h.height).nodup

def gapAbove (t : Nat) : List Header → Option Gap
  | [] => none
  | h :: rest => some ⟨t, h :: rest⟩

/-- **Resuming.** When the contract has taken the first headers of a gap, a walk finds the others. -/
theorem Bridges.rest {tip : Nat} {xs ys : List Header} (hrooted : node.Rooted)
    (h : Bridges node k max ⟨tip, xs ++ ys⟩) (hxs : xs ≠ []) (ht : k.Took tip xs k') :
    Finds node k' max (gapAbove (tip + xs.length) ys) := by
  obtain ⟨parent, hleads⟩ := h.leads
  obtain ⟨mid, hfirst, hrest⟩ := Sim.BitcoinNode.leads_append.mp hleads
  obtain ⟨x, hx, rfl⟩ := hfirst.getLast? hxs
  have htip := ht.tip hx
  cases ys with
  | nil =>
    have hrest : x.hash = node.best := hrest
    exact .inl (by rw [htip, hrest])
  | cons y ys =>
    have hnodup := h.nodup hrooted
    rw [List.map_append, List.nodup_append] at hnodup
    refine ⟨⟨by simp, ?_, x.hash, hrest⟩, fun parent' hparent' => .inl ?_, ?_, ?_⟩
    · rw [h.height]
      simp only [Gap.target, List.length_append]
      congr 1
      omega
    · rw [htip]
      exact hparent'.parent_eq hrest (by simp)
    · -- the contract ends at the last header taken, and none of the others has its hash
      refine Sim.BitcoinClient.lacks_of_above (Nat.le_of_eq (by rw [htip])) fun z hz hhash => ?_
      rw [htip] at hhash
      exact hnodup.2.2 _ (List.mem_map_of_mem (List.mem_of_getLast? hx)) _ (List.mem_map_of_mem hz) hhash.symm
    · have := h.short
      simp only [List.length_append] at this ⊢
      omega

/-! ## Cycles that fail -/

/-- Between cycles of which all have failed: nothing was taken, or the first headers of the gap were. -/
def Underway (node : Sim.BitcoinNode) (config : Config) (k : Sim.BitcoinClient)
    (p : Sim.BitcoinClient × List Call) : Prop :=
  Stayed (k, []) p ∨
    ∃ tip xs ys, Bridges node k config.maxWalkBack ⟨tip, xs ++ ys⟩ ∧ xs ≠ [] ∧ 0 < config.batchSize ∧
      Brought (k, []) tip xs p

/-- Nothing was missing and nothing was taken, or the gap was closed. -/
def Settled (config : Config) (k : Sim.BitcoinClient) :
    Option Gap → (p : Sim.BitcoinClient × List Call) → Prop
  | none, p => Stayed (k, []) p
  | some g, p => 0 < config.batchSize ∧ Brought (k, []) g.tipHeight g.headers p

/-- While nothing was taken, a walk finds what it would have found at first. -/
theorem ensures_cycle_of_stayed (hstayed : Stayed (k, []) p) :
    (runCycle config).Ensures ((bitcoinPeers node).recording.failing True) s p
      (fun _ _ p' => ∃ found, Finds node k config.maxWalkBack found ∧ Settled config k found p')
      fun _ _ p' => Underway node config k p' := by
  have hgap : (findGap config).Ensures ((bitcoinReads node).failing True) s p.1
      (fun g s' k' => s' = s ∧ k' = p.1 ∧ Finds node p.1 config.maxWalkBack g)
      fun _ s' k' => s' = s ∧ k' = p.1 ∧ True :=
    Cycle.Ensures.mono ensures_findGap_finds (fun _ _ _ h => h) fun _ _ _ h => ⟨h.1, h.2, trivial⟩
  refine Cycle.Ensures.mono (ensures_recordedCycle hgap fun g hg => hg.nonempty) ?_ ?_
  · intro report s' p' hend
    obtain ⟨found, hfinds, -, hclosed⟩ := hend
    refine ⟨found, hfinds.congr hstayed.entries.symm, ?_⟩
    cases found with
    | none =>
      obtain rfl : p' = p := hclosed
      exact hstayed
    | some g => exact ⟨hclosed.1, hstayed.brought hclosed.2⟩
  · intro x s' p' hend
    obtain ⟨-, ⟨-, rfl⟩ | ⟨g, hfinds, ⟨-, hsame⟩ | ⟨hsize, hpart, -⟩⟩⟩ := hend
    · exact .inl hstayed
    · exact .inl (hstayed.trans hsame)
    · obtain hsame | ⟨taken, rest, htaken, hne, hbrought⟩ := hpart
      · exact .inl (hstayed.trans hsame)
      · have hfinds : Finds node k config.maxWalkBack (some g) := hfinds.congr hstayed.entries.symm
        refine .inr ⟨g.tipHeight, taken, rest, ?_, hne, hsize, hstayed.brought hbrought⟩
        rw [← htaken]
        exact hfinds

/-- When the first headers of a gap were taken, a walk finds the rest. -/
theorem ensures_cycle_of_brought {tip : Nat} {xs ys : List Header} (hrooted : node.Rooted)
    (hrun : node.stalled = false) (hbridges : Bridges node k config.maxWalkBack ⟨tip, xs ++ ys⟩) (hxs : xs ≠ [])
    (hsize : 0 < config.batchSize) (hbrought : Brought (k, []) tip xs p) :
    (runCycle config).Ensures ((bitcoinPeers node).recording.failing True) s p
      (fun _ _ p' => ∃ found, Finds node k config.maxWalkBack found ∧ Settled config k found p')
      fun _ _ p' => Underway node config k p' := by
  have hfinds := hbridges.rest hrooted hxs hbrought.took
  have hgap : (findGap config).Ensures ((bitcoinReads node).failing True) s p.1 _ _ :=
    ensures_findGap_of_finds (fun _ => hrun) hfinds
  refine Cycle.Ensures.mono (ensures_recordedCycle hgap ?_) ?_ ?_
  · intro g hg
    rw [← hg] at hfinds
    exact hfinds.nonempty
  · intro report s' p' hend
    obtain ⟨found, rfl, -, hclosed⟩ := hend
    refine ⟨some ⟨tip, xs ++ ys⟩, hbridges, hsize, ?_⟩
    cases ys with
    | nil =>
      obtain rfl : p' = p := hclosed
      rw [List.append_nil]
      exact hbrought
    | cons y ys => exact hbrought.append hxs hclosed.2
  · intro x s' p' hend
    obtain ⟨-, ⟨-, rfl⟩ | ⟨g, hg, ⟨hzero, -⟩ | ⟨-, hpart, -⟩⟩⟩ := hend
    · exact .inr ⟨tip, xs, ys, hbridges, hxs, hsize, hbrought⟩
    · omega
    · obtain rfl : g = ⟨tip + xs.length, ys⟩ := by
        cases ys with
        | nil => cases hg
        | cons y ys => exact Option.some.inj hg
      obtain hsame | ⟨taken, rest, rfl, -, hmore⟩ := hpart
      · exact .inr ⟨tip, xs, ys, hbridges, hxs, hsize, hbrought.stayed hsame⟩
      · refine .inr ⟨tip, xs ++ taken, rest, ?_, by simp [hxs], hsize, hbrought.append hxs hmore⟩
        rw [List.append_assoc]
        exact hbridges

theorem ensures_cycle_of_underway (hrooted : node.Rooted) (hrun : node.stalled = false)
    (h : Underway node config k p) :
    (runCycle config).Ensures ((bitcoinPeers node).recording.failing True) s p
      (fun _ _ p' => ∃ found, Finds node k config.maxWalkBack found ∧ Settled config k found p')
      fun _ _ p' => Underway node config k p' := by
  obtain hstayed | ⟨tip, xs, ys, hbridges, hxs, hsize, hbrought⟩ := h
  · exact ensures_cycle_of_stayed hstayed
  · exact ensures_cycle_of_brought hrooted hrun hbridges hxs hsize hbrought

/-! ## Without faults -/

section NoFaults

variable {followed : Nat} {policy : Policy} {w : World Sim.Network} {found : Option Gap}

theorem exists_findGap_of_finds (hf : 0 < followed) (hw : Peers node w.peers k)
    (h : Finds node k config.maxWalkBack found) :
    ∃ w', Sim.Network.cycle followed policy (findGap config) s w = (.done (.ok found, s), w') := by
  have hgap : (findGap config).Ensures ((bitcoinReads node).failing False) s k _ _ :=
    ensures_findGap_of_finds (fun _ => hw.running) h
  have hgap := hgap.of_asking
  rw [Conduct.failing_false] at hgap
  obtain ⟨r, s', k', w', hcycle, hend, -⟩ := (embodies_peers node).cycle hf policy hgap hw
  cases r with
  | error x => exact hend.2.2.elim
  | ok found' =>
    obtain ⟨rfl, -, rfl⟩ := hend
    exact ⟨w', hcycle⟩

theorem exists_runCycle_of_finds (hf : 0 < followed) (hw : Peers node w.peers k)
    (h : Finds node k config.maxWalkBack found) (hrefused : k.refused = none)
    (hlinks : ∀ g, found = some g →
      0 < config.batchSize ∧ Sim.BitcoinClient.links (k.heldAt g.tipHeight) g.headers = true) :
    ∃ report s' w', Sim.Network.cycle followed policy (runCycle config) s w = (.done (.ok report, s'), w') ∧
      Follows config k s found report s' w'.peers.bitcoinClient := by
  have hgap : (findGap config).Ensures ((bitcoinReads node).failing False) s k _ _ :=
    ensures_findGap_of_finds (fun _ => hw.running) h
  have hne : ∀ g, some g = found → g.headers ≠ [] := by
    intro g hg
    rw [← hg] at h
    exact h.nonempty
  have hrecorded : (runCycle config).Ensures ((bitcoinPeers node).recording.failing False) s (k, []) _ _ :=
    ensures_recordedCycle hgap hne
  have hcycle := hrecorded.of_recording
  rw [Conduct.failing_false] at hcycle
  obtain ⟨r, s', k', w', hrun, hend, hw', -⟩ := (embodies_peers node).cycle hf policy hcycle hw
  obtain rfl := hw'.client
  cases r with
  | ok report =>
    obtain ⟨_, _, rfl, hfollows, -⟩ := hend
    exact ⟨report, s', w', hrun, hfollows⟩
  | error x =>
    obtain ⟨_, -, ⟨hfaulty, -⟩ | ⟨g, hg, hbroken⟩⟩ := hend
    · exact hfaulty.elim
    · -- nothing is in the way of a submission
      obtain ⟨hsize, hg⟩ := hlinks g hg.symm
      obtain ⟨hzero, -⟩ | ⟨-, -, hfaulty | hrefuses | hbreaks⟩ := hbroken
      · omega
      · exact hfaulty.elim
      · exact absurd hrefused hrefuses
      · cases hg.symm.trans hbreaks

end NoFaults

/-! ## A last cycle that ends well -/

/-- **Resumption.** Cycles fail, at whatever call, also at submissions that are taken all the same, and then
one ends well. Over all of them the contract takes the headers of the gap that there was at first, in order and
each once, and comes to hold what one cycle without faults brings it to. -/
theorem aborted_cycles_resume {followed : Nat} (hf : 0 < followed) (policy : Policy) {s₀ s' : State}
    {report : Report} {w : World Sim.Network} (hrooted : node.Rooted)
    (hw : Peers node w.peers { k with refused := none })
    (h : Cycle.Aborted ((bitcoinPeers node).recording.failing True) (runCycle config) s₀ (k, []) s p)
    (hok : ((runCycle config).start s).Runs ((bitcoinPeers node).recording.failing True) p
      (.ok report, s') p') :
    ∃ found w₀ report₁ s₁ w₁,
      Sim.Network.cycle followed policy (findGap config) s₀ w = (.done (.ok found, s₀), w₀) ∧
      takenHeaders p'.2 = found.elim [] Gap.headers ∧
      ((takenHeaders p'.2).map (·.hash)).Nodup ∧
      Sim.Network.cycle followed policy (runCycle config) s₀ w = (.done (.ok report₁, s₁), w₁) ∧
      p'.1.entries = w₁.peers.bitcoinClient.entries := by
  have hcycle : ∀ s p, Underway node config k p → _ := fun s p =>
    ensures_cycle_of_underway (s := s) hrooted hw.running
  have hunderway : Underway node config k p :=
    h.keeps (I := fun _ p => Underway node config k p) (.inl ⟨rfl, rfl, rfl⟩) hcycle
  obtain ⟨found, hfinds, hsettled⟩ := (hcycle s p hunderway).of_runs hok
  have hfinds' : Finds node { k with refused := none } config.maxWalkBack found :=
    Finds.congr (k := k) rfl hfinds
  obtain ⟨w₀, hfound⟩ := exists_findGap_of_finds (s := s₀) hf hw hfinds'
  have hlinks : ∀ g, found = some g →
      0 < config.batchSize ∧ Sim.BitcoinClient.links (k.heldAt g.tipHeight) g.headers = true := by
    intro g hg
    rw [hg] at hsettled
    exact ⟨hsettled.1, hsettled.2.took.links⟩
  obtain ⟨report₁, s₁, w₁, hrun, hfollows⟩ := exists_runCycle_of_finds (s := s₀) hf hw hfinds' rfl hlinks
  have hrecord : takenHeaders p'.2 = found.elim [] Gap.headers ∧
      ((takenHeaders p'.2).map (·.hash)).Nodup ∧ p'.1.entries = w₁.peers.bitcoinClient.entries := by
    cases found with
    | none =>
      obtain ⟨-, -, hclient⟩ := hfollows
      rw [hclient]
      refine ⟨hsettled.record, ?_, hsettled.entries⟩
      rw [hsettled.record]
      exact List.nodup_nil
    | some g =>
      obtain ⟨-, hbrought⟩ := hsettled
      have hrecord : takenHeaders p'.2 = g.headers := hbrought.record
      refine ⟨hrecord, ?_, hbrought.took.entries.trans hfollows.2.2.entries.symm⟩
      rw [hrecord]
      exact hfinds.nodup hrooted
  exact ⟨found, w₀, report₁, s₁, w₁, hfound, hrecord.1, hrecord.2.1, hrun, hrecord.2.2⟩

/-- A node that knows two branches on top of its first header, and a contract on the shorter one. -/
def rootedPeers : Sim.Network :=
  { (default : Sim.Network) with
    bitcoinNode :=
      { headers := (⟨.replicate 1, .zero, .zero, []⟩, 0) :: (⟨.replicate 9, .replicate 1, .zero, []⟩, 1) ::
          branch.zip [1, 2]
        txids := []
        genesis := .replicate 1
        best := .replicate 3
        headerFetches := 0
        stalled := false }
    bitcoinClient := .holding 0 [.replicate 1, .replicate 9] }

/-- In batches of one header, the answer to the first submission is lost. The contract is then on the other
branch and no higher than before; the next cycle brings it the second header alone. -/
theorem lost_answer_resumed :
    ∃ s p report s' p',
      Cycle.Aborted ((bitcoinPeers rootedPeers.bitcoinNode).recording.failing True)
        (runCycle ⟨1, 5, ⟨0⟩, some 3⟩) ⟨0⟩ (rootedPeers.bitcoinClient, []) s p ∧
      p.1.tip = (1, .replicate 2) ∧
      ((runCycle ⟨1, 5, ⟨0⟩, some 3⟩).start s).Runs
        ((bitcoinPeers rootedPeers.bitcoinNode).recording.failing True) p (.ok report, s') p' ∧
      takenHeaders p'.2 = branch ∧ p'.1.tip = (2, .replicate 3) := by
  have hrooted : rootedPeers.bitcoinNode.Rooted := Sim.BitcoinNode.rooted_of_forall (by decide)
  have hpeers : Peers rootedPeers.bitcoinNode (World.start rootedPeers).peers
      { rootedPeers.bitcoinClient with refused := none } := ⟨rfl, rfl, ⟨_, rfl⟩, rfl⟩
  have hleft : (Sim.Network.lostThenSound 1 ⟨10, 1, 1⟩ (runCycle ⟨1, 5, ⟨0⟩, some 3⟩) ⟨0⟩
      (World.start rootedPeers)).map (fun q => (q.1.2.peers.bitcoinClient.tip, q.2.2.peers.bitcoinClient.tip)) =
        some ((1, .replicate 2), (2, .replicate 3)) := by decide +kernel
  obtain ⟨⟨⟨s, w⟩, s', w'⟩, hrun, htips⟩ := Option.map_eq_some_iff.mp hleft
  have hgoverns : (bitcoinPeers rootedPeers.bitcoinNode).Governs Sim.Network.handler _ :=
    (embodies_peers rootedPeers.bitcoinNode).governs (fun _ _ => rfl) (fun _ _ _ => rfl) fun _ _ _ _ => rfl
  obtain ⟨p, report, p', haborted, hw, hsound, hw'⟩ := hgoverns.lostThenSound
    (I := fun _ p => Underway rootedPeers.bitcoinNode ⟨1, 5, ⟨0⟩, some 3⟩ rootedPeers.bitcoinClient p)
    (.inl ⟨rfl, rfl, rfl⟩)
    (fun s p hp => Cycle.Ensures.mono (ensures_cycle_of_underway hrooted rfl hp) (fun _ _ _ _ => trivial)
      fun _ _ _ h => h)
    hpeers hrun
  have hgap : (Sim.Network.cycle 1 ⟨10, 1, 1⟩ (findGap ⟨1, 5, ⟨0⟩, some 3⟩) (⟨0⟩ : State)
      (World.start rootedPeers)).1.success? = some (some ⟨0, branch⟩, ⟨0⟩) := by decide +kernel
  obtain ⟨found, w₀, report₁, s₁, w₁, hfound, hrecord, -⟩ :=
    aborted_cycles_resume Nat.one_pos ⟨10, 1, 1⟩ hrooted hpeers haborted hsound
  rw [hfound, Outcome.success?_eq_some] at hgap
  cases hgap
  obtain ⟨htip, htip'⟩ := Prod.mk.inj htips
  rw [hw.client] at htip
  rw [hw'.client] at htip'
  exact ⟨s, p, report, s', p', haborted, htip, hsound, hrecord, htip'⟩

end Sync.Bitcoin

end HeaderRelay
