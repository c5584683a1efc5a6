import HeaderRelay.Proofs.BatchedSync
import HeaderRelay.Proofs.FaultyPeers

/-!
# Runs of the batched engine over unreliable peers

Cycles follow one another, each from what the one before has left, and any call of any of them may fail
(`Reached`). What was queued is neither lost nor queued again, and is with the relay or waits
(`no_loss_no_duplication`): `Tracks` holds in whatever a run reaches.

`Reached.of_run` says that timed cycles over a network with faults are such a run, whatever the policy.
-/
namespace HeaderRelay.Sync.Batched

open Consensus (Header)
open Peer (Conduct Handler)

variable {chain : Nat → Header} {m checked : Nat} {start : Sim.RelayStore} {stored stale rest : List Nat}
  {s : State Header} {e : ConsensusPeers}

/-! ## Any run -/

/-- States of the engine and of its peers after some cycles, however these ended. -/
inductive Reached (C : Conduct ConsensusPeers) (size : Nat) (s₀ : State Header) (e₀ : ConsensusPeers) :
    State Header → ConsensusPeers → Prop where
  | start : Reached C size s₀ e₀ s₀ e₀
  | cycle {s e r s' e'} : Reached C size s₀ e₀ s e → ((runCycle size).start s).Runs C e (r, s') e' →
    Reached C size s₀ e₀ s' e'

theorem ensures_runCycle_unreliable (hheight : ∀ h, (chain h).height = h) {size : Nat}
    (h : Tracks chain m checked start stored stale rest s e) :
    (runCycle size).Ensures (unreliablePeers chain) s e
      (fun r s' e' => ∃ top drained stored' rest',
        Done chain (max 1 size) s e r s' e' (selection chain m checked start e top) drained ∧
        Tracks chain m (max checked top) start stored' [] rest' s' e')
      fun _ s' e' => ∃ checked' stored stale rest, Tracks chain m checked' start stored stale rest s' e' := by
  refine Cycle.Ensures.mono (ensures_runCycle hheight h trivial (absurd trivial)
    (fun _ _ => ⟨trivial, trivial⟩)
    (fun _ _ => ⟨trivial, fun _ _ _ => trivial⟩) (absurd trivial)) ?_ fun _ _ _ hx => hx.2
  rintro r s' e' ⟨top, drained, stored', rest', -, hdone, htracks, -⟩
  exact ⟨top, drained, stored', rest', hdone, htracks⟩

theorem Reached.tracks (hheight : ∀ h, (chain h).height = h) {size : Nat} {client : Sim.ConsensusClient}
    (h : Reached (unreliablePeers chain) size (State.fresh m) ⟨client, start, []⟩ s e) :
    ∃ checked stored stale rest, Tracks chain m checked start stored stale rest s e := by
  induction h with
  | start => exact ⟨0, [], [], [], Tracks.fresh chain m client start⟩
  | @cycle s e r s' e' _ hrun ih =>
    obtain ⟨checked, stored, stale, rest, htracks⟩ := ih
    have hend := (ensures_runCycle_unreliable hheight htracks).of_runs hrun
    cases r with
    | error x => exact hend
    | ok report =>
      obtain ⟨top, -, stored', rest', -, htracks'⟩ := hend
      exact ⟨_, stored', [], rest', htracks'⟩

/-- What a timed run of a cycle leaves, whatever the faults, is reached. -/
theorem Reached.of_run (hheight : ∀ h, (chain h).height = h) {size followed : Nat} {policy : Policy}
    {client : Sim.ConsensusClient} {σ : Type} {H : Handler σ} {R : World σ → ConsensusPeers → Prop}
    {w w' : World σ}
    {r : Relayed Report} {s' : State Header}
    (hC : (consensusPeers chain (fun _ => True) fun _ => True).Governs H R)
    (h : Reached (unreliablePeers chain) size (State.fresh m) ⟨client, start, []⟩ s e) (hw : R w e)
    (hrun : ((runCycle size).start s).run followed policy H none w = (.done (r, s'), w')) :
    ∃ e', Reached (unreliablePeers chain) size (State.fresh m) ⟨client, start, []⟩ s' e' ∧ R w' e' := by
  obtain ⟨checked, stored, stale, rest, htracks⟩ := h.tracks hheight
  obtain ⟨e', hruns, hw'⟩ := hC.runs (ensures_runCycle_unreliable hheight htracks) hw hrun
  exact ⟨e', h.cycle hruns, hw'⟩

theorem ensures_lightBlockOf_unchanged {header : Header} :
    (lightBlockOf header).Ensures (unreliablePeers chain) s e
      (fun _ s' _ => s' = s) fun _ s' _ => s' = s := by
  refine Cycle.ensures_bind.mpr (Cycle.ensures_read.mpr ⟨trivial, fun commit e₁ _ => ?_, fun _ _ _ => rfl⟩)
  refine Cycle.ensures_bind.mpr (Cycle.ensures_read.mpr ⟨trivial, fun validators e₂ _ => ?_,
    fun _ _ _ => rfl⟩)
  exact Cycle.ensures_ite (fun _ => rfl) fun _ => rfl

theorem ensures_lightBlocksOf_unchanged {headers : List Header} :
    (lightBlocksOf headers).Ensures (unreliablePeers chain) s e
      (fun _ s' _ => s' = s) fun _ s' _ => s' = s := by
  induction headers generalizing e with
  | nil => exact rfl
  | cons h headers ih =>
    refine Cycle.ensures_bind.mpr (Cycle.Ensures.mono ensures_lightBlockOf_unchanged ?_ fun _ _ _ hx => hx)
    rintro b _ e₁ rfl
    refine Cycle.ensures_bind.mpr (Cycle.Ensures.mono ih ?_ fun _ _ _ hx => hx)
    rintro blocks _ e₂ rfl
    exact rfl

theorem ensures_sendBatch_unchanged {size : Nat} {prev : Header} :
    (sendBatch size prev).Ensures (unreliablePeers chain) s e (fun _ _ _ => True) fun _ s' _ => s' = s := by
  refine Cycle.ensures_bind.mpr (Cycle.ensures_get.mpr (Cycle.ensures_bind.mpr ?_))
  refine Cycle.Ensures.mono ensures_lightBlocksOf_unchanged ?_ fun _ _ _ hx => hx
  rintro blocks _ e₁ rfl
  refine Cycle.ensures_bind.mpr (Cycle.ensures_read.mpr ⟨trivial, fun entries e₂ _ => ?_, fun _ _ _ => rfl⟩)
  split
  · refine Cycle.ensures_ite (fun _ => rfl) fun _ => ?_
    refine Cycle.ensures_bind.mpr (Cycle.ensures_outcome.mpr ⟨rfl, fun r e₃ _ => ?_⟩)
    cases r with
    | error x => exact Cycle.ensures_bind.mpr (Cycle.ensures_log.mpr rfl)
    | ok a => exact Cycle.ensures_bind.mpr (Cycle.ensures_log.mpr trivial)
  · exact rfl

/-- **No loss, no duplication.** However the calls of any cycles fail, the headers queued rise in height,
and those that the relay has taken followed by those that wait above its best height are exactly they; a
cycle that ends well has drained from the queue to the relay what it reports and leaves less than a batch;
a flush that fails leaves the engine as it was. -/
theorem no_loss_no_duplication (hheight : ∀ h, (chain h).height = h) {size : Nat}
    {client : Sim.ConsensusClient}
    (h : Reached (unreliablePeers chain) size (State.fresh m) ⟨client, start, []⟩ s e) :
    e.queued.Pairwise (· < ·) ∧
      (∃ appended, e.store.entries = start.entries ++ appended ∧
        appended ++ (s.pending.filter fun h => e.store.best.height < h.height).map Header.entry =
          e.queued.map fun h => (chain h).entry) ∧
      (∀ report s' e', ((runCycle size).start s).Runs (unreliablePeers chain) e (.ok report, s') e' →
        s'.pending.length < max 1 size ∧ ∃ selected drained, e'.queued = e.queued ++ selected ∧
          s.pending.dropWhile (fun h => h.height ≤ e.store.best.height) ++ selected.map chain =
            drained ++ s'.pending ∧
          e'.store.entries = e.store.entries ++ drained.map Header.entry ∧
          report.submitted = drained.length) ∧
      ∀ size prev x s₁ e₁ s' e',
        ((sendBatch size prev).start s₁).Runs (unreliablePeers chain) e₁ (.error x, s') e' → s' = s₁ := by
  obtain ⟨checked, stored, stale, rest, htracks⟩ := h.tracks hheight
  refine ⟨(List.pairwise_cons.mp htracks.ascending).2, ⟨_, htracks.entries, ?_⟩, ?_, ?_⟩
  · obtain ⟨hstored, hrest⟩ := htracks.between hheight
    have hfilter : s.pending.filter (fun h => e.store.best.height < h.height) = rest.map chain := by
      rw [htracks.pending, List.map_append, List.filter_append, List.filter_eq_nil_iff.mpr,
        List.filter_eq_self.mpr, List.nil_append]
      · intro x hx
        obtain ⟨y, hy, rfl⟩ := List.mem_map.mp hx
        rw [hheight]
        exact decide_eq_true (hrest y hy)
      · intro x hx
        obtain ⟨y, hy, rfl⟩ := List.mem_map.mp hx
        rw [hheight, decide_eq_true_eq]
        exact Nat.not_lt.mpr (hstored y (htracks.stale.subset hy))
    rw [hfilter, htracks.queued, List.map_append, List.map_map]
    rfl
  · intro report s' e' hrun
    obtain ⟨top, drained, stored', rest', hdone, -⟩ :=
      (ensures_runCycle_unreliable hheight htracks).of_runs hrun
    refine ⟨hdone.waiting, _, drained.map chain, hdone.queued, hdone.moved, ?_, ?_⟩
    · rw [hdone.entries, List.map_map]
      rfl
    · rw [hdone.submitted, List.length_map]
  · intro size prev x s₁ e₁ s' e' hrun
    exact ensures_sendBatch_unchanged.of_runs hrun

/-- What a timed run of a failing cycle leaves: the queue, the relay's entries, and the heights queued. -/
def leftByFailure (run : Outcome (Relayed Report × State Header) × World Sim.Network) :
    Option (List Header × List Consensus.ChainEntry × List Nat) :=
  match run with
  | (.done (.error _, s), w) =>
    some (s.pending, w.peers.relayStore.entries, w.log.reverse.filterMap queuedHeight?)
  | _ => none

/-- The relay takes height 6 and its answer is lost: the queue keeps the header, and does not count it as one
that waits. -/
theorem lost_answer_no_loss :
    ∃ s e, Reached (unreliablePeers plainChain) 1 (State.fresh 5)
        ⟨.trusting (plainChain 1), .holding (plainChain 1).entry, []⟩ s e ∧
      s.pending = [plainChain 6] ∧ e.queued = [6] ∧
      e.store.entries = [(plainChain 1).entry] ++ [(plainChain 6).entry] := by
  have hC := (governs_unreliablePeers plainChain (fun _ => rfl) 1).losing Peer.Call.isSubmission (.timeout 10)
  have hw : FaultyPeers plainChain 1 (World.start (grow plainChain 7 plainPeers))
      ⟨.trusting (plainChain 1), .holding (plainChain 1).entry, []⟩ :=
    ⟨⟨7, (plainPeers_honest []).toSided.grow (fun _ => rfl) (by decide)⟩, by rintro p ⟨⟩, rfl⟩
  have hleft : leftByFailure (((runCycle 1).start (State.fresh 5)).run 1 ⟨10, 1, 1⟩
      (Sim.Network.handler.losing Peer.Call.isSubmission (.timeout 10)) none
      (World.start (grow plainChain 7 plainPeers))) =
        some ([plainChain 6], [(plainChain 1).entry, (plainChain 6).entry], [6]) := by decide +kernel
  unfold leftByFailure at hleft
  split at hleft
  · rename_i x s w hrun
    obtain ⟨hpending, hleft⟩ := Prod.mk.inj (Option.some.inj hleft)
    obtain ⟨hentries, hqueued⟩ := Prod.mk.inj hleft
    obtain ⟨e, hreached, hw'⟩ := Reached.of_run (fun _ => rfl) hC .start hw hrun
    have hqueued' : e.queued = [6] := hw'.queued.trans hqueued
    obtain ⟨top, hsided⟩ := hw'.sided
    rw [hsided.store] at hentries
    have happend : e.store.entries = (Sim.RelayStore.holding (plainChain 1).entry).entries ++
        [(plainChain 6).entry] := hentries
    have hbest : e.store.best = (plainChain 6).entry := Sim.RelayStore.best_of_entries happend
    obtain ⟨-, ⟨appended, happended, hwaiting⟩, -⟩ := no_loss_no_duplication (fun _ => rfl) hreached
    rw [hpending, hbest, hqueued'] at hwaiting
    obtain rfl : appended = [(plainChain 6).entry] := (List.append_nil appended).symm.trans hwaiting
    exact ⟨s, e, hreached, hpending, hqueued', happended⟩
  · cases hleft

end HeaderRelay.Sync.Batched
