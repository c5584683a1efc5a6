import HeaderRelay.Proofs.ConsensusPeers
import HeaderRelay.Proofs.Prompt

/-!
# Simulated peers of the consensus engines

A simulated node that `Serves` a chain from one height to another answers as an honest node is to, and
stays so while its chain grows (`Serves.push`). With it go the simulated contracts (`Sided`); as long as no
fault waits (`HonestPeers`), such networks keep to the conduct of the consensus peers
(`embodies_consensusPeers`).

`cyclesAt` runs cycles of an engine at some network heights, with the chain growing between them. The plain
chain, which any cycle can be tried on, has a validator set that never changes.
-/
namespace HeaderRelay.Sync

open Consensus (Header Commit LightBlock)
open Peer (Conduct)

/-! ## A simulated honest node -/

/-- The node serves `chain` from `low` to `top`. -/
structure Serves (chain : Nat → Header) (low top : Nat) (n : Sim.ConsensusNode) : Prop where
  running : n.stalled = false
  latest : n.latest = top
  headers : n.headers = (List.range' low (top + 1 - low)).map chain
  nonempty : low ≤ top

variable {chain : Nat → Header} {low top : Nat} {n : Sim.ConsensusNode}

theorem Serves.headerAt (hheight : ∀ h, (chain h).height = h) (hn : Serves chain low top n) (height : Nat) :
    (n.headerAt height).Served (low ≤ height ∧ height ≤ top) (· = chain height) ∧
      (n.headerAt height).Final := by
  unfold Sim.ConsensusNode.headerAt
  split
  · rename_i h hfind
    have hmem := List.mem_of_find?_eq_some hfind
    have hh := List.find?_some hfind
    rw [hn.headers] at hmem
    obtain ⟨i, -, rfl⟩ := List.mem_map.mp hmem
    rw [decide_eq_true_eq, hheight] at hh
    exact ⟨by rw [hh]; rfl, by rintro x ⟨⟩⟩
  · rename_i hfind
    refine ⟨?_, by rintro x ⟨⟩; rfl⟩
    rintro ⟨hlo, hhi⟩
    rw [List.find?_eq_none] at hfind
    refine hfind (chain height) ?_ (by simp [hheight])
    rw [hn.headers]
    exact List.mem_map_of_mem (List.mem_range'_1.mpr ⟨hlo, by omega⟩)

theorem Serves.headerByHash (hn : Serves chain low top n) (hash : Hash) :
    (n.headerByHash hash).Served (∃ h, (low ≤ h ∧ h ≤ top) ∧ (chain h).hash = hash)
        (fun x => ∃ h, (low ≤ h ∧ h ≤ top) ∧ (chain h).hash = hash ∧ x = chain h) ∧
      (n.headerByHash hash).Final := by
  unfold Sim.ConsensusNode.headerByHash
  split
  · rename_i h hfind
    have hmem := List.mem_of_find?_eq_some hfind
    have hh := List.find?_some hfind
    rw [hn.headers] at hmem
    obtain ⟨i, hi, rfl⟩ := List.mem_map.mp hmem
    have hi := List.mem_range'_1.mp hi
    exact ⟨⟨i, by omega, of_decide_eq_true hh, rfl⟩, by rintro x ⟨⟩⟩
  · rename_i hfind
    refine ⟨?_, by rintro x ⟨⟩; rfl⟩
    rintro ⟨h, hh, hhash⟩
    rw [List.find?_eq_none] at hfind
    refine hfind (chain h) ?_ (by simp [hhash])
    rw [hn.headers]
    exact List.mem_map_of_mem (List.mem_range'_1.mpr (by omega))

theorem Serves.commit (hheight : ∀ h, (chain h).height = h) (hn : Serves chain low top n) (height : Nat) :
    (n.commit height).Served ((low ≤ height ∧ height ≤ top) ∧ low ≤ height + 1 ∧ height + 1 ≤ top)
        (fun c : Commit => c.blockHash = (chain height).hash) ∧ (n.commit height).Final := by
  obtain ⟨hserved, hfinal⟩ := hn.headerAt hheight height
  obtain ⟨hserved', hfinal'⟩ := hn.headerAt hheight (height + 1)
  unfold Sim.ConsensusNode.commit
  cases h : n.headerAt height with
  | error x =>
    rw [h] at hserved hfinal
    exact ⟨fun hable => hserved hable.1, by rintro _ ⟨⟩; exact hfinal x rfl⟩
  | ok header =>
    rw [h] at hserved
    obtain rfl := hserved
    cases h' : n.headerAt (height + 1) with
    | error x =>
      rw [h'] at hserved' hfinal'
      exact ⟨fun hable => hserved' hable.2, by rintro _ ⟨⟩; exact hfinal' x rfl⟩
    | ok _ => exact ⟨rfl, by rintro x ⟨⟩⟩

theorem Serves.validatorSet (hheight : ∀ h, (chain h).height = h) (hn : Serves chain low top n)
    (height : Nat) :
    (n.validatorSet height).Served (low ≤ height ∧ height ≤ top) (fun _ => True) ∧
      (n.validatorSet height).Final := by
  obtain ⟨hserved, hfinal⟩ := hn.headerAt hheight height
  unfold Sim.ConsensusNode.validatorSet
  cases h : n.headerAt height with
  | error x =>
    rw [h] at hserved hfinal
    exact ⟨hserved, by rintro _ ⟨⟩; exact hfinal x rfl⟩
  | ok header => exact ⟨trivial, by rintro x ⟨⟩⟩

theorem Serves.serve (hheight : ∀ h, (chain h).height = h) (hn : Serves chain low top n)
    (c : Peer.ConsensusNode) :
    ∃ r n', n.serve c = (some r, n') ∧ r.Final ∧
      honestAnswer chain (fun h => low ≤ h ∧ h ≤ top) (· = top) c r ∧ Serves chain low top n' := by
  cases c with
  | latestHeight => exact ⟨.ok n.latest, n, rfl, by rintro x ⟨⟩, hn.latest, hn⟩
  | header height =>
    obtain ⟨hserved, hfinal⟩ := hn.headerAt hheight height
    refine ⟨n.headerAt height, n, ?_, hfinal, hserved, hn⟩
    simp only [Sim.ConsensusNode.serve, hn.running]
    rfl
  | headerByHash hash =>
    obtain ⟨hserved, hfinal⟩ := hn.headerByHash hash
    exact ⟨n.headerByHash hash, n, rfl, hfinal, hserved, hn⟩
  | commit height =>
    obtain ⟨hserved, hfinal⟩ := hn.commit hheight height
    exact ⟨n.commit height, _, rfl, hfinal, hserved, hn.running, hn.latest, hn.headers, hn.nonempty⟩
  | validatorSet height =>
    obtain ⟨hserved, hfinal⟩ := hn.validatorSet hheight height
    exact ⟨n.validatorSet height, n, rfl, hfinal, hserved, hn⟩
  | blockResults height =>
    refine ⟨.ok ((n.results.lookup height).getD []), n, ?_, by rintro x ⟨⟩, trivial, hn⟩
    simp only [Sim.ConsensusNode.serve, hn.running]
    rfl

/-! ## Growth -/

theorem insertHeader_of_lt {x : Header} {headers : List Header} (h : ∀ y ∈ headers, y.height < x.height) :
    Sim.insertHeader x headers = headers ++ [x] := by
  induction headers with
  | nil => rfl
  | cons y headers ih =>
    have hy := h y List.mem_cons_self
    rw [Sim.insertHeader, if_neg (by omega), if_neg (by omega),
      ih fun z hz => h z (List.mem_cons_of_mem y hz)]
    rfl

theorem Serves.push (hheight : ∀ h, (chain h).height = h) (hn : Serves chain low top n) (count : Nat) :
    Serves chain low (top + count) (n.push ((List.range' (top + 1) count).map chain)) := by
  induction count generalizing n top with
  | zero => exact hn
  | succ count ih =>
    have hlow := hn.nonempty
    have hbelow : ∀ y ∈ n.headers, y.height < (chain (top + 1)).height := by
      intro y hy
      rw [hn.headers] at hy
      obtain ⟨i, hi, rfl⟩ := List.mem_map.mp hy
      have := List.mem_range'_1.mp hi
      rw [hheight, hheight]
      omega
    have hnext : Serves chain low (top + 1) (n.push [chain (top + 1)]) := by
      refine ⟨hn.running, ?_, ?_, by omega⟩
      · show max n.latest (chain (top + 1)).height = top + 1
        rw [hn.latest, hheight]
        omega
      · show Sim.insertHeader (chain (top + 1)) n.headers = _
        rw [insertHeader_of_lt hbelow, hn.headers, show top + 1 + 1 - low = (top + 1 - low) + 1 by omega,
          List.range'_concat, List.map_append, show low + 1 * (top + 1 - low) = top + 1 by omega]
        rfl
    have := ih hnext
    rw [show top + 1 + count = top + (count + 1) by omega] at this
    exact this

def grow (chain : Nat → Header) (top : Nat) (n : Sim.Network) : Sim.Network :=
  { n with
    consensusNode := n.consensusNode.push
      ((List.range' (n.consensusNode.latest + 1) (top - n.consensusNode.latest)).map chain) }

/-! ## Simulated peers -/

structure Sided (chain : Nat → Header) (low top : Nat) (n : Sim.Network) (e : ConsensusPeers) : Prop where
  node : Serves chain low top n.consensusNode
  client : ∃ verifications, n.consensusClient = { e.client with verifications := verifications }
  store : n.relayStore = e.store

theorem Sided.grow {n : Sim.Network} {e : ConsensusPeers} (hheight : ∀ h, (chain h).height = h)
    (h : Sided chain low top n e) {top' : Nat} (hle : top ≤ top') :
    Sided chain low top' (grow chain top' n) e := by
  refine ⟨?_, h.client, h.store⟩
  have := h.node.push hheight (top' - top)
  rw [show top + (top' - top) = top' by omega] at this
  rw [Sync.grow, h.node.latest]
  exact this

theorem final_checkRun (last : Nat) (blocks : List LightBlock) :
    (Sim.ConsensusClient.checkRun last blocks).Final := by
  induction blocks generalizing last with
  | nil => rintro x ⟨⟩
  | cons b blocks ih =>
    unfold Sim.ConsensusClient.checkRun
    split
    · rintro x ⟨⟩
      rfl
    · exact ih b.height

theorem served_verify (k : Sim.ConsensusClient) (prev : Header) (blocks : List LightBlock) :
    (k.verify prev blocks).1.Final ∧
      (k.verify prev blocks).1.Served
        (k.rejecting = false ∧ Sim.ConsensusClient.checkRun prev.height blocks = .ok ())
        (· = blocks.map fun b : LightBlock => b.header.entry) := by
  have hfinal := final_checkRun prev.height blocks
  unfold Sim.ConsensusClient.verify
  cases hk : k.rejecting
  · cases hrun : Sim.ConsensusClient.checkRun prev.height blocks with
    | error x =>
      rw [hrun] at hfinal
      refine ⟨?_, ?_⟩
      · rintro _ ⟨⟩
        exact hfinal x rfl
      · rintro ⟨-, h⟩
        cases h
    | ok u => exact ⟨by rintro x ⟨⟩, rfl⟩
  · refine ⟨?_, ?_⟩
    · rintro x ⟨⟩
      rfl
    · rintro ⟨h, -⟩
      cases h

theorem clientAnswer_serve (k : Sim.ConsensusClient) (verifications : List (List Nat))
    {c : Peer.ConsensusClient} (hc : ∀ height leaf proof, c ≠ .verifyInclusion height leaf proof) :
    ∃ r k' verifications', ({ k with verifications := verifications } : Sim.ConsensusClient).serve c =
        (r, { k' with verifications := verifications' }) ∧ r.Final ∧ clientAnswer k c r k' := by
  cases c with
  | bestCommittedHash => exact ⟨.ok k.trusted.hash, k, verifications, rfl, by rintro x ⟨⟩, rfl⟩
  | currentHeight => exact ⟨.ok k.trusted.height, k, verifications, rfl, by rintro x ⟨⟩, rfl⟩
  | submitLightBlocks prev blocks =>
    refine ⟨(k.submit prev blocks).1, (k.submit prev blocks).2, verifications, ?_, ?_, rfl⟩
    all_goals
      by_cases hprev : prev.hash ≠ k.trusted.hash
      · simp only [Sim.ConsensusClient.serve, Sim.ConsensusClient.submit, if_pos hprev]
        first | rfl | (rintro x ⟨⟩; rfl)
      · simp only [Sim.ConsensusClient.serve, Sim.ConsensusClient.submit, if_neg hprev]
        first | rfl | (rintro x ⟨⟩)
  | verifyLightBlocks prev blocks =>
    obtain ⟨hfinal, hserved⟩ := served_verify k prev blocks
    refine ⟨(k.verify prev blocks).1, k, verifications ++ [blocks.map LightBlock.height], ?_, hfinal, rfl,
      hserved⟩
    simp only [Sim.ConsensusClient.serve, Sim.ConsensusClient.verify]
    split <;> rfl
  | verifyInclusion height leaf proof => exact absurd rfl (hc height leaf proof)

theorem final_store (k : Sim.RelayStore) (c : Peer.RelayStore) : (k.serve c).1.Final := by
  rintro x hx
  cases c with
  | submitHashChain chain =>
    simp only [Sim.RelayStore.serve, Sim.RelayStore.submit] at hx
    split at hx
    · cases hx
      rfl
    split at hx <;> cases hx
    rfl
  | _ => cases hx

theorem Sided.serve (hheight : ∀ h, (chain h).height = h) {n : Sim.Network} {e : ConsensusPeers} {mode : Mode}
    {c : Peer.Call} (h : Sided chain low top n e)
    (hc : (consensusPeers chain (fun h => low ≤ h ∧ h ≤ top) (· = top)).attends mode c) :
    ∃ r n' e', n.serve c = (some r, n') ∧ r.Final ∧
      (consensusPeers chain (fun h => low ≤ h ∧ h ≤ top) (· = top)).answers c e r e' ∧
      Sided chain low top n' e' ∧ n'.faults = n.faults ∧ e'.queued = e.queued := by
  obtain ⟨hnode, ⟨verifications, hclient⟩, hstore⟩ := h
  cases c with
  | consensusNode c =>
    obtain ⟨r, n', hs, hfinal, hans, hnode'⟩ := hnode.serve hheight c
    refine ⟨r, { n with consensusNode := n' }, e, ?_, hfinal, ⟨hans, rfl⟩,
      ⟨hnode', ⟨verifications, hclient⟩, hstore⟩, rfl, rfl⟩
    simp only [Sim.Network.serve, hs]
    rfl
  | consensusClient c =>
    have hknown : ∀ height leaf proof, c ≠ .verifyInclusion height leaf proof := by
      rintro height leaf proof rfl
      exact hc
    obtain ⟨r, k', verifications', hs, hfinal, hans⟩ := clientAnswer_serve e.client verifications hknown
    refine ⟨r, { n with consensusClient := { k' with verifications := verifications' } },
      { e with client := k' }, ?_, hfinal, ⟨k', hans, rfl⟩, ⟨hnode, ⟨verifications', rfl⟩, hstore⟩, rfl, rfl⟩
    simp only [Sim.Network.serve, hclient, hs]
  | relayStore c =>
    refine ⟨_, { n with relayStore := (e.store.serve c).2 }, { e with store := (e.store.serve c).2 }, ?_,
      final_store e.store c, ⟨_, rfl, rfl⟩, ⟨hnode, ⟨verifications, hclient⟩, rfl⟩, rfl, rfl⟩
    simp only [Sim.Network.serve, hstore]
  | bitcoinNode c => exact hc.elim
  | bitcoinClient c => exact hc.elim
  | messages c => exact hc.elim

/-- Simulated peers for whose calls no fault waits. -/
structure HonestPeers (chain : Nat → Header) (low top : Nat) (n : Sim.Network) (e : ConsensusPeers) : Prop
    extends Sided chain low top n e where
  quiet : n.Quiet

/-- Simulated networks with an honest node keep to the conduct. -/
theorem embodies_consensusPeers (hheight : ∀ h, (chain h).height = h) :
    (consensusPeers chain (fun h => low ≤ h ∧ h ≤ top) (· = top)).Embodies (HonestPeers chain low top) where
  quiet h := h.quiet
  noted _ _ h := ⟨⟨h.node, h.client, h.store⟩, h.quiet⟩
  hears h := ⟨⟨h.node, h.client, h.store⟩, h.quiet⟩
  serves h hc := by
    obtain ⟨r, n', e', hs, hfinal, hans, hsided, hfaults, -⟩ := h.toSided.serve hheight hc
    exact ⟨r, n', e', hs, hfinal, hans, hsided, hfaults.trans h.quiet⟩

/-! ## Cycles while the chain grows -/

/-- A cycle at each of some network heights, to which the node's chain has grown before: what the engine
remembers and the world afterwards, if all cycles end well. -/
def cyclesAt {σ α : Type} (followed : Nat) (policy : Policy) (x : Cycle σ α) (chain : Nat → Header) :
    (tops : List Nat) → σ → World Sim.Network → Option (σ × World Sim.Network)
  | [], s, w => some (s, w)
  | top :: tops, s, w =>
    match Sim.Network.cycle followed policy x s { w with peers := grow chain top w.peers } with
    | (.done (.ok _, s), w) => cyclesAt followed policy x chain tops s w
    | _ => none

/-- A cycle that is sure to end well is followed by the cycles at the heights after it. -/
theorem exists_cyclesAt_cons {σ α : Type} {followed top' : Nat} (hf : 0 < followed) (policy : Policy)
    (hheight : ∀ h, (chain h).height = h) {x : Cycle σ α} {tops : List Nat} {s : σ} {w : World Sim.Network}
    {e : ConsensusPeers} {ok : α → σ → ConsensusPeers → Prop} (hw : HonestPeers chain low top w.peers e)
    (hle : top ≤ top')
    (hx : x.Ensures (consensusPeers chain (fun h => low ≤ h ∧ h ≤ top') (· = top')) s e ok
      fun _ _ _ => False) :
    ∃ a s' e' w', ok a s' e' ∧ HonestPeers chain low top' w'.peers e' ∧
      cyclesAt followed policy x chain (top' :: tops) s w = cyclesAt followed policy x chain tops s' w' := by
  have hw' : HonestPeers chain low top' (Sync.grow chain top' w.peers) e :=
    ⟨hw.toSided.grow hheight hle, hw.quiet⟩
  obtain ⟨r, s', e', w', hrun, hend, hpeers, -⟩ := (embodies_consensusPeers hheight).cycle hf policy hx
    (w := { w with peers := Sync.grow chain top' w.peers }) hw'
  cases r with
  | error x => exact hend.elim
  | ok a =>
    refine ⟨a, s', e', w', hend, hpeers, ?_⟩
    rw [cyclesAt, hrun]

/-! ## A chain without rotations -/

/-- A chain whose validator set never changes. -/
def plainChain (height : Nat) : Header :=
  ⟨height, .replicate (UInt8.ofNat height), .replicate 1, .replicate 1, .zero⟩

theorem plainChain_distinct {a b : Nat} (ha : a < 256) (hb : b < 256)
    (h : (plainChain a).hash = (plainChain b).hash) : a = b := by
  have hbyte : UInt8.ofNat a = UInt8.ofNat b := List.cons.inj (congrArg Hash.bytes h) |>.1
  have hnat := congrArg UInt8.toNat hbyte
  rw [UInt8.toNat_ofNat', UInt8.toNat_ofNat'] at hnat
  omega

def plainPeers : Sim.Network :=
  { (default : Sim.Network) with
    consensusNode := ⟨[plainChain 1], [], 1, [], false⟩
    consensusClient := .trusting (plainChain 1)
    relayStore := .holding (plainChain 1).entry }

theorem plainPeers_honest (queued : List Nat) :
    HonestPeers plainChain 1 1 plainPeers ⟨.trusting (plainChain 1), .holding (plainChain 1).entry, queued⟩ :=
  ⟨⟨⟨rfl, rfl, rfl, Nat.le_refl _⟩, ⟨[], rfl⟩, rfl⟩, rfl⟩

end HeaderRelay.Sync
