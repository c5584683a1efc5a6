import HeaderRelay.Proofs.Conduct
import HeaderRelay.Sim.ConsensusClient
import HeaderRelay.Sim.RelayStore
import HeaderRelay.Sync.LightBlock

/-!
# The consensus engines' peers

An honest node serves a chain with one header per height, in a range of heights, the commit of a block
once the next block exists, and its validator set. The light client and the relay store are the
simulated ones, the light client except that it need not record what it attests; with them goes the
record of the heights that a batched engine says it queues.

`consensusPeers` is their conduct, and the `reads_*` lemmas say what each read is answered by. What both
engines do follows: reading a header (`ensures_readHeader`), reading a light block (`ensures_lightBlockOf`)
and writing a log event (`ensures_log`).
-/
namespace HeaderRelay.Sync

open Consensus (Header Commit ValidatorSet LightBlock ChainEntry)
open Peer (Call Conduct)

/-! ## Conduct -/

/-- What a consensus engine can bring about. -/
structure ConsensusPeers where
  client : Sim.ConsensusClient
  store : Sim.RelayStore
  /-- The heights of all headers queued, oldest first. -/
  queued : List Nat

/-- What an honest node answers: it serves the headers of `chain` at the heights it `knows`, and takes one
of `tops` for its latest. -/
def honestAnswer (chain : Nat → Header) (knows tops : Nat → Prop) :
    (c : Peer.ConsensusNode) → Relayed c.Answer → Prop
  | .latestHeight, r => r.Served True tops
  | .header height, r => r.Served (knows height) (· = chain height)
  | .headerByHash hash, r =>
    r.Served (∃ h, knows h ∧ (chain h).hash = hash)
      fun x => ∃ h, knows h ∧ (chain h).hash = hash ∧ x = chain h
  | .commit height, r =>
    r.Served (knows height ∧ knows (height + 1)) fun c : Commit => c.blockHash = (chain height).hash
  | .validatorSet height, r => r.Served (knows height) fun _ => True
  | .blockResults _, _ => True

/-- What the light client does. It attests a run with the run's own heights and hashes. -/
def clientAnswer (k : Sim.ConsensusClient) :
    (c : Peer.ConsensusClient) → Relayed c.Answer → Sim.ConsensusClient → Prop
  | .verifyLightBlocks prev blocks, r, k' => k' = k ∧
    r.Served (k.rejecting = false ∧ Sim.ConsensusClient.checkRun prev.height blocks = .ok ())
      (· = blocks.map fun b : LightBlock => b.header.entry)
  | c, r, k' => k.serve c = (r, k')

def queuedHeight? (ev : Log.Event) : Option Nat :=
  if ev.message = "Header queued" then
    match ev.fields.lookup "height" with
    | some (.num (.int n)) => some n.toNat
    | _ => none
  else none

def ConsensusPeers.hear (e : ConsensusPeers) (ev : Log.Event) : ConsensusPeers :=
  { e with queued := e.queued ++ (queuedHeight? ev).toList }

theorem ConsensusPeers.hear_ofEngine {e : ConsensusPeers} {engine message : String} {level : Log.Level}
    {fields : List (String × Json)} (h : message ≠ "Header queued") :
    e.hear (Log.ofEngine engine level message fields) = e := by
  have hnone : queuedHeight? (Log.ofEngine engine level message fields) = none := if_neg h
  rw [hear, hnone, Option.toList_none, List.append_nil]

def consensusPeers (chain : Nat → Header) (knows tops : Nat → Prop) : Conduct ConsensusPeers where
  attends
    | _, .consensusNode (.blockResults _) | _, .consensusClient (.verifyInclusion ..) => False
    | mode, .consensusClient (.submitLightBlocks ..) => mode = .submit
    | mode, .relayStore (.submitHashChain _) => mode = .submit
    | _, .consensusNode _ | _, .consensusClient _ | _, .relayStore _ => True
    | _, _ => False
  answers
    | .consensusNode c, e, r, e' => honestAnswer chain knows tops c r ∧ e' = e
    | .consensusClient c, e, r, e' => ∃ k', clientAnswer e.client c r k' ∧ e' = { e with client := k' }
    | .relayStore c, e, r, e' => ∃ k', e.store.serve c = (r, k') ∧ e' = { e with store := k' }
    | _, _, _, _ => False
  hears ev e := e.hear ev
  reads {op c e r e'} hc h := by
    cases c with
    | consensusNode c => exact h.2
    | consensusClient c =>
      obtain ⟨k', h, rfl⟩ := h
      cases c with
      | submitLightBlocks => cases hc
      | verifyInclusion => exact hc.elim
      | verifyLightBlocks => rw [h.1]
      | _ => cases h; rfl
    | relayStore c =>
      obtain ⟨k', h, rfl⟩ := h
      cases c with
      | submitHashChain => cases hc
      | _ => cases h; rfl
    | _ => exact hc.elim

section Reads

variable {chain : Nat → Header} {knows tops : Nat → Prop} {e : ConsensusPeers}

theorem reads_node {c : Peer.ConsensusNode} {able : Prop} {good : c.Answer → Prop}
    (hc : ∀ op, (consensusPeers chain knows tops).attends (.read op) (.consensusNode c))
    (h : ∀ r, honestAnswer chain knows tops c r → r.Served able good) :
    (consensusPeers chain knows tops).Reads (.consensusNode c) e able good where
  attends := hc
  answers ha := h _ ha.1

theorem reads_verify {prev : Header} {blocks : List LightBlock} :
    (consensusPeers chain knows tops).Reads (.consensusClient (.verifyLightBlocks prev blocks)) e
      (e.client.rejecting = false ∧ Sim.ConsensusClient.checkRun prev.height blocks = .ok ())
      (· = blocks.map fun b : LightBlock => b.header.entry) where
  attends _ := trivial
  answers := by
    rintro r e' ⟨k', ⟨-, h⟩, -⟩
    exact h

theorem reads_client {c : Peer.ConsensusClient} {a : c.Answer}
    (hc : ∀ op, (consensusPeers chain knows tops).attends (.read op) (.consensusClient c))
    (ha : ∀ r k', clientAnswer e.client c r k' → r = .ok a) :
    (consensusPeers chain knows tops).Reads (.consensusClient c) e True (· = a) where
  attends := hc
  answers := by
    rintro r e' ⟨k', h, -⟩
    rw [ha r k' h]
    rfl

theorem reads_store {c : Peer.RelayStore} {a : c.Answer}
    (hc : ∀ op, (consensusPeers chain knows tops).attends (.read op) (.relayStore c))
    (ha : (e.store.serve c).1 = .ok a) :
    (consensusPeers chain knows tops).Reads (.relayStore c) e True (· = a) where
  attends := hc
  answers := by
    rintro r e' ⟨k', h, -⟩
    rw [h] at ha
    rw [show r = .ok a from ha]
    rfl

end Reads

/-! ## What both engines do -/

section Common

variable {σ : Type} {chain : Nat → Header} {knows tops : Nat → Prop} {faulty : Prop} {s : σ}
  {e : ConsensusPeers}
  {err : RelayError → σ → ConsensusPeers → Prop}

theorem ensures_readHeader {height : Nat} {ok : Header → σ → ConsensusPeers → Prop} (hknows : knows height)
    (hok : ok (chain height) s e) (herr : ∀ x, faulty → err x s e) :
    (readHeader height).Ensures ((consensusPeers chain knows tops).failing faulty) s e ok err := by
  refine Cycle.ensures_read_failing (reads_node (fun _ => trivial) fun _ h => h) ?_ fun x h => ?_
  · rintro _ rfl
    exact hok
  · exact herr x (h.resolve_right (absurd hknows))

theorem ensures_lightBlockOf_of_reads {ε : Type} {C : Conduct ε} {e : ε} {header : Header}
    {able able' : Prop} {good : Commit → Prop} {good' : ValidatorSet → Prop}
    {ok : LightBlock → σ → ε → Prop} {err : RelayError → σ → ε → Prop}
    (hcommit : C.Reads (.consensusNode (.commit header.height)) e able good)
    (hvalidators : C.Reads (.consensusNode (.validatorSet header.height)) e able' good')
    (hsigns : ∀ commit, good commit → commit.blockHash = header.hash) (hable : able ∧ able')
    (hok : ∀ commit validators, good commit → good' validators → ok ⟨⟨header, commit⟩, validators⟩ s e)
    (herr : ∀ x, faulty → err x s e) :
    (lightBlockOf header).Ensures (C.failing faulty) s e ok err := by
  refine Cycle.ensures_bind.mpr (Cycle.ensures_read_failing hcommit (fun commit hc => ?_)
    fun x h => herr x (h.resolve_right (absurd hable.1)))
  refine Cycle.ensures_bind.mpr (Cycle.ensures_read_failing hvalidators (fun validators hv => ?_)
    fun x h => herr x (h.resolve_right (absurd hable.2)))
  exact Cycle.ensures_ite (fun hne => absurd (hsigns commit hc) hne) fun _ => hok commit validators hc hv

theorem ensures_lightBlockOf (hheight : ∀ h, (chain h).height = h) {height : Nat}
    {ok : LightBlock → σ → ConsensusPeers → Prop} (hknows : knows height ∧ knows (height + 1))
    (hok : ∀ b : LightBlock, b.header = chain height → b.signedHeader.commit.blockHash = b.hash → ok b s e)
    (herr : ∀ x, faulty → err x s e) :
    (lightBlockOf (chain height)).Ensures ((consensusPeers chain knows tops).failing faulty) s e ok err := by
  refine ensures_lightBlockOf_of_reads (reads_node (fun _ => trivial) fun _ h => h)
    (reads_node (fun _ => trivial) fun _ h => h) ?_ ⟨?_, ?_⟩ (fun commit validators hc _ => ?_) herr
  · intro commit hc
    rw [hheight] at hc
    exact hc
  · rwa [hheight]
  · rw [hheight]
    exact hknows.1
  · rw [hheight] at hc
    exact hok ⟨⟨chain height, commit⟩, validators⟩ rfl hc

theorem ensures_log {engine message : String} {level : Log.Level} {fields : List (String × Json)}
    {ok : Unit → σ → ConsensusPeers → Prop} (hmessage : message ≠ "Header queued") (hok : ok () s e) :
    (Cycle.log (Log.ofEngine engine level message fields) : Cycle σ Unit).Ensures
      ((consensusPeers chain knows tops).failing faulty) s e ok err := by
  rw [Cycle.ensures_log]
  show ok () s (e.hear _)
  rwa [ConsensusPeers.hear_ofEngine hmessage]

end Common

end HeaderRelay.Sync
