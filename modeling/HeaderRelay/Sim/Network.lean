import HeaderRelay.Clock.Run
import HeaderRelay.Sim.BitcoinClient
import HeaderRelay.Sim.BitcoinNode
import HeaderRelay.Sim.ConsensusClient
import HeaderRelay.Sim.ConsensusNode
import HeaderRelay.Sim.Fault
import HeaderRelay.Sim.Messages
import HeaderRelay.Sim.RelayStore

/-!
# The simulated network

All simulated peers together, with a record of the calls to them and with faults that are waiting for
calls. A fault waits under the name of a call and acts on the next call of that name; of several under
one name, the first comes first.
-/
namespace HeaderRelay.Sim

open Peer (Call Shape)

def callName : Call → String
  | .bitcoinNode c =>
    match c with
    | .bestBlockHash => "btc.best_block_hash"
    | .header _ => "btc.header"
    | .headerHeight _ => "btc.header_height"
    | .blockTxids _ => "btc.block_txids"
  | .bitcoinClient c =>
    match c with
    | .bestHeaderHash => "btc_lc.best_header_hash"
    | .bestHeight => "btc_lc.best_height"
    | .headerHashAt _ => "btc_lc.header_hash_at"
    | .submitHeaders .. => "btc_lc.submit_headers"
    | .lastSubmissionGas => "btc_lc.last_submission_gas"
  | .consensusNode c =>
    match c with
    | .latestHeight => "consensus.latest_height"
    | .header _ => "consensus.header"
    | .headerByHash _ => "consensus.header_by_hash"
    | .commit _ => "consensus.commit"
    | .validatorSet _ => "consensus.validator_set"
    | .blockResults _ => "consensus.block_results"
  | .consensusClient c =>
    match c with
    | .bestCommittedHash => "tm_lc.best_committed_hash"
    | .currentHeight => "tm_lc.current_height"
    | .submitLightBlocks .. => "tm_lc.submit_light_blocks"
    | .verifyLightBlocks .. => "tm_lc.verify_light_blocks"
    | .verifyInclusion .. => "tm_lc.verify_inclusion"
  | .relayStore c =>
    match c with
    | .bestHeight => "relay.best_height"
    | .bestHash => "relay.best_hash"
    | .submitHashChain _ => "relay.submit_hash_chain"
  | .messages c =>
    match c with
    | .query .. => "channel.query"
    | .execute .. => "channel.execute"
    | .recent _ => "channel.recent_txs"

/-- The shape of the answers to the calls of a name. -/
def shapeOfName? (name : String) : Option Shape :=
  [("btc.best_block_hash", Shape.hash), ("btc.header", .bitcoinHeader), ("btc.header_height", .count),
    ("btc.block_txids", .hashes), ("btc_lc.best_header_hash", .hash), ("btc_lc.best_height", .count),
    ("btc_lc.header_hash_at", .optionalHash), ("btc_lc.submit_headers", .response),
    ("btc_lc.last_submission_gas", .optionalCount), ("consensus.latest_height", .count),
    ("consensus.header", .consensusHeader), ("consensus.header_by_hash", .consensusHeader),
    ("consensus.commit", .commit), ("consensus.validator_set", .validatorSet),
    ("consensus.block_results", .txResults), ("tm_lc.best_committed_hash", .hash),
    ("tm_lc.current_height", .count), ("tm_lc.submit_light_blocks", .response),
    ("tm_lc.verify_light_blocks", .chain), ("tm_lc.verify_inclusion", .flag),
    ("relay.best_height", .count), ("relay.best_hash", .hash), ("relay.submit_hash_chain", .response),
    ("channel.query", .json), ("channel.execute", .response), ("channel.recent_txs", .responses)].lookup name

/-- A fault that waits for a call. -/
structure PendingFault where
  name : String
  shape : Shape
  fault : Fault shape.Value

/-- The fault for a call whose answers have shape `s`, if it is meant for that shape. -/
def PendingFault.for (p : PendingFault) (s : Shape) : Fault s.Value :=
  if h : p.shape = s then h ▸ p.fault else .none

/-- All simulated peers. -/
structure Network where
  bitcoinNode : BitcoinNode
  bitcoinClient : BitcoinClient
  consensusNode : ConsensusNode
  consensusClient : ConsensusClient
  relayStore : RelayStore
  messages : Messages
  faults : List PendingFault
  /-- The calls so far with their times, latest first. -/
  calls : List (Nat × Call)

namespace Network

instance : Inhabited Network := ⟨⟨.new, default, default, default, default, .new, [], []⟩⟩

/-- Makes faults wait for the calls of a name. -/
def inject (n : Network) (faults : List PendingFault) : Network := { n with faults := n.faults ++ faults }

/-- Records a call and takes the fault that waits for it. -/
def begin (now : Nat) (c : Call) (n : Network) : Fault c.Answer × Network :=
  let n := { n with calls := (now, c) :: n.calls }
  match n.faults.findIdx? fun p => p.name == callName c with
  | none => (.none, n)
  | some i => ((n.faults[i]?.map fun p => p.for c.shape).getD .none, { n with faults := n.faults.eraseIdx i })

/-- What the peer that is called does. -/
def serve (n : Network) : (c : Call) → Option (Relayed c.Answer) × Network
  | .bitcoinNode c =>
    let (r, peer) := n.bitcoinNode.serve c
    (r, { n with bitcoinNode := peer })
  | .bitcoinClient c =>
    let (r, peer) := n.bitcoinClient.serve c
    (some r, { n with bitcoinClient := peer })
  | .consensusNode c =>
    let (r, peer) := n.consensusNode.serve c
    (r, { n with consensusNode := peer })
  | .consensusClient c =>
    let (r, peer) := n.consensusClient.serve c
    (some r, { n with consensusClient := peer })
  | .relayStore c =>
    let (r, peer) := n.relayStore.serve c
    (some r, { n with relayStore := peer })
  | .messages c =>
    let (r, peer) := n.messages.serve c
    (some r, { n with messages := peer })

/-- The answer of the peer that is called, which may never come. -/
def reply (c : Call) : Timed Network (Relayed c.Answer) := do
  match ← Timed.onPeers fun n : Network => n.serve c with
  | some r => return r
  | none => Timed.forever

/-- The network answers each call through the peer that it is for. -/
def handler : Peer.Handler Network := fun c => do
  let now ← Timed.now
  let fault ← Timed.onPeers (begin now c)
  fault.apply (reply c)

end Network

end HeaderRelay.Sim
