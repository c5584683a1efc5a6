import HeaderRelay.Bitcoin.Header
import HeaderRelay.Channel.Message
import HeaderRelay.Consensus.Block
import HeaderRelay.Consensus.Merkle
import HeaderRelay.Error

/-!
# Calls to the peers

The relayer talks to five peers and to the message channel. Each call has an answer of a fixed shape;
`Shape.Value` gives the type of the answers of a shape, so that a program that makes a call is handed
an answer of the right type.
-/
namespace HeaderRelay.Peer

/-- The shapes of answers. -/
inductive Shape where
  | hash
  | optionalHash
  | hashes
  | count
  | optionalCount
  | flag
  | bitcoinHeader
  | consensusHeader
  | commit
  | validatorSet
  | txResults
  | chain
  | response
  | responses
  | json
  deriving DecidableEq, Repr

def Shape.Value : Shape → Type
  | .hash => Hash
  | .optionalHash => Option Hash
  | .hashes => List Hash
  | .count => Nat
  | .optionalCount => Option Nat
  | .flag => Bool
  | .bitcoinHeader => Bitcoin.Header
  | .consensusHeader => Consensus.Header
  | .commit => Consensus.Commit
  | .validatorSet => Consensus.ValidatorSet
  | .txResults => List Consensus.TxResult
  | .chain => List Consensus.ChainEntry
  | .response => Channel.Response
  | .responses => List Channel.Response
  | .json => Json

/-- Calls to the Bitcoin node. Mirrors `BtcChainRpc`. -/
inductive BitcoinNode where
  | bestBlockHash
  | header (hash : Hash)
  | headerHeight (hash : Hash)
  | blockTxids (hash : Hash)

/-- Calls to the Bitcoin light-client contract. Mirrors `BtcLightClient`. -/
inductive BitcoinClient where
  | bestHeaderHash
  | bestHeight
  | headerHashAt (height : Nat)
  | submitHeaders (tipHeight : Nat) (headers : List Bitcoin.Header) (gas : Option Nat)
  | lastSubmissionGas

/-- Calls to the consensus-chain node. Mirrors `ConsensusChainRpc`. -/
inductive ConsensusNode where
  | latestHeight
  | header (height : Nat)
  | headerByHash (hash : Hash)
  | commit (height : Nat)
  | validatorSet (height : Nat)
  | blockResults (height : Nat)

/-- Calls to the consensus light-client contract. Mirrors `ConsensusLightClient`. -/
inductive ConsensusClient where
  | bestCommittedHash
  | currentHeight
  | submitLightBlocks (prev : Consensus.Header) (blocks : List Consensus.LightBlock)
  | verifyLightBlocks (prev : Consensus.Header) (blocks : List Consensus.LightBlock)
  | verifyInclusion (height : Nat) (leaf : Bytes) (proof : Consensus.MerkleProof)

/-- Calls to the contract that stores attested hashes. Mirrors `RelayContract`. -/
inductive RelayStore where
  | bestHeight
  | bestHash
  | submitHashChain (chain : List Consensus.ChainEntry)

/-- Calls to the message channel. Mirrors `EncryptedChannel`. -/
inductive Messages where
  | query (contract : String) (message : Json)
  | execute (contract : String) (message : Json) (gas : Option Nat)
  | recent (filter : Channel.Filter)

/-- A call to a peer. -/
inductive Call where
  | bitcoinNode (c : BitcoinNode)
  | bitcoinClient (c : BitcoinClient)
  | consensusNode (c : ConsensusNode)
  | consensusClient (c : ConsensusClient)
  | relayStore (c : RelayStore)
  | messages (c : Messages)

def BitcoinNode.shape : BitcoinNode → Shape
  | .bestBlockHash => .hash
  | .header _ => .bitcoinHeader
  | .headerHeight _ => .count
  | .blockTxids _ => .hashes

def BitcoinClient.shape : BitcoinClient → Shape
  | .bestHeaderHash => .hash
  | .bestHeight => .count
  | .headerHashAt _ => .optionalHash
  | .submitHeaders .. => .response
  | .lastSubmissionGas => .optionalCount

def ConsensusNode.shape : ConsensusNode → Shape
  | .latestHeight => .count
  | .header _ => .consensusHeader
  | .headerByHash _ => .consensusHeader
  | .commit _ => .commit
  | .validatorSet _ => .validatorSet
  | .blockResults _ => .txResults

def ConsensusClient.shape : ConsensusClient → Shape
  | .bestCommittedHash => .hash
  | .currentHeight => .count
  | .submitLightBlocks .. => .response
  | .verifyLightBlocks .. => .chain
  | .verifyInclusion .. => .flag

def RelayStore.shape : RelayStore → Shape
  | .bestHeight => .count
  | .bestHash => .hash
  | .submitHashChain _ => .response

def Messages.shape : Messages → Shape
  | .query .. => .json
  | .execute .. => .response
  | .recent _ => .responses

def Call.shape : Call → Shape
  | .bitcoinNode c => c.shape
  | .bitcoinClient c => c.shape
  | .consensusNode c => c.shape
  | .consensusClient c => c.shape
  | .relayStore c => c.shape
  | .messages c => c.shape

abbrev BitcoinNode.Answer (c : BitcoinNode) : Type := c.shape.Value

abbrev BitcoinClient.Answer (c : BitcoinClient) : Type := c.shape.Value

abbrev ConsensusNode.Answer (c : ConsensusNode) : Type := c.shape.Value

abbrev ConsensusClient.Answer (c : ConsensusClient) : Type := c.shape.Value

abbrev RelayStore.Answer (c : RelayStore) : Type := c.shape.Value

abbrev Messages.Answer (c : Messages) : Type := c.shape.Value

/-- The answers of a call. -/
abbrev Call.Answer (c : Call) : Type := c.shape.Value

/-- Whether a call asks a contract to change its state. -/
def Call.isSubmission : Call → Bool
  | .bitcoinClient (.submitHeaders ..) => true
  | .consensusClient (.submitLightBlocks ..) => true
  | .relayStore (.submitHashChain _) => true
  | .messages (.execute ..) => true
  | _ => false

end HeaderRelay.Peer
