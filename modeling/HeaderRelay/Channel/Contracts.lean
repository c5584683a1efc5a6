import HeaderRelay.Bitcoin.Display
import HeaderRelay.Channel.Client
import HeaderRelay.Wire.Consensus

/-!
# The contracts behind the channel

How the three contracts answer the relayer's calls: which message a call becomes, and how the answer is
read. Bitcoin hashes travel in display order, consensus-chain hashes in internal order.
-/
namespace HeaderRelay.Channel

open Json

/-- The answer to a request for the best header. Mirrors `BestHeaderAnswer`. -/
structure BestHeader where
  height : Nat
  hash : String

def BestHeader.ofJson? (v : Json) : Option BestHeader := do
  match ← v.record? ["height", "hash"] with
  | [some height, some hash] => some ⟨← height.nat64?, ← hash.string?⟩
  | _ => none

/-- Reads the answer to a request for the hash at a height, which may be missing or `null`. Mirrors
`HeaderAtAnswer`. -/
def hashAtHeight? (v : Json) : Option (Option String) := do
  match ← v.record? ["hash"] with
  | [some hash] => hash.orNull? string?
  | _ => some none

/-- Reads the answer to a verification. Mirrors `HashChainAnswer`. -/
def verifiedChain? (v : Json) : Option (List Consensus.ChainEntry) := do
  match ← v.record? ["chain"] with
  | [some chain] => chain.list? Consensus.ChainEntry.ofJson?
  | _ => none

/-- Reads the answer to a request for an inclusion. Mirrors `InclusionAnswer`. -/
def validity? (v : Json) : Option Bool := do
  match ← v.record? ["valid"] with
  | [some valid] => valid.bool?
  | _ => none

/-- Reads a hash in internal order. Mirrors `parse_hash`. -/
def hashOfHex (text : String) : Relayed Hash :=
  match Hex.decodeHash text with
  | .ok h => .ok h
  | .error e => .error (.serialization ("bad hash " ++ text ++ ": " ++ e.message))

/-- A value made of a query's answer. -/
def answered {α β : Type} (p : Program (Relayed α)) (f : α → Relayed β) : Program (Relayed β) :=
  p.andThen fun r => .done (r >>= f)

def submitHeadersAction : String := "submit_headers"

/-- The Bitcoin light-client contract. Mirrors `BtcLightClientContract`. -/
def bitcoinClient (c : Client) : (call : Peer.BitcoinClient) → Program (Relayed call.Answer)
  | .bestHeaderHash =>
    answered (c.query (message "best_header" []) BestHeader.ofJson?) fun a => Hash.ofDisplay a.hash
  | .bestHeight =>
    answered (c.query (message "best_header" []) BestHeader.ofJson?) fun a => .ok a.height
  | .headerHashAt height =>
    answered (c.query (message "header_at" [("height", .nat height)]) hashAtHeight?) fun
      | none => .ok none
      | some text => (Hash.ofDisplay text).map some
  | .submitHeaders tipHeight headers gas =>
    c.execute (message submitHeadersAction
      [("tip_height", .nat tipHeight), ("headers", .arr (headers.map fun h => hexText h.raw))]) gas
  | .lastSubmissionGas =>
    answered (c.recent submitHeadersAction) fun txs => .ok ((txs.find? (·.succeeded)).map (·.gasUsed))

def lightBlocks (prev : Consensus.Header) (blocks : List Consensus.LightBlock) : List (String × Json) :=
  [("prev_header", prev.toJson), ("blocks", .arr (blocks.map Consensus.LightBlock.toJson))]

/-- The consensus light-client contract. A leaf that is not the proven one is refused on the spot. Mirrors
`ConsensusLightClientContract`. -/
def consensusClient (c : Client) : (call : Peer.ConsensusClient) → Program (Relayed call.Answer)
  | .bestCommittedHash =>
    answered (c.query (message "best_header" []) BestHeader.ofJson?) fun a => hashOfHex a.hash
  | .currentHeight =>
    answered (c.query (message "best_header" []) BestHeader.ofJson?) fun a => .ok a.height
  | .submitLightBlocks prev blocks =>
    c.execute (message "submit_light_blocks" (lightBlocks prev blocks)) none
  | .verifyLightBlocks prev blocks =>
    c.query (message "verify_subsequent_light_blocks" (lightBlocks prev blocks)) verifiedChain?
  | .verifyInclusion height leaf proof =>
    if leafHash leaf ≠ proof.leafHash then .done (.ok false)
    else
      c.query (message "verify_tx_result" [("height", .nat height), ("proof", proof.toWire.toJson)]) validity?

/-- The contract that stores attested hashes. Mirrors `RelayHashContract`. -/
def relayStore (c : Client) : (call : Peer.RelayStore) → Program (Relayed call.Answer)
  | .bestHeight => answered (c.query (message "best_hash" []) BestHeader.ofJson?) fun a => .ok a.height
  | .bestHash => answered (c.query (message "best_hash" []) BestHeader.ofJson?) fun a => hashOfHex a.hash
  | .submitHashChain chain =>
    c.execute (message "append_hash_chain" [("chain", .arr (chain.map Consensus.ChainEntry.toJson))]) none

end HeaderRelay.Channel
