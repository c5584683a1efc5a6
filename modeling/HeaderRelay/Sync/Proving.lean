import HeaderRelay.Bitcoin.Display
import HeaderRelay.Program
import HeaderRelay.Sync.Machine

/-!
# Inclusion proofs from the nodes

The relayer proves to a contract that a transaction is in a block. What the node tells about the block
is checked against the header before a proof of it is handed out: a Bitcoin block against its own
header, consensus-chain results against the next header, which commits to them.
-/
namespace HeaderRelay.Sync

/-- A program that may fail. -/
abbrev Request := ExceptT RelayError Program

def Request.read (operation : String) (c : Peer.Call) : Request c.Answer :=
  ExceptT.mk (Program.outcome (.read operation) c)

/-- The proof that `txid` is in `block`. Mirrors `prove_tx_in_block`. -/
def proveTransaction (block txid : Hash) : Request Bitcoin.MerkleProof := do
  let header : Bitcoin.Header ← Request.read "btc.header" (.bitcoinNode (.header block))
  let txids : List Hash ← Request.read "btc.block_txids" (.bitcoinNode (.blockTxids block))
  let tree ← Bitcoin.MerkleTree.build txids
  if tree.root ≠ header.merkleRoot then
    throw (.inconsistent s!"transactions of block {block.display} do not hash to its merkle root")
  let proof ← tree.prove txid
  let implied ← proof.impliedRoot
  if implied ≠ header.merkleRoot then
    throw (.invalidProof s!"proof for {txid.display} does not reach the header root")
  return proof

/-- The proof of a result of the block at `height`, to whose results the header at `next` commits. -/
def proveResultUnder (next height index : Nat) (results : List Consensus.TxResult) :
    Request (Bytes × Consensus.MerkleProof) := do
  let committing : Consensus.Header ← Request.read "consensus.header" (.consensusNode (.header next))
  let (root, proof) ← Consensus.proveResult results index
  if root ≠ committing.lastResultsHash then
    throw (.inconsistent s!"results of block {height} do not match the root committed at {next}")
  match results[index]? with
  | none => throw (.indexOutOfRange index results.length)
  | some result =>
    let leaf := result.encode
    proof.verify root leaf
    return (leaf, proof)

/-- The committed form of result `index` of the block at `height`, with its proof. Mirrors `prove_tx_result_at`. -/
def proveResultAt (height index : Nat) : Request (Bytes × Consensus.MerkleProof) := do
  let results : List Consensus.TxResult ←
    Request.read "consensus.block_results" (.consensusNode (.blockResults height))
  proveResultUnder (height + 1) height index results

/-- The same on a machine; `none` if the request breaks down. -/
def proveResultOn (machine : Machine) (height index : Nat) : Request (Option (Bytes × Consensus.MerkleProof)) := do
  let results : List Consensus.TxResult ←
    Request.read "consensus.block_results" (.consensusNode (.blockResults height))
  match machine.above height with
  | none => return none
  | some next => return some (← proveResultUnder next height index results)

end HeaderRelay.Sync
