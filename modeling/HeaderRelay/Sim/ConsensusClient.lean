import HeaderRelay.Peer

/-!
# A simulated consensus light client

The contract trusts one header. It takes light blocks that are submitted as followers of that header,
attests runs of light blocks whose heights rise and whose commits sign them, and checks transaction
results against the roots it was told.
-/
namespace HeaderRelay.Sim

open Consensus (Header LightBlock ChainEntry MerkleProof)

/-- A simulated light-client contract for consensus-chain headers. Mirrors `MockConsensusLightClient`. -/
structure ConsensusClient where
  trusted : Header
  /-- The heights of every submission that was taken. -/
  submissions : List (List Nat)
  /-- The heights of every run to be attested. -/
  verifications : List (List Nat)
  resultsRoots : List (Nat × Hash)
  /-- Whether every run is refused. -/
  rejecting : Bool
  deriving Inhabited

namespace ConsensusClient

def trusting (header : Header) : ConsensusClient := ⟨header, [], [], [], false⟩

def setResultsRoot (c : ConsensusClient) (height : Nat) (root : Hash) : ConsensusClient :=
  { c with resultsRoots := (height, root) :: c.resultsRoots }

/-- Refuses every run from now on. Mirrors `reject_verification`. -/
def refuseVerification (c : ConsensusClient) : ConsensusClient := { c with rejecting := true }

/-- Takes light blocks that follow the trusted header; the last of them is trusted from then on. Mirrors
`submit_light_blocks`. -/
def submit (c : ConsensusClient) (prev : Header) (blocks : List LightBlock) :
    Relayed Channel.Response × ConsensusClient :=
  if prev.hash ≠ c.trusted.hash then
    (.error (.execution s!"submit_light_blocks@{prev.height}" 7 "previous header is not trusted"), c)
  else
    (.ok ⟨"", 0, "", 0, 90000⟩,
      { c with
        submissions := c.submissions ++ [blocks.map LightBlock.height]
        trusted := (blocks.getLast?.map (·.header)).getD c.trusted })

/-- Checks that heights rise from `last` on and that commits sign their blocks. -/
def checkRun : (last : Nat) → List LightBlock → Relayed Unit
  | _, [] => .ok ()
  | last, b :: rest =>
    if b.height ≤ last ∨ b.signedHeader.commit.blockHash ≠ b.hash then
      .error (.invalidProof s!"light block {b.height} does not follow {last}")
    else checkRun b.height rest

/-- Attests a run of light blocks after `prev`. Mirrors `verify_light_blocks`. -/
def verify (c : ConsensusClient) (prev : Header) (blocks : List LightBlock) :
    Relayed (List ChainEntry) × ConsensusClient :=
  let c := { c with verifications := c.verifications ++ [blocks.map LightBlock.height] }
  if c.rejecting then (.error (.invalidProof "validator set mismatch"), c)
  else ((checkRun prev.height blocks).map fun _ => blocks.map fun b : LightBlock => b.header.entry, c)

/-- Whether a leaf is under the results root of a height. Mirrors `verify_inclusion`. -/
def includes (c : ConsensusClient) (height : Nat) (leaf : Bytes) (proof : MerkleProof) : Relayed Bool :=
  match c.resultsRoots.lookup height with
  | none => .ok false
  | some root =>
    if leafHash leaf = proof.leafHash then proof.impliedRoot.map (· == root) else .ok false

def serve (c : ConsensusClient) : (call : Peer.ConsensusClient) → Relayed call.Answer × ConsensusClient
  | .bestCommittedHash => (.ok c.trusted.hash, c)
  | .currentHeight => (.ok c.trusted.height, c)
  | .submitLightBlocks prev blocks => c.submit prev blocks
  | .verifyLightBlocks prev blocks => c.verify prev blocks
  | .verifyInclusion height leaf proof => (c.includes height leaf proof, c)

end ConsensusClient

end HeaderRelay.Sim
