import HeaderRelay.Hash.Sha256
import HeaderRelay.Peer
import HeaderRelay.Text.Hex

/-!
# A simulated consensus-chain node

A node that holds one header per height and the transaction results of some blocks. It serves the
commit of a block once the next block exists. Once stalled, it answers neither for headers by height nor
for results again.
-/
namespace HeaderRelay.Sim

open Consensus (Header TxResult Commit ValidatorSet)

/-- The header at a height whose hash depends on the height alone; `vals` and `next` stand for validator sets.
Mirrors `consensus_header`. -/
def sampleHeader (height : Nat) (vals next : UInt8) : Header where
  height := height
  hash := sha256 (eightBytes height)
  validatorsHash := .replicate vals
  nextValidatorsHash := .replicate next
  lastResultsHash := .zero

/-- The headers at heights `1` to `length`; the validator set changes at each height of `rotations`. Mirrors
`consensus_chain`. -/
def sampleChain (length : Nat) (rotations : List Nat) : List Header :=
  let setAt (h : Nat) : UInt8 := UInt8.ofNat (rotations.filter (· ≤ h)).length + 1
  (List.range' 1 length).map fun h => sampleHeader h (setAt h) (setAt (h + 1))

/-- Puts a header in its place by height, instead of one that is there. -/
def insertHeader (header : Header) : List Header → List Header
  | [] => [header]
  | h :: rest =>
    if header.height < h.height then header :: h :: rest
    else if header.height = h.height then header :: rest
    else h :: insertHeader header rest

/-- A simulated consensus-chain node. Mirrors `MockConsensusChain`. -/
structure ConsensusNode where
  /-- Headers by ascending height. -/
  headers : List Header
  results : List (Nat × List TxResult)
  latest : Nat
  /-- The heights whose commits were asked for. -/
  commitRequests : List Nat
  stalled : Bool
  deriving Inhabited

namespace ConsensusNode

def push (n : ConsensusNode) (headers : List Header) : ConsensusNode :=
  headers.foldl (fun n h => { n with headers := insertHeader h n.headers, latest := max n.latest h.height }) n

def ofHeaders (headers : List Header) : ConsensusNode := push ⟨[], [], 0, [], false⟩ headers

def setResults (n : ConsensusNode) (height : Nat) (results : List TxResult) : ConsensusNode :=
  { n with results := (height, results) :: n.results }

def stall (n : ConsensusNode) : ConsensusNode := { n with stalled := true }

def headerAt (n : ConsensusNode) (height : Nat) : Relayed Header :=
  match n.headers.find? fun h => h.height = height with
  | some h => .ok h
  | none => .error (.headerNotFound s!"height {height}")

/-- The lowest header with a hash. -/
def headerByHash (n : ConsensusNode) (hash : Hash) : Relayed Header :=
  match n.headers.find? fun h => h.hash = hash with
  | some h => .ok h
  | none => .error (.headerNotFound hash.hex)

def commit (n : ConsensusNode) (height : Nat) : Relayed Commit := do
  let header ← n.headerAt height
  let _ ← n.headerAt (height + 1)
  return ⟨height, 0, header.hash, [⟨header.validatorsHash.bytes.take 20, header.hash.bytes, height⟩]⟩

/-- The validator set at a height: one validator, named by the set's hash. -/
def validatorSet (n : ConsensusNode) (height : Nat) : Relayed ValidatorSet := do
  let header ← n.headerAt height
  return ⟨[⟨header.validatorsHash.bytes.take 20, header.validatorsHash.bytes, 10⟩]⟩

def serve (n : ConsensusNode) : (c : Peer.ConsensusNode) → Option (Relayed c.Answer) × ConsensusNode
  | .latestHeight => (some (.ok n.latest), n)
  | .header height => (if n.stalled then none else some (n.headerAt height), n)
  | .headerByHash hash => (some (n.headerByHash hash), n)
  | .commit height => (some (n.commit height), { n with commitRequests := n.commitRequests ++ [height] })
  | .validatorSet height => (some (n.validatorSet height), n)
  | .blockResults height => (if n.stalled then none else some (.ok ((n.results.lookup height).getD [])), n)

end ConsensusNode

end HeaderRelay.Sim
