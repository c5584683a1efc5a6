import HeaderRelay.Hash.Basic

/-!
# Consensus-chain blocks

Headers with the validator sets that sign them and follow them, the votes of a commit, and the light
block that a light-client contract takes: a signed header with the validator set of its height.
-/
namespace HeaderRelay.Consensus

/-- A block header, as far as the relayer reads it. Mirrors `ConsensusHeader`. -/
structure Header where
  height : Nat
  hash : Hash
  /-- The validator set that signs this block. -/
  validatorsHash : Hash
  /-- The validator set of the next block. -/
  nextValidatorsHash : Hash
  /-- The root of the transaction results of the block before. -/
  lastResultsHash : Hash
  deriving DecidableEq, Inhabited

/-- One vote of a commit; an absent vote has an empty signature. Mirrors `CommitSig`. -/
structure Vote where
  validatorAddress : Bytes
  signature : Bytes
  timestampNanos : Int
  deriving DecidableEq, Inhabited

/-- The votes for a header. -/
structure Commit where
  height : Nat
  round : Nat
  blockHash : Hash
  signatures : List Vote
  deriving DecidableEq, Inhabited

structure Validator where
  address : Bytes
  pubKey : Bytes
  votingPower : Nat
  deriving DecidableEq, Inhabited

structure ValidatorSet where
  validators : List Validator
  deriving DecidableEq, Inhabited

/-- The voting power of all validators together. Mirrors `total_power`. -/
def ValidatorSet.totalPower (s : ValidatorSet) : Nat := total (s.validators.map (·.votingPower))

structure SignedHeader where
  header : Header
  commit : Commit
  deriving DecidableEq, Inhabited

/-- What the light-client contract takes: a signed header and its validator set. -/
structure LightBlock where
  signedHeader : SignedHeader
  validatorSet : ValidatorSet
  deriving DecidableEq, Inhabited

namespace LightBlock

def header (b : LightBlock) : Header := b.signedHeader.header

def height (b : LightBlock) : Nat := b.header.height

def hash (b : LightBlock) : Hash := b.header.hash

end LightBlock

/-- One link of a chain of hashes that the light client attests. Mirrors `HashChainEntry`. -/
structure ChainEntry where
  height : Nat
  hash : Hash
  deriving DecidableEq, Inhabited

/-- The link that stands for a header. -/
def Header.entry (h : Header) : ChainEntry := ⟨h.height, h.hash⟩

end HeaderRelay.Consensus
