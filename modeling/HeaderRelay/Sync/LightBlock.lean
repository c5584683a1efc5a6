import HeaderRelay.Program

/-!
# Light blocks from the node

A light block joins a header with the commit that signs it and with its validator set, both read from
the node. A commit for another block is refused.
-/
namespace HeaderRelay.Sync

open Consensus (Header Commit ValidatorSet LightBlock)

variable {σ : Type}

/-- The light block of a header. Mirrors `build_light_block`. -/
def lightBlockOf (header : Header) : Cycle σ LightBlock := do
  let commit : Commit ← Cycle.read "consensus.commit" (.consensusNode (.commit header.height))
  let validators : ValidatorSet ←
    Cycle.read "consensus.validator_set" (.consensusNode (.validatorSet header.height))
  if commit.blockHash ≠ header.hash then
    throw (.inconsistent s!"commit at height {header.height} signs a different block")
  return ⟨⟨header, commit⟩, validators⟩

def readHeader (height : Nat) : Cycle σ Header :=
  Cycle.read "consensus.header" (.consensusNode (.header height))

end HeaderRelay.Sync
