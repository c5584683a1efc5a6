import HeaderRelay.Consensus.Merkle
import HeaderRelay.Text.Base64

/-!
# Proofs in base64

A consensus-chain proof travels to the contract with its hashes in base64.
-/
namespace HeaderRelay.Consensus

/-- A proof as the contract reads it. Mirrors `TmMerkleProofWire`. -/
structure MerkleProof.Wire where
  total : Nat
  index : Nat
  leafHash : String
  aunts : List String
  deriving DecidableEq, Repr

def hashText (h : Hash) : String := Base64.encode h.bytes

/-- Reads the text of a hash. The words for a text that is not base64 stand for those of the decoder, which is a
library's; the other ones are the program's. -/
def hashOfText (text : String) : Relayed Hash :=
  match Base64.decode? text with
  | none => .error (.serialization "not base64")
  | some b =>
    match Hash.ofBytes? b with
    | some h => .ok h
    | none => .error (.serialization s!"expected 32 bytes, got {b.length}")

namespace MerkleProof

/-- The contract's form of a proof. Mirrors `to_wire`. -/
def toWire (p : MerkleProof) : Wire := ⟨p.total, p.index, hashText p.leafHash, p.aunts.map hashText⟩

/-- Reads the contract's form, the leaf's hash first. Mirrors `from_wire`. -/
def ofWire (w : Wire) : Relayed MerkleProof := do
  let leaf ← hashOfText w.leafHash
  let aunts ← w.aunts.mapM hashOfText
  return ⟨w.total, w.index, leaf, aunts⟩

end MerkleProof

end HeaderRelay.Consensus
