import HeaderRelay.Bitcoin.Merkle
import HeaderRelay.Text.Hex

/-!
# Display order

People and contracts read Bitcoin hashes with their bytes reversed. A proof travels to the contract
with every hash in that form.
-/
namespace HeaderRelay

/-- The hash in display order, lowercase. Mirrors `to_display_hex`. -/
def Hash.display (h : Hash) : String := h.reverse.hex

/-- Reads a hash in display order. Mirrors `from_display_hex`. -/
def Hash.ofDisplay (text : String) : Relayed Hash :=
  match Hex.decodeHash text with
  | .ok h => .ok h.reverse
  | .error e => .error (.serialization e.message)

namespace Bitcoin

/-- A proof as the contract reads it. Mirrors `BtcMerkleProofWire`. -/
structure MerkleProof.Wire where
  leaf : String
  siblings : List String
  sides : List Bool
  deriving DecidableEq, Repr

namespace MerkleProof

/-- The contract's form of a proof. Mirrors `to_wire`. -/
def toWire (p : MerkleProof) : Wire := ⟨p.leaf.display, p.siblings.map Hash.display, p.sides⟩

/-- Reads the contract's form, the leaf first. Mirrors `from_wire`. -/
def ofWire (w : Wire) : Relayed MerkleProof := do
  let leaf ← Hash.ofDisplay w.leaf
  let siblings ← w.siblings.mapM Hash.ofDisplay
  return ⟨leaf, siblings, w.sides⟩

end MerkleProof

end Bitcoin

end HeaderRelay
