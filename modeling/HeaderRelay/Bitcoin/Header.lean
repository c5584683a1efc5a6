import HeaderRelay.Error
import HeaderRelay.Hash.Sha256

/-!
# Bitcoin headers

A header is read from its 80-byte form. Only the links are taken out of it: work and time are for the
light-client contract to judge.
-/
namespace HeaderRelay.Bitcoin

def headerLength : Nat := 80

/-- A block header: its hash, its parent's hash, the root of its transactions, and its byte form. Mirrors
`BtcHeader`. -/
structure Header where
  hash : Hash
  prevHash : Hash
  merkleRoot : Hash
  raw : Bytes
  deriving DecidableEq, Inhabited

namespace Header

/-- The header of an 80-byte form. -/
def ofBytes (raw : Bytes) (h : raw.length = headerLength) : Header where
  hash := sha256d raw
  prevHash := Hash.slice raw 4 (by simp [h, headerLength])
  merkleRoot := Hash.slice raw 36 (by simp [h, headerLength])
  raw := raw

/-- Reads a header from its byte form. Mirrors `from_raw`. -/
def ofRaw (raw : Bytes) : Relayed Header :=
  if h : raw.length = headerLength then .ok (ofBytes raw h)
  else .error (.serialization s!"bitcoin header must be {headerLength} bytes, got {raw.length}")

end Header

end HeaderRelay.Bitcoin
